import ProtocolProver.Proofs.NormalInstances

/-!
# Terms that keep their heads

A normal term is firm if an instance cannot change its head (`Instance.head?_value`): a sum or a
product may cancel down to anything, and a power or an inverse may lose its head if what it is applied
to does. A firm term is larger under every instance than its arguments (`Instance.size_value_lt`), so
no instance makes a variable equal to a term in which it stands below firm terms only.
-/

namespace ProtocolProver

theorem Algebras.eq_union_of_owner? {a : Algebras} {f : Symbol} (h : a.owner? f = some .multisets) :
    a.multisets = true ∧ f = .union := by
  rcases a.owner?_cases f with ⟨ho, -⟩ | ⟨ho, -⟩ | ⟨-, hm⟩ | ho
  · rw [ho] at h; cases h
  · rw [ho] at h; cases h
  · exact hm
  · rw [ho] at h; cases h

namespace Term

theorem sizeList_perm {as bs : List Term} (h : as.Perm bs) : sizeList as = sizeList bs := by
  rw [sizeList_eq_sum, sizeList_eq_sum, (h.map size).sum_eq]

theorem sizeList_pos {as : List Term} (h : as ≠ []) : 0 < sizeList as := by
  obtain ⟨a, as, rfl⟩ := List.exists_cons_of_ne_nil h
  have := a.size_pos
  rw [sizeList]
  omega

theorem size_le_elements (t : Term) : t.size ≤ 1 + sizeList (Multiset.elements t) := by
  by_cases ht : t.head? = some .union
  · cases t with
    | var | name => cases ht
    | app f as =>
      cases ht
      rw [size, Multiset.elements, if_pos rfl]
  · rw [Multiset.elements_eq ht, sizeList, sizeList]
    omega

end Term

namespace Theory

/-- Flat terms without destructors over the variables `V`. -/
def plainOver (T : Theory) (V : Var → Prop) : Shape :=
  ⟨V, fun _ => True, fun f n => T.flatShape.app f n ∧ T.isDestructor f = false⟩

mutual

/-- Whether the head of a normal term stays, whatever the variables stand for. -/
def firm (T : Theory) : Term → Bool
  | .var x => x.sort != .msg
  | .name _ => true
  | .app f as => !T.isAlgebraic f || f == .union || f != .mult && f != .xor && T.firmList as

def firmList (T : Theory) : List Term → Bool
  | [] => true
  | a :: as => T.firm a && T.firmList as

end

mutual

/-- Whether a variable stands in a term below firm terms only. -/
def traps (T : Theory) (x : Var) : Term → Bool
  | .var y => y == x
  | .name _ => false
  | .app f as => T.firm (.app f as) && T.trapsList x as

def trapsList (T : Theory) (x : Var) : List Term → Bool
  | [] => false
  | a :: as => T.traps x a || T.trapsList x as

end

variable {T : Theory} {V : Var → Prop} {t : Term} {f : Symbol} {as : List Term}

theorem firmList_eq (as : List Term) : T.firmList as = as.all T.firm := by
  induction as with
  | nil => rfl
  | cons a as ih => rw [firmList, ih, List.all_cons]

theorem trapsList_eq (x : Var) (as : List Term) : T.trapsList x as = as.any (T.traps x) := by
  induction as with
  | nil => rfl
  | cons a as ih => rw [trapsList, ih, List.any_cons]

section Decidable

variable (T V)

instance (f : Symbol) (n : Nat) : Decidable (T.flatShape.app f n) :=
  inferInstanceAs (Decidable (if T.isAssoc f then f = .union → 0 < n else n = T.signature.arity f))

instance [DecidablePred V] (x : Var) : Decidable ((T.plainOver V).var x) :=
  inferInstanceAs (Decidable (V x))

instance (n : Name) : Decidable ((T.plainOver V).name n) := isTrue trivial

instance (f : Symbol) (n : Nat) : Decidable ((T.plainOver V).app f n) :=
  inferInstanceAs (Decidable (T.flatShape.app f n ∧ T.isDestructor f = false))

end Decidable

theorem flat_of_plainOver (h : t.Has (T.plainOver V)) : T.Flat t :=
  h.mono (fun _ _ => trivial) (fun _ h => h) fun _ _ h => h.1

theorem plainOver_mono {W : Var → Prop} (h : t.Has (T.plainOver V)) (hV : ∀ x, V x → W x) :
    t.Has (T.plainOver W) :=
  h.mono hV (fun _ h => h) fun _ _ h => h

theorem equationsHave_mono {W : Var → Prop} {eqs : List Equation}
    (h : EquationsHave (T.plainOver V) eqs) (hV : ∀ x, V x → W x) :
    EquationsHave (T.plainOver W) eqs :=
  fun e he => ⟨plainOver_mono (h e he).1 hV, plainOver_mono (h e he).2 hV⟩

theorem Standard.keeps_plainOver (hT : T.Standard) (V : Var → Prop) : T.Keeps (T.plainOver V) :=
  hT.keeps_of_app fun _ _ hf hd => ⟨hf, hd⟩

theorem Normal.eq_one (he : T.algebras.exponents = true) (h : T.Normal t)
    (ht : t.head? = some .one) : t = .const .one := by
  cases t with
  | var | name => cases ht
  | app f as =>
    cases ht
    rw [(h.exponent_root he rfl).one rfl]
    rfl

/-- A firm application of a symbol of an algebra: not a sum or product, and the arguments of a power
or an inverse are firm. -/
theorem firm_app (h : T.firm (.app f as) = true) (ho : T.isAlgebraic f = true) (hu : f ≠ .union) :
    f ≠ .mult ∧ f ≠ .xor ∧ ∀ a ∈ as, T.firm a = true := by
  rw [firm, firmList_eq] at h
  simpa [ho, hu, and_assoc] using h

namespace Instance

variable {ρ : T.Instance} (hT : T.Standard)

/-- The elements of what a term stands for. -/
noncomputable def elements (ρ : T.Instance) (t : Term) : List Term := Multiset.elements (ρ.value t).1

theorem head?_term {x : Var} (hx : x.sort ≠ .msg) : (ρ.term x).1.head? = none := by
  have hs := ρ.sort x
  cases h : (ρ.term x).1 with
  | var y => rfl
  | name n => rfl
  | app f as =>
    rw [h] at hs
    exact absurd (TermSort.eq_msg_of_admits hs) hx

include hT

theorem coe_value_constructor (h : (Term.app f as).Has (T.plainOver V))
    (ho : T.algebras.owner? f = none) :
    (ρ.value (.app f as)).1 = .app f (as.map fun a => (ρ.value a).1) := by
  rw [coe_value_app hT (flat_of_plainOver h)]
  exact (isConstructor_of_isDestructor ho (Term.has_app.1 h).1.2).reduce _ _

section Unions

variable (hm : T.algebras.multisets = true)

include hm

omit hT in
theorem element_value (ρ : T.Instance) (t : Term) : Multiset.Element (ρ.value t).1 :=
  (ρ.value t).2.union hm

omit hT in
theorem elements_ne_nil (ρ : T.Instance) (t : Term) : ρ.elements t ≠ [] := (element_value hm ρ t).ne_nil

omit hT in
theorem flatMap_elements_ne_nil (ρ : T.Instance) (h : as ≠ []) : as.flatMap ρ.elements ≠ [] := by
  obtain ⟨a, as, rfl⟩ := List.exists_cons_of_ne_nil h
  rw [List.flatMap_cons]
  exact fun he => elements_ne_nil hm ρ a (List.append_eq_nil_iff.1 he).1

theorem coe_value_union (h : T.Flat (.app .union as)) :
    (ρ.value (.app .union as)).1 = flatForm .union (.app .union []) (as.flatMap ρ.elements) := by
  rw [coe_value_app hT h, reduce_multisets (Algebras.owner?_multisets hm), Multiset.reduce_union,
    List.flatMap_map]
  rfl

theorem coe_value_union_of_two_le (h : T.Flat (.app .union as)) (h2 : 2 ≤ as.length) :
    (ρ.value (.app .union as)).1 = .app .union (sortTerms (as.flatMap ρ.elements)) := by
  have hlen : 2 ≤ (as.flatMap ρ.elements).length := by
    rcases as with _ | ⟨a, _ | ⟨b, as⟩⟩
    · simp at h2
    · simp at h2
    · have ha := List.length_pos_iff.2 (elements_ne_nil hm ρ a)
      have hb := List.length_pos_iff.2 (elements_ne_nil hm ρ b)
      simp only [List.flatMap_cons, List.length_append]
      omega
  rw [coe_value_union hT hm h]
  refine flatForm.eq_3 _ _ _ ?_ ?_ <;> rintro he
  · simp [he] at hlen
  · rintro h
    simp [h] at hlen

end Unions

/-! ## Firm terms -/

/-- A firm application other than a union keeps its symbol, if the heads of its firm arguments stay. -/
theorem coe_value_of_heads (h : T.firm (.app f as) = true) (hn : T.Normal (.app f as))
    (hp : (Term.app f as).Has (T.plainOver V)) (hu : T.algebras.owner? f ≠ some .multisets)
    (hargs : ∀ a ∈ as, T.firm a = true → (ρ.value a).1.head? = a.head?) :
    (ρ.value (.app f as)).1 = .app f (as.map fun a => (ρ.value a).1) := by
  rcases T.algebras.owner?_cases f with ⟨ho, he, hown⟩ | ⟨ho, hx, hown⟩ | ⟨ho, -⟩ | ho
  · rw [coe_value_app hT (flat_of_plainOver hp), reduce_exponents ho]
    have halg : T.isAlgebraic f = true := by rw [isAlgebraic, ho]; rfl
    simp only [Exponent.owns, Bool.or_eq_true, beq_iff_eq] at hown
    rcases hown with ((rfl | rfl) | rfl) | rfl
    · obtain ⟨b, e, rfl, hb, hne⟩ := (hn.exponent_root he rfl).exp rfl
      obtain ⟨-, -, hfirm⟩ := firm_app h halg (by decide)
      have hb' := hargs b (by simp) (hfirm b (by simp))
      have he' := hargs e (by simp) (hfirm e (by simp))
      -- An exponent `one` would be there before.
      have hone : (ρ.value e).1 ≠ .const .one := fun h =>
        hne ((hn.args e (by simp)).eq_one he (by rw [← he', h]; rfl))
      change Exponent.power (ρ.value b).1 (ρ.value e).1 = _
      rw [Exponent.power_of_base (hb' ▸ hb), Exponent.raise, if_neg hone]
      rfl
    · exact absurd rfl (firm_app h halg (by decide)).1
    · obtain ⟨a, rfl, ha⟩ := (hn.exponent_root he rfl).inv rfl
      obtain ⟨-, -, hfirm⟩ := firm_app h halg (by decide)
      have ha' := hargs a (by simp) (hfirm a (by simp))
      have hplain : Exponent.Plain (ρ.value a).1 := ⟨ha' ▸ ha.mult, ha' ▸ ha.one, ha' ▸ ha.inv⟩
      exact hplain.inverse_eq
    · rw [(hn.exponent_root he rfl).one rfl]
      rfl
  · rw [coe_value_app hT (flat_of_plainOver hp), reduce_xor ho]
    have halg : T.isAlgebraic f = true := by rw [isAlgebraic, ho]; rfl
    simp only [ExclusiveOr.owns, Bool.or_eq_true, beq_iff_eq] at hown
    rcases hown with rfl | rfl
    · exact absurd rfl (firm_app h halg (by decide)).2.1
    · rw [(hn.xor_root hx rfl).zero rfl]
      rfl
  · exact absurd ho hu
  · exact coe_value_constructor hT hp ho

/-- The head of a firm term stays. -/
theorem head?_value (h : T.firm t = true) (hn : T.Normal t) (hp : t.Has (T.plainOver V)) :
    (ρ.value t).1.head? = t.head? := by
  induction t using Term.induction_args with
  | var x => exact head?_term (by simpa [firm] using h)
  | name n => rfl
  | app f as ih =>
    by_cases hu : T.algebras.owner? f = some .multisets
    · obtain ⟨hm, rfl⟩ := Algebras.eq_union_of_owner? hu
      rw [coe_value_union_of_two_le hT hm (flat_of_plainOver hp) (hn.union_root hm).two_le]
      rfl
    · rw [coe_value_of_heads hT h hn hp hu fun a ha hf =>
        ih a ha hf (hn.args a ha) ((Term.has_app.1 hp).2 a ha)]
      rfl

theorem coe_value_firm (h : T.firm (.app f as) = true) (hn : T.Normal (.app f as))
    (hp : (Term.app f as).Has (T.plainOver V)) (hu : T.algebras.owner? f ≠ some .multisets) :
    (ρ.value (.app f as)).1 = .app f (as.map fun a => (ρ.value a).1) :=
  coe_value_of_heads hT h hn hp hu fun a ha hf =>
    head?_value hT hf (hn.args a ha) ((Term.has_app.1 hp).2 a ha)

/-! ## Sizes -/

theorem size_value_lt_union (hm : T.algebras.multisets = true) (h : T.Flat (.app .union as))
    (h2 : 2 ≤ as.length) {a : Term} (ha : a ∈ as) :
    (ρ.value a).1.size < (ρ.value (.app .union as)).1.size := by
  have hperm := (List.perm_cons_erase ha).flatMap_right ρ.elements
  have hrest : as.erase a ≠ [] := by
    rw [← List.length_pos_iff, List.length_erase_of_mem ha]
    omega
  have hpos := Term.sizeList_pos (flatMap_elements_ne_nil hm ρ hrest)
  have hle := (ρ.value a).1.size_le_elements
  rw [coe_value_union_of_two_le hT hm h h2, Term.size, Term.sizeList_perm (sortTerms_perm _),
    Term.sizeList_perm hperm, List.flatMap_cons, Term.sizeList_append]
  change _ ≤ 1 + Term.sizeList (ρ.elements a) at hle
  omega

/-- A firm term is larger than its arguments. -/
theorem size_value_lt (h : T.firm (.app f as) = true) (hn : T.Normal (.app f as))
    (hp : (Term.app f as).Has (T.plainOver V)) {a : Term} (ha : a ∈ as) :
    (ρ.value a).1.size < (ρ.value (.app f as)).1.size := by
  by_cases hu : T.algebras.owner? f = some .multisets
  · obtain ⟨hm, rfl⟩ := Algebras.eq_union_of_owner? hu
    exact size_value_lt_union hT hm (flat_of_plainOver hp) (hn.union_root hm).two_le ha
  · have hle := Term.size_le_sizeList (List.mem_map_of_mem (f := fun a => (ρ.value a).1) ha)
    rw [coe_value_firm hT h hn hp hu, Term.size]
    omega

theorem size_term_le {x : Var} (h : T.traps x t = true) (hn : T.Normal t)
    (hp : t.Has (T.plainOver V)) : (ρ.term x).1.size ≤ (ρ.value t).1.size := by
  induction t using Term.induction_args with
  | var y =>
    rw [traps, beq_iff_eq] at h
    rw [h]
    rfl
  | name n => cases h
  | app f as ih =>
    rw [traps, trapsList_eq, Bool.and_eq_true, List.any_eq_true] at h
    obtain ⟨hfirm, a, ha, hx⟩ := h
    exact (ih a ha hx (hn.args a ha) ((Term.has_app.1 hp).2 a ha)).trans
      (size_value_lt hT hfirm hn hp ha).le

/-- A variable that is trapped in an application is not equal to it. -/
theorem term_ne_value {x : Var} (h : T.traps x (.app f as) = true) (hn : T.Normal (.app f as))
    (hp : (Term.app f as).Has (T.plainOver V)) : ρ.term x ≠ ρ.value (.app f as) := by
  rw [traps, trapsList_eq, Bool.and_eq_true, List.any_eq_true] at h
  obtain ⟨hfirm, a, ha, hx⟩ := h
  have hle := size_term_le hT (ρ := ρ) hx (hn.args a ha) ((Term.has_app.1 hp).2 a ha)
  have hlt := size_value_lt hT (ρ := ρ) hfirm hn hp ha
  intro he
  rw [he] at hle
  omega

end Instance

end Theory

end ProtocolProver
