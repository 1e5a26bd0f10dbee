import ProtocolProver.Proofs.Exponents
import ProtocolProver.Proofs.StandardTheory
import ProtocolProver.Proofs.Sums

/-!
# Normal forms

Normal terms have no reduction left at any symbol (`Theory.Normal`). In a standard theory `normalize`
gives a normal term (`Standard.normal_normalize`) with the same value in every algebra that satisfies
the laws (`Standard.value_normalize`), and the normal terms are such an algebra themselves
(`Standard.normals_satisfies`). So normal forms decide equality, and they may be taken before or after
a substitution.
-/

namespace ProtocolProver

/-- A product, inverse or power to which no law can be applied. -/
structure Exponent.RootNormal (f : Symbol) (as : List Term) : Prop where
  mult : f = .mult → 2 ≤ as.length ∧ sortTerms as = as ∧ Exponent.Reduced as
  inv : f = .inv → ∃ a, as = [a] ∧ Exponent.Plain a
  exp : f = .exp → ∃ b e, as = [b, e] ∧ b.head? ≠ some .exp ∧ e ≠ .const .one
  one : f = .one → as = []

/-- A sum to which no law can be applied. -/
structure ExclusiveOr.RootNormal (f : Symbol) (as : List Term) : Prop where
  xor : f = .xor → 2 ≤ as.length ∧ sortTerms as = as ∧ ExclusiveOr.Reduced as
  zero : f = .zero → as = []

/-- A flat and sorted union. -/
structure Multiset.RootNormal (as : List Term) : Prop where
  two_le : 2 ≤ as.length
  sorted : sortTerms as = as
  flat : ∀ a ∈ as, a.head? ≠ some .union

namespace Theory

/-- Nothing can be reduced at a symbol that is applied to normal arguments. -/
def RootNormal (T : Theory) (f : Symbol) (as : List Term) : Prop :=
  match T.algebras.owner? f with
  | some .exponents => Exponent.RootNormal f as
  | some .xor => ExclusiveOr.RootNormal f as
  | some .multisets => Multiset.RootNormal as
  | none => as.length = T.signature.arity f ∧ contractRoot? T.rules (.app f as) = none

/-- Terms in which nothing can be reduced. -/
inductive Normal (T : Theory) : Term → Prop
  | var (v : Var) : Normal T (.var v)
  | name (n : Name) : Normal T (.name n)
  | app {f : Symbol} {as : List Term} (has : ∀ a ∈ as, Normal T a) (h : T.RootNormal f as) :
    Normal T (.app f as)

end Theory

/-! ## The algebra of a symbol -/

namespace Algebras

variable {a : Algebras} {f : Symbol}

theorem owner?_exponents (ha : a.exponents = true) (hf : Exponent.owns f = true) :
    a.owner? f = some .exponents := by
  simp [owner?, ha, hf]

theorem owner?_xor (ha : a.xor = true) (hf : ExclusiveOr.owns f = true) :
    a.owner? f = some .xor := by
  have hne : Exponent.owns f = false := by
    simp only [ExclusiveOr.owns, Bool.or_eq_true, beq_iff_eq] at hf
    rcases hf with rfl | rfl <;> rfl
  simp [owner?, ha, hf, hne]

theorem owner?_multisets (ha : a.multisets = true) : a.owner? .union = some .multisets := by
  simp [owner?, ha, Exponent.owns, ExclusiveOr.owns, Multiset.owns, Symbol.union, Symbol.exp,
    Symbol.mult, Symbol.inv, Symbol.one, Symbol.xor, Symbol.zero]

theorem owner?_cases (a : Algebras) (f : Symbol) :
    (a.owner? f = some .exponents ∧ a.exponents = true ∧ Exponent.owns f = true) ∨
    (a.owner? f = some .xor ∧ a.xor = true ∧ ExclusiveOr.owns f = true) ∨
    (a.owner? f = some .multisets ∧ a.multisets = true ∧ f = .union) ∨
    a.owner? f = none := by
  unfold owner?
  split_ifs with he hx hm
  · exact .inl ⟨rfl, by simpa using he⟩
  · exact .inr (.inl ⟨rfl, by simpa using hx⟩)
  · exact .inr (.inr (.inl ⟨rfl, by simpa [Multiset.owns] using hm⟩))
  · exact .inr (.inr (.inr rfl))

end Algebras

namespace Theory

variable {T : Theory} {f : Symbol} {as : List Term}

theorem reduce_exponents (h : T.algebras.owner? f = some .exponents) (n : Nat) :
    T.reduce n f as = Exponent.reduce f as := by
  cases n <;> rw [reduce, h]

theorem reduce_xor (h : T.algebras.owner? f = some .xor) (n : Nat) :
    T.reduce n f as = ExclusiveOr.reduce f as := by
  cases n <;> rw [reduce, h]

theorem reduce_multisets (h : T.algebras.owner? f = some .multisets) (n : Nat) :
    T.reduce n f as = Multiset.reduce f as := by
  cases n <;> rw [reduce, h]

theorem isAssoc_eq_true_iff : T.isAssoc f = true ↔
    (T.algebras.exponents = true ∧ f = .mult) ∨ (T.algebras.xor = true ∧ f = .xor) ∨
      T.algebras.multisets = true ∧ f = .union := by
  simp [isAssoc, or_assoc]

/-! ## Normal terms of the algebras -/

namespace Normal

variable {t : Term}

theorem root (h : T.Normal (.app f as)) : T.RootNormal f as := by
  cases h
  assumption

theorem args (h : T.Normal (.app f as)) : ∀ a ∈ as, T.Normal a := by
  cases h
  assumption

theorem of_part {u : Term} (h : T.Normal t) (hu : u ∈ Exponent.factors t ∨
    u ∈ ExclusiveOr.summands t ∨ u ∈ Multiset.elements t) : T.Normal u := by
  rcases mem_args_of_part hu with rfl | hu
  · exact h
  · cases t with
    | var | name => cases hu
    | app f as => exact h.args u hu

section Exponents

variable (hT : T.algebras.exponents = true)

include hT

theorem exponent_root (h : T.Normal (.app f as)) (hf : Exponent.owns f = true) :
    Exponent.RootNormal f as := by
  have hr := h.root
  rwa [RootNormal, Algebras.owner?_exponents hT hf] at hr

theorem of_exponent_root (hf : Exponent.owns f = true) (has : ∀ a ∈ as, T.Normal a)
    (h : Exponent.RootNormal f as) : T.Normal (.app f as) := by
  refine .app has ?_
  rwa [RootNormal, Algebras.owner?_exponents hT hf]

theorem factor_or (h : T.Normal t) : Exponent.Factor t ∨ t = .const .one ∨
    ∃ as, t = .app .mult as := by
  cases t with
  | var v => exact .inl (.inl ⟨by rintro ⟨⟩, by rintro ⟨⟩, by rintro ⟨⟩⟩)
  | name n => exact .inl (.inl ⟨by rintro ⟨⟩, by rintro ⟨⟩, by rintro ⟨⟩⟩)
  | app f as =>
    by_cases hm : f = .mult
    · exact .inr (.inr ⟨as, by rw [hm]⟩)
    by_cases ho : f = .one
    · subst ho
      rw [(h.exponent_root hT rfl).one rfl]
      exact .inr (.inl rfl)
    by_cases hi : f = .inv
    · subst hi
      obtain ⟨a, rfl, ha⟩ := (h.exponent_root hT rfl).inv rfl
      exact .inl (.inr ⟨a, ha, rfl⟩)
    · exact .inl (.inl ⟨by simpa [Term.head?] using hm, by simpa [Term.head?] using ho,
        by simpa [Term.head?] using hi⟩)

theorem exponent (h : T.Normal t) : Exponent.Element t := by
  rcases h.factor_or hT with hf | rfl | ⟨as, rfl⟩
  · exact .of_factor hf
  · exact .one
  · obtain ⟨h2, hs, hr⟩ := (h.exponent_root hT rfl).mult rfl
    refine ⟨as, hr, ?_⟩
    rcases as with _ | ⟨a, _ | ⟨b, as⟩⟩
    · simp at h2
    · simp at h2
    · rw [show Exponent.product (a :: b :: as) = .app .mult (sortTerms (a :: b :: as)) from rfl, hs]

theorem product {ts : List Term} (hr : Exponent.Reduced ts) (h : ∀ t ∈ ts, T.Normal t) :
    T.Normal (Exponent.product ts) := by
  rcases ts with _ | ⟨a, _ | ⟨b, ts⟩⟩
  · exact of_exponent_root hT rfl (List.forall_mem_nil _)
      ⟨by rintro ⟨⟩, by rintro ⟨⟩, by rintro ⟨⟩, fun _ => rfl⟩
  · exact h a (List.mem_cons_self ..)
  · refine of_exponent_root hT rfl (fun u hu => h u (mem_sortTerms.1 hu))
      ⟨fun _ => ⟨by simp, sortTerms_sortTerms _, hr.of_perm (sortTerms_perm _)⟩, by rintro ⟨⟩,
        by rintro ⟨⟩, by rintro ⟨⟩⟩

theorem inverse (h : T.Normal t) : T.Normal (Exponent.inverse t) := by
  rw [(h.exponent hT).inverse_eq]
  refine product hT (h.exponent hT).reduced.map_inverse fun u hu => ?_
  obtain ⟨w, hw, rfl⟩ := List.mem_map.1 hu
  have hn := h.of_part (.inl hw)
  rcases (h.exponent hT).reduced.factor w hw with hp | ⟨b, hb, rfl⟩
  · rw [hp.inverse_eq]
    refine of_exponent_root hT rfl (fun a ha => List.mem_singleton.1 ha ▸ hn)
      ⟨by rintro ⟨⟩, fun _ => ⟨w, rfl, hp⟩, by rintro ⟨⟩, by rintro ⟨⟩⟩
  · rw [Exponent.inverse_inv]
    exact hn.args b (List.mem_singleton.2 rfl)

theorem power (h : T.Normal t) : ∃ b e, b.head? ≠ some .exp ∧ T.Normal b ∧ T.Normal e ∧
    t = Exponent.raise b e := by
  have one : T.Normal (.const .one) := product hT .nil (List.forall_mem_nil _)
  have self : t.head? ≠ some .exp → ∃ b e, b.head? ≠ some .exp ∧ T.Normal b ∧ T.Normal e ∧
      t = Exponent.raise b e := fun ht => ⟨t, .const .one, ht, h, one, (if_pos rfl).symm⟩
  cases t with
  | var v => exact self (by rintro ⟨⟩)
  | name n => exact self (by rintro ⟨⟩)
  | app f as =>
    by_cases hf : f = .exp
    · subst hf
      obtain ⟨b, e, rfl, hb, he⟩ := (h.exponent_root hT rfl).exp rfl
      exact ⟨b, e, hb, h.args b (by simp), h.args e (by simp), (if_neg he).symm⟩
    · exact self (by simpa [Term.head?] using hf)

theorem raise {b e : Term} (hb : b.head? ≠ some .exp) (h : T.Normal b) (he : T.Normal e) :
    T.Normal (Exponent.raise b e) := by
  unfold Exponent.raise
  split
  · exact h
  · rename_i hne
    refine of_exponent_root hT rfl ?_
      ⟨by rintro ⟨⟩, by rintro ⟨⟩, fun _ => ⟨b, e, rfl, hb, hne⟩, by rintro ⟨⟩⟩
    simp [h, he]

theorem reduce_mult (has : ∀ a ∈ as, T.Normal a) : T.Normal (Exponent.reduce .mult as) := by
  rw [Exponent.reduce_mult]
  have hf := Exponent.factor_of_mem_flatMap fun a ha => (has a ha).exponent hT
  refine product hT (Exponent.reduced_cancel hf) fun t ht => ?_
  rcases mem_of_mem_cancelFrom ht with ht | ht
  · cases ht
  · obtain ⟨a, ha, hta⟩ := List.mem_flatMap.1 ht
    exact (has a ha).of_part (.inl hta)

theorem exponent_reduce (hf : Exponent.owns f = true) (hn : Exponent.Arity f as.length)
    (has : ∀ a ∈ as, T.Normal a) : T.Normal (Exponent.reduce f as) := by
  simp only [Exponent.owns, Bool.or_eq_true, beq_iff_eq] at hf
  rcases hf with ((rfl | rfl) | rfl) | rfl
  · obtain ⟨b, e, rfl⟩ := List.length_eq_two.1 (hn.exp rfl)
    have he := has e (by simp)
    obtain ⟨c, d, hc, hcn, hdn, rfl⟩ := (has b (by simp)).power hT
    change T.Normal (Exponent.power (Exponent.raise c d) e)
    rw [Exponent.power_raise hc (hdn.exponent hT) (he.exponent hT)]
    exact raise hT hc hcn (reduce_mult hT (by simp [hdn, he]))
  · exact reduce_mult hT has
  · obtain ⟨a, rfl⟩ := List.length_eq_one_iff.1 (hn.inv rfl)
    exact (has a (by simp)).inverse hT
  · rw [List.length_eq_zero_iff.1 (hn.one rfl)]
    exact product hT .nil (List.forall_mem_nil _)

end Exponents

section Sums

variable (hT : T.algebras.xor = true)

include hT

theorem xor_root (h : T.Normal (.app f as)) (hf : ExclusiveOr.owns f = true) :
    ExclusiveOr.RootNormal f as := by
  have hr := h.root
  rwa [RootNormal, Algebras.owner?_xor hT hf] at hr

theorem of_xor_root (hf : ExclusiveOr.owns f = true) (has : ∀ a ∈ as, T.Normal a)
    (h : ExclusiveOr.RootNormal f as) : T.Normal (.app f as) := by
  refine .app has ?_
  rwa [RootNormal, Algebras.owner?_xor hT hf]

theorem summand_or (h : T.Normal t) : ExclusiveOr.Summand t ∨ t = .const .zero ∨
    ∃ as, t = .app .xor as := by
  cases t with
  | var v => exact .inl ⟨by rintro ⟨⟩, by rintro ⟨⟩⟩
  | name n => exact .inl ⟨by rintro ⟨⟩, by rintro ⟨⟩⟩
  | app f as =>
    by_cases hx : f = .xor
    · exact .inr (.inr ⟨as, by rw [hx]⟩)
    by_cases hz : f = .zero
    · subst hz
      rw [(h.xor_root hT rfl).zero rfl]
      exact .inr (.inl rfl)
    · exact .inl ⟨by simpa [Term.head?] using hx, by simpa [Term.head?] using hz⟩

theorem sum (h : T.Normal t) : ExclusiveOr.Element t := by
  rcases h.summand_or hT with hf | rfl | ⟨as, rfl⟩
  · exact .of_summand hf
  · exact .zero
  · obtain ⟨h2, hs, hr⟩ := (h.xor_root hT rfl).xor rfl
    refine ⟨as, hr, ?_⟩
    rcases as with _ | ⟨a, _ | ⟨b, as⟩⟩
    · simp at h2
    · simp at h2
    · rw [flatForm.eq_3 _ _ _ (by simp) (by simp), hs]

theorem flatForm_xor {ts : List Term} (hr : ExclusiveOr.Reduced ts) (h : ∀ t ∈ ts, T.Normal t) :
    T.Normal (flatForm .xor (.const .zero) ts) := by
  rcases ts with _ | ⟨a, _ | ⟨b, ts⟩⟩
  · exact of_xor_root hT rfl (List.forall_mem_nil _) ⟨by rintro ⟨⟩, fun _ => rfl⟩
  · exact h a (List.mem_cons_self ..)
  · refine of_xor_root hT rfl (fun u hu => h u (mem_sortTerms.1 hu))
      ⟨fun _ => ⟨by simp, sortTerms_sortTerms _, hr.of_perm (sortTerms_perm _)⟩, by rintro ⟨⟩⟩

theorem xor_reduce (hf : ExclusiveOr.owns f = true) (hn : f = .zero → as.length = 0)
    (has : ∀ a ∈ as, T.Normal a) : T.Normal (ExclusiveOr.reduce f as) := by
  simp only [ExclusiveOr.owns, Bool.or_eq_true, beq_iff_eq] at hf
  rcases hf with rfl | rfl
  · rw [ExclusiveOr.reduce_xor, ExclusiveOr.sum_eq]
    have hs := ExclusiveOr.summand_of_mem_flatMap fun a ha => (has a ha).sum hT
    refine flatForm_xor hT (ExclusiveOr.reduced_cancel hs) fun t ht => ?_
    rcases mem_of_mem_cancelFrom ht with ht | ht
    · cases ht
    · obtain ⟨a, ha, hta⟩ := List.mem_flatMap.1 ht
      exact (has a ha).of_part (.inr (.inl hta))
  · rw [List.length_eq_zero_iff.1 (hn rfl)]
    exact flatForm_xor hT ⟨by simp, List.nodup_nil⟩ (List.forall_mem_nil _)

end Sums

section Unions

variable (hT : T.algebras.multisets = true)

include hT

theorem union_root (h : T.Normal (.app .union as)) : Multiset.RootNormal as := by
  have hr := h.root
  rwa [RootNormal, Algebras.owner?_multisets hT] at hr

theorem union (h : T.Normal t) : Multiset.Element t := by
  by_cases ht : t.head? = some .union
  · cases t with
    | var v => cases ht
    | name n => cases ht
    | app f as =>
      cases ht
      obtain ⟨h2, hs, hf⟩ := h.union_root hT
      rcases as with _ | ⟨a, _ | ⟨b, as⟩⟩
      · simp at h2
      · simp at h2
      · refine ⟨_, List.cons_ne_nil a (b :: as), hf, ?_⟩
        rw [flatForm.eq_3 _ _ _ (by simp) (by simp), hs]
  · exact .of_ne ht

theorem flatForm_union {ts : List Term} (hne : ts ≠ []) (hu : ∀ t ∈ ts, t.head? ≠ some .union)
    (h : ∀ t ∈ ts, T.Normal t) : T.Normal (flatForm .union (.app .union []) ts) := by
  rcases ts with _ | ⟨a, _ | ⟨b, ts⟩⟩
  · exact absurd rfl hne
  · exact h a (List.mem_cons_self ..)
  · refine .app (fun u hu => h u (mem_sortTerms.1 hu)) ?_
    rw [RootNormal, Algebras.owner?_multisets hT]
    exact ⟨by simp, sortTerms_sortTerms _, fun u h => hu u (mem_sortTerms.1 h)⟩

theorem union_reduce (hne : as ≠ []) (has : ∀ a ∈ as, T.Normal a) :
    T.Normal (Multiset.reduce .union as) := by
  have he : ∀ a ∈ as, Multiset.Element a := fun a ha => (has a ha).union hT
  rw [Multiset.reduce_union]
  refine flatForm_union hT (Multiset.flatMap_ne_nil hne he)
    (Multiset.ne_union_of_mem_flatMap he) fun t ht => ?_
  obtain ⟨a, ha, hta⟩ := List.mem_flatMap.1 ht
  exact (has a ha).of_part (.inr (.inr hta))

end Unions

theorem of_mapVars {p : Term} {θ : Var → Term} (h : T.Normal (p.mapVars θ)) :
    ∀ v ∈ p.occurrences, T.Normal (θ v) := by
  induction p using Term.induction_args with
  | var w =>
    intro v hv
    rw [Term.occurrences, List.mem_singleton] at hv
    exact hv ▸ h
  | name n => intro v hv; simp [Term.occurrences] at hv
  | app f ps ih =>
    intro v hv
    obtain ⟨p, hp, hv⟩ := Term.mem_occurrences_app.1 hv
    rw [Term.mapVars_app] at h
    exact ih p hp (h.args _ (List.mem_map_of_mem hp)) v hv

end Normal

/-! ## Reduction of normal arguments -/

namespace Standard

variable (hT : T.Standard)

include hT

theorem arity_builtin {f : Symbol} (hf : f.index < Signature.builtin.size) :
    T.signature.arity f = Signature.builtin.arity f := by
  rw [Signature.arity, hT.builtin f hf, Signature.arity]

theorem arity_assoc (hf : T.isAssoc f = true) : T.signature.arity f = 2 := by
  rcases isAssoc_eq_true_iff.1 hf with ⟨-, rfl⟩ | ⟨-, rfl⟩ | ⟨-, rfl⟩ <;>
    exact hT.arity_builtin (by decide)

theorem exponent_arity (hf : T.flatShape.app f as.length) : Exponent.Arity f as.length := by
  have key : ∀ {g : Symbol}, g ≠ .mult → g ≠ .xor → g ≠ .union → g.index < Signature.builtin.size →
      f = g → as.length = Signature.builtin.arity g := by
    intro g hm hx hu hg he
    rw [← hT.arity_builtin hg, ← he]
    have hn : T.isAssoc f = false := by rw [he]; exact isAssoc_eq_false hm hx hu
    simpa [flatShape, hn] using hf
  exact ⟨key (by decide) (by decide) (by decide) (by decide),
    key (by decide) (by decide) (by decide) (by decide),
    key (by decide) (by decide) (by decide) (by decide)⟩

theorem zero_arity (hf : T.flatShape.app f as.length) (h : f = .zero) : as.length = 0 := by
  have hn : T.isAssoc f = false := by
    rw [h]
    exact isAssoc_eq_false (by decide) (by decide) (by decide)
  have hl : as.length = T.signature.arity f := by simpa [flatShape, hn] using hf
  rw [hl, h, hT.arity_builtin (by decide)]
  rfl

omit hT in
theorem union_ne_nil (hm : T.algebras.multisets = true)
    (hf : T.flatShape.app .union as.length) : as ≠ [] := by
  have ha : T.isAssoc .union = true := isAssoc_eq_true_iff.2 (.inr (.inr ⟨hm, rfl⟩))
  have hl : 0 < as.length := by simpa [flatShape, ha] using hf
  exact List.length_pos_iff.1 hl

omit hT in
theorem isAssoc_of_free (ho : T.algebras.owner? f = none) : T.isAssoc f = false := by
  rw [Bool.eq_false_iff]
  intro ha
  rcases isAssoc_eq_true_iff.1 ha with ⟨he, rfl⟩ | ⟨hx, rfl⟩ | ⟨hm, rfl⟩
  · rw [Algebras.owner?_exponents he rfl] at ho; cases ho
  · rw [Algebras.owner?_xor hx rfl] at ho; cases ho
  · rw [Algebras.owner?_multisets hm] at ho; cases ho

omit hT in
theorem free_arity (ho : T.algebras.owner? f = none) (hf : T.flatShape.app f as.length) :
    as.length = T.signature.arity f := by
  simpa [flatShape, isAssoc_of_free ho] using hf

theorem normal_reduce (hf : T.flatShape.app f as.length) (has : ∀ a ∈ as, T.Normal a) (n : Nat) :
    T.Normal (T.reduce (n + 1) f as) := by
  rcases T.algebras.owner?_cases f with ⟨ho, he, hown⟩ | ⟨ho, hx, hown⟩ | ⟨ho, hm, rfl⟩ | ho
  · rw [reduce_exponents ho]
    exact Normal.exponent_reduce he hown (hT.exponent_arity hf) has
  · rw [reduce_xor ho]
    exact Normal.xor_reduce hx hown (hT.zero_arity hf) has
  · rw [reduce_multisets ho]
    exact Normal.union_reduce hm (union_ne_nil hm hf) has
  · rcases hT.reduce_cases ho as n with ⟨r, hr, θ, hm, he⟩ | ⟨hc, he⟩ <;> rw [he]
    · rcases (hT.rule r hr).rhs with ⟨v, hv, h⟩ | ⟨c, h, hc, ha⟩ <;> rw [h]
      · obtain ⟨g, ps, hl, -⟩ := (hT.rule r hr).lhs
        rw [hl] at hm hv
        rw [Term.mapVars_app, Term.app.injEq] at hm
        obtain ⟨p, hp, hv⟩ := Term.mem_occurrences_app.1 hv
        exact (has _ (hm.2 ▸ List.mem_map_of_mem hp)).of_mapVars v hv
      · rw [Term.const, Term.mapVars_app]
        refine .app (List.forall_mem_nil _) ?_
        rw [RootNormal, hc.free]
        exact ⟨ha.symm, hc.contractRoot? []⟩
    · refine .app has ?_
      rw [RootNormal, ho]
      exact ⟨free_arity ho hf, hc⟩

end Standard

end Theory

end ProtocolProver
