import ProtocolProver.Proofs.NormalForms

/-!
# Normal forms decide equality

In a standard theory `normalize` gives a normal term (`Standard.normal_normalize`) with the same value
in every algebra that satisfies the laws (`Standard.value_normalize`). The classes of equal terms are
one such algebra, so a term is equal to what its normal form stands for; the normal terms are another
(`Standard.normals_satisfies`), so equal terms have one normal form. A normal form may be taken before
a substitution as well as after it (`Standard.normalize_mapVars`).
-/

namespace ProtocolProver.Theory

variable {T : Theory} {f : Symbol} {as : List Term}

namespace Standard

variable (hT : T.Standard)

include hT

/-! ## The laws are well-formed -/

theorem wellFormed_rule {r : Reduction} (hr : r ∈ T.rules) :
    T.WellFormed r.lhs ∧ T.WellFormed r.rhs := by
  obtain ⟨g, ps, hl, -, hn, hps⟩ := (hT.rule r hr).lhs
  have hpattern : ∀ p ∈ ps, T.WellFormed p := fun p hp =>
    (hps p hp).mono (fun _ _ => trivial) (fun _ _ => trivial) fun _ _ h => h.2
  refine ⟨by rw [hl]; exact .app hn hpattern, ?_⟩
  rcases (hT.rule r hr).rhs with ⟨v, -, h⟩ | ⟨c, h, -, ha⟩ <;> rw [h]
  · exact .var trivial
  · exact .app ha.symm (List.forall_mem_nil _)

theorem wellFormed_laws : ∀ e ∈ T.laws, T.WellFormed e.1 ∧ T.WellFormed e.2 := by
  have arity : ∀ f : Symbol, f.index < Signature.builtin.size →
      ∀ n, Signature.builtin.arity f = n → T.shape.app f n := by
    rintro f hf n rfl
    exact (hT.arity_builtin hf).symm
  have hmult := arity .mult (by decide) 2 rfl
  have hexp := arity .exp (by decide) 2 rfl
  have hinv := arity .inv (by decide) 1 rfl
  have hone := arity .one (by decide) 0 rfl
  have hxor := arity .xor (by decide) 2 rfl
  have hzero := arity .zero (by decide) 0 rfl
  have hunion := arity .union (by decide) 2 rfl
  have hvar : ∀ v, T.shape.var v := fun _ => trivial
  intro e he
  simp only [laws, List.mem_append, List.mem_map] at he
  rcases he with ((⟨r, hr, rfl⟩ | he) | he) | he
  · exact hT.wellFormed_rule hr
  · have key : ∀ e ∈ Exponent.laws, T.WellFormed e.1 ∧ T.WellFormed e.2 := by
      simp [Exponent.laws, WellFormed, Term.const, hmult, hexp, hinv, hone, hvar]
    split at he
    · exact key e he
    · cases he
  · have key : ∀ e ∈ ExclusiveOr.laws, T.WellFormed e.1 ∧ T.WellFormed e.2 := by
      simp [ExclusiveOr.laws, WellFormed, Term.const, hxor, hzero, hvar]
    split at he
    · exact key e he
    · cases he
  · have key : ∀ e ∈ Multiset.laws, T.WellFormed e.1 ∧ T.WellFormed e.2 := by
      simp [Multiset.laws, WellFormed, hunion, hvar]
    split at he
    · exact key e he
    · cases he

/-! ## Normalization -/

theorem flatShape_of_rootNormal (h : T.RootNormal f as) : T.flatShape.app f as.length := by
  change if _ then _ else _
  have fixed : ∀ g : Symbol, g.index < Signature.builtin.size → T.isAssoc g = false →
      ∀ {n}, n = Signature.builtin.arity g →
        if T.isAssoc g = true then g = .union → 0 < n else n = T.signature.arity g := by
    intro g hg ha n hn
    rw [ha, if_neg Bool.false_ne_true, hn, hT.arity_builtin hg]
  rcases T.algebras.owner?_cases f with ⟨ho, he, hown⟩ | ⟨ho, hx, hown⟩ | ⟨ho, hm, rfl⟩ | ho <;>
    rw [RootNormal, ho] at h
  · simp only [Exponent.owns, Bool.or_eq_true, beq_iff_eq] at hown
    rcases hown with ((rfl | rfl) | rfl) | rfl
    · obtain ⟨b, e, rfl, -⟩ := h.exp rfl
      exact fixed .exp (by decide) isAssoc_exp rfl
    · rw [if_pos (isAssoc_eq_true_iff.2 (.inl ⟨he, rfl⟩))]
      rintro ⟨⟩
    · obtain ⟨a, rfl, -⟩ := h.inv rfl
      exact fixed .inv (by decide) isAssoc_inv rfl
    · rw [h.one rfl]
      exact fixed .one (by decide) isAssoc_one rfl
  · simp only [ExclusiveOr.owns, Bool.or_eq_true, beq_iff_eq] at hown
    rcases hown with rfl | rfl
    · rw [if_pos (isAssoc_eq_true_iff.2 (.inr (.inl ⟨hx, rfl⟩)))]
      rintro ⟨⟩
    · rw [h.zero rfl]
      exact fixed .zero (by decide) isAssoc_zero rfl
  · rw [if_pos (isAssoc_eq_true_iff.2 (.inr (.inr ⟨hm, rfl⟩)))]
    exact fun _ => lt_of_lt_of_le Nat.zero_lt_two h.two_le
  · rw [isAssoc_of_free ho, if_neg Bool.false_ne_true]
    exact h.1

theorem flat_of_normal {t : Term} (h : T.Normal t) : T.Flat t := by
  induction h with
  | var => exact .var trivial
  | name => exact .name trivial
  | app _ h ih => exact .app (hT.flatShape_of_rootNormal h) ih

theorem normal_eval {t : Term} (ht : T.Flat t) {ρ : Var → Term} (hρ : ∀ v, T.Normal (ρ v)) :
    T.Normal (t.eval ρ (T.reduce reductionLimit)) := by
  induction ht with
  | var => exact hρ _
  | name => exact .name _
  | app hf _ ih =>
    rw [Term.eval_app]
    refine hT.normal_reduce (by rwa [List.length_map]) (fun b hb => ?_) _
    obtain ⟨a, ha, rfl⟩ := List.mem_map.1 hb
    exact ih a ha

theorem normal_normalize {t : Term} (ht : T.Flat t) : T.Normal (T.normalize t) :=
  hT.normal_eval ht .var

/-! ## Values of normal forms -/

section Values

variable {A : Type} {M : TermAlgebra A} (hM : M.Satisfies T) (ρ : Var → A)

include hM

theorem value_reduce (hf : T.flatShape.app f as.length) (has : ∀ a ∈ as, T.Normal a) (n : Nat) :
    (M.flatten T).value ρ (T.reduce (n + 1) f as) =
      (M.flatten T).op f (as.map ((M.flatten T).value ρ)) := by
  rcases T.algebras.owner?_cases f with ⟨ho, he, hown⟩ | ⟨ho, hx, hown⟩ | ⟨ho, hm, rfl⟩ | ho
  · rw [reduce_exponents ho]
    refine Exponent.value_reduce he hM ρ hown (hT.exponent_arity hf)
      (fun a ha => (has a ha).exponent he) fun a ha => ?_
    obtain ⟨b, e, hb, -, hen, heq⟩ := (has a ha).power he
    exact ⟨b, e, hb, hen.exponent he, heq⟩
  · rw [reduce_xor ho]
    exact ExclusiveOr.value_reduce hx hM ρ hown (hT.zero_arity hf) fun a ha => (has a ha).sum hx
  · rw [reduce_multisets ho]
    exact Multiset.value_reduce hm hM ρ (union_ne_nil hm hf) fun a ha => (has a ha).union hm
  · rw [← TermAlgebra.value_app]
    rcases hT.reduce_cases ho as n with ⟨r, hr, θ, hm, he⟩ | ⟨-, he⟩
    · obtain ⟨hl, hr'⟩ := hT.wellFormed_rule hr
      have hlaw : (r.lhs, r.rhs) ∈ T.laws := by
        simp only [laws, List.mem_append]
        exact .inl (.inl (.inl (List.mem_map_of_mem hr)))
      have flat := fun {t : Term} => @value_flatten_of_wellFormed T A M (fun _ => hT.arity_assoc)
        (fun v => (M.flatten T).value ρ (θ v)) t
      rw [he, ← hm, TermAlgebra.value_mapVars, TermAlgebra.value_mapVars, flat hr', flat hl]
      exact (hM _ hlaw _).symm
    · rw [he]

theorem value_normalize {t : Term} (ht : T.Flat t) :
    (M.flatten T).value ρ (T.normalize t) = (M.flatten T).value ρ t := by
  induction ht with
  | var => rfl
  | name => rfl
  | @app f as hf has ih =>
    have hnormal : ∀ b ∈ as.map T.normalize, T.Normal b := by
      intro b hb
      obtain ⟨a, ha, rfl⟩ := List.mem_map.1 hb
      exact hT.normal_normalize (has a ha)
    rw [normalize, Term.eval_app]
    refine (hT.value_reduce hM ρ (by rwa [List.length_map]) hnormal _).trans ?_
    rw [TermAlgebra.value_app, List.map_map]
    exact congrArg _ (List.map_congr_left ih)

end Values

end Standard

/-! ## The algebra of normal terms -/

open scoped Classical in
/-- Symbols act on normal terms by reduction. -/
noncomputable def normals (T : Theory) : TermAlgebra { t // T.Normal t } where
  name n := ⟨.name n, .name n⟩
  op f xs :=
    if h : T.Normal (T.reduce reductionLimit f (xs.map (·.1))) then ⟨_, h⟩
    else ⟨.name (.pub ""), .name _⟩

namespace Standard

variable (hT : T.Standard)

include hT

theorem coe_normals_op {xs : List { t // T.Normal t }} (hf : T.flatShape.app f xs.length) :
    (T.normals.op f xs).1 = T.reduce reductionLimit f (xs.map (·.1)) := by
  have hn : T.Normal (T.reduce reductionLimit f (xs.map (·.1))) := by
    refine hT.normal_reduce (by rwa [List.length_map]) (fun a ha => ?_) _
    obtain ⟨x, -, rfl⟩ := List.mem_map.1 ha
    exact x.2
  exact congrArg Subtype.val (dif_pos hn)

theorem coe_normals_value (ρ : Var → { t // T.Normal t }) {t : Term} (ht : T.Flat t) :
    (T.normals.value ρ t).1 = t.eval (fun v => (ρ v).1) (T.reduce reductionLimit) := by
  induction ht with
  | var => rfl
  | name => rfl
  | app hf _ ih =>
    rw [TermAlgebra.value_app, hT.coe_normals_op (by rwa [List.length_map]), Term.eval_app,
      List.map_map]
    exact congrArg _ (List.map_congr_left ih)

omit hT in
theorem eval_exponent_law (ha : T.algebras.exponents = true) {e : Equation} (he : e ∈ Exponent.laws)
    {ρ : Var → Term} (hρ : ∀ v, T.Normal (ρ v)) :
    e.1.eval ρ (T.reduce reductionLimit) = e.2.eval ρ (T.reduce reductionLimit) := by
  have reduce : ∀ {f : Symbol} (as : List Term), Exponent.owns f = true →
      T.reduce reductionLimit f as = Exponent.reduce f as := fun as hf =>
    reduce_exponents (Algebras.owner?_exponents ha hf) _
  have hm : ∀ s t, T.reduce reductionLimit .mult [s, t] = Exponent.mul s t :=
    fun s t => reduce _ rfl
  have hi : ∀ t, T.reduce reductionLimit .inv [t] = Exponent.inverse t := fun t => reduce _ rfl
  have ho : T.reduce reductionLimit .one [] = .app .one [] := reduce _ rfl
  have hp : ∀ b e, T.reduce reductionLimit .exp [b, e] = Exponent.power b e :=
    fun b e => reduce _ rfl
  have hel : ∀ v, Exponent.Element (ρ v) := fun v => (hρ v).exponent ha
  have hpow : ∀ v, Exponent.Power (ρ v) := fun v => by
    obtain ⟨b, e, hb, -, hen, heq⟩ := (hρ v).power ha
    exact ⟨b, e, hb, hen.exponent ha, heq⟩
  simp only [Exponent.laws, List.mem_cons, List.not_mem_nil, or_false] at he
  rcases he with rfl | rfl | rfl | rfl | rfl | rfl <;>
    simp only [Term.eval, Term.evalList, Term.const, hm, hi, ho, hp]
  · exact Exponent.joins_mult.assoc (hel _) (hel _) (hel _)
  · exact Exponent.joins_mult.comm (hel _) (hel _)
  · exact Exponent.mul_unit (hel _)
  · exact Exponent.mul_inverse (hel _)
  · exact Exponent.power_power (hpow _) (hel _) (hel _)
  · exact Exponent.power_one

omit hT in
theorem eval_xor_law (ha : T.algebras.xor = true) {e : Equation} (he : e ∈ ExclusiveOr.laws)
    {ρ : Var → Term} (hρ : ∀ v, T.Normal (ρ v)) :
    e.1.eval ρ (T.reduce reductionLimit) = e.2.eval ρ (T.reduce reductionLimit) := by
  have hx : ∀ s t, T.reduce reductionLimit .xor [s, t] = ExclusiveOr.add s t :=
    fun s t => reduce_xor (Algebras.owner?_xor ha rfl) _
  have hz : T.reduce reductionLimit .zero [] = .app .zero [] :=
    reduce_xor (Algebras.owner?_xor ha rfl) _
  have hel : ∀ v, ExclusiveOr.Element (ρ v) := fun v => (hρ v).sum ha
  simp only [ExclusiveOr.laws, List.mem_cons, List.not_mem_nil, or_false] at he
  rcases he with rfl | rfl | rfl | rfl <;> simp only [Term.eval, Term.evalList, Term.const, hx, hz]
  · exact ExclusiveOr.joins_xor.assoc (hel _) (hel _) (hel _)
  · exact ExclusiveOr.joins_xor.comm (hel _) (hel _)
  · exact ExclusiveOr.add_unit (hel _)
  · exact ExclusiveOr.add_self (hel _)

omit hT in
theorem eval_union_law (ha : T.algebras.multisets = true) {e : Equation} (he : e ∈ Multiset.laws)
    {ρ : Var → Term} (hρ : ∀ v, T.Normal (ρ v)) :
    e.1.eval ρ (T.reduce reductionLimit) = e.2.eval ρ (T.reduce reductionLimit) := by
  have hu : ∀ as, T.reduce reductionLimit .union as = Multiset.reduce .union as :=
    fun as => reduce_multisets (Algebras.owner?_multisets ha) _
  have hel : ∀ v, Multiset.Element (ρ v) := fun v => (hρ v).union ha
  have hpair : ∀ v w, ∀ t ∈ [ρ v, ρ w], Multiset.Element t := by simp [hel]
  simp only [Multiset.laws, List.mem_cons, List.not_mem_nil, or_false] at he
  rcases he with rfl | rfl <;> simp only [Term.eval, Term.evalList, hu]
  · exact (@Multiset.reduce_union_nested [] _ _ (hpair _ _)).trans
      (@Multiset.reduce_union_nested [_] _ [] (hpair _ _)).symm
  · exact Multiset.reduce_union_perm (.swap _ _ _)

theorem eval_law {e : Equation} (he : e ∈ T.laws) {ρ : Var → Term} (hρ : ∀ v, T.Normal (ρ v)) :
    e.1.eval ρ (T.reduce reductionLimit) = e.2.eval ρ (T.reduce reductionLimit) := by
  simp only [laws, List.mem_append, List.mem_map] at he
  rcases he with ((⟨r, hr, rfl⟩ | he) | he) | he
  · obtain ⟨g, ps, hl, -, -, hps⟩ := (hT.rule r hr).lhs
    have hargs : ps.map (Term.eval ρ (T.reduce reductionLimit)) = ps.map (Term.mapVars ρ) :=
      List.map_congr_left fun p hp => eval_pattern (hps p hp) ρ _
    simp only
    rw [hT.eval_rhs hr, hl, Term.eval_app, hargs]
    exact hT.reduce_rule hr (by rw [hl, Term.mapVars_app]) _
  · split at he
    · rename_i ha
      exact eval_exponent_law ha he hρ
    · cases he
  · split at he
    · rename_i ha
      exact eval_xor_law ha he hρ
    · cases he
  · split at he
    · rename_i ha
      exact eval_union_law ha he hρ
    · cases he

theorem normals_satisfies : T.normals.Satisfies T := by
  intro e he ρ
  obtain ⟨hl, hr⟩ := hT.wellFormed_laws e he
  have flat : ∀ {t}, T.WellFormed t → T.Flat t := flat_of_wellFormed fun _ => hT.arity_assoc
  apply Subtype.ext
  rw [hT.coe_normals_value ρ (flat hl), hT.coe_normals_value ρ (flat hr)]
  exact hT.eval_law he fun v => (ρ v).2

/-! ## Flat and nested readings of normal terms -/

omit hT in
theorem reduce_assoc_singleton (hf : T.isAssoc f = true) {a : Term} (ha : T.Normal a) :
    T.reduce reductionLimit f [a] = a := by
  rcases isAssoc_eq_true_iff.1 hf with ⟨hT, rfl⟩ | ⟨hT, rfl⟩ | ⟨hT, rfl⟩
  · rw [reduce_exponents (Algebras.owner?_exponents hT rfl)]
    exact Exponent.joins_mult.singleton (ha.exponent hT)
  · rw [reduce_xor (Algebras.owner?_xor hT rfl)]
    exact ExclusiveOr.joins_xor.singleton (ha.sum hT)
  · rw [reduce_multisets (Algebras.owner?_multisets hT)]
    exact Multiset.reduce_union_singleton (ha.union hT)

omit hT in
/-- An associative symbol applied to several normal terms is the symbol applied to the first and to
what it gives on the others. -/
theorem reduce_assoc_cons (hf : T.isAssoc f = true) {a : Term} (has : ∀ b ∈ a :: as, T.Normal b) :
    T.reduce reductionLimit f (a :: as) =
      T.reduce reductionLimit f [a, T.reduce reductionLimit f as] := by
  rcases isAssoc_eq_true_iff.1 hf with ⟨hT, rfl⟩ | ⟨hT, rfl⟩ | ⟨hT, rfl⟩
  · have ho : T.algebras.owner? .mult = _ := Algebras.owner?_exponents hT rfl
    simp only [reduce_exponents ho]
    exact Exponent.joins_mult.cons fun b hb => (has b hb).exponent hT
  · have ho : T.algebras.owner? .xor = _ := Algebras.owner?_xor hT rfl
    simp only [reduce_xor ho]
    exact ExclusiveOr.joins_xor.cons fun b hb => (has b hb).sum hT
  · simp only [reduce_multisets (Algebras.owner?_multisets hT)]
    have hunion : ∀ b ∈ as, Multiset.Element b := fun b hb =>
      (has b (List.mem_cons_of_mem a hb)).union hT
    have h := @Multiset.reduce_union_nested [a] as [] hunion
    rw [List.append_nil] at h
    exact h.symm

omit hT in
theorem reduce_unit (hf : T.isAssoc f = true) (hu : f ≠ .union) :
    T.reduce reductionLimit f.unit [] = T.reduce reductionLimit f [] := by
  rcases isAssoc_eq_true_iff.1 hf with ⟨hT, rfl⟩ | ⟨hT, rfl⟩ | ⟨hT, rfl⟩
  · rw [show Symbol.unit .mult = .one from rfl,
      reduce_exponents (Algebras.owner?_exponents hT rfl),
      reduce_exponents (Algebras.owner?_exponents hT rfl)]
    rfl
  · rw [show Symbol.unit .xor = .zero from rfl, reduce_xor (Algebras.owner?_xor hT rfl),
      reduce_xor (Algebras.owner?_xor hT rfl)]
    rfl
  · exact absurd rfl hu

theorem nest_normals (hf : T.isAssoc f = true) : ∀ {xs : List { t // T.Normal t }},
    (f = .union → 0 < xs.length) →
      nest (fun x y => T.normals.op f [x, y]) (T.normals.op f.unit []) xs = T.normals.op f xs
  | [], hne => by
    have hu : f ≠ .union := fun h => absurd (hne h) (Nat.lt_irrefl 0)
    have constant : ∀ c : Symbol, T.isAssoc c = false → T.signature.arity c = 0 →
        T.flatShape.app c 0 := fun c hc ha => (if_neg (by simp [hc])).mpr ha.symm
    have hunit : T.flatShape.app f.unit 0 := by
      rcases isAssoc_eq_true_iff.1 hf with ⟨-, rfl⟩ | ⟨-, rfl⟩ | ⟨-, rfl⟩
      · exact constant .one isAssoc_one (hT.arity_builtin (by decide))
      · exact constant .zero isAssoc_zero (hT.arity_builtin (by decide))
      · exact absurd rfl hu
    apply Subtype.ext
    rw [nest, hT.coe_normals_op hunit, hT.coe_normals_op ((if_pos hf).mpr hne)]
    exact reduce_unit hf hu
  | [x], hne => by
    apply Subtype.ext
    rw [hT.coe_normals_op ((if_pos hf).mpr hne)]
    exact (reduce_assoc_singleton hf x.2).symm
  | x :: y :: xs, _ => by
    have positive : ∀ {n}, T.flatShape.app f (n + 1) := (if_pos hf).mpr fun _ => Nat.succ_pos _
    have tail : nest (fun x y => T.normals.op f [x, y]) (T.normals.op f.unit []) (y :: xs) =
        T.normals.op f (y :: xs) := nest_normals hf fun _ => Nat.succ_pos _
    rw [nest, tail]
    apply Subtype.ext
    rw [hT.coe_normals_op positive, hT.coe_normals_op positive]
    simp only [List.map_cons, List.map_nil]
    rw [hT.coe_normals_op positive]
    refine (reduce_assoc_cons hf fun b hb => ?_).symm
    simp only [← List.map_cons] at hb
    obtain ⟨z, -, rfl⟩ := List.mem_map.1 hb
    exact z.2

theorem value_flatten_normals (ρ : Var → { t // T.Normal t }) {t : Term} (ht : T.Flat t) :
    (T.normals.flatten T).value ρ t = T.normals.value ρ t := by
  induction ht with
  | var => rfl
  | name => rfl
  | @app f as hf _ ih =>
    rw [T.normals.value_app ρ f as, ← List.map_congr_left ih]
    cases ha : T.isAssoc f with
    | false => exact value_flatten_app ha ρ as
    | true =>
      rw [value_flatten_assoc ha]
      refine hT.nest_normals ha ?_
      rw [List.length_map]
      exact (if_pos ha).mp hf

theorem eval_normalize {t : Term} (ht : T.Flat t) {ρ : Var → Term} (hρ : ∀ v, T.Normal (ρ v)) :
    (T.normalize t).eval ρ (T.reduce reductionLimit) = t.eval ρ (T.reduce reductionLimit) := by
  have hflat := hT.flat_of_normal (hT.normal_normalize ht)
  let θ : Var → { t // T.Normal t } := fun v => ⟨ρ v, hρ v⟩
  have h := hT.value_normalize hT.normals_satisfies θ ht
  rw [hT.value_flatten_normals θ hflat, hT.value_flatten_normals θ ht] at h
  rw [← hT.coe_normals_value θ hflat, ← hT.coe_normals_value θ ht, h]

/-- A term may be normalized before a substitution as well as after it. -/
theorem normalize_mapVars {t : Term} (ht : T.Flat t) {σ : Var → Term} (hσ : ∀ v, T.Flat (σ v)) :
    T.normalize ((T.normalize t).mapVars σ) = T.normalize (t.mapVars σ) := by
  change ((T.normalize t).mapVars σ).eval _ _ = (t.mapVars σ).eval _ _
  rw [Term.eval_mapVars, Term.eval_mapVars]
  exact hT.eval_normalize ht fun v => hT.normal_normalize (hσ v)

/-- Two well-formed terms have the same normal form exactly if they are equal. -/
theorem normalize_eq_iff {s t : Term} (hs : T.WellFormed s) (ht : T.WellFormed t) :
    T.normalize s = T.normalize t ↔ T.Equal s t := by
  have arity : ∀ f, T.isAssoc f = true → T.signature.arity f = 2 := fun _ => hT.arity_assoc
  have flat : ∀ {t}, T.WellFormed t → T.Flat t := flat_of_wellFormed arity
  constructor
  · intro h
    refine equal_of_classes_value hs ht ?_
    have hc := classes_satisfies hT.wellFormed_laws
    rw [← value_flatten_of_wellFormed arity _ hs, ← value_flatten_of_wellFormed arity _ ht,
      ← hT.value_normalize hc _ (flat hs), ← hT.value_normalize hc _ (flat ht), h]
  · intro h
    let θ : Var → { t // T.Normal t } := fun v => ⟨.var v, .var v⟩
    have hv := congrArg Subtype.val (h.value_eq hT.normals_satisfies θ)
    rwa [hT.coe_normals_value θ (flat hs), hT.coe_normals_value θ (flat ht)] at hv

end Standard

end ProtocolProver.Theory
