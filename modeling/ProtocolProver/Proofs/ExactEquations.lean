import ProtocolProver.Proofs.Deconstruction
import ProtocolProver.Proofs.RigidTerms

/-!
# Equations of exponents and of sums

The solvers for exponents and for sums give up on an equation when no variable can take up the rest of
it and the rest does not fall into two. That no solution is lost then is sure where the terms at stake
keep their heads. `Exponent.exact` and `ExclusiveOr.exact` say when: on such an equation, every
instance that solves it solves one of the alternatives (`Instance.exists_alternative_exponents`,
`Instance.exists_alternative_xor`), provided that the solver claims to be complete.
-/

namespace ProtocolProver

/-- Whether a term is a variable that is trapped in another term. -/
def Theory.caught (T : Theory) : Term → Term → Bool
  | .var x, t => T.traps x t
  | _, _ => false

/-- Whether the heads of two firm terms are different. -/
def Term.clashes : Term → Term → Bool
  | .name m, .name n => m != n
  | .app f _, .app g _ => f != g
  | .name _, .app .. => true
  | .app .., .name _ => true
  | _, _ => false

namespace Exponent

/-- The base and the exponent of a power. -/
def power? : Term → Option (Term × Term)
  | .app f [b, e] => if f = .exp then some (b, e) else none
  | _ => none

/-- Whether `exp b e = t` is solved without loss, where `t` is no power. -/
def powerExact (T : Theory) (b e t : Term) : Bool :=
  b.isMsgVar || T.firm b && (T.firm t && b.clashes t ||
    (e.isMsgVar || T.firm e) && (T.firm t || T.caught t b || T.caught t e))

/-- Whether an equation of two powers is solved without loss. -/
def powersExact (T : Theory) (b₁ b₂ : Term) : Bool :=
  b₁.isMsgVar || b₂.isMsgVar || T.firm b₁ && T.firm b₂

/-- Whether two factors with the same sign cannot have the product `one`. -/
def pairExact (T : Theory) (a b : Term) : Bool :=
  T.firm a && T.firm b || T.firm b && T.caught a b || T.firm a && T.caught b a

/-- Whether it is solved without loss that the factors have the product `one`. -/
def productExact (T : Theory) (rest : List Term) : Bool :=
  (absorb? rest).isSome ||
    match rest with
    | [t] => T.firm (base t).1
    | [t, u] => (base t).2 != (base u).2 || pairExact T (base t).1 (base u).1
    | _ => true

/-- Whether an equation is solved without loss. -/
def exact (T : Theory) (l r : Term) : Bool :=
  match power? l, power? r with
  | some (b₁, _), some (b₂, _) => powersExact T b₁ b₂
  | some (b, e), none => powerExact T b e r
  | none, some (b, e) => powerExact T b e l
  | none, none => productExact T (cancel (factors l ++ (factors r).map inverse))

theorem power?_eq_some {t b e : Term} (h : power? t = some (b, e)) : t = .app .exp [b, e] := by
  unfold power? at h
  split at h
  · split at h <;> cases h
    rename_i hf
    rw [hf]
  · cases h

theorem power?_eq_none {t : Term} (h : ∀ f b e, t ≠ .app f [b, e]) : power? t = none := by
  unfold power?
  split
  · exact absurd rfl (h _ _ _)
  · rfl

theorem solve_eq (l r : Term) : solve l r =
    match power? l, power? r with
    | some (b₁, e₁), some (b₂, e₂) => solvePowers b₁ e₁ b₂ e₂
    | some (b, e), none => solvePower b e r
    | none, some (b, e) => solvePower b e l
    | none, none => solveProduct l r := by
  unfold solve
  split
  · rename_i f b₁ e₁ g b₂ e₂
    by_cases hf : f = .exp <;> by_cases hg : g = .exp <;> simp [power?, hf, hg]
  · rename_i f b e hr
    by_cases hf : f = .exp <;> simp [power?, hf]
  · rename_i g b e hl
    by_cases hg : g = .exp <;> simp [power?, hg]
  · rename_i hl hr _
    rw [power?_eq_none hl, power?_eq_none hr]

theorem raise_inj {b e b' e' : Term} (hb : b.head? ≠ some .exp) (hb' : b'.head? ≠ some .exp)
    (h : raise b e = raise b' e') : b = b' ∧ e = e' := by
  unfold raise at h
  split_ifs at h with h₁ h₂ h₂
  · exact ⟨h, h₁.trans h₂.symm⟩
  · exact absurd (by rw [h]; rfl) hb
  · exact absurd (by rw [← h]; rfl) hb'
  · simpa using h

theorem head?_ne_exp {T : Theory} (he : T.algebras.exponents = true) {t : Term} (hn : T.Normal t)
    (h : power? t = none) : t.head? ≠ some .exp := by
  intro ht
  cases t with
  | var | name => cases ht
  | app f as =>
    cases ht
    obtain ⟨b, e, rfl, -⟩ := (hn.exponent_root he rfl).exp rfl
    simp [power?] at h

theorem Factor.base_plain {t : Term} (h : Factor t) : Plain (base t).1 := by
  rcases h with h | ⟨b, hb, rfl⟩
  · cases t with
    | var | name => exact h
    | app f as =>
      have hi : f ≠ .inv := fun he => h.inv (by rw [he]; rfl)
      rw [base, if_neg hi]
      exact h
  · exact hb

theorem Factor.normal_base {T : Theory} {t : Term} (h : Factor t) (hn : T.Normal t) :
    T.Normal (base t).1 := by
  rcases h with h | ⟨b, -, rfl⟩
  · cases t with
    | var | name => exact hn
    | app f as =>
      have hi : f ≠ .inv := fun he => h.inv (by rw [he]; rfl)
      rw [base, if_neg hi]
      exact hn
  · exact hn.args b (List.mem_singleton.2 rfl)

theorem factor_of_mem_quotient {l r t : Term} (hl : Element l) (hr : Element r)
    (ht : t ∈ factors l ++ (factors r).map inverse) : Factor t := by
  rcases List.mem_append.1 ht with ht | ht
  · exact hl.reduced.factor t ht
  · obtain ⟨u, hu, rfl⟩ := List.mem_map.1 ht
    exact (hr.reduced.factor u hu).inverse

theorem Reduced.tail {t : Term} {ts : List Term} (h : Reduced (t :: ts)) : Reduced ts :=
  ⟨fun u hu => h.factor u (List.mem_cons_of_mem t hu), fun u hu hi =>
    h.apart u (List.mem_cons_of_mem t hu) (List.mem_cons_of_mem t hi)⟩

theorem GroupOps.value_base {A : Type} [CommGroup A] {M : TermAlgebra A} {T : Theory}
    (h : GroupOps M) (ρ : Var → A) {t : Term} (ht : Factor t) :
    (M.flatten T).value ρ t = if (base t).2 then ((M.flatten T).value ρ (base t).1)⁻¹
      else (M.flatten T).value ρ (base t).1 := by
  rcases ht with ht | ⟨b, -, rfl⟩
  · cases t with
    | var | name => rfl
    | app f as =>
      have hi : f ≠ .inv := fun he => ht.inv (by rw [he]; rfl)
      simp [base, hi]
  · rw [h.value_inv]
    rfl

end Exponent

namespace ExclusiveOr

/-- Whether it is solved without loss that the summands have the sum `zero`. -/
def sumExact (T : Theory) (rest : List Term) : Bool :=
  (absorb? rest).isSome ||
    match rest with
    | [t] => T.firm t
    | _ => true

/-- Whether an equation is solved without loss. -/
def exact (T : Theory) (l r : Term) : Bool := sumExact T (summands (sum (summands l ++ summands r)))

theorem mem_of_mem_summands_sum {t : Term} {ts : List Term} (h : ∀ u ∈ ts, Summand u)
    (ht : t ∈ summands (sum ts)) : t ∈ ts := by
  rw [sum_eq] at ht
  have ht := (summands_flatForm_perm (reduced_cancel h).summand).mem_iff.1 ht
  exact (mem_of_mem_cancelFrom ht).resolve_left List.not_mem_nil

section Values

variable {A : Type} {M : TermAlgebra A} {T : Theory} (hT : T.algebras.xor = true)
  (hM : M.Satisfies T)

theorem mul_self_eq_one (x : A) : letI := commMonoid hT hM; x * x = 1 :=
  (laws_hold hT hM x x x).2.2.2

theorem eq_of_mul_eq_one {x y : A} (h : letI := commMonoid hT hM; x * y = 1) : x = y := by
  let := commMonoid hT hM
  have hself := mul_self_eq_one hT hM y
  calc x = x * (y * y) := by rw [hself, mul_one]
    _ = (x * y) * y := (mul_assoc ..).symm
    _ = y := by rw [h, one_mul]

theorem value_flatForm (ρ : Var → A) (ts : List Term) :
    letI := commMonoid hT hM
    (M.flatten T).value ρ (flatForm .xor (.const .zero) ts) =
      (ts.map ((M.flatten T).value ρ)).prod := by
  let := commMonoid hT hM
  exact Theory.value_flatForm (by simp [Theory.isAssoc, hT]) (fun _ _ => rfl) rfl ρ
    (Theory.value_flatten_app Theory.isAssoc_zero ρ []) ts

theorem value_sum (ρ : Var → A) (ts : List Term) :
    letI := commMonoid hT hM
    (M.flatten T).value ρ (sum ts) = (ts.map ((M.flatten T).value ρ)).prod := by
  let := commMonoid hT hM
  have hcancel := @prod_cancelFrom id A _ ((M.flatten T).value ρ) ts [] fun t _ =>
    mul_self_eq_one hT hM _
  rw [sum_eq, value_flatForm hT hM, cancel_eq, hcancel, List.map_nil, List.prod_nil, one_mul]

end Values

end ExclusiveOr

namespace Theory

variable {T : Theory} {V : Var → Prop}

namespace Standard

variable (hT : T.Standard) (he : T.algebras.exponents = true)

/-- The group of normal terms as exponents. -/
@[reducible] noncomputable def exponentGroup : CommGroup { t // T.Normal t } :=
  Exponent.commGroup he hT.normals_satisfies

include hT he

theorem coe_inv (x : { t // T.Normal t }) : (T.normals.op .inv [x]).1 = Exponent.inverse x.1 := by
  rw [hT.coe_normals_op (hT.closes_flatShape.exponents he).2.1,
    reduce_exponents (Algebras.owner?_exponents he rfl)]
  rfl

theorem coe_one : (T.normals.op .one []).1 = .const .one := by
  rw [hT.coe_normals_op (hT.closes_flatShape.exponents he).2.2.1,
    reduce_exponents (Algebras.owner?_exponents he rfl)]
  rfl

theorem coe_exp (b e : { t // T.Normal t }) :
    (T.normals.op .exp [b, e]).1 = Exponent.power b.1 e.1 := by
  rw [hT.coe_normals_op (hT.closes_flatShape.exponents he).1,
    reduce_exponents (Algebras.owner?_exponents he rfl)]
  rfl

end Standard

namespace Instance

variable {ρ : T.Instance} {l r t : Term} (hT : T.Standard)

include hT

section Exponents

variable (he : T.algebras.exponents = true)

/-! ## Products -/

theorem prod_cancel_eq_one (hl : T.Normal l) (hr : T.Normal r) (heq : ρ.value l = ρ.value r) :
    letI := hT.exponentGroup he
    ((Exponent.cancel (Exponent.factors l ++ (Exponent.factors r).map Exponent.inverse)).map
      ρ.value).prod = 1 := by
  let := hT.exponentGroup he
  have h := Exponent.groupOps he hT.normals_satisfies
  have hfr := (hr.exponent he).reduced.factor
  have hinverse : (((Exponent.factors r).map Exponent.inverse).map ρ.value).prod =
      (ρ.value r)⁻¹ := by
    unfold value
    rw [h.value_element he ρ.term (hr.exponent he), List.prod_inv, List.map_map, List.map_map]
    exact congrArg List.prod (List.map_congr_left fun a ha => h.value_inverse ρ.term (hfr a ha))
  have hcancel := h.value_cancel (T := T) ρ.term fun t =>
    Exponent.factor_of_mem_quotient (hl.exponent he) (hr.exponent he)
  change (_ : List _).prod = _
  unfold value at *
  rw [hcancel, List.map_append, List.prod_append, hinverse, ← h.value_element he ρ.term (hl.exponent he),
    heq, mul_inv_cancel]

theorem value_of_base (ht : Exponent.Factor t) :
    letI := hT.exponentGroup he
    ρ.value t = if (Exponent.base t).2 then (ρ.value (Exponent.base t).1)⁻¹
      else ρ.value (Exponent.base t).1 := by
  let := hT.exponentGroup he
  exact (Exponent.groupOps he hT.normals_satisfies).value_base ρ.term ht

/-- A variable that takes up the rest of a product has the value that the rest asks for. -/
theorem solves_exponent_absorb {rest : List Term} {eqs : List Equation}
    (hred : Exponent.Reduced rest)
    (hprod : letI := hT.exponentGroup he; (rest.map ρ.value).prod = 1)
    (h : Exponent.absorb? rest = some eqs) : ρ.Solves eqs := by
  let := hT.exponentGroup he
  have hops := Exponent.groupOps he hT.normals_satisfies
  obtain ⟨⟨t, others⟩, hp, h⟩ := List.exists_of_findSome?_eq_some h
  have hperm := perm_of_mem_picks hp
  have hred' := hred.of_perm hperm.symm
  have hrest : ρ.value t * (others.map ρ.value).prod = 1 := by
    rw [← List.prod_cons, ← List.map_cons, ← (hperm.map ρ.value).prod_eq]
    exact hprod
  have hbase := value_of_base hT he (ρ := ρ) (hred'.factor t (List.mem_cons_self ..))
  have hproduct := hops.value_product he ρ.term others
  have hinverse := hops.value_inverse_element he ρ.term (.of_reduced hred'.tail)
  simp only at h
  split at h
  · rename_i v hu
    split at h <;> cases h
    refine List.forall_mem_singleton.2 ?_
    change ρ.value _ = _ at hproduct
    change ρ.value _ = (ρ.value _)⁻¹ at hinverse
    rw [hbase] at hrest
    simp only
    split
    · rename_i hs
      rw [hs, if_pos rfl] at hrest
      rw [hproduct, eq_of_inv_mul_eq_one hrest]
      rfl
    · rename_i hs
      rw [if_neg hs] at hrest
      rw [hinverse, hproduct, eq_inv_of_mul_eq_one_left hrest]
      rfl
  · cases h

theorem plain_value (h : T.firm t = true) (hn : T.Normal t) (hp : t.Has (T.plainOver V))
    (ht : Exponent.Plain t) : Exponent.Plain (ρ.value t).1 := by
  have hhead := head?_value hT (ρ := ρ) h hn hp
  exact ⟨hhead ▸ ht.mult, hhead ▸ ht.one, hhead ▸ ht.inv⟩

include he

theorem value_ne_one (ht : Exponent.Plain (ρ.value t).1) : ρ.value t ≠ T.normals.op .one [] := by
  intro h
  rw [h, hT.coe_one he] at ht
  exact ht.one rfl

omit ρ in
theorem coe_eq_inv {x y : { t // T.Normal t }} (hy : Exponent.Plain y.1)
    (h : letI := hT.exponentGroup he; x * y = 1) : x.1 = .app .inv [y.1] := by
  let := hT.exponentGroup he
  rw [eq_inv_of_mul_eq_one_left h, ← hy.inverse_eq]
  exact hT.coe_inv he y

theorem mul_value_ne_one {a b : Term} (hexact : Exponent.pairExact T a b = true)
    (ha : T.Normal a) (hb : T.Normal b) (hpa : a.Has (T.plainOver V)) (hpb : b.Has (T.plainOver V))
    (ha' : Exponent.Plain a) (hb' : Exponent.Plain b) :
    letI := hT.exponentGroup he; ρ.value a * ρ.value b ≠ 1 := by
  let := hT.exponentGroup he
  -- A variable that is trapped in the other base is not the inverse of it.
  have trapped : ∀ {a b : Term}, T.caught a b = true → T.firm b = true → T.Normal b →
      b.Has (T.plainOver V) → Exponent.Plain b → ρ.value a * ρ.value b ≠ 1 := by
    intro a b hcaught hfirm hn hp hplain h
    cases a with
    | var x =>
      have hinv := coe_eq_inv hT he (plain_value hT hfirm hn hp hplain) h
      have hle := size_term_le hT (ρ := ρ) hcaught hn hp
      change (ρ.term x).1 = _ at hinv
      rw [hinv, Term.size, Term.sizeList, Term.sizeList] at hle
      omega
    | name n => cases hcaught
    | app f as => cases hcaught
  intro h
  simp only [Exponent.pairExact, Bool.or_eq_true, Bool.and_eq_true] at hexact
  rcases hexact with (⟨hfa, hfb⟩ | ⟨hfb, hc⟩) | ⟨hfa, hc⟩
  · have hinv := coe_eq_inv hT he (plain_value hT hfb hb hpb hb') h
    exact (plain_value hT (ρ := ρ) hfa ha hpa ha').ne_inv hinv
  · exact trapped hc hfb hb hpb hb' h
  · exact trapped hc hfa ha hpa ha' (by rw [mul_comm]; exact h)

section Factors

variable {t u : Term} (ht : Exponent.Factor t)

include ht

theorem value_factor_ne_one (hnt : T.Normal t) (hpt : t.Has (T.plainOver V))
    (hfirm : T.firm (Exponent.base t).1 = true) :
    letI := hT.exponentGroup he; ρ.value t ≠ 1 := by
  let := hT.exponentGroup he
  intro h
  have hplain := plain_value hT (ρ := ρ) hfirm (ht.normal_base hnt) (Closes.has_base hpt) ht.base_plain
  refine value_ne_one hT he hplain ?_
  rw [value_of_base hT he ht] at h
  split at h
  · exact inv_eq_one.1 h
  · exact h

variable (hu : Exponent.Factor u)

include hu

/-- Of two factors with the product `one` whose bases are exact, one is inverted. -/
theorem inverted_ne_of_mul_eq_one (hnt : T.Normal t) (hpt : t.Has (T.plainOver V)) (hnu : T.Normal u)
    (hpu : u.Has (T.plainOver V))
    (hexact : Exponent.pairExact T (Exponent.base t).1 (Exponent.base u).1 = true)
    (h : letI := hT.exponentGroup he; ρ.value t * ρ.value u = 1) :
    (Exponent.base t).2 ≠ (Exponent.base u).2 := by
  let := hT.exponentGroup he
  intro hs
  refine mul_value_ne_one hT he (ρ := ρ) hexact (ht.normal_base hnt) (hu.normal_base hnu)
    (Closes.has_base hpt) (Closes.has_base hpu) ht.base_plain hu.base_plain ?_
  rw [value_of_base hT he ht, value_of_base hT he hu, ← hs] at h
  split at h
  · rwa [← mul_inv, inv_eq_one] at h
  · exact h

/-- If one of two factors with the product `one` is inverted, they have the same base. -/
theorem value_base_eq_of_mul_eq_one (hs : (Exponent.base t).2 ≠ (Exponent.base u).2)
    (h : letI := hT.exponentGroup he; ρ.value t * ρ.value u = 1) :
    ρ.value (Exponent.base t).1 = ρ.value (Exponent.base u).1 := by
  let := hT.exponentGroup he
  rw [value_of_base hT he ht, value_of_base hT he hu] at h
  cases ht' : (Exponent.base t).2 <;> cases hu' : (Exponent.base u).2 <;>
    simp only [ht', hu', if_true, Bool.false_eq_true, if_false, ne_eq, not_true] at h hs
  · exact mul_inv_eq_one.1 h
  · exact inv_mul_eq_one.1 h

end Factors

omit hT in
theorem mem_cancel_quotient (hl : T.Normal l) (hr : T.Normal r)
    (hkeeps : T.Keeps (T.plainOver V)) (hpl : l.Has (T.plainOver V)) (hpr : r.Has (T.plainOver V))
    (ht : t ∈ Exponent.cancel (Exponent.factors l ++ (Exponent.factors r).map Exponent.inverse)) :
    T.Normal t ∧ t.Has (T.plainOver V) := by
  rcases List.mem_append.1 (Closes.mem_of_mem_cancel ht) with ht | ht
  · exact ⟨hl.of_part (.inl ht), Closes.has_factors hpl t ht⟩
  · obtain ⟨u, hu, rfl⟩ := List.mem_map.1 ht
    exact ⟨(hr.of_part (.inl hu)).inverse he,
      Closes.has_inverse (hkeeps.exponents he) (Closes.has_factors hpr u hu)⟩

theorem exists_alternative_product (hl : T.Normal l) (hr : T.Normal r)
    (hpl : l.Has (T.plainOver V)) (hpr : r.Has (T.plainOver V))
    (hexact : Exponent.productExact T
      (Exponent.cancel (Exponent.factors l ++ (Exponent.factors r).map Exponent.inverse)) = true)
    (hc : (Exponent.solveProduct l r).complete = true) (heq : ρ.value l = ρ.value r) :
    ∃ a ∈ (Exponent.solveProduct l r).alternatives, ρ.Solves a.eqs := by
  let := hT.exponentGroup he
  have hprod := prod_cancel_eq_one hT he hl hr heq
  have hred := Exponent.reduced_cancel fun t =>
    Exponent.factor_of_mem_quotient (hl.exponent he) (hr.exponent he) (t := t)
  have hparts := fun t =>
    mem_cancel_quotient he (t := t) hl hr (hT.keeps_plainOver V) hpl hpr
  unfold Exponent.solveProduct at hc ⊢
  generalize Exponent.cancel (Exponent.factors l ++ (Exponent.factors r).map Exponent.inverse) =
    rest at hexact hc hprod hred hparts ⊢
  split at hc
  · exact ⟨_, List.mem_singleton.2 rfl, List.forall_mem_nil _⟩
  · rename_i t ts
    split at hc
    · rename_i eqs habsorb
      exact ⟨_, List.mem_singleton.2 rfl, solves_exponent_absorb hT he hred hprod habsorb⟩
    · rename_i habsorb
      have ht := hred.factor t (List.mem_cons_self ..)
      obtain ⟨hnt, hpt⟩ := hparts t (List.mem_cons_self ..)
      rcases ts with _ | ⟨u, _ | ⟨w, ts⟩⟩
      · simp only [Exponent.productExact, habsorb, Option.isSome_none, Bool.false_or] at hexact
        refine absurd ?_ (value_factor_ne_one hT he (ρ := ρ) ht hnt hpt hexact)
        simpa using hprod
      · have hu := hred.factor u (by simp)
        obtain ⟨hnu, hpu⟩ := hparts u (by simp)
        simp only [Exponent.productExact, habsorb, Option.isSome_none, Bool.false_or,
          Bool.or_eq_true, bne_iff_ne] at hexact
        have hprod : ρ.value t * ρ.value u = 1 := by simpa using hprod
        have hs : (Exponent.base t).2 ≠ (Exponent.base u).2 := hexact.elim id fun hpair =>
          inverted_ne_of_mul_eq_one hT he ht hu hnt hpt hnu hpu hpair hprod
        exact ⟨⟨[((Exponent.base t).1, (Exponent.base u).1)], false⟩, by simp [picks, hs],
          List.forall_mem_singleton.2 (value_base_eq_of_mul_eq_one hT he ht hu hs hprod)⟩
      · simp at hc

/-! ## Powers -/

omit hT he in
theorem value_exp (b e : Term) :
    ρ.value (.app .exp [b, e]) = T.normals.op .exp [ρ.value b, ρ.value e] :=
  Exponent.value_exp ρ.term b e

theorem coe_value_one : (ρ.value (.const .one)).1 = .const .one :=
  (congrArg Subtype.val (value_flatten_app isAssoc_one ρ.term [])).trans (hT.coe_one he)

theorem value_exp_inverse {b e t : Term} (hn : T.Normal e)
    (h : T.normals.op .exp [ρ.value b, ρ.value e] = ρ.value t) :
    T.normals.op .exp [ρ.value t, ρ.value (Exponent.inverse e)] = ρ.value b := by
  let := hT.exponentGroup he
  have hops := Exponent.groupOps he hT.normals_satisfies
  have hinverse := hops.value_inverse_element he ρ.term (hn.exponent he)
  change ρ.value _ = (ρ.value e)⁻¹ at hinverse
  rw [← h, hinverse, hops.exp_exp, mul_inv_cancel, hops.exp_one]

theorem value_shifted (b e e' : Term) : ρ.value (Exponent.shifted b e e') =
    T.normals.op .exp [T.normals.op .exp [ρ.value b, ρ.value e], ρ.value (Exponent.inverse e')] := by
  let := hT.exponentGroup he
  have hops := Exponent.groupOps he hT.normals_satisfies
  have hmult := hops.value_mult he ρ.term [e, Exponent.inverse e']
  change ρ.value _ = (List.map ρ.value _).prod at hmult
  rw [Exponent.shifted, value_exp, hmult, hops.exp_exp]
  simp

omit ρ in
theorem coe_exp_of_head? {b e : { t // T.Normal t }} (hb : b.1.head? ≠ some .exp) :
    (T.normals.op .exp [b, e]).1 = Exponent.raise b.1 e.1 := by
  rw [hT.coe_exp he, Exponent.power_of_base hb]

theorem head?_base_ne_exp {b e : Term} (hn : T.Normal (.app .exp [b, e]))
    (hp : (Term.app .exp [b, e]).Has (T.plainOver V)) (hf : T.firm b = true) :
    (ρ.value b).1.head? ≠ some .exp := by
  obtain ⟨_, _, hargs, hb, -⟩ := (hn.exponent_root he rfl).exp rfl
  cases hargs
  rwa [head?_value hT hf (hn.args b (by simp)) ((Term.has_app.1 hp).2 b (by simp))]

theorem exists_alternative_powers {b₁ e₁ b₂ e₂ : Term} (hn₁ : T.Normal (.app .exp [b₁, e₁]))
    (hn₂ : T.Normal (.app .exp [b₂, e₂])) (hp₁ : (Term.app .exp [b₁, e₁]).Has (T.plainOver V))
    (hp₂ : (Term.app .exp [b₂, e₂]).Has (T.plainOver V))
    (hexact : Exponent.powersExact T b₁ b₂ = true)
    (heq : ρ.value (.app .exp [b₁, e₁]) = ρ.value (.app .exp [b₂, e₂])) :
    ∃ a ∈ (Exponent.solvePowers b₁ e₁ b₂ e₂).alternatives, ρ.Solves a.eqs := by
  rw [value_exp, value_exp] at heq
  simp only [Exponent.powersExact, Bool.or_eq_true, Bool.and_eq_true] at hexact
  rcases hexact with (hv | hv) | ⟨hf₁, hf₂⟩
  · refine ⟨⟨[(b₁, Exponent.shifted b₂ e₂ e₁)], false⟩, by simp [Exponent.solvePowers, hv], ?_⟩
    refine List.forall_mem_singleton.2 ?_
    have h := value_exp_inverse hT he (hn₁.args e₁ (by simp)) (heq.trans (value_exp b₂ e₂).symm)
    rw [value_exp] at h
    rw [value_shifted hT he, h]
  · refine ⟨⟨[(b₂, Exponent.shifted b₁ e₁ e₂)], false⟩, by simp [Exponent.solvePowers, hv], ?_⟩
    refine List.forall_mem_singleton.2 ?_
    have h := value_exp_inverse hT he (hn₂.args e₂ (by simp)) (heq.symm.trans (value_exp b₁ e₁).symm)
    rw [value_exp] at h
    rw [value_shifted hT he, h]
  · have h₁ := head?_base_ne_exp hT he (ρ := ρ) hn₁ hp₁ hf₁
    have h₂ := head?_base_ne_exp hT he (ρ := ρ) hn₂ hp₂ hf₂
    have hraise := congrArg Subtype.val heq
    rw [coe_exp_of_head? hT he h₁, coe_exp_of_head? hT he h₂] at hraise
    obtain ⟨hb, he⟩ := Exponent.raise_inj h₁ h₂ hraise
    refine ⟨⟨[(b₁, b₂), (e₁, e₂)], false⟩, by simp [Exponent.solvePowers], ?_⟩
    exact List.forall_mem_cons.2 ⟨Subtype.ext hb, List.forall_mem_singleton.2 (Subtype.ext he)⟩

/-- A firm exponent other than `one` is not `one` under any instance. -/
theorem value_exponent_ne_one {b e : Term} (hn : T.Normal (.app .exp [b, e]))
    (hp : (Term.app .exp [b, e]).Has (T.plainOver V)) (hf : T.firm e = true) :
    (ρ.value e).1 ≠ .const .one := by
  obtain ⟨_, _, hargs, -, hne⟩ := (hn.exponent_root he rfl).exp rfl
  cases hargs
  have hhead := head?_value hT (ρ := ρ) hf (hn.args e (by simp)) ((Term.has_app.1 hp).2 e (by simp))
  exact fun h => hne ((hn.args e (by simp)).eq_one he (by rw [← hhead, h]; rfl))

omit he in
/-- Firm terms with different heads have different values. -/
theorem value_ne_of_clashes {s t : Term} (h : s.clashes t = true) (hs : T.firm s = true)
    (ht : T.firm t = true) (hns : T.Normal s) (hnt : T.Normal t) (hps : s.Has (T.plainOver V))
    (hpt : t.Has (T.plainOver V)) : ρ.value s ≠ ρ.value t := by
  have hs' := head?_value hT (ρ := ρ) hs hns hps
  have ht' := head?_value hT (ρ := ρ) ht hnt hpt
  intro heq
  rw [heq, ht'] at hs'
  unfold Term.clashes at h
  split at h
  · have heq := congrArg Subtype.val heq
    simp only [coe_value_name, Term.name.injEq] at heq
    simp [heq] at h
  · simp [Term.head?] at hs'
    simp [hs'] at h
  · cases hs'
  · cases hs'
  · cases h

omit he in
theorem value_ne_power_of_firm (h : T.firm t = true) (hn : T.Normal t) (hp : t.Has (T.plainOver V))
    (hpow : t.head? ≠ some .exp) (as : List Term) : (ρ.value t).1 ≠ .app .exp as := by
  intro hvalue
  have hhead := head?_value hT (ρ := ρ) h hn hp
  rw [hvalue] at hhead
  exact hpow hhead.symm

omit he in
/-- A variable that is trapped in the base or the exponent is smaller than the power. -/
theorem value_ne_power_of_caught {b e u : Term} (hu : u ∈ [b, e]) (h : T.caught t u = true)
    (hn : T.Normal u) (hp : u.Has (T.plainOver V)) :
    (ρ.value t).1 ≠ .app .exp [(ρ.value b).1, (ρ.value e).1] := by
  intro hvalue
  cases t with
  | var x =>
    have hle := size_term_le hT (ρ := ρ) h hn hp
    have hsize := congrArg Term.size hvalue
    simp only [value_var, Term.size, Term.sizeList] at hsize
    simp only [List.mem_cons, List.not_mem_nil, or_false] at hu
    rcases hu with rfl | rfl <;> omega
  | name n => cases h
  | app f as => cases h

theorem exists_alternative_power {b e t : Term} (hn : T.Normal (.app .exp [b, e]))
    (hp : (Term.app .exp [b, e]).Has (T.plainOver V)) (hnt : T.Normal t)
    (hpt : t.Has (T.plainOver V)) (hpow : t.head? ≠ some .exp)
    (hexact : Exponent.powerExact T b e t = true)
    (heq : ρ.value (.app .exp [b, e]) = ρ.value t) :
    ∃ a ∈ (Exponent.solvePower b e t).alternatives, ρ.Solves a.eqs := by
  have hnb := hn.args b (by simp)
  have hne := hn.args e (by simp)
  have hpb := (Term.has_app.1 hp).2 b (by simp)
  have hpe := (Term.has_app.1 hp).2 e (by simp)
  rw [value_exp] at heq
  simp only [Exponent.powerExact, Bool.or_eq_true, Bool.and_eq_true] at hexact
  rcases hexact with hv | ⟨hfb, hexact⟩
  · refine ⟨⟨[(b, .app .exp [t, Exponent.inverse e])], false⟩, by simp [Exponent.solvePower, hv], ?_⟩
    refine List.forall_mem_singleton.2 ?_
    rw [value_exp, value_exp_inverse hT he hne heq]
  · have hbase := head?_base_ne_exp hT he (ρ := ρ) hn hp hfb
    have hraise := congrArg Subtype.val heq
    rw [coe_exp_of_head? hT he hbase] at hraise
    by_cases hone : (ρ.value e).1 = .const .one
    · -- The power is its base.
      rw [Exponent.raise, if_pos hone] at hraise
      rcases hexact with ⟨hft, hclash⟩ | ⟨hve | hfe, -⟩
      · exact absurd (Subtype.ext hraise) (value_ne_of_clashes hT hclash hfb hft hnb hnt hpb hpt)
      · refine ⟨⟨[(e, .const .one), (b, t)], false⟩, by simp [Exponent.solvePower, hve], ?_⟩
        refine List.forall_mem_cons.2 ⟨Subtype.ext ?_, List.forall_mem_singleton.2 (Subtype.ext hraise)⟩
        rw [hone, coe_value_one hT he]
      · exact absurd hone (value_exponent_ne_one hT he hn hp hfe)
    · rw [Exponent.raise, if_neg hone] at hraise
      rcases hexact with ⟨hft, -⟩ | ⟨-, (hft | hcb) | hce⟩
      · exact absurd hraise.symm (value_ne_power_of_firm hT hft hnt hpt hpow _)
      · exact absurd hraise.symm (value_ne_power_of_firm hT hft hnt hpt hpow _)
      · exact absurd hraise.symm (value_ne_power_of_caught hT (by simp) hcb hnb hpb)
      · exact absurd hraise.symm (value_ne_power_of_caught hT (by simp) hce hne hpe)

/-- Of an exact equation of exponents, no solution is lost. -/
theorem exists_alternative_exponents (hl : T.Normal l) (hr : T.Normal r)
    (hpl : l.Has (T.plainOver V)) (hpr : r.Has (T.plainOver V))
    (hexact : Exponent.exact T l r = true) (hc : (Exponent.solve l r).complete = true)
    (heq : ρ.value l = ρ.value r) :
    ∃ a ∈ (Exponent.solve l r).alternatives, ρ.Solves a.eqs := by
  rw [Exponent.solve_eq] at hc ⊢
  unfold Exponent.exact at hexact
  cases h₁ : Exponent.power? l with
  | some p =>
    obtain ⟨b₁, e₁⟩ := p
    obtain rfl := Exponent.power?_eq_some h₁
    cases h₂ : Exponent.power? r with
    | some q =>
      obtain ⟨b₂, e₂⟩ := q
      obtain rfl := Exponent.power?_eq_some h₂
      exact exists_alternative_powers hT he hl hr hpl hpr (by simpa [h₁, h₂] using hexact) heq
    | none =>
      exact exists_alternative_power hT he hl hpl hr hpr (Exponent.head?_ne_exp he hr h₂)
        (by simpa [h₁, h₂] using hexact) heq
  | none =>
    cases h₂ : Exponent.power? r with
    | some q =>
      obtain ⟨b₂, e₂⟩ := q
      obtain rfl := Exponent.power?_eq_some h₂
      exact exists_alternative_power hT he hr hpr hl hpl (Exponent.head?_ne_exp he hl h₁)
        (by simpa [h₁, h₂] using hexact) heq.symm
    | none =>
      rw [h₁, h₂] at hc
      exact exists_alternative_product hT he hl hr hpl hpr (by simpa [h₁, h₂] using hexact) hc heq

end Exponents

section Sums

variable (hx : T.algebras.xor = true)

theorem prod_summands_eq_one (hl : T.Normal l) (hr : T.Normal r) (heq : ρ.value l = ρ.value r) :
    letI := ExclusiveOr.commMonoid hx hT.normals_satisfies
    ((ExclusiveOr.summands (ExclusiveOr.sum (ExclusiveOr.summands l ++
      ExclusiveOr.summands r))).map ρ.value).prod = 1 := by
  let := ExclusiveOr.commMonoid hx hT.normals_satisfies
  have parts : ∀ {t : Term}, ExclusiveOr.Element t →
      ((ExclusiveOr.summands t).map ρ.value).prod = ρ.value t := by
    intro t ht
    have h := ExclusiveOr.value_flatForm hx hT.normals_satisfies ρ.term (ExclusiveOr.summands t)
    rw [ht.flatForm_summands] at h
    exact h.symm
  have hsum := ExclusiveOr.value_sum hx hT.normals_satisfies ρ.term
    (ExclusiveOr.summands l ++ ExclusiveOr.summands r)
  change ρ.value _ = (List.map ρ.value _).prod at hsum
  have hsummand : ∀ t ∈ ExclusiveOr.summands l ++ ExclusiveOr.summands r, ExclusiveOr.Summand t :=
    fun t ht => (List.mem_append.1 ht).elim ((hl.sum hx).reduced.summand t)
      ((hr.sum hx).reduced.summand t)
  change (List.map ρ.value _).prod = _
  rw [parts (ExclusiveOr.element_sum hsummand), hsum, List.map_append, List.prod_append,
    parts (hl.sum hx), parts (hr.sum hx), heq]
  exact ExclusiveOr.mul_self_eq_one hx hT.normals_satisfies _

theorem solves_xor_absorb {rest : List Term} {eqs : List Equation}
    (hsum : letI := ExclusiveOr.commMonoid hx hT.normals_satisfies; (rest.map ρ.value).prod = 1)
    (h : ExclusiveOr.absorb? rest = some eqs) : ρ.Solves eqs := by
  let := ExclusiveOr.commMonoid hx hT.normals_satisfies
  obtain ⟨⟨t, others⟩, hp, h⟩ := List.exists_of_findSome?_eq_some h
  have hrest : ρ.value t * (others.map ρ.value).prod = 1 := by
    rw [← List.prod_cons, ← List.map_cons, ← ((perm_of_mem_picks hp).map ρ.value).prod_eq]
    exact hsum
  have hothers := ExclusiveOr.value_sum hx hT.normals_satisfies ρ.term others
  change ρ.value _ = (List.map ρ.value _).prod at hothers
  simp only at h
  split at h
  · split at h <;> cases h
    refine List.forall_mem_singleton.2 ?_
    rw [hothers]
    exact ExclusiveOr.eq_of_mul_eq_one hx hT.normals_satisfies hrest
  · cases h

include hx

theorem value_ne_zero (h : T.firm t = true) (hn : T.Normal t) (hp : t.Has (T.plainOver V))
    (ht : ExclusiveOr.Summand t) : ρ.value t ≠ T.normals.op .zero [] := by
  have hhead := head?_value hT (ρ := ρ) h hn hp
  intro hzero
  rw [hzero, hT.coe_normals_op (hT.closes_flatShape.xor hx).1,
    reduce_xor (Algebras.owner?_xor hx rfl)] at hhead
  exact ht.zero hhead.symm

theorem exists_alternative_xor (hl : T.Normal l) (hr : T.Normal r)
    (hpl : l.Has (T.plainOver V)) (hpr : r.Has (T.plainOver V))
    (hexact : ExclusiveOr.exact T l r = true) (hc : (ExclusiveOr.solve l r).complete = true)
    (heq : ρ.value l = ρ.value r) :
    ∃ a ∈ (ExclusiveOr.solve l r).alternatives, ρ.Solves a.eqs := by
  let := ExclusiveOr.commMonoid hx hT.normals_satisfies
  have hsum := prod_summands_eq_one hT hx hl hr heq
  have hsummand : ∀ t ∈ ExclusiveOr.summands l ++ ExclusiveOr.summands r,
      ExclusiveOr.Summand t ∧ T.Normal t ∧ t.Has (T.plainOver V) := by
    intro t ht
    rcases List.mem_append.1 ht with ht | ht
    · exact ⟨(hl.sum hx).reduced.summand t ht, hl.of_part (.inr (.inl ht)),
        Closes.has_summands hpl t ht⟩
    · exact ⟨(hr.sum hx).reduced.summand t ht, hr.of_part (.inr (.inl ht)),
        Closes.has_summands hpr t ht⟩
  have hparts := fun t => ExclusiveOr.mem_of_mem_summands_sum (t := t) fun u hu => (hsummand u hu).1
  unfold ExclusiveOr.solve at hc ⊢
  unfold ExclusiveOr.exact at hexact
  generalize ExclusiveOr.summands (ExclusiveOr.sum (ExclusiveOr.summands l ++
    ExclusiveOr.summands r)) = rest at hexact hc hsum hparts ⊢
  split at hc
  · exact ⟨_, List.mem_singleton.2 rfl, List.forall_mem_nil _⟩
  · rename_i t ts
    split at hc
    · exact ⟨_, List.mem_singleton.2 rfl, solves_xor_absorb hT hx hsum ‹_›⟩
    · rename_i habsorb
      rcases ts with _ | ⟨u, _ | ⟨w, ts⟩⟩
      · simp only [ExclusiveOr.sumExact, habsorb, Option.isSome_none, Bool.false_or] at hexact
        obtain ⟨hs, hn, hp⟩ := hsummand t (hparts t (by simp))
        refine absurd ?_ (value_ne_zero hT hx (ρ := ρ) hexact hn hp hs)
        rw [List.map_singleton, List.prod_singleton] at hsum
        exact hsum
      · refine ⟨_, List.mem_singleton.2 rfl, List.forall_mem_singleton.2 ?_⟩
        exact ExclusiveOr.eq_of_mul_eq_one hx hT.normals_satisfies (by simpa using hsum)
      · simp at hc

end Sums

end Instance

end Theory

end ProtocolProver
