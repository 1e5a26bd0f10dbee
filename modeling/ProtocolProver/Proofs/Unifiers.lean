import ProtocolProver.Proofs.Messages

/-!
# Unifiers extend their base

A substitution is idempotent if no variable that it binds occurs in a value. Unification starts from
an idempotent base and only ever binds a variable that is not bound yet, to a term without that
variable, and it brings the older values up to date. So every unifier is idempotent again, has normal
values of the right sorts and says no less than the base (`unifiers_extend_base`).
-/

namespace ProtocolProver

theorem not_mem_of_orient {l r t : Term} {x : Var} (h : orient l r = some (x, t)) (hne : l ≠ r) :
    x ∉ t.occurrences := by
  have free : ∀ {x : Var} {t : Term}, (x.sort.admits t.sort && !t.occurs x) = true →
      x ∉ t.occurrences := by
    intro x t hc hx
    simp [Term.occurs_iff.2 hx] at hc
  have distinct : ∀ {x y : Var}, Term.var x ≠ .var y → x ∉ (Term.var y).occurrences := by
    intro x y hne hx
    exact hne (congrArg _ (List.mem_singleton.1 hx))
  unfold orient at h
  split at h
  · split at h
    · split at h <;> cases h
      · exact distinct hne
      · exact distinct hne.symm
    · split at h
      · cases h
        exact distinct hne
      · split at h <;> cases h
        exact distinct hne.symm
  · split at h <;> cases h
    exact free ‹_›
  · split at h <;> cases h
    exact free ‹_›
  · cases h

namespace Subst

variable {σ : Subst} {x : Var} {t : Term}

/-- No bound variable occurs in a value. -/
def Idempotent (σ : Subst) : Prop := ∀ x t, σ.get? x = some t → ∀ y ∈ t.occurrences, σ.get? y = none

theorem apply_of_unbound (h : ∀ y ∈ t.occurrences, σ.get? y = none) : σ.apply t = t :=
  (Term.mapVars_congr fun y hy => value_of_get?_eq_none (h y hy)).trans t.mapVars_var

theorem Idempotent.apply (h : σ.Idempotent) : ∀ y ∈ (σ.apply t).occurrences, σ.get? y = none := by
  intro y hy
  obtain ⟨v, -, hy⟩ := Term.mem_occurrences_mapVars.1 hy
  cases hv : σ.get? v with
  | none =>
    rw [value_of_get?_eq_none hv, Term.occurrences, List.mem_singleton] at hy
    exact hy ▸ hv
  | some u =>
    rw [value_of_get? hv] at hy
    exact h v u hv y hy

theorem get?_single (x : Var) (t : Term) (y : Var) :
    (single x t).get? y = if y = x then some t else none := by
  rw [single, SortedMap.get?_insert, SortedMap.get?_empty]

theorem value_single_self (x : Var) (t : Term) : (single x t).value x = t :=
  value_of_get? (by rw [get?_single, if_pos rfl])

theorem value_single_of_ne {y : Var} (h : y ≠ x) : (single x t).value y = .var y :=
  value_of_get?_eq_none (by rw [get?_single, if_neg h])

theorem apply_single_of_not_mem {u : Term} (h : x ∉ u.occurrences) : (single x t).apply u = u := by
  refine apply_of_unbound fun y hy => ?_
  rw [get?_single, if_neg]
  rintro rfl
  exact h hy

theorem get?_bind_eq_none {normalize : Term → Term} {y : Var} :
    (σ.bind normalize x t).get? y = none ↔ y ≠ x ∧ σ.get? y = none := by
  rw [get?_bind]
  split <;> simp [*]

section Bind

variable {normalize : Term → Term}

theorem Idempotent.bind (hnormalize : ∀ u, ∀ y ∈ (normalize u).occurrences, y ∈ u.occurrences)
    (h : σ.Idempotent) (ht : ∀ y ∈ t.occurrences, y ≠ x ∧ σ.get? y = none) :
    (σ.bind normalize x t).Idempotent := by
  -- The new value has the variables of `t`.
  have hnew : ∀ y ∈ (normalize (σ.apply t)).occurrences, y ≠ x ∧ σ.get? y = none := by
    rw [apply_of_unbound fun y hy => (ht y hy).2]
    exact fun y hy => ht y (hnormalize t y hy)
  intro y u hu z hz
  rw [get?_bind_eq_none]
  rw [get?_bind] at hu
  split at hu
  · cases hu
    exact hnew z hz
  · obtain ⟨w, hw, rfl⟩ := Option.map_eq_some_iff.1 hu
    have hold := h y w hw
    split at hz
    · obtain ⟨v, hv, hz⟩ := Term.mem_occurrences_mapVars.1 (hnormalize _ z hz)
      by_cases hvx : v = x
      · rw [hvx, value_single_self] at hz
        exact hnew z hz
      · rw [value_single_of_ne hvx, Term.occurrences, List.mem_singleton] at hz
        exact hz ▸ ⟨hvx, hold v hv⟩
    · rename_i hocc
      refine ⟨?_, hold z hz⟩
      rintro rfl
      exact hocc (Term.occurs_iff.2 hz)

/-- Up to normal forms, adding a binding is applying it after the older ones. -/
theorem normalize_value_bind
    (hnormal : ∀ y u, σ.get? y = some u →
      normalize (normalize ((single x (normalize (σ.apply t))).apply u)) =
        normalize ((single x (normalize (σ.apply t))).apply u))
    (hx : σ.get? x = none) (v : Var) :
    normalize ((σ.bind normalize x t).value v) =
      normalize ((single x (normalize (σ.apply t))).apply (σ.value v)) := by
  have hget := get?_bind normalize σ x v t
  by_cases hv : v = x
  · rw [if_pos hv] at hget
    rw [value_of_get? hget, hv, value_of_get?_eq_none hx]
    exact congrArg normalize (value_single_self _ _).symm
  · rw [if_neg hv] at hget
    cases hu : σ.get? v with
    | none =>
      rw [hu] at hget
      rw [value_of_get?_eq_none hget, value_of_get?_eq_none hu]
      exact congrArg normalize (value_single_of_ne hv).symm
    | some u =>
      rw [hu, Option.map_some] at hget
      rw [value_of_get? hget, value_of_get? hu]
      split
      · exact hnormal v u hu
      · rename_i hocc
        rw [apply_single_of_not_mem fun h => hocc (Term.occurs_iff.2 h)]

end Bind

end Subst

theorem Term.has_of_occurrences {V : Var → Prop} {t : Term} (h : ∀ x ∈ t.occurrences, V x) :
    t.Has ⟨V, fun _ => True, fun _ _ => True⟩ := by
  induction t using induction_args with
  | var x => exact .var (h x (List.mem_singleton.2 rfl))
  | name n => exact .name trivial
  | app f as ih =>
    exact .app trivial fun a ha => ih a ha fun x hx => h x (mem_occurrences_app.2 ⟨a, ha, hx⟩)

namespace Theory

variable {T : Theory}

/-- A substitution that puts normal terms of the right sorts in for variables, none of them bound, and
that says no less than `base`. -/
structure Extends (T : Theory) (base σ : Subst) : Prop where
  within : σ.Within T.flatShape
  normal : ∀ x t, σ.get? x = some t → T.Normal t
  idempotent : σ.Idempotent
  above : ∀ x, T.normalize (σ.apply (base.value x)) = T.normalize (σ.value x)

namespace Standard

variable (hT : T.Standard) {σ base : Subst} {x : Var} {t : Term}

include hT

theorem closes_flatShape : T.Closes T.flatShape :=
  hT.closes_of_app (fun _ => trivial) fun _ _ hf _ => hf

theorem mem_of_mem_normalize (h : x ∈ (T.normalize t).occurrences) : x ∈ t.occurrences := by
  have hkeeps : T.Keeps ⟨(· ∈ t.occurrences), fun _ => True, fun _ _ => True⟩ :=
    hT.keeps_of_app fun _ _ _ _ => trivial
  exact (hkeeps.has_normalize (Term.has_of_occurrences fun _ hx => hx)).var_of_mem h

omit hT in
/-- Normal forms of instances depend on the normal forms of the values only. -/
theorem normalize_mapVars_congr {ρ τ : Var → Term} (h : ∀ v, T.normalize (ρ v) = T.normalize (τ v))
    (t : Term) : T.normalize (t.mapVars ρ) = T.normalize (t.mapVars τ) := by
  rw [normalize, Term.eval_mapVars, normalize, Term.eval_mapVars]
  exact Term.eval_congr fun v _ => h v

/-! ## Adding a binding -/

section Bind

variable (hσ : σ.Within T.flatShape) (ht : T.Flat t) (hs : x.sort.admits t.sort = true)

include hσ ht hs

theorem within_single_normalize :
    (Subst.single x (T.normalize (σ.apply t))).Within T.flatShape :=
  .insert .empty (hT.closes_flatShape.has_normalize_apply hσ ht) (sort_normalize (hσ.sort_apply hs))

theorem normal_bind (h : ∀ y u, σ.get? y = some u → T.Normal u) :
    ∀ y u, (σ.bind T.normalize x t).get? y = some u → T.Normal u := by
  have hsingle := hT.within_single_normalize hσ ht hs
  intro y u hu
  rw [Subst.get?_bind] at hu
  split at hu
  · cases hu
    exact hT.normal_normalize (hσ.has_apply (fun _ => trivial) ht)
  · obtain ⟨w, hw, rfl⟩ := Option.map_eq_some_iff.1 hu
    split
    · exact hT.normal_normalize (hsingle.has_apply (fun _ => trivial) (hσ y w hw).1)
    · exact h y w hw

theorem normalize_value_bind (hx : σ.get? x = none) (v : Var) :
    T.normalize ((σ.bind T.normalize x t).value v) =
      T.normalize ((Subst.single x (T.normalize (σ.apply t))).apply (σ.value v)) := by
  have hsingle := hT.within_single_normalize hσ ht hs
  refine Subst.normalize_value_bind (fun y u hu => ?_) hx v
  exact (hT.normal_normalize (hsingle.has_apply (fun _ => trivial) (hσ y u hu).1)).normalize

theorem normalize_bind_base (hx : σ.get? x = none) (hbase : ∀ v, T.Flat (base.value v))
    (h : ∀ v, T.normalize (σ.apply (base.value v)) = T.normalize (σ.value v)) (v : Var) :
    T.normalize ((σ.bind T.normalize x t).apply (base.value v)) =
      T.normalize ((σ.bind T.normalize x t).value v) := by
  have hsingle := hT.within_single_normalize hσ ht hs
  have hvalue := hT.normalize_value_bind hσ ht hs hx
  generalize Subst.single x (T.normalize (σ.apply t)) = τ at hsingle hvalue
  have hτ : ∀ v, T.Flat (τ.value v) := hsingle.value fun _ => trivial
  calc T.normalize ((σ.bind T.normalize x t).apply (base.value v))
      = T.normalize ((base.value v).mapVars fun w => τ.apply (σ.value w)) :=
        normalize_mapVars_congr hvalue _
    _ = T.normalize (τ.apply (σ.apply (base.value v))) := by
        rw [Subst.apply, Subst.apply, Term.mapVars_mapVars]
        rfl
    _ = T.normalize (τ.apply (T.normalize (σ.apply (base.value v)))) :=
        (hT.normalize_mapVars (hσ.has_apply (fun _ => trivial) (hbase v)) hτ).symm
    _ = T.normalize (τ.apply (σ.value v)) := by
        rw [h v]
        exact hT.normalize_mapVars (hσ.value (fun _ => trivial) v) hτ
    _ = T.normalize ((σ.bind T.normalize x t).value v) := (hvalue v).symm

end Bind

end Standard

/-! ## Steps and runs -/

variable {base : Subst} (hT : T.Standard)

include hT

theorem Extends.step (hbase : ∀ v, T.Flat (base.value v)) {p : Problem} {e : Equation}
    {rest : List Equation} (acc : Progress) (h : T.Extends base p.subst)
    (he : EquationsHave T.flatShape (e :: rest)) :
    ∀ q ∈ (p.step T e rest acc).1, T.Extends base q.subst := by
  obtain ⟨⟨h₁, h₂⟩, -⟩ := List.forall_mem_cons.1 he
  have flat := fun {t : Term} => @hT.closes_flatShape.has_normalize_apply _ _ _ h.within t
  -- The variables of both sides are not bound.
  have unbound : ∀ {t : Term}, ∀ y ∈ (T.normalize (p.subst.apply t)).occurrences,
      p.subst.get? y = none := fun y hy => h.idempotent.apply y (hT.mem_of_mem_normalize hy)
  have hl := unbound (t := e.1)
  have hr := unbound (t := e.2)
  have hlflat := flat h₁
  have hrflat := flat h₂
  intro q hq
  unfold Problem.step at hq
  simp only at hq
  generalize T.normalize (p.subst.apply e.1) = l, T.normalize (p.subst.apply e.2) = r at *
  split at hq
  · rw [List.mem_singleton.1 hq]
    exact h
  · rename_i hne
    split at hq
    · rename_i x t ho
      have hxt := not_mem_of_orient ho hne
      obtain ⟨ho, hs⟩ := orient_eq_some ho
      have hside : p.subst.get? x = none ∧ T.Flat t ∧ ∀ y ∈ t.occurrences, p.subst.get? y = none := by
        rcases ho with ⟨rfl, rfl⟩ | ⟨rfl, rfl⟩
        · exact ⟨hl x (List.mem_singleton.2 rfl), hrflat, hr⟩
        · exact ⟨hr x (List.mem_singleton.2 rfl), hlflat, hl⟩
      obtain ⟨hx, ht, hy⟩ := hside
      rw [List.mem_singleton.1 hq]
      refine ⟨hT.closes_flatShape.within_bind h.within ht hs, hT.normal_bind h.within ht hs h.normal,
        h.idempotent.bind (fun _ _ => hT.mem_of_mem_normalize) fun y hy' => ⟨?_, hy y hy'⟩,
        hT.normalize_bind_base h.within ht hs hx hbase h.above⟩
      rintro rfl
      exact hxt hy'
    · obtain ⟨a, -, rfl⟩ := List.mem_map.1 hq
      exact h

theorem Extends.of_mem_unify {eqs : List Equation} (heqs : EquationsHave T.flatShape eqs)
    (hbase : T.Extends base base) {s : VarSupply} {σ : Subst}
    (h : σ ∈ ((T.unify eqs base).run s).1.substs) : T.Extends base σ := by
  have hflat : ∀ v, T.Flat (base.value v) := hbase.within.value fun _ => trivial
  refine forall_mem_found
    (Q := fun p => T.Extends base p.subst ∧ EquationsHave T.flatShape p.eqs) (R := T.Extends base) ?_
    (fun _ h => h.1) maxWork (List.forall_mem_singleton.2 ⟨hbase, heqs⟩) (List.forall_mem_nil _) σ
    (List.mem_filter.1 h).1
  rintro p e rest acc ⟨hp, hpe⟩ he q hq
  exact ⟨hp.step hT hflat acc (he ▸ hpe) q hq,
    (hT.closes_flatShape.problem_step acc hp.within hpe he q hq).2⟩

end Theory

/-- In every theory that is assembled from packs and free functions, whatever the supply: the unifiers
of equations between flat terms that extend an idempotent base of normal values are idempotent, give
every variable a value of its sort, have normal values, say no less than the base and make both sides
of every equation equal. Flat terms respect the arities, as compilation checks. -/
theorem unifiers_extend_base {pack : Pack} {sig : Signature} {T : Theory} (hp : Assembled pack sig)
    (hT : Theory.ofRules sig pack.equations pack.algebras = .ok T) {eqs : List Equation}
    (heqs : EquationsHave T.flatShape eqs) {base : Subst} (hidem : base.Idempotent)
    (hwithin : base.Within T.flatShape)
    (hnormal : ∀ x t, base.get? x = some t → T.normalize t = t) (s : VarSupply) :
    ∀ σ ∈ ((T.unify eqs base).run s).1.substs,
      σ.Idempotent ∧ RespectsSorts σ.value ∧
      (∀ x t, σ.get? x = some t → T.normalize t = t) ∧
      (∀ t, T.normalize (σ.apply (base.apply t)) = T.normalize (σ.apply t)) ∧
      ∀ e ∈ eqs, T.normalize (σ.apply e.1) = T.normalize (σ.apply e.2) := by
  have hstandard := (hp.ofPacks hT).standard
  have hbase : T.Extends base base := by
    refine ⟨hwithin, fun x t ht => ?_, hidem, fun x => ?_⟩
    · rw [← hnormal x t ht]
      exact hstandard.normal_normalize (hwithin x t ht).1
    · cases hx : base.get? x with
      | none => rw [Subst.value_of_get?_eq_none hx, Subst.apply, Term.mapVars,
          Subst.value_of_get?_eq_none hx]
      | some t => rw [Subst.value_of_get? hx, Subst.apply_of_unbound (hidem x t hx)]
  intro σ hσ
  have h := Theory.Extends.of_mem_unify hstandard heqs hbase hσ
  refine ⟨h.idempotent, h.within.sort_value, fun x t ht => (h.normal x t ht).normalize, fun t => ?_,
    fun e he => ?_⟩
  · rw [Subst.apply, Subst.apply, Term.mapVars_mapVars]
    exact Theory.Standard.normalize_mapVars_congr h.above t
  · have hsolves := List.all_eq_true.1 (Theory.solves_of_mem_unify hσ) e he
    exact eq_of_beq hsolves

/-- All three algebras. -/
def mixedPack : Pack where
  algebras := ⟨true, true, true⟩

def mixedTheory : Theory := ⟨Signature.builtin, ⟨true, true, true⟩, Reduction.projections⟩

theorem assembled_mixed : Assembled mixedPack Signature.builtin :=
  @Assembled.load _ _ _ _ "multiset"
    (@Assembled.load _ _ _ _ "xor"
      (@Assembled.load _ _ _ _ "diffie-hellman" .builtin rfl) rfl) rfl

/-- A pair in the base is opened by narrowing, while its first component is a union that also stands in
an exponent and in a sum. -/
theorem unifiers_extend_base_mixed :
    let x : Term := .var (.msg "x")
    let y : Term := .var (.msg "y")
    let g : Term := .pubName "g"
    let a : Term := .pubName "a"
    let b : Term := .pubName "b"
    let eqs : List Equation :=
      [(.app .exp [g, x], .app .exp [.app .exp [g, y], .var (.fresh "k")]),
        (.app .fst [.var (.msg "z")], .app .xor [x, .var (.msg "w")]),
        (.app .union [y, b], .app .union [a, b, b])]
    let base : Subst := Subst.single (.msg "z") (.app .pair [y, b])
    let unifiers := ((mixedTheory.unify eqs base).run ⟨1⟩).1.substs
    unifiers.length = 1 ∧ ∀ σ ∈ unifiers,
      σ.Idempotent ∧ RespectsSorts σ.value ∧
      (∀ x t, σ.get? x = some t → mixedTheory.normalize t = t) ∧
      (∀ t, mixedTheory.normalize (σ.apply (base.apply t)) = mixedTheory.normalize (σ.apply t)) ∧
      ∀ e ∈ eqs, mixedTheory.normalize (σ.apply e.1) = mixedTheory.normalize (σ.apply e.2) := by
  intro x y g a b eqs base unifiers
  have hflat : ∀ e ∈ eqs, mixedTheory.Flat e.1 ∧ mixedTheory.Flat e.2 := by decide
  have hget : ∀ v t, base.get? v = some t → v = .msg "z" ∧ t = .app .pair [y, b] := by
    intro v t ht
    rw [Subst.get?_single] at ht
    split at ht
    · cases ht
      exact ⟨‹_›, rfl⟩
    · cases ht
  have hidem : base.Idempotent := by
    intro v t ht w hw
    rw [(hget v t ht).2] at hw
    have hw : w = .msg "y" := by simpa [Term.occurrences, Term.occurrencesList, y, b, Term.pubName]
      using hw
    subst hw
    decide
  have hwithin : base.Within mixedTheory.flatShape := by
    intro v t ht
    obtain ⟨rfl, rfl⟩ := hget v t ht
    exact ⟨(by decide : mixedTheory.Flat (.app .pair [y, b])), rfl⟩
  have hnormal : ∀ v t, base.get? v = some t → mixedTheory.normalize t = t := by
    intro v t ht
    rw [(hget v t ht).2]
    decide +kernel
  exact ⟨by decide +kernel,
    unifiers_extend_base assembled_mixed rfl hflat hidem hwithin hnormal ⟨1⟩⟩

end ProtocolProver
