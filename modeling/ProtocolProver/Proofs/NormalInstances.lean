import ProtocolProver.Proofs.Unifiers

/-!
# Instances of variables by normal terms

An instance gives every variable a normal term of its sort, and with that every term a value
(`Instance.value`), the normal form of what it then stands for. Equations are solved by instances. A
substitution is absorbed by an instance if each value stands for the same as the variable that it is
put in for. This is kept when a binding is added that the instance makes true (`Absorbs.bind`).
-/

namespace ProtocolProver

theorem TermAlgebra.value_congr {A : Type} {M : TermAlgebra A} {ρ τ : Var → A} {t : Term}
    (h : ∀ x ∈ t.occurrences, ρ x = τ x) : M.value ρ t = M.value τ t := by
  induction t using Term.induction_args with
  | var x => exact h x (List.mem_singleton.2 rfl)
  | name n => rfl
  | app f as ih =>
    rw [value_app, value_app]
    refine congrArg (M.op f) (List.map_congr_left fun a ha => ih a ha fun x hx => ?_)
    exact h x (Term.mem_occurrences_app.2 ⟨a, ha, hx⟩)

/-- Variables of the shape are given values of the shape. -/
def Subst.Inside (σ : Subst) (P : Shape) : Prop := ∀ x t, σ.get? x = some t → P.var x ∧ t.Has P

namespace Subst.Inside

variable {σ : Subst} {P : Shape}

theorem empty : (∅ : Subst).Inside P := nofun

theorem value (h : σ.Inside P) {x : Var} (hx : P.var x) : (σ.value x).Has P := by
  cases ht : σ.get? x with
  | none => rw [value_of_get?_eq_none ht]; exact .var hx
  | some t => rw [value_of_get? ht]; exact (h x t ht).2

theorem apply (h : σ.Inside P) {t : Term} (ht : t.Has P) : (σ.apply t).Has P :=
  ht.mapVars (fun _ hx => h.value (ht.var_of_mem hx)) (fun _ h => h) fun _ _ h => h

theorem single {x : Var} {t : Term} (hx : P.var x) (ht : t.Has P) : (Subst.single x t).Inside P := by
  intro y u hu
  rw [get?_single] at hu
  split at hu
  · rename_i hy
    cases hu
    exact ⟨hy ▸ hx, ht⟩
  · cases hu

theorem mono {Q : Shape} (h : σ.Inside P) (hv : ∀ v, P.var v → Q.var v)
    (hn : ∀ n, P.name n → Q.name n) (hf : ∀ f n, P.app f n → Q.app f n) : σ.Inside Q :=
  fun x t ht => ⟨hv x (h x t ht).1, (h x t ht).2.mono hv hn hf⟩

theorem bind {T : Theory} (hT : T.Keeps P) (h : σ.Inside P) {x : Var} {t : Term} (hx : P.var x)
    (ht : t.Has P) : (σ.bind T.normalize x t).Inside P := by
  have ht' := hT.has_normalize (h.apply ht)
  exact forall_get?_bind h ⟨hx, ht'⟩ fun y u hu => ⟨hu.1, hT.has_normalize ((single hx ht').apply hu.2)⟩

end Subst.Inside

namespace Theory

/-- A normal term of its sort for every variable. -/
structure Instance (T : Theory) where
  term : Var → { t // T.Normal t }
  sort (x : Var) : x.sort.admits (term x).1.sort = true

namespace Instance

variable {T : Theory} (ρ : T.Instance)

/-- The normal form of what a term stands for. -/
noncomputable def value : Term → { t // T.Normal t } := (T.normals.flatten T).value ρ.term

@[simp] theorem value_var (x : Var) : ρ.value (.var x) = ρ.term x := rfl

theorem coe_value_name (n : Name) : (ρ.value (.name n)).1 = .name n := rfl

variable {ρ} {τ : T.Instance} {σ : Subst} {t : Term}

theorem value_congr (h : ∀ x ∈ t.occurrences, ρ.term x = τ.term x) : ρ.value t = τ.value t :=
  TermAlgebra.value_congr h

/-- Each value of the substitution stands for the same as the variable that it is put in for. -/
def Absorbs (ρ : T.Instance) (σ : Subst) : Prop := ∀ x, ρ.value (σ.value x) = ρ.term x

theorem Absorbs.apply (h : ρ.Absorbs σ) (t : Term) : ρ.value (σ.apply t) = ρ.value t := by
  unfold value
  rw [Subst.apply, TermAlgebra.value_mapVars]
  exact TermAlgebra.value_congr fun x _ => h x

theorem absorbs_single {x : Var} (h : ρ.term x = ρ.value t) : ρ.Absorbs (Subst.single x t) := by
  intro y
  by_cases hy : y = x
  · rw [hy, Subst.value_single_self, h]
  · rw [Subst.value_single_of_ne hy]
    rfl

/-- Both sides of every equation stand for the same. -/
def Solves (ρ : T.Instance) (eqs : List Equation) : Prop := ∀ e ∈ eqs, ρ.value e.1 = ρ.value e.2

/-- The instances are the same on all variables with an index below `k`. -/
def AgreesBelow (ρ τ : T.Instance) (k : Nat) : Prop := ∀ x : Var, x.idx < k → ρ.term x = τ.term x

theorem AgreesBelow.refl {k : Nat} : ρ.AgreesBelow ρ k := fun _ _ => rfl

theorem AgreesBelow.trans {υ : T.Instance} {j k : Nat} (h : ρ.AgreesBelow τ j)
    (h' : τ.AgreesBelow υ k) (hjk : j ≤ k) : ρ.AgreesBelow υ j := fun x hx =>
  (h x hx).trans (h' x (hx.trans_le hjk))

theorem AgreesBelow.value {k : Nat} (h : ρ.AgreesBelow τ k) (ht : ∀ x ∈ t.occurrences, x.idx < k) :
    τ.value t = ρ.value t :=
  value_congr fun x hx => (h x (ht x hx)).symm

/-- The instance with another term for one message variable. -/
def set (ρ : T.Instance) (x : Var) (hx : x.sort = .msg) (u : { t // T.Normal t }) : T.Instance where
  term y := if y = x then u else ρ.term y
  sort y := by
    split
    · rename_i hy
      rw [hy, hx]
      rfl
    · exact ρ.sort y

section Set

variable {x : Var} {hx : x.sort = .msg} {u : { t // T.Normal t }}

theorem value_set_self : (ρ.set x hx u).value (.var x) = u := if_pos rfl

theorem agreesBelow_set {k : Nat} (h : k ≤ x.idx) : ρ.AgreesBelow (ρ.set x hx u) k := by
  intro y hy
  refine (if_neg ?_).symm
  rintro rfl
  omega

end Set

variable (hT : T.Standard)

include hT

theorem coe_value (ht : T.Flat t) :
    (ρ.value t).1 = t.eval (fun x => (ρ.term x).1) (T.reduce reductionLimit) := by
  unfold value
  rw [hT.value_flatten_normals ρ.term ht, hT.coe_normals_value ρ.term ht]

theorem coe_value_app {f : Symbol} {as : List Term} (h : T.Flat (.app f as)) :
    (ρ.value (.app f as)).1 = T.reduce reductionLimit f (as.map fun a => (ρ.value a).1) := by
  rw [coe_value hT h, Term.eval_app]
  refine congrArg _ (List.map_congr_left fun a ha => ?_)
  exact (coe_value hT ((Term.has_app.1 h).2 a ha)).symm

theorem value_normalize (ht : T.Flat t) : ρ.value (T.normalize t) = ρ.value t :=
  hT.value_normalize hT.normals_satisfies ρ.term ht

/-- An instance that has absorbed a substitution absorbs a binding that it makes true. -/
theorem Absorbs.bind (h : ρ.Absorbs σ) (hσ : σ.Inside T.flatShape) (ht : T.Flat t) {x : Var}
    (hx : ρ.term x = ρ.value t) : ρ.Absorbs (σ.bind T.normalize x t) := by
  have hflat := hσ.apply ht
  have hx' : ρ.term x = ρ.value (T.normalize (σ.apply t)) := by
    rw [value_normalize hT hflat, h.apply, hx]
  have hsingle : (Subst.single x (T.normalize (σ.apply t))).Inside T.flatShape :=
    .single trivial (hT.closes_flatShape.has_normalize hflat)
  intro y
  have hget := Subst.get?_bind T.normalize σ x y t
  by_cases hy : y = x
  · rw [if_pos hy] at hget
    rw [Subst.value_of_get? hget, hy, hx']
  · rw [if_neg hy] at hget
    have hold := h y
    cases hu : σ.get? y with
    | none =>
      rw [hu] at hget
      rw [Subst.value_of_get?_eq_none hget]
      rfl
    | some u =>
      rw [Subst.value_of_get? hu] at hold
      rw [hu, Option.map_some] at hget
      rw [Subst.value_of_get? hget]
      split
      · rw [value_normalize hT (hsingle.apply (hσ y u hu).2), (absorbs_single hx').apply, hold]
      · exact hold

end Instance

end Theory

end ProtocolProver
