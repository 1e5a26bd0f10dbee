import ProtocolProver.Data.SortedMap
import ProtocolProver.Term.Order

/-!
# Substitutions and fresh variables

A substitution is a finite map from variables to terms. `Subst.apply` replaces variables by their
values and leaves the rest of a term alone; `Subst.bind` adds a binding and applies it to the older
values so that no bound variable occurs in a value. A `VarSupply` hands out indices for renaming
apart.
-/

namespace ProtocolProver

mutual

/-- Evaluates a term bottom up: `ρ` gives the variables, `op` the applications. -/
def Term.eval (ρ : Var → Term) (op : Symbol → List Term → Term) : Term → Term
  | .var v => ρ v
  | .name n => .name n
  | .app f as => op f (Term.evalList ρ op as)

def Term.evalList (ρ : Var → Term) (op : Symbol → List Term → Term) : List Term → List Term
  | [] => []
  | a :: as => Term.eval ρ op a :: Term.evalList ρ op as

end

theorem Term.evalList_eq (ρ : Var → Term) (op : Symbol → List Term → Term) (as : List Term) :
    Term.evalList ρ op as = as.map (Term.eval ρ op) := by
  induction as with
  | nil => rfl
  | cons a as ih => simp [Term.evalList, ih]

/-- A finite map from variables to terms. -/
abbrev Subst : Type := SortedMap Var Term

namespace Subst

/-- The value of a variable, itself if it is not bound. -/
def value (σ : Subst) (v : Var) : Term := (σ.get? v).getD (.var v)

/-- Replaces every variable by its value. The result is not normalized. -/
def apply (σ : Subst) (t : Term) : Term := t.mapVars σ.value

def single (v : Var) (t : Term) : Subst := (∅ : Subst).insert v t

/-- Adds `v ↦ t`, with `t` and the older values brought up to date and normalized. The caller sees
to it that `v` does not occur in `t` and that their sorts agree. -/
def bind (normalize : Term → Term) (σ : Subst) (v : Var) (t : Term) : Subst :=
  let t := normalize (σ.apply t)
  let update (u : Term) : Term := if u.occurs v then normalize ((single v t).apply u) else u
  (σ.mapValues update).insert v t

def restrict (σ : Subst) (vs : List Var) : Subst := σ.filterKeys vs.contains

end Subst

/-- A counter of variable indices. Index 0 is kept for templates. -/
structure VarSupply where
  next : Nat := 1
deriving DecidableEq, Repr

namespace VarSupply

/-- Takes an unused index. -/
def draw : StateM VarSupply Nat := modifyGet fun s => (s.next, ⟨s.next + 1⟩)

def freshVar (name : String) (sort : TermSort) : StateM VarSupply Var := do
  return ⟨name, ← draw, sort⟩

/-- Renames variables to unused ones, all with the same new index. -/
def renameApart (vs : List Var) : StateM VarSupply Subst := do
  let idx ← draw
  return SortedMap.ofList (vs.map fun v => (v, .var { v with idx }))

end VarSupply

end ProtocolProver
