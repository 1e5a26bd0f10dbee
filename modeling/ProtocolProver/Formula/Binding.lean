import ProtocolProver.Formula.Basic

/-!
# Instances of formulas

A `Binding` gives values to quantified variables. `Nnf.instantiate` puts them into a formula, except
where an inner quantifier binds the variable again; `Nnf.map` replaces terms and timepoints
everywhere.
-/

namespace ProtocolProver

/-- Values for term and timepoint variables. -/
structure Binding where
  terms : Subst := ∅
  times : SortedMap TimeVar TimeVar := ∅

namespace Binding

def ofSubst (σ : Subst) : Binding := { terms := σ }

/-- The binding without the variables of a quantifier. -/
def without (b : Binding) (bs : List Binder) : Binding where
  terms := b.terms.filterKeys fun v => !bs.contains (.msg v)
  times := b.times.filterKeys fun i => !bs.contains (.time i)

def time (b : Binding) (i : TimeVar) : TimeVar := (b.times.get? i).getD i

end Binding

def Atom.instantiate (b : Binding) (a : Atom) : Atom := a.map b.terms.apply b.time

namespace Nnf

mutual

/-- Replaces every term and timepoint. Binders stay as they are. -/
def map (terms : Term → Term) (times : TimeVar → TimeVar) : Nnf → Nnf
  | .top => .top
  | .bot => .bot
  | .atom a => .atom (a.map terms times)
  | .neq s t => .neq (terms s) (terms t)
  | .conj fs => .conj (mapList terms times fs)
  | .disj fs => .disj (mapList terms times fs)
  | .ex bs f => .ex bs (map terms times f)
  | .guarded bs gs f => .guarded bs (gs.map (·.map terms times)) (map terms times f)

def mapList (terms : Term → Term) (times : TimeVar → TimeVar) : List Nnf → List Nnf
  | [] => []
  | f :: fs => map terms times f :: mapList terms times fs

end

mutual

/-- Puts in the values of a binding, up to quantifiers that bind the same variables. -/
def instantiate (b : Binding) : Nnf → Nnf
  | .top => .top
  | .bot => .bot
  | .atom a => .atom (a.instantiate b)
  | .neq s t => .neq (b.terms.apply s) (b.terms.apply t)
  | .conj fs => .conj (instantiateList b fs)
  | .disj fs => .disj (instantiateList b fs)
  | .ex bs f => .ex bs (instantiate (b.without bs) f)
  | .guarded bs gs f =>
    .guarded bs (gs.map (·.instantiate (b.without bs))) (instantiate (b.without bs) f)

def instantiateList (b : Binding) : List Nnf → List Nnf
  | [] => []
  | f :: fs => instantiate b f :: instantiateList b fs

end

mutual

def freeOccurrences : Nnf → List Var
  | .top | .bot => []
  | .atom a => Term.occurrencesList a.terms
  | .neq s t => Term.occurrencesList [s, t]
  | .conj fs => freeOccurrencesList fs
  | .disj fs => freeOccurrencesList fs
  | .ex bs f => (freeOccurrences f).filter fun v => !bs.contains (.msg v)
  | .guarded bs gs f =>
    (gs.flatMap (fun a => Term.occurrencesList a.terms) ++ freeOccurrences f).filter
      fun v => !bs.contains (.msg v)

def freeOccurrencesList : List Nnf → List Var
  | [] => []
  | f :: fs => freeOccurrences f ++ freeOccurrencesList fs

end

mutual

def terms : Nnf → List Term
  | .top | .bot => []
  | .atom a => a.terms
  | .neq s t => [s, t]
  | .conj fs => termsList fs
  | .disj fs => termsList fs
  | .ex _ f => terms f
  | .guarded _ gs f => gs.flatMap Atom.terms ++ terms f

def termsList : List Nnf → List Term
  | [] => []
  | f :: fs => terms f ++ termsList fs

end

mutual

def times : Nnf → List TimeVar
  | .top | .bot => []
  | .atom a => a.times
  | .neq .. => []
  | .conj fs => timesList fs
  | .disj fs => timesList fs
  | .ex _ f => times f
  | .guarded _ gs f => gs.flatMap Atom.times ++ times f

def timesList : List Nnf → List TimeVar
  | [] => []
  | f :: fs => times f ++ timesList fs

end

end Nnf

namespace Guarded

def map (terms : Term → Term) (times : TimeVar → TimeVar) (g : Guarded) : Guarded where
  binders := g.binders
  guard := g.guard.map (·.map terms times)
  body := g.body.map terms times

/-- The actions of the guard with their timepoints. -/
def actions (g : Guarded) : List (Fact × TimeVar) := g.guard.filterMap Atom.action?

/-- The guard atoms that are not actions. -/
def conditions (g : Guarded) : List Atom := g.guard.filter fun a => a.action?.isNone

/-- What must hold where the actions of the guard are found: a condition of the guard fails, or the
body is true. -/
def requirement (g : Guarded) (b : Binding) : Nnf :=
  let failures := g.conditions.filterMap fun a => (a.instantiate b).negate.toOption
  let body := g.body.instantiate b
  if failures.isEmpty then body else .disj (failures ++ [body])

end Guarded

/-- Renames the variables of a quantifier apart, all with the same new index. -/
def renameBinders (bs : List Binder) : StateM VarSupply (List Binder × Binding) := do
  let idx ← VarSupply.draw
  let fresh : Binder → Binder
    | .msg v => .msg { v with idx }
    | .time i => .time { i with idx }
  let extend (b : Binding) : Binder → Binding
    | .msg v => { b with terms := b.terms.insert v (.var { v with idx }) }
    | .time i => { b with times := b.times.insert i { i with idx } }
  return (bs.map fresh, bs.foldl extend {})

end ProtocolProver
