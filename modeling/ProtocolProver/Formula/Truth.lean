import ProtocolProver.Formula.Binding
import ProtocolProver.Trace.Basic

/-!
# Truth of a formula on a trace

`Nnf.holds` evaluates a formula in negation normal form on a ground trace. Quantified variables that
an action fixes are found by matching; the others range over the subterms of the trace and over its
timepoints.
-/

namespace ProtocolProver

/-- The values of the variables bound so far. -/
structure Assignment where
  terms : Subst := ∅
  times : SortedMap TimeVar Nat := ∅

/-- A trace with the theory in which its terms are compared and the terms that variables range
over. -/
structure Interpretation where
  trace : Trace
  theory : Theory
  domain : List Term

namespace Interpretation

def ofTrace (T : Theory) (trace : Trace) : Interpretation := ⟨trace, T, trace.subterms⟩

/-- The normal form of a term under an assignment. -/
def value (I : Interpretation) (a : Assignment) (t : Term) : Term :=
  I.theory.normalize (a.terms.apply t)

/-- Whether an atom is true. An atom about a timepoint without a value is false. -/
def atomHolds (I : Interpretation) (a : Assignment) (atom : Atom) : Bool :=
  match atom.action? with
  | some (fact, i) =>
    match a.times.get? i with
    | none => false
    | some n =>
      let args := fact.args.map (I.value a)
      I.trace[n]?.any fun s => s.actions.any fun f => f.pred == fact.pred && f.args == args
  | none =>
    match atom with
    | .less i j =>
      match a.times.get? i, a.times.get? j with
      | some m, some n => m < n
      | _, _ => false
    | .timeEq i j =>
      match a.times.get? i, a.times.get? j with
      | some m, some n => m == n
      | _, _ => false
    | .eq s t => I.value a s == I.value a t
    | _ => false

/-- The ways to extend an assignment so that the step at timepoint `n` emits `fact` at `i`. -/
def matchStep (I : Interpretation) (a : Assignment) (fact : Fact) (i : TimeVar) (n : Nat) :
    List Assignment :=
  let patterns := fact.args.map (I.value a)
  let actions := ((I.trace[n]?.map Step.actions).getD []).filter (·.sameShape fact)
  actions.filterMap fun action =>
    (matchTerms? patterns action.args a.terms).map fun terms => ⟨terms, a.times.insert i n⟩

/-- The ways to extend an assignment so that some step emits `fact` at `i`. A timepoint that is
neither assigned nor bound by the quantifier has no value. -/
def matchAction (I : Interpretation) (bs : List Binder) (fact : Fact) (i : TimeVar)
    (a : Assignment) :
    List Assignment :=
  let steps := match a.times.get? i with
    | some n => [n]
    | none => if bs.contains (.time i) then List.range I.trace.length else []
  steps.flatMap (I.matchStep a fact i)

/-- The values of a binder that has none yet. -/
def range (I : Interpretation) (b : Binder) (a : Assignment) : List Assignment :=
  match b with
  | .msg v =>
    if a.terms.contains v then [a]
    else (I.domain.filter fun t => v.sort.admits t.sort).map fun t =>
      { a with terms := a.terms.insert v t }
  | .time i =>
    if a.times.contains i then [a]
    else (List.range I.trace.length).map fun n => { a with times := a.times.insert i n }

/-- The extensions of an assignment to the variables of a quantifier under which `actions`
happen. -/
def extensions (I : Interpretation) (bs : List Binder) (actions : List (Fact × TimeVar))
    (a : Assignment) : List Assignment :=
  let start : Assignment :=
    ⟨a.terms.filterKeys fun v => !bs.contains (.msg v),
      a.times.filterKeys fun i => !bs.contains (.time i)⟩
  let matched := actions.foldl (fun as (fact, i) => as.flatMap (I.matchAction bs fact i)) [start]
  bs.foldl (fun as b => as.flatMap (I.range b)) matched

end Interpretation

namespace Nnf

mutual

/-- The actions that a formula requires as a conjunct. -/
def requiredActions : Nnf → List (Fact × TimeVar)
  | .conj fs => requiredActionsList fs
  | .atom a => a.action?.toList
  | _ => []

def requiredActionsList : List Nnf → List (Fact × TimeVar)
  | [] => []
  | f :: fs => requiredActions f ++ requiredActionsList fs

end

mutual

/-- Truth under an assignment. -/
def eval (I : Interpretation) : Nnf → Assignment → Bool
  | .top, _ => true
  | .bot, _ => false
  | .atom p, a => I.atomHolds a p
  | .neq s t, a => I.value a s != I.value a t
  | .conj fs, a => evalAll I fs a
  | .disj fs, a => evalAny I fs a
  | .ex bs f, a => (I.extensions bs f.requiredActions a).any fun a => eval I f a
  | .guarded bs gs f, a =>
    (I.extensions bs (gs.filterMap Atom.action?) a).all fun a =>
      !(gs.filter fun g => g.action?.isNone).all (I.atomHolds a) || eval I f a

def evalAll (I : Interpretation) : List Nnf → Assignment → Bool
  | [], _ => true
  | f :: fs, a => eval I f a && evalAll I fs a

def evalAny (I : Interpretation) : List Nnf → Assignment → Bool
  | [], _ => false
  | f :: fs, a => eval I f a || evalAny I fs a

end

/-- Whether a formula holds on a ground trace. -/
def holds (f : Nnf) (T : Theory) (trace : Trace) : Bool :=
  f.eval (Interpretation.ofTrace T trace) {}

end Nnf

end ProtocolProver
