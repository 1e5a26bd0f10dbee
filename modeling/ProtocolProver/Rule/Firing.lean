import ProtocolProver.FactStore
import ProtocolProver.Formula.Truth
import ProtocolProver.Knowledge
import ProtocolProver.Model

/-!
# States and the firing of rules

A state holds the facts, what the adversary knows and the fresh values drawn so far. `fire` takes
one step: premises are used up in order, the condition of the rule is checked, and conclusions are
added, with messages to the network learned by the adversary.
-/

namespace ProtocolProver

/-- A state of a run. -/
structure State where
  facts : FactStore := {}
  knowledge : Knowledge := {}
  usedFresh : SortedSet Name := ∅
  /-- The index that names the next fresh value. -/
  nextFresh : Nat := 0
deriving DecidableEq

instance : Inhabited State := ⟨{}⟩

/-- A rule instance that fired, with the state after it. -/
structure Firing where
  rule : Rule
  subst : Subst
  premises : List Fact
  actions : List Fact
  conclusions : List Fact
  state : State

def Firing.step (f : Firing) : Step :=
  ⟨f.rule.name, f.subst.entries, f.premises, f.actions, f.conclusions⟩

namespace State

/-- Uses up premise number `i`. -/
def usePremise (T : Theory) (s : State) (i : Nat) (premise : Fact) : Except FireError State :=
  if premise.pred = Pred.fresh then
    match premise.args.head? with
    | some (.name (.fresh name idx)) =>
      if SortedSet.contains s.usedFresh (.fresh name idx) then .error (.freshReused i)
      else .ok { s with usedFresh := SortedSet.insert s.usedFresh (.fresh name idx) }
    | _ => .error (.notFresh i)
  else if premise.pred = Pred.input then
    if premise.args.all (s.knowledge.derives T) then .ok s else .error (.underivable i)
  else
    match s.facts.consume? premise with
    | some facts => .ok { s with facts }
    | none => .error (.missingFact i)

/-- Uses up premises in order, numbered from `i`. -/
def usePremises (T : Theory) : State → (i : Nat) → List Fact → Except FireError State
  | s, _, [] => .ok s
  | s, i, f :: fs =>
    match s.usePremise T i f with
    | .ok s => s.usePremises T (i + 1) fs
    | .error e => .error e

/-- Adds a conclusion. What is sent to the network is learned. -/
def addConclusion (T : Theory) (s : State) (f : Fact) : State :=
  if f.pred = Pred.output then
    { s with knowledge := f.args.foldl (fun K t => K.learn T t) s.knowledge }
  else { s with facts := s.facts.produce f }

end State

/-- The instances of facts, if all are ground. -/
def groundFacts (T : Theory) (σ : Subst) (fs : List Fact) : Except FireError (List Fact) :=
  fs.mapM fun f =>
    let g := f.instantiate T σ
    if g.isGround then .ok g else .error .notGround

/-- Fires `r` under `σ`. Every premise uses up a fact of its own. -/
def fire (T : Theory) (s : State) (r : Rule) (σ : Subst) : Except FireError Firing := do
  let premises ← groundFacts T σ r.premises
  let actions ← groundFacts T σ r.actions
  let conclusions ← groundFacts T σ r.conclusions
  let s ← s.usePremises T 0 premises
  if let some f := r.restrict then
    unless (f.instantiate (.ofSubst σ)).holds T [] do throw .restricted
  return ⟨r, σ, premises, actions, conclusions, conclusions.foldl (·.addConclusion T) s⟩

end ProtocolProver
