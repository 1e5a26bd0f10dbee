import ProtocolProver.Search.Prover

/-!
# Lemmas and their verdicts

`evaluate` searches for a trace that shows a property, or for one that refutes it.
-/

namespace ProtocolProver

/-- Where a search stopped without an answer. -/
structure Diagnostics where
  steps : Nat
  openGoals : Nat
  reason : InconclusiveReason
deriving DecidableEq, Repr

inductive Verdict where
  /-- A property of some trace comes with that trace. -/
  | proven (witness : Option Trace)
  /-- A property of all traces comes with one that violates it. -/
  | falsified (counterexample : Option Trace)
  | inconclusive (diagnostics : Diagnostics)
deriving DecidableEq

namespace Verdict

def name : Verdict → String
  | .proven _ => "proven"
  | .falsified _ => "falsified"
  | .inconclusive _ => "inconclusive"

/-- The trace that comes with a verdict. -/
def trace? : Verdict → Option Trace
  | .proven w => w
  | .falsified c => c
  | .inconclusive _ => none

/-- What the end of a search for the target of a lemma says on the lemma. -/
def ofSearch (kind : LemmaKind) (r : SearchResult) : Verdict :=
  match kind, r.outcome with
  | .existsTrace, .witness trace => .proven (some trace)
  | .existsTrace, .exhausted => .falsified none
  | .allTraces, .witness trace => .falsified (some trace)
  | .allTraces, .exhausted => .proven none
  | _, .inconclusive reason => .inconclusive ⟨r.steps, r.openGoals, reason⟩

end Verdict

/-- The tactic that a lemma names. -/
def Lemma.findTactic (m : Model) (l : Lemma) : Except ModelError (Option Tactic) :=
  match l.tactic with
  | none => .ok none
  | some name =>
    match m.tactic? name with
    | some t => .ok (some t)
    | none => .error (.unknownTactic l.name name)

/-- Evaluates one lemma within a budget. -/
def evaluate (m : Model) (l : Lemma) (budget : Budget) (host : Search.Host := {}) :
    Except ModelError Verdict := do
  let tactic ← l.findTactic m
  return .ofSearch l.kind (search { model := m, target := l.target, tactic, budget, host })

/-- Evaluates every lemma of a model in declaration order. One that fails does not stop the
others. -/
def evaluateAll (m : Model) (budget : Budget) (host : String → Search.Host := fun _ => {}) :
    List (String × Except ModelError Verdict) :=
  m.lemmas.map fun l => (l.name, evaluate m l budget (host l.name))

end ProtocolProver
