import ProtocolProver.Rule.Firing

/-!
# Replaying a trace

`replay` runs the steps of a trace from the empty state and checks that each is an instance of the
rule it names, with the facts it records.
-/

namespace ProtocolProver

def replayStep (m : Model) (s : State) (i : Nat) (step : Step) : Except ReplayError State :=
  match m.rule? step.rule with
  | none => .error (.unknownRule i step.rule)
  | some r =>
    match fire m.theory s r (SortedMap.ofList step.subst) with
    | .error cause => .error (.fire i step.rule cause)
    | .ok f =>
      if f.premises = step.premises ∧ f.actions = step.actions ∧ f.conclusions = step.conclusions
      then .ok f.state
      else .error (.mismatch i step.rule)

/-- Runs steps numbered from `i`, and gives the state before the first and after each. -/
def replayFrom (m : Model) : State → (i : Nat) → Trace → Except ReplayError (List State)
  | s, _, [] => .ok [s]
  | s, i, step :: steps => do
    let next ← replayStep m s i step
    return s :: (← replayFrom m next (i + 1) steps)

/-- Runs a trace from the empty state. -/
def replay (m : Model) (trace : Trace) : Except ReplayError (List State) := replayFrom m {} 0 trace

end ProtocolProver
