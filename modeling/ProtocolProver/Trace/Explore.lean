import ProtocolProver.Rule.Instances

/-!
# Exploring the runs of a model

`explore` lists the runs of a model breadth first.
-/

namespace ProtocolProver

/-- A trace with the state before its first and after each of its steps. -/
structure Run where
  trace : Trace
  states : List State

namespace Run

def empty : Run := ⟨[], [{}]⟩

/-- The state that a run ends in. -/
def last (r : Run) : State := r.states.getLastD {}

/-- The runs that are longer by one step. -/
def successors (m : Model) (r : Run) : List Run :=
  (enabledInstances m r.last).map fun f => ⟨r.trace ++ [f.step], r.states ++ [f.state]⟩

end Run

/-- Takes the first `n` runs of a queue that grows by the successors of runs shorter than
`depth`. -/
def exploreFrom (m : Model) (depth : Nat) : Nat → List Run → List Run
  | 0, _ => []
  | _ + 1, [] => []
  | n + 1, r :: queue =>
    let next := if r.trace.length < depth then r.successors m else []
    r :: exploreFrom m depth n (queue ++ next)

/-- The first `limit` runs of at most `depth` steps, breadth first. -/
def explore (m : Model) (depth limit : Nat) : List Run := exploreFrom m depth limit [.empty]

end ProtocolProver
