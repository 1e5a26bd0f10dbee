import ProtocolProver.System.Basic

/-!
# The order of timepoints

The ordering constraints of a system relate classes of timepoints. `System.isAcyclic` checks that
they can be met, and `System.linearize` puts the nodes in an order that meets them.
-/

namespace ProtocolProver

namespace Precedence

/-- How far a search has come with a timepoint. -/
inductive Mark where
  /-- What comes after it is being searched. -/
  | active
  /-- All that comes after it was searched. -/
  | done
deriving DecidableEq, Repr

/-- What a search still has to do. -/
inductive Visit where
  /-- To search what comes after a timepoint, unless it has a mark already. -/
  | enter (i : TimeVar)
  /-- To mark a timepoint as done. -/
  | leave (i : TimeVar)
deriving DecidableEq, Repr

/-- The timepoints right after `i`. -/
def next (ps : List Precedence) (i : TimeVar) : List TimeVar :=
  (ps.filter fun p => p.earlier = i).map later

/-- A depth first search along precedences. -/
structure Walk where
  marks : SortedMap TimeVar Mark := ∅
  /-- What is left to do, the first of it next. -/
  visits : List Visit

namespace Walk

/-- The search from every timepoint that has another one after it. -/
def start (ps : List Precedence) : Walk where
  visits := ps.map fun p => .enter p.earlier

/-- One step of a search, or the answer whether there is no cycle: none was met when nothing is left
to do, and a precedence that leads back to an active timepoint closes one. -/
def step (ps : List Precedence) (w : Walk) : Bool ⊕ Walk :=
  match w.visits with
  | [] => .inl true
  | .leave i :: rest => .inr ⟨w.marks.insert i .done, rest⟩
  | .enter i :: rest =>
    if w.marks.contains i then .inr ⟨w.marks, rest⟩
    else
      let marks := w.marks.insert i .active
      if (next ps i).any fun j => marks.get? j = some .active then .inl false
      else
        let new := (next ps i).filter fun j => !marks.contains j
        .inr ⟨marks, (new.map .enter).reverse ++ .leave i :: rest⟩

/-- The answer of a search that may take `n` steps. -/
def answer (ps : List Precedence) : (n : Nat) → Walk → Bool
  | 0, w => match w.step ps with
    | .inl b => b
    | .inr _ => false
  | n + 1, w => match w.step ps with
    | .inl b => b
    | .inr w => answer ps n w

end Walk

/-- Whether a list of precedences has no cycle. Every precedence makes at most four steps: its two
timepoints are entered, and left. -/
def acyclic (ps : List Precedence) : Bool :=
  ps.all (fun p => p.earlier ≠ p.later) && Walk.answer ps (4 * ps.length) (Walk.start ps)

/-- Timepoints that are put in order. -/
structure Queue where
  /-- How many of those that are left are right before a timepoint. -/
  indegrees : SortedMap TimeVar Nat
  /-- Those that none of the others left are right before. -/
  ready : SortedSet TimeVar

namespace Queue

/-- All of the timepoints are left. -/
def start (ps : List Precedence) (is : List TimeVar) : Queue :=
  let indegrees := SortedMap.ofList (is.map fun i => (i, ps.countP (·.later = i)))
  ⟨indegrees, SortedSet.ofList ((indegrees.entries.filter (·.2 = 0)).map (·.1))⟩

/-- One timepoint less is right before `i`. -/
def release (q : Queue) (i : TimeVar) : Queue :=
  match q.indegrees.get? i with
  | none => q
  | some d => ⟨q.indegrees.insert i (d - 1), if d - 1 = 0 then SortedSet.insert q.ready i else q.ready⟩

/-- Takes a timepoint that is ready. -/
def take (ps : List Precedence) (q : Queue) (i : TimeVar) : Queue :=
  (next ps i).foldl release { q with ready := q.ready.erase i }

end Queue

end Precedence

namespace System

/-- The ordering constraints between classes of timepoints. -/
def precedences (S : System) : List Precedence :=
  SortedSet.toList (SortedSet.map (·.map S.find) S.less)

/-- Whether the ordering constraints can be met. -/
def isAcyclic (S : System) : Bool := Precedence.acyclic S.precedences

/-- The node on a class of timepoints. -/
def nodeOn? (S : System) (c : TimeVar) : Option Nat :=
  (S.liveNodes.reverse.find? fun (_, n) => S.find n.time = c).map (·.1)

/-- The classes that have a node or an ordering constraint, in increasing order. -/
def timeline (S : System) : List TimeVar :=
  SortedSet.toList (SortedSet.ofList
    (S.liveNodes.map (fun (_, n) => S.find n.time)
      ++ S.precedences.flatMap fun p => [p.earlier, p.later]))

/-- The class with the first node, of the best one so far and another. -/
def firstNode (best : Option (TimeVar × Option Nat)) (c : TimeVar × Option Nat) :
    Option (TimeVar × Option Nat) :=
  match best with
  | none => some c
  | some b => if c.2.getD 0 < b.2.getD 0 then some c else some b

/-- The class to go on with: one without a node if there is one, else the one with the first
node. -/
def nextClass? (nodes : List (TimeVar × Option Nat)) : Option (TimeVar × Option Nat) :=
  match nodes.find? fun (_, id) => id.isNone with
  | some c => some c
  | none => nodes.foldl firstNode none

/-- Orders classes one by one, each after all that come before it. -/
def linearizeFrom (ps : List Precedence) (node : TimeVar → Option Nat) :
    Nat → Precedence.Queue → List Nat
  | 0, _ => []
  | n + 1, q =>
    match nextClass? ((SortedSet.toList q.ready).map fun c => (c, node c)) with
    | none => []
    | some (c, id) => id.toList ++ linearizeFrom ps node n (q.take ps c)

/-- The nodes in an order that meets all ordering constraints. Of nodes that could come next the one
with the smallest number is taken. -/
def linearize (S : System) : List Nat :=
  linearizeFrom S.precedences S.nodeOn? S.timeline.length (.start S.precedences S.timeline)

end System

end ProtocolProver
