import ProtocolProver.Tactic

/-!
# Statistics of a search

How often goals of each kind were solved, and how many systems this led to.
-/

namespace ProtocolProver

/-- How goals of one kind behaved. -/
structure GoalStats where
  expansions : Nat := 0
  branches : Nat := 0
  /-- Expansions that left no system. -/
  deadEnds : Nat := 0
deriving DecidableEq, Repr

namespace GoalStats

def add (s t : GoalStats) : GoalStats :=
  ⟨s.expansions + t.expansions, s.branches + t.branches, s.deadEnds + t.deadEnds⟩

/-- One expansion that led to a number of systems. -/
def once (branches : Nat) : GoalStats := ⟨1, branches, if branches = 0 then 1 else 0⟩

/-- The average number of systems that an expansion leads to. -/
def branching (s : GoalStats) : Float :=
  if s.expansions = 0 then 0 else s.branches.toFloat / s.expansions.toFloat

end GoalStats

/-- The statistics of each kind of goal that was solved. -/
structure Statistics where
  entries : List (GoalKind × GoalStats) := []
deriving DecidableEq, Repr

namespace Statistics

def get (s : Statistics) (kind : GoalKind) : GoalStats := (s.entries.lookup kind).getD {}

/-- Counts one expansion of a goal. -/
def record (s : Statistics) (kind : GoalKind) (branches : Nat) : Statistics :=
  if s.entries.any fun e => e.1 = kind then
    ⟨s.entries.map fun e => if e.1 = kind then (kind, e.2.add (.once branches)) else e⟩
  else ⟨s.entries ++ [(kind, .once branches)]⟩

end Statistics

end ProtocolProver
