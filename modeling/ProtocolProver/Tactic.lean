import ProtocolProver.Term.Basic

/-!
# Tactics

A tactic is a named preference among goals: those that match a pattern of `prefer` come first, those
that match one of `deprioritize` last. Tactics change the order of a search, never its meaning.
-/

namespace ProtocolProver

/-- The kinds of goals of a constraint system. -/
inductive GoalKind where
  | action
  | premise
  | knows
  | chain
  | split
deriving DecidableEq, Repr

namespace GoalKind

def all : List GoalKind := [.action, .premise, .knows, .chain, .split]

def name : GoalKind → String
  | .action => "action"
  | .premise => "premise"
  | .knows => "knows"
  | .chain => "chain"
  | .split => "split"

def ofName? (name : String) : Option GoalKind := all.find? fun k => k.name == name

end GoalKind

/-- A pattern of goals. A field that is not set matches anything. -/
structure GoalPattern where
  kind : Option GoalKind := none
  /-- How the predicate of the goal's fact starts. -/
  predStart : Option String := none
  persistent : Option Bool := none
  /-- A symbol that the goal mentions. -/
  mentions : Option Symbol := none
deriving DecidableEq, Repr

/-- A named order of goals. -/
structure Tactic where
  name : String
  prefer : List GoalPattern := []
  deprioritize : List GoalPattern := []
deriving DecidableEq, Repr

end ProtocolProver
