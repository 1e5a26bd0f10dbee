import ProtocolProver.System.Basic

/-!
# Which goal comes next

Goals are ranked by the tactic, then by their class, then by age. `System.selectGoal?` gives the one
to solve next; there is none when only knowledge of message variables is left.
-/

namespace ProtocolProver

namespace Goal

/-- The fact that a goal is about. -/
def fact? (S : System) : Goal → Option Fact
  | .action f _ => some f
  | .premise node idx => (S.node? node).bind fun n => n.premises[idx]?
  | _ => none

/-- The predicate that a goal is about. Goals on knowledge are about `K`. -/
def pred? (S : System) (g : Goal) : Option String :=
  match g with
  | .knows .. => some Pred.knows
  | .chain .. => some Pred.knows
  | _ => (g.fact? S).map Fact.pred

/-- The terms that a goal is about. -/
def subject (S : System) (g : Goal) : List Term :=
  match g with
  | .knows t _ => [t]
  | .chain s t _ => [s, t]
  | _ => ((g.fact? S).map Fact.args).getD []

/-- How urgent a goal is, from 0 on. Knowledge of a message variable holds for any public value, so
it is never worth solving. -/
def urgency? : Goal → Option Nat
  | .split (.disj _) => some 5
  | .split _ => some 0
  | .knows t _ =>
    match t with
    | .name (.pub _) => some 0
    | .var v =>
      match v.sort with
      | .msg => none
      | .pub => some 0
      | .fresh => some 4
    | _ => some 4
  | .chain s _ _ => some (if s.isVar then 7 else 1)
  | .action .. => some 2
  | .premise .. => some 3

/-- Whether later steps may still give the value that the goal is about. -/
def isDeferred : Goal → Bool
  | .knows t _ => t.isMsgVar
  | .chain s _ _ => s.isVar
  | _ => false

end Goal

/-- Whether a goal has everything that a pattern asks for. -/
def GoalPattern.admits (p : GoalPattern) (S : System) (g : Goal) : Bool :=
  p.kind.all (· == g.kind)
    && p.predStart.all (fun start =>
      (g.pred? S).any fun pred => start.toList.isPrefixOf pred.toList)
    && p.persistent.all (fun b => (g.fact? S).map Fact.isPersistent == some b)
    && p.mentions.all fun f => (g.subject S).any (·.mentions f)

/-- The place of a goal in the order of the search: what the tactic says, urgency, age. -/
structure Rank where
  bucket : Nat
  urgency : Nat
  age : Nat
deriving DecidableEq, Repr

def Rank.cmp (r s : Rank) : Ordering :=
  (compare r.bucket s.bucket).then ((compare r.urgency s.urgency).then (compare r.age s.age))

namespace System

/-- What the tactic says on a goal. The most urgent goals are never reordered, and goals whose value
may still be found come last. -/
def bucket (S : System) (tactic : Option Tactic) (urgency : Nat) (g : Goal) : Nat :=
  if urgency = 0 then 0
  else if g.isDeferred then 3
  else
    match tactic with
    | none => 1
    | some t =>
      if t.prefer.any (·.admits S g) then 0
      else if t.deprioritize.any (·.admits S g) then 2
      else 1

def rank? (S : System) (tactic : Option Tactic) (g : OpenGoal) : Option Rank :=
  g.goal.urgency?.map fun u => ⟨S.bucket tactic u g.goal, u, g.id⟩

/-- The place of the goal with the least rank. -/
def selectGoal? (S : System) (tactic : Option Tactic) : Option Nat :=
  let ranked := S.goals.zipIdx.filterMap fun (g, i) => (S.rank? tactic g).map fun r => (r, i)
  let best := ranked.foldl
    (fun best r => match best with
      | none => some r
      | some b => if r.1.cmp b.1 = .lt then some r else some b) none
  best.map (·.2)

end System

end ProtocolProver
