import ProtocolProver.System.Order

/-!
# Simplification

`System.simplify` propagates the constraints of a system until nothing changes. Two nodes on one
timepoint are the same rule instance, so they are merged, and this can split the system in branches.
A system is dropped when it draws a fresh value twice, uses up a linear fact twice, violates a
disequality or has a cycle of timepoints. At last the guarded formulas are instantiated with all
combinations of actions that match their guards.
-/

namespace ProtocolProver

/-- The terms that a node draws as fresh values. -/
def Node.freshArgs (n : Node) : List Term :=
  (n.premises.filter fun f => f.pred = Pred.fresh).flatMap Fact.args

namespace System

/-! ## Nodes that are the same -/

/-- The first two nodes on one class of timepoints. -/
def coinciding? (S : System) : Option (Nat × Nat) :=
  go [] S.liveNodes
where
  go (seen : List (TimeVar × Nat)) : List (Nat × Node) → Option (Nat × Nat)
    | [] => none
    | (id, n) :: rest =>
      let c := S.find n.time
      match seen.lookup c with
      | some first => some (first, id)
      | none => go ((c, id) :: seen) rest

/-- The fresh values of one node, against those that earlier nodes drew: a value that was drawn on
another timepoint gives the two timepoints. -/
def freshClashAt (S : System) (n : Node) (seen : List (Term × TimeVar)) :
    List (Term × TimeVar) × Option (TimeVar × TimeVar) :=
  n.freshArgs.foldl
    (fun (seen, clash) t =>
      match seen.lookup t with
      | some i => (seen, if S.find i = S.find n.time then clash else some (i, n.time))
      | none => ((t, n.time) :: seen, clash))
    (seen, none)

/-- Two timepoints on which the same fresh value is drawn, so that they must be one. -/
def freshClash? (S : System) : Option (TimeVar × TimeVar) :=
  go [] S.liveNodes
where
  go (seen : List (Term × TimeVar)) : List (Nat × Node) → Option (TimeVar × TimeVar)
    | [] => none
    | (_, n) :: rest =>
      match S.freshClashAt n seen with
      | (_, some clash) => some clash
      | (seen, none) => go seen rest

/-- Removes node `b`, which is the same instance as `a`. Premises of `b`, and premises that an edge
already provides, are no goals any more. -/
def absorb (S : System) (a b : Nat) : System :=
  let edges := SortedSet.map (Edge.redirect a b) S.edges
  let keep (g : OpenGoal) : Bool := match g.goal with
    | .premise node idx =>
      node != b && !(SortedSet.toList edges).any fun e => e.target == ⟨node, idx⟩
    | _ => true
  { S with
    nodes := S.nodes.set b none
    edges := edges
    applied := SortedSet.map (GuardUse.redirect a b) S.applied
    goals := S.goals.filter keep }

/-- Merges node `b` into `a`. Instances of different rules are never the same. -/
def merge (S : System) (m : Model) (a b : Nat) : Branches :=
  match S.node? a, S.node? b with
  | some n, some k =>
    if n.rule = k.rule then
      let eqs := n.subst.entries.filterMap fun (v, t) => (k.subst.get? v).map fun u => (t, u)
      (S.absorb a b).unify m.theory eqs
    else {}
  | _, _ => {}

/-! ## Contradictions -/

/-- Whether a rule instance draws the same fresh value for two of its premises. -/
def drawsFreshTwice (S : System) : Bool :=
  S.liveNodes.any fun (_, n) => !decide n.freshArgs.Nodup

/-- Whether every linear conclusion is used up at most once. -/
def consumesOnce (S : System) : Bool :=
  let used := ((SortedSet.toList S.edges).map Edge.source).filter fun p =>
    !((S.node? p.node).bind fun n => n.conclusions[p.idx]?).any Fact.isPersistent
  decide used.Nodup

/-- Whether no disequality has equal sides. -/
def disequalitiesHold (S : System) : Bool := S.disequalities.all fun (s, t) => s != t

/-- Drops goals that are there already. -/
def dedupGoals (S : System) : System :=
  let add (kept : List OpenGoal) (g : OpenGoal) : List OpenGoal :=
    if kept.any fun k => k.goal = g.goal then kept else kept ++ [g]
  { S with goals := S.goals.foldl add [] }

/-! ## Guarded formulas -/

/-- A partial match of the actions of a guard. -/
structure GuardMatch where
  subst : Subst
  times : SortedMap TimeVar TimeVar
  chosen : List Endpoint

/-- Whether a timepoint of a guard can be that of a node, given the timepoints matched so far. -/
def timeFits (S : System) (bs : List Binder) (found : GuardMatch) (i : TimeVar) (n : Node) : Bool :=
  if bs.contains (.time i) then
    (found.times.get? i).all fun j => S.find j = S.find n.time
  else S.find i = S.find n.time

/-- The ways to match one more action of a guard. -/
def matchAction (S : System) (bs : List Binder) (found : GuardMatch) (pattern : Fact)
    (i : TimeVar) : List GuardMatch :=
  S.liveNodes.flatMap fun (id, n) =>
    if S.timeFits bs found i n then
      n.actions.zipIdx.filterMap fun (action, a) =>
        if action.sameShape pattern then
          (matchTerms? pattern.args action.args found.subst).map fun σ =>
            ⟨σ, found.times.insert i n.time, found.chosen ++ [⟨id, a⟩]⟩
        else none
    else []

/-- The matches of all actions of a guard. Variables that the formula does not bind stand for
themselves. -/
def guardMatches (S : System) (g : Guarded) : List GuardMatch :=
  let free := (factOccurrences (g.actions.map (·.1))).filter fun v => !g.binders.contains (.msg v)
  let start : GuardMatch := ⟨SortedMap.ofList (free.map fun v => (v, .var v)), ∅, []⟩
  g.actions.foldl
    (fun found (pattern, i) => found.flatMap fun p => S.matchAction g.binders p pattern i) [start]

/-- Instantiates the guarded formulas for every new combination of actions. -/
def saturate (S : System) : System :=
  let uses := S.guarded.zipIdx.flatMap fun (g, k) =>
    (S.guardMatches g).filterMap fun p =>
      if SortedSet.contains S.applied ⟨k, p.chosen⟩ then none
      else
        let terms := p.subst.filterKeys fun v => g.binders.contains (.msg v)
        some (GuardUse.mk k p.chosen, g.requirement ⟨terms, p.times⟩)
  uses.foldl
    (fun S (use, f) => { S with applied := SortedSet.insert S.applied use }.pushGoal (.split f)) S

/-! ## All together -/

/-- A step of simplification: the system is stable, or it is replaced by others. -/
inductive Simplified where
  | stable (S : System)
  | split (b : Branches)

/-- Checks a system in which no two nodes are the same, and instantiates its guarded formulas. -/
def settle (S : System) : Simplified :=
  if S.drawsFreshTwice then .split {}
  else
    let S := S.dedupGoals
    if S.disequalitiesHold && S.consumesOnce && S.isAcyclic then .stable S.saturate else .split {}

def simplifyStep (S : System) (m : Model) : Simplified :=
  match S.coinciding? with
  | some (a, b) => .split (S.merge m a b)
  | none =>
    match S.freshClash? with
    | none => S.settle
    | some (i, j) =>
      let S := S.union i j
      match S.coinciding? with
      | some (a, b) => .split (S.merge m a b)
      | none => S.settle

/-- Simplifies with at most the given number of merges in a row. -/
def simplifyWithin (m : Model) : Nat → System → Branches
  | 0, S =>
    match S.simplifyStep m with
    | .stable S => .one S
    | .split b => ⟨[], b.lossy⟩
  | n + 1, S =>
    match S.simplifyStep m with
    | .stable S => .one S
    | .split b => b.bind (simplifyWithin m n)

/-- Propagates constraints until the system is stable. Every merge leaves one node less. -/
def simplify (S : System) (m : Model) : Branches := simplifyWithin m S.liveNodes.length S

end System

end ProtocolProver
