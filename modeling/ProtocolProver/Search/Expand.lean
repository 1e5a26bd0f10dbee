import ProtocolProver.Search.Rank
import ProtocolProver.System.Simplify

/-!
# Solving a goal

`System.expand` replaces a goal by all the ways in which it can be met, one system for each, and
simplifies the results.
-/

namespace ProtocolProver

namespace System

/-- Takes a formula apart. -/
def expandSplit (S : System) (m : Model) : Nnf → Branches
  | .top => .one S
  | .bot => {}
  | .conj fs => .one (S.pushGoals (fs.map .split))
  | .disj fs => ⟨fs.map fun f => S.pushGoal (.split f), false⟩
  | .ex bs f =>
    let ((_, binding), S) := S.drawing (renameBinders bs)
    .one (S.pushGoal (.split (f.instantiate binding)))
  | .guarded bs gs f => .one { S with guarded := S.guarded ++ [⟨bs, gs, f⟩] }
  | .neq s t => .one { S with disequalities := S.disequalities ++ [(s, t)] }
  | .atom (.action f i) => .one (S.pushGoal (.action f i))
  | .atom (.knows t i) => .one (S.pushGoal (.action (.linear Pred.knows [t]) i))
  | .atom (.less i j) => .one (S.addLess i j)
  | .atom (.timeEq i j) => .one (S.union i j)
  | .atom (.eq s t) => S.unify m.theory [(s, t)]

/-- An action is emitted by the node on its timepoint. If there is none yet, it is a node moved
there or a new one. -/
def expandAction (S : System) (m : Model) (f : Fact) (i : TimeVar) : Branches :=
  let emittedBy (S : System) (n : Node) : Branches :=
    .concat ((n.actions.filter (·.sameShape f)).map fun a => S.unify m.theory (f.equations a))
  match S.nodeAt? i with
  | some id => ((S.node? id).map (emittedBy S)).getD {}
  | none =>
    let moved := S.liveNodes.map fun (_, n) => emittedBy (S.union i n.time) n
    let new := (m.emitters f.pred).map fun (rule, a) =>
      let (id, S) := S.addNode m rule (some i)
      match (S.node? id).bind fun n => n.actions[a]? with
      | some emitted =>
        if emitted.sameShape f then S.unify m.theory (f.equations emitted) else {}
      | none => {}
    .concat (moved ++ new)

/-- A premise is provided by a conclusion of another node or of a new one. -/
def expandPremise (S : System) (m : Model) (node idx : Nat) : Branches :=
  match (S.node? node).bind fun n => n.premises[idx]? with
  | none => .one S
  | some wanted =>
    let provide (S : System) (source : Endpoint) (c : Fact) : Branches :=
      if c.sameKind wanted then
        (S.addEdge source ⟨node, idx⟩).unify m.theory (wanted.equations c)
      else {}
    let present := (S.liveNodes.filter fun (id, _) => id ≠ node).flatMap fun (id, n) =>
      n.conclusions.zipIdx.map fun (c, k) => provide S ⟨id, k⟩ c
    let new := (m.producers wanted.pred).map fun (rule, k) =>
      let (id, S) := S.addNode m rule none
      match (S.node? id).bind fun n => n.conclusions[k]? with
      | some c => provide S ⟨id, k⟩ c
      | none => {}
    .concat (present ++ new)

/-- The system in which the adversary took `t` out of a message that was sent at `i`. -/
def chainFrom (S : System) (i : TimeVar) (message t : Term) (before : TimeVar) : System :=
  (S.addLess i before).pushGoal (.chain message t before)

/-- The adversary builds the term with a public symbol. -/
def built (S : System) (m : Model) (t : Term) (before : TimeVar) : List System :=
  if t.head?.any m.signature.isPublic then
    (m.theory.decompose t).map fun parts => S.pushGoals (parts.map fun p => .knows p before)
  else []

/-- The adversary takes the term out of a message of a node. -/
def taken (S : System) (t : Term) (before : TimeVar) : List System :=
  S.liveNodes.flatMap fun (_, n) =>
    (n.conclusions.filter fun c => c.pred = Pred.output).flatMap fun c =>
      c.args.map fun message => S.chainFrom n.time message t before

/-- The adversary takes the term out of a message of a new node. -/
def takenNew (S : System) (m : Model) (t : Term) (before : TimeVar) : List System :=
  (m.producers Pred.output).flatMap fun (rule, k) =>
    let (id, S) := S.addNode m rule none
    match S.node? id with
    | some n =>
      ((n.conclusions[k]?.map Fact.args).getD []).map fun message =>
        S.chainFrom n.time message t before
    | none => []

/-- The adversary knows a public value, builds the term with a public symbol, or takes it out of a
message that some rule sent. -/
def expandKnows (S : System) (m : Model) (t : Term) (before : TimeVar) : Branches :=
  match t with
  | .name (.pub _) => .one S
  | .var ⟨_, _, .pub⟩ => .one S
  | .var ⟨_, _, .msg⟩ => .one (S.pushGoal (.knows t before))
  | _ => ⟨S.built m t before ++ S.taken t before ++ S.takenNew m t before, false⟩

/-- Taking apart has reached the term, or goes on for a step. A message that is still a variable
could later become one to take apart, unless only deferred goals remain. -/
def expandChain (S : System) (m : Model) (source target : Term) (before : TimeVar) : Branches :=
  let reached := S.unify m.theory [(source, target)]
  if source.isVar then reached ++ ⟨[], S.goals.any fun g => !g.goal.isDeferred⟩
  else
    let (extractions, S) := S.drawing (m.theory.extract source)
    reached ++ .concat (extractions.map fun e =>
      let S := S.pushGoals (e.side.map fun t => .knows t before)
      (S.pushGoal (.chain e.output target before)).unify m.theory e.eqs)

/-- All ways to meet a goal, without simplification. -/
def expandGoal (S : System) (m : Model) : Goal → Branches
  | .split f => S.expandSplit m f
  | .action f i => S.expandAction m f i
  | .premise node idx => S.expandPremise m node idx
  | .knows t before => S.expandKnows m t before
  | .chain source target before => S.expandChain m source target before

/-- Solves goal number `k`, with one simplified system for each alternative. -/
def expand (S : System) (m : Model) (k : Nat) : Branches :=
  match S.goals[k]? with
  | none => {}
  | some g =>
    ({ S with goals := S.goals.eraseIdx k }.expandGoal m g.goal).bind fun S => S.simplify m

end System

end ProtocolProver
