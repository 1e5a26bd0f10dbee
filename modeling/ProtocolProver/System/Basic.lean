import ProtocolProver.Data.SortedSet
import ProtocolProver.Model
import ProtocolProver.System.TimeClasses

/-!
# Constraint systems

A constraint system is the skeleton of a trace: rule instances on partially ordered timepoints, with
edges from conclusions to the premises they provide, and the goals that are still to be justified.
The search starts from `System.initial` and refines it goal by goal.
-/

namespace ProtocolProver

/-- A rule instance on a timepoint. Its facts mention the variables of the system. -/
structure Node where
  /-- The rule, by its place in the model. -/
  rule : Nat
  time : TimeVar
  /-- What the variables of the rule are instantiated with. -/
  subst : Subst
  premises : List Fact
  actions : List Fact
  conclusions : List Fact
deriving DecidableEq

def Node.facts (n : Node) : List Fact := n.premises ++ n.actions ++ n.conclusions

/-- Fact number `idx` of node `node`. -/
structure Endpoint where
  node : Nat
  idx : Nat
deriving DecidableEq, Repr

namespace Endpoint

def cmp (p q : Endpoint) : Ordering := (compare p.node q.node).then (compare p.idx q.idx)

instance : Ord Endpoint := ⟨cmp⟩

instance : Std.TransOrd Endpoint :=
  inferInstanceAs (Std.TransCmp (compareLex (compareOn Endpoint.node) (compareOn Endpoint.idx)))

theorem cmp_eq_iff {p q : Endpoint} : cmp p q = .eq ↔ p = q := by
  cases p; cases q
  simp [cmp]

instance : Std.LawfulEqOrd Endpoint := lawfulEqCmp_of_iff cmp_eq_iff

/-- Moves the endpoints of node `b` to node `a`. -/
def redirect (a b : Nat) (p : Endpoint) : Endpoint := if p.node = b then { p with node := a } else p

end Endpoint

/-- A conclusion and the premise that it provides. -/
structure Edge where
  source : Endpoint
  target : Endpoint
deriving DecidableEq, Repr

namespace Edge

def cmp (e f : Edge) : Ordering := (compare e.source f.source).then (compare e.target f.target)

instance : Ord Edge := ⟨cmp⟩

instance : Std.TransOrd Edge :=
  inferInstanceAs (Std.TransCmp (compareLex (compareOn Edge.source) (compareOn Edge.target)))

theorem cmp_eq_iff {e f : Edge} : cmp e f = .eq ↔ e = f := by
  cases e; cases f
  simp [cmp]

instance : Std.LawfulEqOrd Edge := lawfulEqCmp_of_iff cmp_eq_iff

def redirect (a b : Nat) (e : Edge) : Edge := ⟨e.source.redirect a b, e.target.redirect a b⟩

end Edge

/-- One timepoint before another. -/
structure Precedence where
  earlier : TimeVar
  later : TimeVar
deriving DecidableEq, Repr

namespace Precedence

def cmp (p q : Precedence) : Ordering :=
  (compare p.earlier q.earlier).then (compare p.later q.later)

instance : Ord Precedence := ⟨cmp⟩

instance : Std.TransOrd Precedence :=
  inferInstanceAs
    (Std.TransCmp (compareLex (compareOn Precedence.earlier) (compareOn Precedence.later)))

theorem cmp_eq_iff {p q : Precedence} : cmp p q = .eq ↔ p = q := by
  cases p; cases q
  simp [cmp]

instance : Std.LawfulEqOrd Precedence := lawfulEqCmp_of_iff cmp_eq_iff

def map (f : TimeVar → TimeVar) (p : Precedence) : Precedence := ⟨f p.earlier, f p.later⟩

end Precedence

/-- A use of a guarded formula: its place in the system and the actions chosen for its guard. -/
structure GuardUse where
  formula : Nat
  chosen : List Endpoint
deriving DecidableEq, Repr

namespace GuardUse

def cmp (u v : GuardUse) : Ordering :=
  (compare u.formula v.formula).then (compare u.chosen v.chosen)

instance : Ord GuardUse := ⟨cmp⟩

instance : Std.TransOrd GuardUse :=
  inferInstanceAs
    (Std.TransCmp (compareLex (compareOn GuardUse.formula) (compareOn GuardUse.chosen)))

theorem cmp_eq_iff {u v : GuardUse} : cmp u v = .eq ↔ u = v := by
  cases u; cases v
  simp [cmp]

instance : Std.LawfulEqOrd GuardUse := lawfulEqCmp_of_iff cmp_eq_iff

def redirect (a b : Nat) (u : GuardUse) : GuardUse :=
  { u with chosen := u.chosen.map (·.redirect a b) }

end GuardUse

inductive Goal where
  /-- Some node at `time` emits `fact`. -/
  | action (fact : Fact) (time : TimeVar)
  /-- Premise `idx` of node `node` needs a conclusion that provides it. -/
  | premise (node idx : Nat)
  /-- The adversary derives `term` strictly before `before`. -/
  | knows (term : Term) (before : TimeVar)
  /-- The adversary, holding `source`, takes it apart until it yields `target`. -/
  | chain (source target : Term) (before : TimeVar)
  /-- A formula that is still to be taken apart. -/
  | split (f : Nnf)
deriving DecidableEq

namespace Goal

def kind : Goal → GoalKind
  | .action .. => .action
  | .premise .. => .premise
  | .knows .. => .knows
  | .chain .. => .chain
  | .split _ => .split

/-- Replaces the terms and timepoints of a goal. -/
def map (terms : Term → Term) (times : TimeVar → TimeVar) : Goal → Goal
  | .action f i => .action (f.mapTerms terms) (times i)
  | .premise node idx => .premise node idx
  | .knows t i => .knows (terms t) (times i)
  | .chain s t i => .chain (terms s) (terms t) (times i)
  | .split f => .split (f.map terms times)

def terms : Goal → List Term
  | .action f _ => f.args
  | .premise .. => []
  | .knows t _ => [t]
  | .chain s t _ => [s, t]
  | .split f => f.terms

def times : Goal → List TimeVar
  | .action _ i => [i]
  | .premise .. => []
  | .knows _ i => [i]
  | .chain _ _ i => [i]
  | .split f => f.times

end Goal

/-- A goal with a number that tells its age. -/
structure OpenGoal where
  goal : Goal
  id : Nat
deriving DecidableEq

/-- The skeleton of a trace with the goals that remain. -/
structure System where
  /-- The nodes by number. A node that was merged into another leaves a gap. -/
  nodes : List (Option Node) := []
  classes : TimeClasses := ∅
  less : SortedSet Precedence := ∅
  edges : SortedSet Edge := ∅
  goals : List OpenGoal := []
  disequalities : List Equation := []
  guarded : List Guarded := []
  /-- The uses of guarded formulas that were made already. -/
  applied : SortedSet GuardUse := ∅
  supply : VarSupply := {}
  nextGoal : Nat := 0

/-- The systems that a step leads to. If it is `lossy`, some alternatives may be missing. -/
structure Branches where
  systems : List System := []
  lossy : Bool := false

namespace Branches

def one (S : System) : Branches := ⟨[S], false⟩

def append (b c : Branches) : Branches := ⟨b.systems ++ c.systems, b.lossy || c.lossy⟩

instance : Append Branches := ⟨append⟩

def concat (bs : List Branches) : Branches := bs.foldr append {}

/-- The systems that the given step makes of each system. -/
def bind (b : Branches) (step : System → Branches) : Branches :=
  ⟨[], b.lossy⟩ ++ concat (b.systems.map step)

end Branches

namespace System

def pushGoal (S : System) (goal : Goal) : System :=
  { S with goals := S.goals ++ [⟨goal, S.nextGoal⟩], nextGoal := S.nextGoal + 1 }

def pushGoals (S : System) (goals : List Goal) : System := goals.foldl pushGoal S

/-- The system from which a search for a trace with `target` starts. Every restriction of the model
is a goal too. -/
def initial (m : Model) (target : Nnf) : System :=
  (({} : System).pushGoals (m.restrictions.map fun r => .split r.nnf)).pushGoal (.split target)

def node? (S : System) (id : Nat) : Option Node := S.nodes[id]?.join

/-- The nodes that are there, with their numbers. -/
def liveNodes (S : System) : List (Nat × Node) :=
  S.nodes.zipIdx.filterMap fun (n, id) => n.map fun n => (id, n)

/-- The least timepoint of the class of `i`. -/
def find (S : System) (i : TimeVar) : TimeVar := S.classes.find i

def union (S : System) (i j : TimeVar) : System := { S with classes := S.classes.union i j }

def addLess (S : System) (i j : TimeVar) : System :=
  { S with less := SortedSet.insert S.less ⟨i, j⟩ }

/-- Draws from the supply of the system. -/
def drawing {α : Type} (S : System) (x : StateM VarSupply α) : α × System :=
  let (a, supply) := x.run S.supply
  (a, { S with supply })

def freshTime (S : System) (name : String) : TimeVar × System :=
  let (idx, S) := S.drawing VarSupply.draw
  (⟨name, idx⟩, S)

/-- The node on the timepoint class of `i`. -/
def nodeAt? (S : System) (i : TimeVar) : Option Nat :=
  (S.liveNodes.find? fun (_, n) => S.find n.time = S.find i).map (·.1)

/-- What premise number `idx` of node `node` asks for, on a timepoint. Fresh values need no
provider. -/
def premiseGoals (node : Nat) (time : TimeVar) (idx : Nat) (f : Fact) : List Goal :=
  if f.pred = Pred.input then f.args.map fun t => .knows t time
  else if f.pred = Pred.fresh then []
  else [.premise node idx]

/-- Adds a renamed copy of a rule, with the goals of its premises and its condition. Without a
timepoint it is put on a new one. -/
def addNode (S : System) (m : Model) (rule : Nat) (time : Option TimeVar) : Nat × System :=
  let id := S.nodes.length
  match m.rules[rule]? with
  | none => (id, S)
  | some r =>
    let (subst, S) := S.drawing (VarSupply.renameApart r.vars)
    let (time, S) := match time with
      | some time => (time, S)
      | none => S.freshTime "t"
    let instances (fs : List Fact) := fs.map (·.instantiate m.theory subst)
    let node : Node :=
      ⟨rule, time, subst, instances r.premises, instances r.actions, instances r.conclusions⟩
    let condition := r.restrict.toList.map fun f => Goal.split (f.instantiate (.ofSubst subst))
    let S := S.pushGoals (node.premises.zipIdx.flatMap fun (f, idx) => premiseGoals id time idx f)
    let S := S.pushGoals condition
    (id, { S with nodes := S.nodes ++ [some node] })

/-- Records that a conclusion provides a premise, and that its node comes first. -/
def addEdge (S : System) (source target : Endpoint) : System :=
  let S := match S.node? source.node, S.node? target.node with
    | some n, some m => S.addLess n.time m.time
    | _, _ => S
  { S with edges := SortedSet.insert S.edges ⟨source, target⟩ }

/-- Replaces every term of the system. -/
def mapTerms (S : System) (f : Term → Term) : System :=
  let facts (fs : List Fact) := fs.map (·.mapTerms f)
  let node (n : Node) : Node :=
    { n with
      premises := facts n.premises
      actions := facts n.actions
      conclusions := facts n.conclusions
      subst := n.subst.mapValues f }
  { S with
    nodes := S.nodes.map (·.map node)
    goals := S.goals.map fun g => { g with goal := g.goal.map f id }
    disequalities := S.disequalities.map fun (s, t) => (f s, f t)
    guarded := S.guarded.map (·.map f id) }

/-- Applies a substitution to the system and normalizes its terms. -/
def apply (S : System) (T : Theory) (σ : Subst) : System :=
  if σ.isEmpty then S else S.mapTerms fun t => T.normalize (σ.apply t)

/-- Solves equations in the system, with one branch for each unifier. -/
def unify (S : System) (T : Theory) (eqs : List Equation) : Branches :=
  let (unifiers, S) := S.drawing (T.unify eqs ∅)
  ⟨unifiers.substs.map (S.apply T), !unifiers.complete⟩

/-- Whether all that remains is knowledge of message variables, which any public value satisfies. -/
def isSolved (S : System) : Bool :=
  S.goals.all fun g => match g.goal with
    | .knows t _ => t.isMsgVar
    | _ => false

end System

end ProtocolProver
