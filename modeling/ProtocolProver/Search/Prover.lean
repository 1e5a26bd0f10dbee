import ProtocolProver.Data.Thread
import ProtocolProver.Search.Expand
import ProtocolProver.Search.Statistics
import ProtocolProver.System.Fingerprint
import ProtocolProver.System.Realize
import ProtocolProver.Trace.Replay

/-!
# The search for a trace

`search` looks for a trace that satisfies a formula and the restrictions of a model. It goes depth
first through constraint systems with a bounded number of nodes, and raises the bound until a trace
is found, all systems are refuted or the budget is spent. A trace counts only after it was replayed
and the formulas were evaluated on it.

The branches of a system are searched side by side. All visits share the count of steps, the systems
that were refuted and the way to the best trace so far (`Progress`); in which turns they get at it is
up to the machine (`Host`).
-/

namespace ProtocolProver

/-- Limits of a search. -/
structure Budget where
  /-- The most systems that are visited. -/
  maxSteps : Nat := 200000
  /-- Seconds until a search is given up. -/
  timeout : Option Nat := some 60
  /-- The most rule instances that a system may have. -/
  maxNodes : Nat := 24
deriving DecidableEq, Repr

/-- The last second that the clock can show. -/
def clockEnd : Nat := 0x7FFFFFFFFFFFFFFF

/-- Whether the clock can show the end of a search that starts after its first second. -/
def Budget.hasDeadline (b : Budget) : Bool := b.timeout.all (· < clockEnd)

/-- Why a search ended without an answer. -/
inductive InconclusiveReason where
  | stepLimit
  | timeout
  /-- Every system within `maxNodes` was refuted, but there are larger ones. -/
  | nodeLimit
  /-- Some alternatives may be missing. -/
  | incomplete
deriving DecidableEq, Repr

inductive Outcome where
  | witness (trace : Trace)
  /-- No trace satisfies the target. -/
  | exhausted
  | inconclusive (reason : InconclusiveReason)
deriving DecidableEq

/-- The end of a search. -/
structure SearchResult where
  outcome : Outcome
  steps : Nat
  /-- The goals left open in the systems where the search stopped. -/
  openGoals : Nat
  statistics : Statistics

namespace Search

/-- The way to a system in the search tree: the number of the branch on each level. -/
abbrev Path : Type := List Nat

/-- What the machine has to say in a search. With nothing said the time is never over, and branches
are searched one after the other. -/
structure Host where
  /-- At which steps the time is over. -/
  timeUp : Nat → Bool := fun _ => false
  /-- The turns of a system and of its later siblings, in the round with a bound on nodes. -/
  turns : (bound : Nat) → Path → List Bool := fun _ _ => []

/-- What is looked for, and within which limits. -/
structure Task where
  model : Model
  target : Nnf
  tactic : Option Tactic
  budget : Budget
  host : Host := {}

/-- Fingerprints by their size. -/
abbrev Cache : Type := SortedMap Nat (List Fingerprint)

/-- What the visits of a search share. -/
structure Progress where
  steps : Nat := 0
  /-- How many visits that run side by side are not completed. -/
  jobs : Nat := 0
  /-- Why the search stops. -/
  halted : Option InconclusiveReason := none
  /-- The way to the best trace so far. -/
  best : Option Path := none
  /-- Systems below which nothing was found and nothing was cut off. -/
  refuted : Cache := ∅
  statistics : Statistics := {}

/-- The result for a part of the search tree. -/
structure Subtree where
  /-- How many systems were visited. -/
  steps : Nat := 0
  /-- How many systems were cut off by the bound on nodes. -/
  truncated : Nat := 0
  /-- How many times alternatives may have been dropped. -/
  lossy : Nat := 0
  /-- How many systems were skipped since there is a trace on an earlier path. -/
  cancelled : Nat := 0
  interrupted : Bool := false
  openGoals : Nat := 0
  witness : Option (Path × Trace) := none

namespace Subtree

/-- Both parts. The trace on the earlier path counts. -/
def add (r s : Subtree) : Subtree where
  steps := r.steps + s.steps
  truncated := r.truncated + s.truncated
  lossy := r.lossy + s.lossy
  cancelled := r.cancelled + s.cancelled
  interrupted := r.interrupted || s.interrupted
  openGoals := r.openGoals + s.openGoals
  witness :=
    match s.witness with
    | some w => if r.witness.all (w.1 < ·.1) then some w else r.witness
    | none => r.witness

/-- Whether the part was searched completely and holds no trace. -/
def isRefuted (r : Subtree) : Bool :=
  r.witness.isNone && r.truncated == 0 && r.lossy == 0 && r.cancelled == 0 && !r.interrupted

end Subtree

namespace Progress

def isRefuted (p : Progress) (f : Fingerprint) : Bool :=
  ((p.refuted.get? f.size).getD []).contains f

def addRefuted (f : Fingerprint) (p : Progress) : Progress :=
  { p with refuted := p.refuted.insert f.size (f :: (p.refuted.get? f.size).getD []) }

/-- The first reason to stop counts. -/
def halt (reason : InconclusiveReason) (p : Progress) : Progress :=
  { p with halted := p.halted.or (some reason) }

/-- Whether there is a trace on an earlier path. -/
def isSuperseded (p : Progress) (path : Path) : Bool := p.best.any (· < path)

def improve (path : Path) (p : Progress) : Progress :=
  if p.best.all (path < ·) then { p with best := some path } else p

/-- Counts an expansion of goal `k` that led to a number of systems. -/
def record (S : System) (k branches : Nat) (p : Progress) : Progress :=
  match S.goals[k]? with
  | some g => { p with statistics := p.statistics.record g.goal.kind branches }
  | none => p

end Progress

/-- How often the clock is looked at, in steps. -/
def clockInterval : Nat := 64

/-- Why the budget is spent after a number of steps, if it is. -/
def Task.spent? (t : Task) (steps : Nat) : Option InconclusiveReason :=
  if t.budget.maxSteps < steps then some .stepLimit
  else if t.budget.timeout.isSome && steps % clockInterval = 0 && t.host.timeUp steps then
    some .timeout
  else none

/-- Counts a step, and stops the search when the budget is spent. Answers whether to stop. -/
def tick (t : Task) : Thread Progress Bool := do
  let p ← Thread.access fun p => { p with steps := p.steps + 1 }
  if let some reason := t.spent? (p.steps + 1) then Thread.modify (·.halt reason)
  return (← Thread.read).halted.isSome

/-- The most visits that run side by side. -/
def maxJobs : Nat := 100

/-- Visits systems one after the other, up to a trace, or up to one below which so many systems were
visited that the rest, which is returned, can be visited side by side. -/
def visitInTurn (visit : Path → System → Thread Progress Subtree) (jobs : Nat) :
    Subtree → List (Path × System) → Thread Progress (Subtree × List (Path × System))
  | r, [] => pure (r, [])
  | r, (path, S) :: rest => do
    let s ← visit path S
    if s.witness.isSome || 2 < rest.length && jobs * 100 < s.steps && jobs < maxJobs then
      return (r.add s, rest)
    visitInTurn visit jobs (r.add s) rest

/-- Visits systems side by side. -/
def visitTogether (visit : Path → System → Thread Progress Subtree) (turns : Path → List Bool)
    (r : Subtree) (systems : List (Path × System)) : Thread Progress Subtree := do
  Thread.modify fun p => { p with jobs := p.jobs + systems.length }
  let more ← Thread.all turns <| systems.map fun (path, S) => (path, do
    let s ← visit path S
    Thread.modify fun p => { p with jobs := p.jobs - 1 }
    return s)
  return more.foldl .add r

/-- Visits systems, side by side if there are two at least and not too many jobs. -/
def visitAll (visit : Path → System → Thread Progress Subtree) (turns : Path → List Bool)
    (r : Subtree) (systems : List (Path × System)) : Thread Progress Subtree := do
  let jobs := (← Thread.read).jobs
  let (r, rest) ← (if systems.length < 2 || maxJobs < jobs then visitInTurn visit jobs r systems
    else pure (r, systems))
  if r.witness.isSome then return r
  visitTogether visit turns r rest

/-- Whether a trace is a run of the model on which the target and all restrictions hold. -/
def verifies (t : Task) (trace : Trace) : Bool :=
  match replay t.model trace with
  | .error _ => false
  | .ok _ =>
    t.target.holds t.model.theory trace
      && t.model.restrictions.all fun r => r.nnf.holds t.model.theory trace

/-- A solved system counts if its trace can be verified. -/
def solved (t : Task) (check : Trace → Option Bool) (path : Path) (S : System) :
    Thread Progress Subtree :=
  let trace := S.realize t.model
  match check trace with
  | some true => do
    Thread.modify (·.improve path)
    return { steps := 1, witness := some (path, trace) }
  | some false => return { steps := 1, lossy := 1 }
  | none => .endless

/-- The branches at the end of a path. -/
def branchesOf (path : Path) (systems : List System) : List (Path × System) :=
  systems.zipIdx.map fun (S, i) => (path ++ [i], S)

/-- Depth first search below a system, with at most `bound` nodes in a system. -/
def visit (t : Task) (check : Trace → Option Bool) (bound : Nat) :
    (depth : Nat) → Path → System → Thread Progress Subtree
  | 0, _, _ => .endless
  | n + 1, path, S => do
    if (← Thread.read).isSuperseded path then return { steps := 1, cancelled := 1 }
    if ← tick t then
      return { steps := 1, interrupted := true, openGoals := S.goals.length }
    if bound < S.liveNodes.length then
      return { steps := 1, truncated := 1, openGoals := S.goals.length }
    let fingerprint := S.fingerprint
    if (← Thread.read).isRefuted fingerprint then return { steps := 1 }
    match S.selectGoal? t.tactic with
    | none => solved t check path S
    | some k =>
      let branches := S.expand t.model k
      Thread.modify (·.record S k branches.systems.length)
      let result ← visitAll (visit t check bound n) (t.host.turns bound)
        { steps := 1, lossy := branches.lossy.toNat } (branchesOf path branches.systems)
      if result.isRefuted then Thread.modify (·.addRefuted fingerprint)
      return result

/-- One round of the search: all initial systems with the given bound on nodes. -/
def round (t : Task) (check : Trace → Option Bool) (depth : Nat) (roots : Branches) (bound : Nat) :
    Thread Progress Subtree := do
  let (found, _) ← visitInTurn (visit t check bound depth) maxJobs { lossy := roots.lossy.toNat }
    (branchesOf [] roots.systems)
  return found

/-- The answer after a round, unless a larger bound could give another. -/
def conclude? (t : Task) (bound : Nat) (p : Progress) (r : Subtree) : Option Outcome :=
  match r.witness with
  | some (_, trace) => some (.witness trace)
  | none =>
    if r.interrupted then some (.inconclusive (p.halted.getD .stepLimit))
    else if r.truncated = 0 then
      some (if r.lossy = 0 then .exhausted else .inconclusive .incomplete)
    else if t.budget.maxNodes ≤ bound then some (.inconclusive .nodeLimit)
    else none

/-- Rounds with larger and larger bounds. -/
def deepen? (t : Task) (check : Trace → Option Bool) (depth : Nat) (roots : Branches) :
    (rounds : Nat) → (bound : Nat) → Progress → Option SearchResult
  | 0, _, _ => none
  | n + 1, bound, p =>
    match (round t check depth roots bound).process.run p with
    | none => none
    | some (r, p) =>
      match conclude? t bound p r with
      | some outcome => some ⟨outcome, p.steps, r.openGoals, p.statistics⟩
      | none => deepen? t check depth roots n (min (bound * 2) t.budget.maxNodes) p

/-- The search with limits on the depth of the search tree and on the number of rounds. The first
bound on nodes is at most 4, and it doubles from round to round. -/
def within? (t : Task) (check : Trace → Option Bool) (depth rounds : Nat) : Option SearchResult :=
  deepen? t check depth ((System.initial t.model t.target).simplify t.model) rounds
    (max 1 (min t.budget.maxNodes 4)) {}

end Search

/-- Looks for a trace that satisfies the target and the restrictions of the model. Every visit is a
step, so the number of steps bounds the depth, and the bound on nodes grows in every round. -/
def search (t : Search.Task) : SearchResult :=
  (Search.within? t (fun trace => some (Search.verifies t trace)) (t.budget.maxSteps + 1)
    (t.budget.maxNodes + 1)).getD ⟨.inconclusive .stepLimit, 0, 0, {}⟩

end ProtocolProver
