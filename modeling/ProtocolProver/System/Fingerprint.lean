import ProtocolProver.System.Basic

/-!
# Systems up to the names of their variables

Two systems with the same fingerprint differ only in the indices of their variables, in the names of
their timepoints and in the order of their goals. Variables and timepoints of index 0 belong to
formulas and keep their names; all others are numbered in order of first occurrence.
-/

namespace ProtocolProver

/-- A node without the instantiation of its rule. -/
structure NodeShape where
  id : Nat
  rule : Nat
  time : TimeVar
  premises : List Fact
  actions : List Fact
  conclusions : List Fact
deriving DecidableEq

/-- What is left of a system when variables and timepoints are numbered by occurrence. The order of
`goals` and of `less` does not count. -/
structure Fingerprint where
  nodes : List NodeShape
  goals : List Goal
  less : List Precedence
  edges : SortedSet Edge
  disequalities : List Equation
  guarded : List Guarded
  applied : SortedSet GuardUse

namespace Fingerprint

def beq (p q : Fingerprint) : Bool :=
  decide (p.nodes = q.nodes) && p.goals.isPerm q.goals && p.less.isPerm q.less
    && decide (p.edges = q.edges) && decide (p.disequalities = q.disequalities)
    && decide (p.guarded = q.guarded) && decide (p.applied = q.applied)

instance : BEq Fingerprint := ⟨beq⟩

/-- How much a fingerprint shows. -/
def size (p : Fingerprint) : Nat := p.nodes.length + p.goals.length + p.less.length

end Fingerprint

/-- The variable with its number among those that occur. -/
def Var.numbered (occurring : List Var) (v : Var) : Var :=
  if v.idx = 0 then v else ⟨"v", occurring.idxOf v + 1, v.sort⟩

def TimeVar.numbered (occurring : List TimeVar) (i : TimeVar) : TimeVar :=
  if i.idx = 0 then i else ⟨"t", occurring.idxOf i + 1⟩

namespace System

/-- Every term that a fingerprint shows. -/
def shownTerms (S : System) : List Term :=
  S.liveNodes.flatMap (fun (_, n) => n.facts.flatMap Fact.args)
    ++ S.goals.flatMap (fun g => g.goal.terms)
    ++ S.disequalities.flatMap (fun (s, t) => [s, t])
    ++ S.guarded.flatMap fun g => g.toNnf.terms

def shownTimes (S : System) : List TimeVar :=
  S.liveNodes.map (fun (_, n) => n.time)
    ++ S.goals.flatMap (fun g => g.goal.times)
    ++ (SortedSet.toList S.less).flatMap (fun p => [p.earlier, p.later])
    ++ S.guarded.flatMap fun g => g.toNnf.times

def fingerprint (S : System) : Fingerprint :=
  let vars := ((Term.occurrencesList S.shownTerms).filter (·.idx ≠ 0)).eraseDups
  let times := ((S.shownTimes.map S.find).filter (·.idx ≠ 0)).eraseDups
  let term (t : Term) : Term := t.mapVars fun v => .var (v.numbered vars)
  let time (i : TimeVar) : TimeVar := (S.find i).numbered times
  let facts (fs : List Fact) : List Fact := fs.map (·.mapTerms term)
  { nodes := S.liveNodes.map fun (id, n) =>
      ⟨id, n.rule, time n.time, facts n.premises, facts n.actions, facts n.conclusions⟩
    goals := S.goals.map fun g => g.goal.map term time
    less := (SortedSet.toList S.less).map (·.map time)
    edges := S.edges
    disequalities := S.disequalities.map fun (s, t) => (term s, term t)
    guarded := S.guarded.map (·.map term time)
    applied := S.applied }

end System

end ProtocolProver
