import ProtocolProver.System.Order
import ProtocolProver.Trace.Basic

/-!
# The trace of a solved system

The variables that a solved system leaves open become distinct names, and its nodes in order become
the steps of a trace.
-/

namespace ProtocolProver

/-- The name that stands for an open variable: a fresh value for a fresh variable, else a public
name that no model can use. -/
def Var.realization (v : Var) : Term :=
  match v.sort with
  | .fresh => .name (.fresh v.name v.idx)
  | _ => .name (.generated v)

namespace System

/-- Names for the variables of the nodes. -/
def grounding (S : System) : Subst :=
  SortedMap.ofList <| S.liveNodes.flatMap fun (_, n) =>
    (factOccurrences n.facts ++ Term.occurrencesList n.subst.values).map fun v => (v, v.realization)

/-- The step of a node under a grounding. -/
def realizeNode (m : Model) (σ : Subst) (n : Node) : Step where
  rule := (m.rules[n.rule]?.map Rule.name).getD ""
  subst := (n.subst.mapValues fun t => m.theory.normalize (σ.apply t)).entries
  premises := n.premises.map (·.instantiate m.theory σ)
  actions := n.actions.map (·.instantiate m.theory σ)
  conclusions := n.conclusions.map (·.instantiate m.theory σ)

/-- The ground trace of the system. -/
def realize (S : System) (m : Model) : Trace :=
  let σ := S.grounding
  (S.linearize.filterMap S.node?).map (realizeNode m σ)

end System

end ProtocolProver
