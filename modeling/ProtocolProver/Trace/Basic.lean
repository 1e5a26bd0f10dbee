import ProtocolProver.Data.SortedSet
import ProtocolProver.Fact

/-!
# Traces

A trace is a sequence of ground rule applications. The place of a step is its timepoint.
-/

namespace ProtocolProver

/-- One rule application. -/
structure Step where
  rule : String
  subst : List (Var × Term)
  premises : List Fact
  actions : List Fact
  conclusions : List Fact
deriving DecidableEq

def Step.facts (s : Step) : List Fact := s.premises ++ s.actions ++ s.conclusions

/-- A sequence of rule applications. -/
abbrev Trace : Type := List Step

namespace Trace

/-- Every subterm of a fact of the trace, in increasing order. -/
def subterms (trace : Trace) : List Term :=
  SortedSet.toList (SortedSet.ofList
    (trace.flatMap fun s => s.facts.flatMap fun f => f.args.flatMap Term.subterms))

def emits (trace : Trace) (fact : Fact) : Bool := trace.any fun s => s.actions.contains fact

end Trace

end ProtocolProver
