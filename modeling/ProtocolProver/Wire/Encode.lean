import ProtocolProver.Json.Basic
import ProtocolProver.Rule.Firing
import ProtocolProver.Search.Rank
import ProtocolProver.Text

/-!
# Engine values as JSON

An exact JSON form of terms, facts, formulas, traces, states and systems, for programs that look at
the engine step by step. Variables are strings, `'a'` is a public name, `%n.3` a fresh value, and an
application is an array with the name of its symbol first.
-/

namespace ProtocolProver

namespace Wire

def ofVar (v : Var) : Json := .string v.text

def ofName : Name → Json
  | .pub name => .string ("'" ++ name ++ "'")
  | .fresh name idx => .string ("%" ++ name ++ "." ++ toString idx)

mutual

def ofTerm (sig : Signature) : Term → Json
  | .var v => ofVar v
  | .name n => ofName n
  | .app f as => .array (.string (sig.name f) :: ofTerms sig as)

def ofTerms (sig : Signature) : List Term → List Json
  | [] => []
  | a :: as => ofTerm sig a :: ofTerms sig as

end

def ofTermList (sig : Signature) (ts : List Term) : Json := .array (ofTerms sig ts)

def ofEquation (sig : Signature) (e : Equation) : Json := ofTermList sig [e.1, e.2]

def ofEquations (sig : Signature) (es : List Equation) : Json := .array (es.map (ofEquation sig))

def ofFact (sig : Signature) (f : Fact) : Json :=
  .array (.string ((if f.isPersistent then "!" else "") ++ f.pred) :: ofTerms sig f.args)

def ofFacts (sig : Signature) (fs : List Fact) : Json := .array (fs.map (ofFact sig))

def ofBindings (sig : Signature) (bs : List (Var × Term)) : Json :=
  .array (bs.map fun (v, t) => .array [ofVar v, ofTerm sig t])

def ofSubst (sig : Signature) (σ : Subst) : Json := ofBindings sig σ.entries

def timeText (i : TimeVar) : String :=
  i.name ++ if i.idx = 0 then "" else "." ++ toString i.idx

def ofTime (i : TimeVar) : Json := .string (timeText i)

def ofBinder : Binder → Json
  | .msg v => ofVar v
  | .time i => .string ("#" ++ timeText i)

def ofBinders (bs : List Binder) : Json := .array (bs.map ofBinder)

/-- An array with a keyword first. -/
def tagged (tag : String) (parts : List Json) : Json := .array (.string tag :: parts)

def ofAtom (sig : Signature) : Atom → Json
  | .action f i => tagged "act" [ofFact sig f, ofTime i]
  | .knows t i => tagged "knows" [ofTerm sig t, ofTime i]
  | .less i j => tagged "lt" [ofTime i, ofTime j]
  | .timeEq i j => tagged "teq" [ofTime i, ofTime j]
  | .eq s t => tagged "eq" [ofTerm sig s, ofTerm sig t]

mutual

def ofNnf (sig : Signature) : Nnf → Json
  | .top => tagged "true" []
  | .bot => tagged "false" []
  | .atom a => ofAtom sig a
  | .neq s t => tagged "neq" [ofTerm sig s, ofTerm sig t]
  | .conj fs => tagged "and" (ofNnfs sig fs)
  | .disj fs => tagged "or" (ofNnfs sig fs)
  | .ex bs f => tagged "ex" [ofBinders bs, ofNnf sig f]
  | .guarded bs gs f =>
    tagged "guarded" [ofBinders bs, .array (gs.map (ofAtom sig)), ofNnf sig f]

def ofNnfs (sig : Signature) : List Nnf → List Json
  | [] => []
  | f :: fs => ofNnf sig f :: ofNnfs sig fs

end

def ofGoal (sig : Signature) : Goal → Json
  | .action f i => tagged "action" [ofFact sig f, ofTime i]
  | .premise node idx => tagged "premise" [.nat node, .nat idx]
  | .knows t i => tagged "knows" [ofTerm sig t, ofTime i]
  | .chain s t i => tagged "chain" [ofTerm sig s, ofTerm sig t, ofTime i]
  | .split f => tagged "split" [ofNnf sig f]

def ofStep (sig : Signature) (s : Step) : Json :=
  .object [("rule", .string s.rule), ("subst", ofBindings sig s.subst),
    ("premises", ofFacts sig s.premises), ("actions", ofFacts sig s.actions),
    ("conclusions", ofFacts sig s.conclusions)]

def ofTrace (sig : Signature) (trace : Trace) : Json := .array (trace.map (ofStep sig))

def ofReduction (sig : Signature) (r : Reduction) : Json :=
  .array [.string r.name, ofTerm sig r.lhs, ofTerm sig r.rhs]

/-- The facts of a store: linear ones with their number, then persistent ones in the order in which
they came. -/
def ofStore (sig : Signature) (s : FactStore) : Json :=
  .object [
    ("linear", .array (s.linear.entries.map fun (f, n) => .array [ofFact sig f, .nat n])),
    ("persistent", ofFacts sig s.persistent), ("count", .nat s.linearCount)]

def ofState (sig : Signature) (s : State) : Json :=
  .object [("facts", ofStore sig s.facts), ("knowledge", ofTermList sig s.knowledge.toList),
    ("used_fresh", .array ((SortedSet.toList s.usedFresh).map ofName))]

def ofNode (m : Model) (S : System) (n : Node) : Json :=
  let sig := m.signature
  .object [("rule", .string ((m.rules[n.rule]?.map Rule.name).getD "")), ("time", ofTime n.time),
    ("at", ofTime (S.find n.time)), ("renaming", ofSubst sig n.subst),
    ("premises", ofFacts sig n.premises), ("actions", ofFacts sig n.actions),
    ("conclusions", ofFacts sig n.conclusions)]

def ofRank (r : Rank) : Json := .array [.nat r.bucket, .nat r.urgency, .nat r.age]

def ofOpenGoal (m : Model) (tactic : Option Tactic) (S : System) (g : OpenGoal) : Json :=
  .object [("id", .nat g.id), ("kind", .string g.goal.kind.name),
    ("goal", ofGoal m.signature g.goal),
    ("rank", .ofOption ((S.rank? tactic g).map ofRank)), ("deferred", .bool g.goal.isDeferred)]

def ofEdge (e : Edge) : Json :=
  .array ([e.source.node, e.source.idx, e.target.node, e.target.idx].map .nat)

/-- Everything in a system, with the rank that a tactic gives to its goals. -/
def ofSystem (m : Model) (tactic : Option Tactic) (S : System) : Json :=
  let sig := m.signature
  .object [("nodes", .array (S.nodes.map fun n => .ofOption (n.map (ofNode m S)))),
    ("live", .nat S.liveNodes.length),
    ("less", .array ((SortedSet.toList S.less).map fun p =>
      .array [ofTime p.earlier, ofTime p.later])),
    ("edges", .array ((SortedSet.toList S.edges).map ofEdge)),
    ("goals", .array (S.goals.map (ofOpenGoal m tactic S))),
    ("diseqs", ofEquations sig S.disequalities),
    ("guarded", .array (S.guarded.map fun g => ofNnf sig g.toNnf)),
    ("solved", .bool S.isSolved),
    ("selected", .ofOption ((S.selectGoal? tactic).map .nat)),
    ("next_idx", .nat S.supply.next)]

end Wire

end ProtocolProver
