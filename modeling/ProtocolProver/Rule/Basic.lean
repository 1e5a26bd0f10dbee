import ProtocolProver.Formula.Binding

/-!
# Rules

A rule `premises --[actions]-> conclusions` is one kind of step of a protocol, a channel or the
adversary. `Rule.build` makes a rule from its parts and puts local definitions in their place;
`Rule.validate` checks the ones a model brings.
-/

namespace ProtocolProver

inductive RuleKind where
  /-- A step of an honest participant. -/
  | protocol
  /-- A step of a channel. Secure channels do not send to the network. -/
  | channel (secure : Bool)
  /-- A step of the adversary. -/
  | adversary
deriving DecidableEq, Repr

/-- A transition of a model. -/
structure Rule where
  name : String
  kind : RuleKind
  premises : List Fact
  actions : List Fact
  conclusions : List Fact
  /-- A condition on instances, over the variables of the rule. -/
  restrict : Option Nnf
  /-- The variables of the rule in order of first occurrence. -/
  vars : List Var

namespace Rule

def facts (r : Rule) : List Fact := r.premises ++ r.actions ++ r.conclusions

/-- The values of local definitions. Each may use the earlier ones. -/
def definitions (lets : List (Var × Term)) : Subst :=
  lets.foldl (fun defs (v, t) => defs.insert v (defs.apply t)) ∅

/-- Makes a rule, with local definitions put into its facts and its condition. -/
def build (name : String) (kind : RuleKind) (premises actions conclusions : List Fact)
    (lets : List (Var × Term)) (restrict : Option Formula) : Except ModelError Rule := do
  let defs := definitions lets
  let restrict ← restrict.mapM fun f =>
    match f.toTermNnf with
    | .ok nnf => .ok (nnf.instantiate (.ofSubst defs))
    | .error cause => .error (.formula name cause)
  let premises := premises.map (·.apply defs)
  let actions := actions.map (·.apply defs)
  let conclusions := conclusions.map (·.apply defs)
  let occurrences := factOccurrences (premises ++ actions ++ conclusions)
    ++ (restrict.map Nnf.freeOccurrences).getD []
  return ⟨name, kind, premises, actions, conclusions, restrict, occurrences.eraseDups⟩

/-- The name of the rule by which the adversary records what it can derive. -/
def learnName : String := "Learn"

/-- The rule `[In(x)] --[K(x)]-> []` of the adversary. -/
def learn : Rule where
  name := learnName
  kind := .adversary
  premises := [.linear Pred.input [.var (.msg "x")]]
  actions := [.linear Pred.knows [.var (.msg "x")]]
  conclusions := []
  restrict := none
  vars := [.msg "x"]

def checkPremise (r : Rule) (f : Fact) : Except ModelError Unit := do
  if f.pred == Pred.output || f.pred == Pred.knows then
    throw (.illTypedRule r.name (quoted f.pred ++ " cannot be a premise"))
  if f.pred == Pred.fresh then
    match f.args with
    | [.var ⟨_, _, .fresh⟩] => pure ()
    | _ => throw (.illTypedRule r.name "`Fr` takes a single fresh variable")

def checkConclusion (r : Rule) (f : Fact) : Except ModelError Unit := do
  if Pred.isReserved f.pred && f.pred != Pred.output then
    throw (.illTypedRule r.name (quoted f.pred ++ " cannot be a conclusion"))
  if f.pred == Pred.output && r.kind == .channel true then
    throw (.illTypedRule r.name "a secure channel rule cannot send to the network")

/-- The first variable that is used with another sort before. -/
def ambiguous? : (seen : List Var) → List Var → Option Var
  | _, [] => none
  | seen, v :: vs =>
    if seen.any fun w => w.name == v.name && w.idx == v.idx && w.sort != v.sort then some v
    else ambiguous? (seen ++ [v]) vs

/-- Checks a protocol or channel rule: reserved predicates stand where they have a meaning, premises
bind all variables that are not public, and every variable has one sort. -/
def validate (r : Rule) : Except ModelError Unit := do
  r.premises.forM r.checkPremise
  if let some f := r.actions.find? fun f => Pred.isReserved f.pred then
    throw (.illTypedRule r.name (quoted f.pred ++ " cannot be an action"))
  r.conclusions.forM r.checkConclusion
  let bound := factVars r.premises
  if let some v := r.vars.find? fun v => v.sort != .pub && !bound.contains v then
    throw (.unboundVariable r.name v.name)
  if let some v := ambiguous? [] r.vars then
    throw (.illTypedRule r.name ("variable " ++ quoted v.name ++ " is used with two sorts"))

end Rule

end ProtocolProver
