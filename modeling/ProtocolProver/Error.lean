/-!
# What can go wrong

Each type lists the causes of one kind of failure, and its `message` gives the wording.
-/

namespace ProtocolProver

/-- Puts a text between backquotes. -/
def quoted (text : String) : String := "`" ++ text ++ "`"

/-- Why a formula cannot be searched for or evaluated. -/
inductive FormulaError where
  | unguarded (var : String)
  | guardShape
  | knowledgeInGuard
  | negatedKnowledge
  | freeVariable (var : String)
  | temporal
deriving DecidableEq, Repr

def FormulaError.message : FormulaError → String
  | .unguarded var =>
    "universally quantified variable " ++ quoted var ++ " is not bound by an action of the guard"
  | .guardShape => "universal quantifiers must have the form `All x. guard ==> body`"
  | .knowledgeInGuard => "knowledge atoms cannot guard a universal quantifier"
  | .negatedKnowledge => "negated knowledge atoms are not supported"
  | .freeVariable var => "variable " ++ quoted var ++ " is not bound by a quantifier"
  | .temporal => "timepoint atoms are not allowed in rule restrictions"

/-- Why a model is refused. -/
inductive ModelError where
  | symbolClash (name : String)
  | equationVariableLhs (name : String)
  | equationUnboundVar (name var : String)
  | equationNotDecreasing (name : String)
  | notConfluent (first second : String)
  | duplicateRule (name : String)
  | unboundVariable (rule var : String)
  | illTypedRule (rule reason : String)
  | arityMismatch (pred : String) (first second : Nat)
  | formula (name : String) (cause : FormulaError)
  | unknownTactic (name tactic : String)
  | unknownBuiltin (name : String)
deriving DecidableEq, Repr

def ModelError.message : ModelError → String
  | .symbolClash name =>
    "function symbol " ++ quoted name ++ " is declared twice with different arity or visibility"
  | .equationVariableLhs name => "equation " ++ quoted name ++ " has a variable as its left side"
  | .equationUnboundVar name var =>
    "equation " ++ quoted name ++ ": variable " ++ quoted var
      ++ " of the right side does not occur on the left"
  | .equationNotDecreasing name =>
    "equation " ++ quoted name ++ " does not make terms smaller, so rewriting may not terminate"
  | .notConfluent first second =>
    "equations " ++ quoted first ++ " and " ++ quoted second
      ++ " overlap without a common normal form"
  | .duplicateRule name => "duplicate rule " ++ quoted name
  | .unboundVariable rule var =>
    "rule " ++ quoted rule ++ ": variable " ++ quoted var ++ " is not bound by any premise"
  | .illTypedRule rule reason => "rule " ++ quoted rule ++ ": " ++ reason
  | .arityMismatch pred first second =>
    "fact " ++ quoted pred ++ " is used with " ++ toString first ++ " and " ++ toString second
      ++ " arguments"
  | .formula name cause => "formula " ++ quoted name ++ ": " ++ cause.message
  | .unknownTactic name tactic =>
    "lemma " ++ quoted name ++ " refers to unknown tactic " ++ quoted tactic
  | .unknownBuiltin name => "unknown builtin " ++ quoted name

/-- Why a rule instance cannot fire in a state. Premises are numbered from 0. -/
inductive FireError where
  | notGround
  | missingFact (premise : Nat)
  | underivable (premise : Nat)
  | freshReused (premise : Nat)
  | notFresh (premise : Nat)
  | restricted
deriving DecidableEq, Repr

def FireError.message : FireError → String
  | .notGround => "the instance leaves variables unassigned"
  | .missingFact i => "premise " ++ toString i ++ " is not in the state"
  | .underivable i => "input " ++ toString i ++ " is not derivable by the adversary"
  | .freshReused i => "fresh value " ++ toString i ++ " was already used"
  | .notFresh i => "fresh premise " ++ toString i ++ " is not instantiated with a fresh value"
  | .restricted => "the rule's restriction does not hold"

/-- Why a recorded trace is not a run of a model. Steps are numbered from 0. -/
inductive ReplayError where
  | unknownRule (step : Nat) (rule : String)
  | fire (step : Nat) (rule : String) (cause : FireError)
  | mismatch (step : Nat) (rule : String)
deriving DecidableEq, Repr

def ReplayError.message : ReplayError → String
  | .unknownRule step rule => "step " ++ toString step ++ ": unknown rule " ++ quoted rule
  | .fire step rule cause => "step " ++ toString step ++ " (" ++ rule ++ "): " ++ cause.message
  | .mismatch step rule =>
    "step " ++ toString step ++ " (" ++ rule ++ "): recorded facts differ from the rule instance"

end ProtocolProver
