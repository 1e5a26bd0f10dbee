import ProtocolProver.Data.SortedSet

/-!
# Models as they are written

The surface form of a model: terms with heads by name, formulas with timepoints by name, and
constructs that are active only under some flags. Compilation resolves names and flags.
-/

namespace ProtocolProver

namespace Surface

/-- A term `head(args)`. Without arguments the head is a constant, a public name between quotes, or
a variable: `~x` is fresh, `$x` public, `x` any message. -/
structure Term where
  head : String
  args : List Term := []

instance : Inhabited Term := ⟨⟨"", []⟩⟩

structure Function where
  name : String
  arity : UInt64
  isPrivate : Bool := false

/-- An equation, used from left to right. -/
structure Equation where
  name : String
  lhs : Term
  rhs : Term

structure Fact where
  name : String
  persistent : Bool := false
  args : List Term := []

/-- A local definition of a rule. Later ones may use earlier ones. -/
structure Definition where
  var : String
  value : Term

inductive RuleKind where
  | protocol
  | channel
  | secureChannel
deriving DecidableEq, Repr

/-- A condition on flags. -/
inductive FlagExpr where
  | flag (name : String)
  | neg (e : FlagExpr)
  | conj (es : List FlagExpr)
  | disj (es : List FlagExpr)

namespace FlagExpr

mutual

/-- Whether a condition is true under the given flags. -/
def holds (flags : SortedSet String) : FlagExpr → Bool
  | .flag name => SortedSet.contains flags name
  | .neg e => !holds flags e
  | .conj es => holdsAll flags es
  | .disj es => holdsAny flags es

def holdsAll (flags : SortedSet String) : List FlagExpr → Bool
  | [] => true
  | e :: es => holds flags e && holdsAll flags es

def holdsAny (flags : SortedSet String) : List FlagExpr → Bool
  | [] => false
  | e :: es => holds flags e || holdsAny flags es

end

end FlagExpr

/-- Whether a construct with the given condition is there under the flags. -/
def isActive (flags : SortedSet String) (condition : Option FlagExpr) : Bool :=
  condition.all (·.holds flags)

/-- A formula. Timepoints are written `#i` where they are bound and `i` where they are used. -/
inductive Formula where
  | top
  | bot
  | action (fact : Fact) (time : String)
  | knows (term : Term) (time : String)
  | less (i j : String)
  | timeEq (i j : String)
  | eq (s t : Term)
  | neg (f : Formula)
  | conj (fs : List Formula)
  | disj (fs : List Formula)
  | imp (f g : Formula)
  | ex (binders : List String) (f : Formula)
  | all (binders : List String) (f : Formula)

instance : Inhabited Formula := ⟨.top⟩

structure Rule where
  name : String
  kind : RuleKind := .protocol
  premises : List Fact := []
  actions : List Fact := []
  conclusions : List Fact := []
  definitions : List Definition := []
  restrict : Option Formula := none
  condition : Option FlagExpr := none

structure Restriction where
  name : String
  formula : Formula
  condition : Option FlagExpr := none

inductive LemmaKind where
  | existsTrace
  | allTraces
deriving DecidableEq, Repr

structure Lemma where
  name : String
  kind : LemmaKind
  formula : Formula
  tactic : Option String := none
  condition : Option FlagExpr := none

/-- A pattern of goals, with the goal kind and the symbol by name. -/
structure GoalPattern where
  kind : Option String := none
  predStart : Option String := none
  persistent : Option Bool := none
  mentions : Option String := none

structure Tactic where
  name : String
  prefer : List GoalPattern := []
  deprioritize : List GoalPattern := []

/-- A complete model, with flags still open. -/
structure Model where
  name : String
  builtins : List String := []
  functions : List Function := []
  equations : List Equation := []
  rules : List Rule := []
  restrictions : List Restriction := []
  lemmas : List Lemma := []
  tactics : List Tactic := []

/-! ## Text -/

namespace Term

/-- The text of an application, from the texts of its arguments. -/
def applied (head : String) (texts : List String) : String :=
  if texts.isEmpty then head else head ++ "(" ++ ", ".intercalate texts ++ ")"

mutual

def text : Term → String
  | ⟨head, args⟩ => applied head (texts args)

def texts : List Term → List String
  | [] => []
  | t :: ts => text t :: texts ts

end

end Term

/-- The text of a fact, which always has parentheses. -/
def Fact.text (f : Fact) : String :=
  (if f.persistent then "!" else "") ++ Term.applied f.name (Term.texts f.args)
    ++ if f.args.isEmpty then "()" else ""

end Surface

end ProtocolProver
