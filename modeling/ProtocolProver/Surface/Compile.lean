import ProtocolProver.Model
import ProtocolProver.Surface.Basic
import ProtocolProver.Theory.Packs
import ProtocolProver.Unicode.Alphabetic

/-!
# From written models to checked models

`Surface.Model.compile` resolves the flags of a model, finds the symbols behind names and builds the
parts of a `Model`. A lemma that cannot be built is reported and left out; all other errors are
fatal.
-/

namespace ProtocolProver

/-- Why a written model cannot be compiled. -/
inductive CompileError where
  | unknownFunction (name : String)
  | arity (name : String) (expected found : Nat)
  | notAVariable (text : String)
  | reservedName (name : String)
  | unknownGoalKind (name : String)
  /-- An error inside of a named construct. -/
  | within (context : String) (cause : CompileError)
  | model (cause : ModelError)
deriving DecidableEq, Repr

def CompileError.message : CompileError → String
  | .unknownFunction name => "unknown function symbol " ++ quoted name
  | .arity name expected found =>
    quoted name ++ " takes " ++ toString expected ++ " arguments, found " ++ toString found
  | .notAVariable text => quoted text ++ " is not a variable"
  | .reservedName name =>
    "public name " ++ quoted name ++ " uses the reserved prefix "
      ++ quoted Name.generatedMark.toString
  | .unknownGoalKind name => "unknown goal kind " ++ quoted name
  | .within context cause => "in " ++ quoted context ++ ": " ++ cause.message
  | .model cause => cause.message

namespace Surface

/-- Reports the error of a model part as one of compilation. -/
def liftModel {α : Type} (r : Except ModelError α) : Except CompileError α := r.mapError .model

/-- Says in which construct an error is. -/
def inContext {α : Type} (context : String) (r : Except CompileError α) : Except CompileError α :=
  r.mapError (.within context)

/-- The variable that a text stands for: `~x` is fresh, `$x` public. Other variables start with a
letter or an underscore. -/
def compileVar (text : String) : Except CompileError Var :=
  match text.toList with
  | '~' :: c :: cs => .ok (.fresh (String.ofList (c :: cs)))
  | '$' :: c :: cs => .ok (.pub (String.ofList (c :: cs)))
  | c :: _ => if isAlphabetic c || c = '_' then .ok (.msg text) else .error (.notAVariable text)
  | [] => .error (.notAVariable text)

/-- A timepoint, with or without its mark. -/
def compileTime (text : String) : TimeVar :=
  match text.toList with
  | '#' :: cs => .ofName (String.ofList cs)
  | _ => .ofName text

def compileBinder (text : String) : Except CompileError Binder :=
  match text.toList with
  | '#' :: cs => .ok (.time (.ofName (String.ofList cs)))
  | _ => (compileVar text).map .msg

/-- The text between single quotes. -/
def unquote? (text : String) : Option String :=
  match text.toList with
  | '\x27' :: cs => if cs.getLast? = some '\x27' then some (String.ofList cs.dropLast) else none
  | _ => none

/-- A term without arguments. -/
def compileHead (sig : Signature) (head : String) : Except CompileError ProtocolProver.Term :=
  match unquote? head with
  | some name =>
    if Name.isReserved name then .error (.reservedName name) else .ok (.pubName name)
  | none =>
    match sig.lookup? head with
    | some f =>
      if sig.arity f = 0 then .ok (.const f) else .error (.arity head (sig.arity f) 0)
    | none => (compileVar head).map .var

/-- The symbol of an application. -/
def compileSymbol (sig : Signature) (head : String) (found : Nat) : Except CompileError Symbol :=
  match sig.lookup? head with
  | none => .error (.unknownFunction head)
  | some f =>
    if sig.arity f = found then .ok f else .error (.arity head (sig.arity f) found)

mutual

def Term.compile (sig : Signature) : Term → Except CompileError ProtocolProver.Term
  | ⟨head, []⟩ => compileHead sig head
  | ⟨head, args⟩ => do
    let f ← compileSymbol sig head args.length
    return .app f (← Term.compileList sig args)

def Term.compileList (sig : Signature) : List Term → Except CompileError (List ProtocolProver.Term)
  | [] => .ok []
  | t :: ts => do return (← Term.compile sig t) :: (← Term.compileList sig ts)

end

def Fact.compile (sig : Signature) (f : Fact) : Except CompileError ProtocolProver.Fact := do
  let args ← Term.compileList sig f.args
  return if f.persistent then .persistent f.name args else .linear f.name args

mutual

def Formula.compile (sig : Signature) : Formula → Except CompileError ProtocolProver.Formula
  | .top => .ok .top
  | .bot => .ok .bot
  | .action f i => do return .atom (.action (← f.compile sig) (compileTime i))
  | .knows t i => do return .atom (.knows (← t.compile sig) (compileTime i))
  | .less i j => .ok (.atom (.less (compileTime i) (compileTime j)))
  | .timeEq i j => .ok (.atom (.timeEq (compileTime i) (compileTime j)))
  | .eq s t => do return .atom (.eq (← s.compile sig) (← t.compile sig))
  | .neg f => do return .neg (← Formula.compile sig f)
  | .conj fs => do return .conj (← Formula.compileList sig fs)
  | .disj fs => do return .disj (← Formula.compileList sig fs)
  | .imp f g => do return .imp (← Formula.compile sig f) (← Formula.compile sig g)
  | .ex bs f => do return .ex (← bs.mapM compileBinder) (← Formula.compile sig f)
  | .all bs f => do return .all (← bs.mapM compileBinder) (← Formula.compile sig f)

def Formula.compileList (sig : Signature) :
    List Formula → Except CompileError (List ProtocolProver.Formula)
  | [] => .ok []
  | f :: fs => do return (← Formula.compile sig f) :: (← Formula.compileList sig fs)

end

def RuleKind.compile : RuleKind → ProtocolProver.RuleKind
  | .protocol => .protocol
  | .channel => .channel false
  | .secureChannel => .channel true

def Rule.compile (sig : Signature) (r : Rule) : Except CompileError ProtocolProver.Rule := do
  let lets ← r.definitions.mapM fun d => do return (← compileVar d.var, ← d.value.compile sig)
  let restrict ← r.restrict.mapM (Formula.compile sig)
  let premises ← r.premises.mapM (Fact.compile sig)
  let actions ← r.actions.mapM (Fact.compile sig)
  let conclusions ← r.conclusions.mapM (Fact.compile sig)
  liftModel (ProtocolProver.Rule.build r.name r.kind.compile premises actions conclusions lets
    restrict)

def Restriction.compile (sig : Signature) (r : Restriction) :
    Except CompileError ProtocolProver.Restriction := do
  let f ← inContext r.name (r.formula.compile sig)
  liftModel (ProtocolProver.Restriction.build r.name f)

def LemmaKind.compile : LemmaKind → ProtocolProver.LemmaKind
  | .existsTrace => .existsTrace
  | .allTraces => .allTraces

def Lemma.compile (sig : Signature) (l : Lemma) : Except CompileError ProtocolProver.Lemma := do
  let f ← l.formula.compile sig
  liftModel (ProtocolProver.Lemma.build l.name l.kind.compile f l.tactic)

def GoalPattern.compile (sig : Signature) (p : GoalPattern) :
    Except CompileError ProtocolProver.GoalPattern := do
  let kind ← p.kind.mapM fun name =>
    match GoalKind.ofName? name with
    | some k => .ok k
    | none => .error (CompileError.unknownGoalKind name)
  let mentions ← p.mentions.mapM fun name =>
    match sig.lookup? name with
    | some f => .ok f
    | none => .error (CompileError.unknownFunction name)
  return ⟨kind, p.predStart, p.persistent, mentions⟩

def Tactic.compile (sig : Signature) (t : Tactic) : Except CompileError ProtocolProver.Tactic := do
  return ⟨t.name, ← t.prefer.mapM (GoalPattern.compile sig),
    ← t.deprioritize.mapM (GoalPattern.compile sig)⟩

def Equation.compile (sig : Signature) (e : Equation) : Except CompileError Reduction :=
  inContext e.name do return ⟨e.name, ← e.lhs.compile sig, ← e.rhs.compile sig⟩

/-- Loads packs one after the other. -/
def loadPacks (names : List String) (sig : Signature) : Except CompileError (Pack × Signature) :=
  names.foldlM (fun (pack, sig) name =>
    match (Pack.load name).run.run sig with
    | (.ok more, sig) => .ok (pack.merge more, sig)
    | (.error e, _) => .error (.model e)) ({}, sig)

/-- Declares functions one after the other. -/
def declareFunctions (fs : List Function) (sig : Signature) : Except CompileError Signature :=
  fs.foldlM (fun sig f => do
    let visibility : Visibility := if f.isPrivate then .priv else .pub
    let (_, sig) ← liftModel (sig.declare f.name f.arity.toNat visibility)
    return sig) sig

/-- A checked model, with the lemmas that could not be built. -/
structure Compiled where
  model : ProtocolProver.Model
  lemmaErrors : List (String × CompileError)

/-- Compiles the parts of a model that are active under the flags. -/
def Model.compile (m : Model) (flags : SortedSet String) : Except CompileError Compiled := do
  let (pack, sig) ← loadPacks m.builtins .builtin
  let sig ← declareFunctions m.functions sig
  let equations ← m.equations.mapM (Equation.compile sig)
  let theory ← liftModel (Theory.ofRules sig (pack.equations ++ equations) pack.algebras)
  let rules ← (m.rules.filter fun r => isActive flags r.condition).mapM fun r =>
    inContext r.name (r.compile sig)
  let restrictions ← (m.restrictions.filter fun r => isActive flags r.condition).mapM
    (Restriction.compile sig)
  let tactics ← m.tactics.mapM fun t => inContext t.name (t.compile sig)
  let lemmas := (m.lemmas.filter fun l => isActive flags l.condition).map fun l =>
    (l.name, l.compile sig)
  let built := lemmas.filterMap fun (_, l) => l.toOption
  let failed := lemmas.filterMap fun (name, l) => match l with
    | .ok _ => none
    | .error e => some (name, e)
  let model ← liftModel (ProtocolProver.Model.build theory rules restrictions built tactics)
  return ⟨model, failed⟩

end Surface

end ProtocolProver
