import ProtocolProver.Json.Reader
import ProtocolProver.System.Basic
import ProtocolProver.Trace.Basic

/-!
# Engine values from JSON

Reads the form that `Wire.ofTerm` and its companions write. Symbols have to be declared with the
number of arguments that they have; `mult`, `xor` and `union` take any number.
-/

namespace ProtocolProver

namespace Wire

/-- What a reader gives, or a word on what it does not understand. -/
abbrev Result (α : Type) : Type := Except String α

def asString : Json → Result String
  | .string s => .ok s
  | _ => .error "a string is expected"

def asArray : Json → Result (List Json)
  | .array items => .ok items
  | _ => .error "an array is expected"

def asNat : Json → Result Nat
  | .number literal =>
    if literal.toList.all Char.isDigit then
      .ok (literal.toList.foldl (fun n c => n * 10 + (c.toNat - 48)) 0)
    else .error "a natural number is expected"
  | _ => .error "a natural number is expected"

/-- The elements of an array, each read by `f`. -/
def list {α : Type} (f : Json → Result α) (v : Json) : Result (List α) := do (← asArray v).mapM f

def pair {α β : Type} (f : Json → Result α) (g : Json → Result β) (v : Json) : Result (α × β) := do
  match ← asArray v with
  | [a, b] => return (← f a, ← g b)
  | _ => throw "two elements are expected"

/-- Splits an index after a point off a name. -/
def splitIndex (text : List Char) : String × Nat :=
  let digits := (text.reverse.takeWhile Char.isDigit).reverse
  let before := text.take (text.length - digits.length)
  if digits.isEmpty || before.getLast? ≠ some '.' then (String.ofList text, 0)
  else (String.ofList before.dropLast, digits.foldl (fun n c => n * 10 + (c.toNat - 48)) 0)

def varOfChars (cs : List Char) : Var :=
  let (sort, rest) : TermSort × List Char := match cs with
    | '~' :: rest => (.fresh, rest)
    | '$' :: rest => (.pub, rest)
    | rest => (.msg, rest)
  let (name, idx) := splitIndex rest
  ⟨name, idx, sort⟩

def toVar (v : Json) : Result Var := do return varOfChars (← asString v).toList

/-- A term that is written as a string. -/
def atomicTerm (s : String) : Term :=
  match s.toList with
  | '\x27' :: rest =>
    if rest.getLast? = some '\x27' then .pubName (String.ofList rest.dropLast)
    else .var (varOfChars s.toList)
  | '%' :: rest =>
    let (name, idx) := splitIndex rest
    .name (.fresh name idx)
  | cs => .var (varOfChars cs)

def symbolOf (sig : Signature) (name : String) (args : Nat) : Result Symbol :=
  match sig.lookup? name with
  | none => .error ("unknown symbol " ++ name)
  | some f =>
    if sig.arity f = args || f = .mult || f = .xor || f = .union then .ok f
    else .error ("wrong number of arguments for " ++ name)

mutual

def toTerm (sig : Signature) : Json → Result Term
  | .string s => .ok (atomicTerm s)
  | .array (.string f :: args) => do
    return .app (← symbolOf sig f args.length) (← toTermList sig args)
  | _ => .error "a term is expected"

def toTermList (sig : Signature) : List Json → Result (List Term)
  | [] => .ok []
  | v :: vs => do return (← toTerm sig v) :: (← toTermList sig vs)

end

def toEquation (sig : Signature) : Json → Result Equation := pair (toTerm sig) (toTerm sig)

def toFact (sig : Signature) : Json → Result Fact
  | .array (.string pred :: args) => do
    let args ← toTermList sig args
    return match pred.toList with
      | '!' :: rest => .persistent (String.ofList rest) args
      | _ => .linear pred args
  | _ => .error "a fact is expected"

def toBindings (sig : Signature) : Json → Result (List (Var × Term)) :=
  list (pair toVar (toTerm sig))

def toSubst (sig : Signature) (v : Json) : Result Subst := do
  return SortedMap.ofList (← toBindings sig v)

def timeOfChars (cs : List Char) : TimeVar :=
  let (name, idx) := splitIndex cs
  ⟨name, idx⟩

def toTime (v : Json) : Result TimeVar := do return timeOfChars (← asString v).toList

def toBinder (v : Json) : Result Binder := do
  match (← asString v).toList with
  | '#' :: rest => return .time (timeOfChars rest)
  | cs => return .msg (varOfChars cs)

def toAtom (sig : Signature) : Json → Result Atom
  | .array [.string "act", f, i] => do return .action (← toFact sig f) (← toTime i)
  | .array [.string "knows", t, i] => do return .knows (← toTerm sig t) (← toTime i)
  | .array [.string "lt", i, j] => do return .less (← toTime i) (← toTime j)
  | .array [.string "teq", i, j] => do return .timeEq (← toTime i) (← toTime j)
  | .array [.string "eq", s, t] => do return .eq (← toTerm sig s) (← toTerm sig t)
  | _ => .error "an atom is expected"

mutual

def toFormula (sig : Signature) : Json → Result Formula
  | .array [.string "true"] => .ok .top
  | .array [.string "false"] => .ok .bot
  | .array (.string "and" :: fs) => do return .conj (← toFormulas sig fs)
  | .array (.string "or" :: fs) => do return .disj (← toFormulas sig fs)
  | .array [.string "not", f] => do return .neg (← toFormula sig f)
  | .array [.string "imp", f, g] => do return .imp (← toFormula sig f) (← toFormula sig g)
  | .array [.string "ex", bs, f] => do return .ex (← list toBinder bs) (← toFormula sig f)
  | .array [.string "all", bs, f] => do return .all (← list toBinder bs) (← toFormula sig f)
  | v => do return .atom (← toAtom sig v)

def toFormulas (sig : Signature) : List Json → Result (List Formula)
  | [] => .ok []
  | v :: vs => do return (← toFormula sig v) :: (← toFormulas sig vs)

end

mutual

def toNnf (sig : Signature) : Json → Result Nnf
  | .array [.string "true"] => .ok .top
  | .array [.string "false"] => .ok .bot
  | .array (.string "and" :: fs) => do return .conj (← toNnfs sig fs)
  | .array (.string "or" :: fs) => do return .disj (← toNnfs sig fs)
  | .array [.string "neq", s, t] => do return .neq (← toTerm sig s) (← toTerm sig t)
  | .array [.string "ex", bs, f] => do return .ex (← list toBinder bs) (← toNnf sig f)
  | .array [.string "guarded", bs, gs, f] => do
    return .guarded (← list toBinder bs) (← list (toAtom sig) gs) (← toNnf sig f)
  | v => do return .atom (← toAtom sig v)

def toNnfs (sig : Signature) : List Json → Result (List Nnf)
  | [] => .ok []
  | v :: vs => do return (← toNnf sig v) :: (← toNnfs sig vs)

end

def toGoal (sig : Signature) : Json → Result Goal
  | .array [.string "action", f, i] => do return .action (← toFact sig f) (← toTime i)
  | .array [.string "premise", node, idx] => do return .premise (← asNat node) (← asNat idx)
  | .array [.string "knows", t, i] => do return .knows (← toTerm sig t) (← toTime i)
  | .array [.string "chain", s, t, i] => do
    return .chain (← toTerm sig s) (← toTerm sig t) (← toTime i)
  | .array [.string "split", f] => do return .split (← toNnf sig f)
  | _ => .error "a goal is expected"

/-- A field that may be missing or null. -/
def field? (v : Json) (name : String) : Option Json :=
  match v.get? name with
  | some .null => none
  | found => found

/-- A list that is empty when it is missing. -/
def listField {α : Type} (f : Json → Result α) (v : Json) (name : String) : Result (List α) :=
  match field? v name with
  | some items => list f items
  | none => .ok []

def toStep (sig : Signature) (v : Json) : Result Step := do
  let some rule := field? v "rule" | throw "a step names its rule"
  return {
    rule := ← asString rule
    subst := ← listField (pair toVar (toTerm sig)) v "subst"
    premises := ← listField (toFact sig) v "premises"
    actions := ← listField (toFact sig) v "actions"
    conclusions := ← listField (toFact sig) v "conclusions" }

end Wire

end ProtocolProver
