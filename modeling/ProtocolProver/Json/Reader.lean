import ProtocolProver.Json.Basic
import ProtocolProver.Json.Scan

/-!
# Typed readers of JSON text

A `Reader` reads a value of its type at the front of a text, and stops at the first fault. Lists and
records may be nested up to a given depth, by default `maxDepth`. A `Record` lists the fields of a
structure: they are read from an object, in any order and without repetition, or from an array, in
their own order. Fields of an object that a record does not know are skipped. A `variant` is read
from its name, or from an object that has its name as the only key. `Reader.run` reads a text, and
`Reader.ofJson` a value that is known to be JSON already.
-/

namespace ProtocolProver

namespace Json

/-- What bounds the reading of a value. -/
structure Bounds where
  /-- How many levels of nesting are left. -/
  depth : Nat
  /-- A bound on the number of characters that are left, and so on the entries of a list. -/
  length : Nat
  /-- Whether the fields that come with a variant need their names. -/
  named : Bool := false

/-- Reads a value from a text within bounds. -/
abbrev Reader : Type → Type := ReaderT Bounds Scanner

/-- How deep values may be nested, if nothing else is asked for. -/
def maxDepth : Nat := 127

namespace Reader

/-- Fuel for the entries of one list. -/
def fuel : Reader Nat := fun b => pure (b.length + 1)

/-- Reads a value that starts with the given character and has the wrong shape. What can be read at
a glance must be well formed all the same. -/
def wrongShape {α : Type} (c : Char) : Scanner α := do
  if c = 'n' then expect ['n', 'u', 'l', 'l']
  else if c = 't' then expect ['t', 'r', 'u', 'e']
  else if c = 'f' then expect ['f', 'a', 'l', 's', 'e']
  else if c = '-' ∨ c.isDigit then
    let _ ← scanNumber
  else if c = '\x22' then
    skip
    let _ ← scanString
  else unless c = '[' ∨ c = '\x7b' do throw .malformed
  throw .mismatch

/-- Goes one level deeper. -/
def nested {α : Type} (r : Reader α) : Reader α := fun b =>
  match b.depth with
  | 0 => throw .malformed
  | d + 1 => r { b with depth := d }

def string : Reader String := fun _ => do
  let c ← peekSome
  if c = '\x22' then skip; scanString else wrongShape c

/-- A natural number of at most 64 bits. -/
def nat : Reader Nat := fun _ => do
  let c ← peekSome
  if c = '-' ∨ c.isDigit then
    match ← scanNumber with
    | .nat n => return n
    | .other => throw .mismatch
  else wrongShape c

def bool : Reader Bool := fun _ => do
  let c ← peekSome
  if c = 't' then expect ['t', 'r', 'u', 'e']; return true
  else if c = 'f' then expect ['f', 'a', 'l', 's', 'e']; return false
  else wrongShape c

def null : Reader Unit := fun _ => do
  let c ← peekSome
  if c = 'n' then expect ['n', 'u', 'l', 'l'] else wrongShape c

/-- A value, or null for none. -/
def option {α : Type} (r : Reader α) : Reader (Option α) := do
  if (← peek) = some 'n' then
    expect ['n', 'u', 'l', 'l']
    return none
  else return some (← r)

/-! ## Arrays -/

/-- The next element of an array, if there is one. -/
def element {α : Type} (first : Bool) (r : Reader α) : Reader (Option α) := do
  let c ← peekSome
  if c = ']' then return none
  else if first then return some (← r)
  else if c = ',' then
    skip
    if (← peekSome) = ']' then throw .malformed
    return some (← r)
  else throw .malformed

/-- The end of an array. -/
def endArray : Scanner Unit := do
  if (← peekSome) = ']' then skip else throw .malformed

/-- What stands in an array. -/
def inArray {α : Type} (r : Reader α) : Reader α := nested do
  skip
  let a ← r
  endArray
  return a

/-- Elements up to the end of an array. The fuel is more than their number. -/
def elements {α : Type} (r : Reader α) : Nat → (first : Bool) → Reader (List α)
  | 0, _ => throw .malformed
  | n + 1, first => do
    match ← element first r with
    | none => return []
    | some a => return a :: (← elements r n false)

def list {α : Type} (r : Reader α) : Reader (List α) := do
  let c ← peekSome
  if c = '[' then inArray do elements r (← fuel) true
  else wrongShape c

def pair {α β : Type} (r : Reader α) (s : Reader β) : Reader (α × β) := do
  let c ← peekSome
  if c = '[' then
    inArray do
      let some a ← element true r | throw .mismatch
      let some b ← element false s | throw .mismatch
      return (a, b)
  else wrongShape c

/-! ## Objects -/

def colon : Scanner Unit := do
  if (← peekSome) = ':' then skip else throw .malformed

/-- A name, which stands in quotes. -/
def quoted : Scanner String := do
  if (← peekSome) = '\x22' then skip; scanString else throw .malformed

/-- The next key of an object, if there is one. -/
def key (first : Bool) : Scanner (Option String) := do
  let c ← peekSome
  if c = '\x7d' then return none
  else if first then return some (← quoted)
  else if c = ',' then skip; return some (← quoted)
  else throw .malformed

/-- Skips the entries of an array or object. The fuel is more than their number. -/
def skipEntries (close : Char) (entry : Scanner Unit) : Nat → (first : Bool) → Scanner Unit
  | 0, _ => throw .malformed
  | n + 1, first => do
    let c ← peekSome
    if c = close then skip
    else if first then
      entry
      skipEntries close entry n false
    else if c = ',' then
      skip
      entry
      skipEntries close entry n false
    else throw .malformed

/-- Skips a value of any shape, with at most `length` entries in a list. The fuel is more than its
depth. -/
def skipWithin (length : Nat) : Nat → Scanner Unit
  | 0 => throw .malformed
  | n + 1 => do
    let c ← peekSome
    if c = 'n' then expect ['n', 'u', 'l', 'l']
    else if c = 't' then expect ['t', 'r', 'u', 'e']
    else if c = 'f' then expect ['f', 'a', 'l', 's', 'e']
    else if c = '-' ∨ c.isDigit then skipNumber
    else if c = '\x22' then skip; skipString
    else if c = '[' then
      skip
      skipEntries ']' (skipWithin length n) (length + 1) true
    else if c = '\x7b' then
      skip
      let field : Scanner Unit := do
        if (← peekSome) = '\x22' then skip; skipString else throw .malformed
        colon
        skipWithin length n
      skipEntries '\x7d' field (length + 1) true
    else throw .malformed

def skipValue : Reader Unit := fun b => skipWithin b.length (b.length + 1)

end Reader

/-! ## Records -/

/-- A field of a record whose values are collected in `σ`. -/
structure Slot (σ : Type) where
  name : String
  isSet : σ → Bool
  read : Reader (σ → σ)

/-- The fields of a structure, with the values read so far in `State`. -/
structure Record (α : Type) where
  State : Type
  start : State
  slots : List (Slot State)
  /-- The structure, unless a field that it needs is missing. -/
  finish : State → Option α

namespace Slot

/-- The slot of a part of a state. -/
def within {σ τ : Type} (get : τ → σ) (update : (σ → σ) → τ → τ) (s : Slot σ) : Slot τ where
  name := s.name
  isSet t := s.isSet (get t)
  read := update <$> s.read

end Slot

namespace Record

/-- One field. Without a default it has to be there. -/
def field {α : Type} (name : String) (r : Reader α) (default : Option α := none) : Record α where
  State := Option α
  start := none
  slots := [⟨name, Option.isSome, (fun a _ => some a) <$> r⟩]
  finish s := s.or default

instance : Functor Record where
  map f R := ⟨R.State, R.start, R.slots, fun s => (R.finish s).map f⟩

instance : Seq Record where
  seq F R :=
    { State := F.State × (R ()).State
      start := (F.start, (R ()).start)
      slots := F.slots.map (Slot.within Prod.fst fun f s => (f s.1, s.2))
        ++ (R ()).slots.map (Slot.within Prod.snd fun f s => (s.1, f s.2))
      finish := fun s => do return (← F.finish s.1) (← (R ()).finish s.2) }

/-- The structure at the end of its text. -/
def done {α : Type} (R : Record α) (s : R.State) : Reader α :=
  match R.finish s with
  | some a => return a
  | none => throw .mismatch

/-- Reads fields up to the end of an object. The fuel is more than their number. -/
def fromFields {α : Type} (R : Record α) : Nat → (first : Bool) → R.State → Reader α
  | 0, _, _ => throw .malformed
  | n + 1, first, s => do
    match ← Reader.key first with
    | none => R.done s
    | some name =>
      match R.slots.find? fun slot => slot.name == name with
      | some slot =>
        if slot.isSet s then throw .mismatch
        Reader.colon
        R.fromFields n false ((← slot.read) s)
      | none =>
        Reader.colon
        Reader.skipValue
        R.fromFields n false s

/-- Reads fields in their order from an array. The last ones may be missing. -/
def fromElements {α : Type} (R : Record α) :
    List (Slot R.State) → (first : Bool) → R.State → Reader α
  | [], _, s => R.done s
  | slot :: slots, first, s => do
    match ← Reader.element first slot.read with
    | none => R.done s
    | some f => R.fromElements slots false (f s)

/-- Reads the structure from an object or an array. -/
def read {α : Type} (R : Record α) : Reader α := do
  let c ← peekSome
  if c = '[' then Reader.inArray (R.fromElements R.slots true R.start)
  else if c = '\x7b' then
    Reader.nested do
      skip
      let a ← R.fromFields (← Reader.fuel) true R.start
      skip
      return a
  else Reader.wrongShape c

/-- Reads the structure where it comes with a variant. -/
def readPayload {α : Type} (R : Record α) : Reader α := fun b => do
  let c ← peekSome
  if b.named ∧ c = '[' then throw .mismatch
  R.read b

end Record

/-! ## Variants -/

/-- What comes with the name of a variant. -/
inductive Case (α : Type) where
  | unit (a : α)
  | payload (r : Reader α)

namespace Reader

/-- Reads one of several named variants. -/
def variant {α : Type} (cases : List (String × Case α)) : Reader α := do
  let c ← peekSome
  if c = '\x22' then
    match cases.lookup (← string) with
    | some (.unit a) => return a
    | _ => throw .mismatch
  else if c = '\x7b' then
    nested do
      skip
      let case := cases.lookup (← quoted)
      match case with
      | none => throw .mismatch
      | some case =>
        colon
        let a ← match case with
          | .unit a => do null; pure a
          | .payload r => r
        if (← peekSome) = '\x7d' then skip else throw .malformed
        return a
  else throw .malformed

/-! ## Whole texts -/

/-- Reads a text that holds one value and nothing else. -/
def runWithin {α : Type} (r : Reader α) (b : Bounds) (text : String) : Except Fault α := do
  let (a, rest) ← r b text.toList
  if (rest.dropWhile isBlank).isEmpty then return a else throw .malformed

/-- Reads a text that holds one value and nothing else, nested at most as deep as given. -/
def run {α : Type} (r : Reader α) (text : String) (depth : Nat := maxDepth) : Except Fault α :=
  r.runWithin { depth, length := text.length } text

/-- Reads a value at hand, of any depth. Here a variant has its fields by name. -/
def ofJson {α : Type} (r : Reader α) (v : Json) : Except Fault α :=
  let text := v.compact
  r.runWithin { depth := text.length, length := text.length, named := true } text

/-! ## Values of any shape -/

/-- Sets a field of an object. -/
def setField (fields : List (String × Json)) (name : String) (v : Json) : List (String × Json) :=
  if fields.any fun f => f.1 == name then
    fields.map fun f => if f.1 == name then (name, v) else f
  else fields ++ [(name, v)]

/-- Reads the fields of an object. Of fields with the same name the last one counts. -/
def objectFields (r : Reader Json) :
    Nat → (first : Bool) → List (String × Json) → Reader (List (String × Json))
  | 0, _, _ => throw .malformed
  | n + 1, first, fields => do
    match ← key first with
    | none => return fields
    | some name =>
      colon
      let v ← r
      objectFields r n false (setField fields name v)

/-- A value of any shape. The fuel is more than its depth. -/
def valueWithin : Nat → Reader Json
  | 0 => throw .malformed
  | n + 1 => do
    let c ← peekSome
    if c = 'n' then null; return .null
    else if c = 't' ∨ c = 'f' then return .bool (← bool)
    else if c = '\x22' then return .string (← string)
    else if c = '[' then return .array (← list (valueWithin n))
    else if c = '\x7b' then
      nested do
        skip
        let fields ← objectFields (valueWithin n) (← fuel) true []
        skip
        return .object fields
    else if c = '-' ∨ c.isDigit then
      let before ← get
      let _ ← scanNumber
      let literal := before.take (before.length - (← get).length)
      return .number (String.ofList literal)
    else throw .malformed

def value : Reader Json := fun b => valueWithin (b.depth + 1) b

end Reader

def parse (text : String) (depth : Nat := maxDepth) : Except Fault Json :=
  Reader.value.run text depth

def get? (v : Json) (name : String) : Option Json :=
  match v with
  | .object fields => fields.lookup name
  | _ => none

end Json

end ProtocolProver
