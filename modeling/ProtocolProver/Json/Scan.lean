/-!
# The words of JSON text

Functions that read one word at the front of a text and give the rest: literals, strings and
numbers. A `Fault` says in which way a text is wrong: it ends too early, it is not JSON, or it is
JSON of another shape than what is asked for.
-/

namespace ProtocolProver

namespace Json

/-- What is wrong with a text. -/
inductive Fault where
  /-- The text ends too early. -/
  | ended
  /-- The text is not JSON. -/
  | malformed
  /-- The text is JSON, but of the wrong shape. -/
  | mismatch
deriving DecidableEq, Repr

/-- Reads from the front of a text. -/
abbrev Scanner : Type → Type := StateT (List Char) (Except Fault)

def isBlank (c : Char) : Bool := c = ' ' || c = '\n' || c = '\t' || c = '\r'

/-- Skips blanks and looks at the next character. -/
def peek : Scanner (Option Char) := do
  modify (·.dropWhile isBlank)
  return (← get).head?

def skip : Scanner Unit := modify List.tail

/-- Skips blanks and looks at the next character, which has to be there. -/
def peekSome : Scanner Char := do
  match ← peek with
  | some c => return c
  | none => throw .ended

/-- Reads the given word. -/
def expect : List Char → Scanner Unit
  | [] => pure ()
  | c :: word => do
    match ← get with
    | [] => throw .ended
    | d :: rest => if d = c then set rest; expect word else throw .malformed

/-! ## Strings -/

def hexValue? (c : Char) : Option Nat :=
  if '0' ≤ c ∧ c ≤ '9' then some (c.toNat - 48)
  else if 'a' ≤ c ∧ c ≤ 'f' then some (c.toNat - 87)
  else if 'A' ≤ c ∧ c ≤ 'F' then some (c.toNat - 55)
  else none

/-- The number that four hexadecimal digits stand for. -/
def hexValue (a b c d : Char) : Option Nat := do
  return (((← hexValue? a) * 16 + (← hexValue? b)) * 16 + (← hexValue? c)) * 16 + (← hexValue? d)

/-- What is wrong where four digits do not follow: a text of less than four bytes ends too early. -/
def hexFault (cs : List Char) : Fault :=
  if cs.foldr (fun c n => c.utf8Size + n) 0 < 4 then .ended else .malformed

/-- The character that follows a backslash. Unicode escapes are not among them. -/
def simpleEscape? (c : Char) : Option Char :=
  if c = '\x22' ∨ c = '\\' ∨ c = '/' then some c
  else if c = 'b' then some '\x08'
  else if c = 'f' then some '\x0c'
  else if c = 'n' then some '\n'
  else if c = 'r' then some '\r'
  else if c = 't' then some '\t'
  else none

def isLeadingSurrogate (n : Nat) : Bool := 0xD800 ≤ n && n ≤ 0xDBFF

def isTrailingSurrogate (n : Nat) : Bool := 0xDC00 ≤ n && n ≤ 0xDFFF

/-- The character that two surrogates stand for. -/
def joinSurrogates (m n : Nat) : Char :=
  Char.ofNat ((m - 0xD800) * 1024 + (n - 0xDC00) + 0x10000)

/-- What is wrong where an escape for a trailing surrogate should follow. -/
def surrogateFault : List Char → Fault
  | [] => .ended
  | '\\' :: [] => .ended
  | '\\' :: 'u' :: rest => hexFault rest
  | _ => .malformed

/-- Puts a character in front of a string that was read. -/
def consChar (c : Char) (r : Except Fault (List Char × List Char)) :
    Except Fault (List Char × List Char) :=
  r.map fun (s, rest) => (c :: s, rest)

/-- Reads a string after its opening quote. -/
def stringBody : List Char → Except Fault (List Char × List Char)
  | [] => .error .ended
  | '\\' :: 'u' :: a :: b :: c :: d :: rest =>
    match hexValue a b c d with
    | none => .error .malformed
    | some m =>
      if isTrailingSurrogate m then .error .malformed
      else if isLeadingSurrogate m then
        match rest with
        | '\\' :: 'u' :: e :: f :: g :: h :: rest =>
          match hexValue e f g h with
          | none => .error .malformed
          | some n =>
            if isTrailingSurrogate n then consChar (joinSurrogates m n) (stringBody rest)
            else .error .malformed
        | rest => .error (surrogateFault rest)
      else consChar (Char.ofNat m) (stringBody rest)
  | '\\' :: 'u' :: rest => .error (hexFault rest)
  | '\\' :: c :: rest =>
    match simpleEscape? c with
    | some e => consChar e (stringBody rest)
    | none => .error .malformed
  | '\\' :: [] => .error .ended
  | c :: rest =>
    if c = '\x22' then .ok ([], rest)
    else if c.toNat < 32 then .error .malformed
    else consChar c (stringBody rest)

/-- Skips a string after its opening quote. Surrogates need not be paired. -/
def skipStringBody : List Char → Except Fault (List Char)
  | [] => .error .ended
  | '\\' :: 'u' :: a :: b :: c :: d :: rest =>
    if (hexValue a b c d).isSome then skipStringBody rest else .error .malformed
  | '\\' :: 'u' :: rest => .error (hexFault rest)
  | '\\' :: c :: rest =>
    if (simpleEscape? c).isSome then skipStringBody rest else .error .malformed
  | '\\' :: [] => .error .ended
  | c :: rest =>
    if c = '\x22' then .ok rest
    else if c.toNat < 32 then .error .malformed
    else skipStringBody rest

def scanString : Scanner String := fun cs => do
  let (s, rest) ← stringBody cs
  return (String.ofList s, rest)

def skipString : Scanner Unit := fun cs => do
  return ((), ← skipStringBody cs)

/-! ## Numbers -/

/-- The digits at the front of a text. -/
def scanDigits : Scanner (List Char) := fun cs =>
  .ok (cs.takeWhile Char.isDigit, cs.dropWhile Char.isDigit)

/-- The largest number that is read exactly. -/
def maxExact : Nat := 18446744073709551615

/-- A number `significand · 10 ^ exponent`, of which digits that exceed `maxExact` are cut off. -/
structure Scientific where
  significand : Nat
  exponent : Int

namespace Scientific

/-- The next digit before the point. -/
def digit (x : Scientific) (c : Char) : Scientific :=
  let n := x.significand * 10 + (c.toNat - 48)
  if x.exponent = 0 ∧ n ≤ maxExact then { x with significand := n }
  else { x with exponent := x.exponent + 1 }

/-- The digits after the point, up to the first that cannot be kept. -/
def fraction (x : Scientific) : List Char → Scientific
  | [] => x
  | c :: cs =>
    let n := x.significand * 10 + (c.toNat - 48)
    if n ≤ maxExact then fraction ⟨n, x.exponent - 1⟩ cs else x

/-- Whether the number is beyond what a double can hold. -/
def overflows (x : Scientific) : Bool :=
  x.significand ≠ 0 && 0 < x.exponent
    && (308 < x.exponent
      || (Float.ofNat x.significand * Float.ofScientific 1 false x.exponent.toNat).isInf)

end Scientific

/-- A number as a reader sees it. -/
inductive Number where
  | nat (n : Nat)
  /-- A negative number, or one that is not written as an integer, or too large. -/
  | other

/-- A number that is not a natural number. It must be in range. -/
def inexact (x : Scientific) : Scanner Number :=
  if x.overflows then throw .malformed else return .other

/-- Reads an exponent after its letter. -/
def scanExponent (x : Scientific) : Scanner Number := do
  let sign := (← get).head?
  if sign = some '+' ∨ sign = some '-' then skip
  match ← get with
  | [] => throw .ended
  | c :: _ =>
    unless c.isDigit do throw .malformed
    let digits ← scanDigits
    let n : Nat := digits.foldl (fun n c => n * 10 + (c.toNat - 48)) 0
    inexact { x with exponent := if sign = some '-' then x.exponent - n else x.exponent + n }

/-- Reads the digits after a point. -/
def scanFraction (x : Scientific) : Scanner Number := do
  let digits ← scanDigits
  match digits, ← get with
  | [], [] => throw .ended
  | [], _ :: _ => throw .malformed
  | _, rest =>
    let x := x.fraction digits
    match rest with
    | 'e' :: rest | 'E' :: rest => set rest; scanExponent x
    | _ => inexact x

/-- Reads a number after its sign. -/
def scanUnsigned (negative : Bool) : Scanner Number := do
  let digits ← scanDigits
  match digits, ← get with
  | [], [] => throw .ended
  | [], _ :: _ => throw .malformed
  | '0' :: _ :: _, _ => throw .malformed
  | _, rest =>
    let x := digits.foldl Scientific.digit ⟨0, 0⟩
    match rest with
    | '.' :: rest => set rest; scanFraction x
    | 'e' :: rest | 'E' :: rest => set rest; scanExponent x
    | _ => if negative || x.exponent ≠ 0 then inexact x else return .nat x.significand

def scanNumber : Scanner Number := do
  match ← get with
  | '-' :: rest => set rest; scanUnsigned true
  | _ => scanUnsigned false

/-- Skips a number, of any size. -/
def skipNumber : Scanner Unit := do
  if (← get).head? = some '-' then skip
  match ← scanDigits with
  | [] | '0' :: _ :: _ => throw .malformed
  | _ => pure ()
  if (← get).head? = some '.' then
    skip
    if (← scanDigits).isEmpty then throw .malformed
  let e := (← get).head?
  if e = some 'e' ∨ e = some 'E' then
    skip
    let sign := (← get).head?
    if sign = some '+' ∨ sign = some '-' then skip
    if (← scanDigits).isEmpty then throw .malformed

end Json

end ProtocolProver
