/-!
# Media types

A media type such as `application/json; charset=utf-8` has a type, a subtype that may end in a
suffix after `+`, and parameters. Letters count without case.
-/

namespace ProtocolProver

/-- A media type without its parameters. -/
structure MediaType where
  type : String
  subtype : String
  suffix : Option String
deriving DecidableEq, Repr

namespace MediaType

/-- The characters of names. -/
def isToken (c : Char) : Bool :=
  c.isAlphanum || "!#$%&\x27*+-.^_`|~".toList.contains c

/-- The characters that may stand between quotes: those of ASCII that can be seen, and the blank. -/
def isQuotable (c : Char) : Bool := 31 < c.toNat && c.toNat < 127

/-- Checks what follows a quoted value: blanks, and a semicolon before the next parameter. -/
def afterQuoted : List Char → Option (List Char)
  | [] => some []
  | ' ' :: cs => afterQuoted cs
  | ';' :: cs => some cs
  | _ :: _ => none

/-- Skips the value of a parameter with the semicolon after it. A quoted value is not empty, so its
first character may be a quote. -/
def skipValue : List Char → Option (List Char)
  | '\x22' :: cs =>
    match cs with
    | [] => none
    | c :: cs =>
      if isQuotable c then
        match cs.dropWhile fun c => isQuotable c && c ≠ '\x22' with
        | '\x22' :: rest => afterQuoted rest
        | _ => none
      else none
  | cs =>
    match cs.takeWhile isToken, cs.dropWhile isToken with
    | _, [] => some []
    | _ :: _, ';' :: rest => some rest
    | _, _ => none

/-- Checks parameters `name=value`, each after at most some blanks. The fuel is at least the length
of the text. -/
def validParams : Nat → List Char → Bool
  | 0, cs => cs.isEmpty
  | _ + 1, [] => true
  | n + 1, ' ' :: cs => validParams n cs
  | n + 1, cs =>
    match cs.takeWhile isToken, cs.dropWhile isToken with
    | _ :: _, '=' :: rest => (skipValue rest).any (validParams n)
    | _, _ => false

/-- Splits a subtype at its last `+`. -/
def splitSuffix (cs : List Char) : List Char × Option (List Char) :=
  let suffix := (cs.reverse.takeWhile (· ≠ '+')).reverse
  let before := cs.take (cs.length - suffix.length - 1)
  if suffix.length = cs.length ∨ before.isEmpty then (cs, none) else (before, some suffix)

/-- Reads a media type and checks its parameters. -/
def parse? (text : String) : Option MediaType :=
  let cs := text.toList.map Char.toLower
  match cs.takeWhile isToken, cs.dropWhile isToken with
  | t :: ts, '/' :: rest =>
    let name := rest.takeWhile isToken
    let params := match rest.dropWhile isToken with
      | [] => true
      | ';' :: params => validParams (params.length + 1) params
      | _ => false
    if !name.isEmpty && params then
      let (subtype, suffix) := splitSuffix name
      some ⟨String.ofList (t :: ts), String.ofList subtype, suffix.map String.ofList⟩
    else none
  | _, _ => none

/-- Whether content of this type is JSON. -/
def isJson (m : MediaType) : Bool :=
  m.type == "application" && (m.subtype == "json" || m.suffix == some "json")

end MediaType

end ProtocolProver
