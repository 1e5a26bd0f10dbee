/-!
# JSON values and their text

`Json.compact` and `Json.pretty` write a value as text, the second with one entry to a line. Both go
through functions that put the text of a value in front of a given text.
-/

namespace ProtocolProver

/-- A JSON value. Numbers are kept as they are written. -/
inductive Json where
  | null
  | bool (b : Bool)
  | number (literal : String)
  | string (s : String)
  | array (items : List Json)
  | object (fields : List (String × Json))

namespace Json

instance : Inhabited Json := ⟨.null⟩

def nat (n : Nat) : Json := .number (toString n)

/-- The strings of a list. -/
def strings (ss : List String) : Json := .array (ss.map .string)

def ofOption (v : Option Json) : Json := v.getD .null

/-! ## Strings -/

def hexDigit (n : Nat) : Char := Char.ofNat (if n < 10 then 48 + n else 87 + n)

/-- How a character is written between quotes. -/
def escape (c : Char) : List Char :=
  if c = '\x22' then ['\\', '\x22']
  else if c = '\\' then ['\\', '\\']
  else if c = '\n' then ['\\', 'n']
  else if c = '\r' then ['\\', 'r']
  else if c = '\t' then ['\\', 't']
  else if c = '\x08' then ['\\', 'b']
  else if c = '\x0c' then ['\\', 'f']
  else if c.toNat < 32 then
    ['\\', 'u', '0', '0', hexDigit (c.toNat / 16), hexDigit (c.toNat % 16)]
  else [c]

/-- Puts the quoted text of a string in front. -/
def stringOnto (s : String) (rest : List Char) : List Char :=
  '\x22' :: s.toList.foldr (fun c rest => escape c ++ rest) ('\x22' :: rest)

/-- Puts the text of a value without parts in front. -/
def scalarOnto : Json → List Char → List Char
  | .null, rest => 'n' :: 'u' :: 'l' :: 'l' :: rest
  | .bool true, rest => 't' :: 'r' :: 'u' :: 'e' :: rest
  | .bool false, rest => 'f' :: 'a' :: 'l' :: 's' :: 'e' :: rest
  | .number literal, rest => literal.toList ++ rest
  | .string s, rest => stringOnto s rest
  | .array _, rest => rest
  | .object _, rest => rest

/-! ## Text without blanks -/

mutual

def compactOnto : Json → List Char → List Char
  | .array items, rest => '[' :: compactItems true items (']' :: rest)
  | .object fields, rest => '\x7b' :: compactFields true fields ('\x7d' :: rest)
  | scalar, rest => scalarOnto scalar rest

def compactItems (first : Bool) : List Json → List Char → List Char
  | [], rest => rest
  | v :: vs, rest =>
    let text := compactOnto v (compactItems false vs rest)
    if first then text else ',' :: text

def compactFields (first : Bool) : List (String × Json) → List Char → List Char
  | [], rest => rest
  | (k, v) :: fs, rest =>
    let text := stringOnto k (':' :: compactOnto v (compactFields false fs rest))
    if first then text else ',' :: text

end

/-- The text of a value without blanks. -/
def compact (v : Json) : String := String.ofList (v.compactOnto [])

/-! ## Text with one entry to a line -/

/-- Puts a line break and two blanks for each level in front. -/
def lineOnto (level : Nat) (rest : List Char) : List Char :=
  '\n' :: (List.replicate (2 * level) ' ' ++ rest)

mutual

def prettyOnto (level : Nat) : Json → List Char → List Char
  | .array [], rest => '[' :: ']' :: rest
  | .object [], rest => '\x7b' :: '\x7d' :: rest
  | .array (v :: vs), rest =>
    '[' :: prettyItems (level + 1) true (v :: vs) (lineOnto level (']' :: rest))
  | .object (f :: fs), rest =>
    '\x7b' :: prettyFields (level + 1) true (f :: fs) (lineOnto level ('\x7d' :: rest))
  | scalar, rest => scalarOnto scalar rest

def prettyItems (level : Nat) (first : Bool) : List Json → List Char → List Char
  | [], rest => rest
  | v :: vs, rest =>
    let text := lineOnto level (prettyOnto level v (prettyItems level false vs rest))
    if first then text else ',' :: text

def prettyFields (level : Nat) (first : Bool) : List (String × Json) → List Char → List Char
  | [], rest => rest
  | (k, v) :: fs, rest =>
    let text := lineOnto level
      (stringOnto k (':' :: ' ' :: prettyOnto level v (prettyFields level false fs rest)))
    if first then text else ',' :: text

end

/-- The text of a value with one entry to a line, indented by two blanks for each level. -/
def pretty (v : Json) : String := String.ofList (v.prettyOnto 0 [])

end Json

end ProtocolProver
