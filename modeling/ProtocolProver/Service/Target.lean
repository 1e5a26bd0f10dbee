/-!
# Request targets

A request says where it goes with a path, with `*`, with a host alone or with a whole URI.
`Target.parse?` reads these four forms. Queries and fragments are checked and dropped.
-/

namespace ProtocolProver

/-- Where a request goes. -/
inductive Target where
  /-- A path, such as `/a` in `/a?b`. -/
  | origin (path : String)
  /-- The sign `*`, for the service as a whole. -/
  | asterisk
  /-- A host, with a user and a number if it has them. -/
  | authority (host : String)
  /-- A whole URI, such as `http://host/a?b`. Its path may be empty. -/
  | absolute (scheme host path : String)
deriving DecidableEq, Repr

namespace Target

/-- The path by which a request is answered. -/
def path : Target → String
  | .origin path => path
  | .asterisk => "*"
  | .authority _ => ""
  | .absolute _ _ path => if path.isEmpty then "/" else path

/-- The number of bytes in the longest target. -/
def maxSize : Nat := 65534

/-- The number of characters in the longest scheme. -/
def maxScheme : Nat := 64

/-! ## Hosts -/

/-- The characters of hosts that have no meaning of their own. -/
def isHostChar (c : Char) : Bool :=
  c.isAlphanum || "!$&\x27()*+,-.;=_~".toList.contains c

/-- What stands so far in the text of a host. -/
structure HostScan where
  /-- Colons after the user and outside of brackets. -/
  colons : Nat := 0
  opened : Bool := false
  closed : Bool := false
  /-- Whether there is a percent sign after the user and outside of brackets. -/
  percent : Bool := false

/-- Takes one more character of a host. What looked like a number or an escape is forgotten where it
turns out to belong to a user or to an address in brackets. -/
def HostScan.step (s : HostScan) : Char → Option HostScan
  | ':' => if s.colons < 8 then some { s with colons := s.colons + 1 } else none
  | '[' => if s.percent || s.opened then none else some { s with opened := true }
  | ']' =>
    if s.opened && !s.closed then some { s with closed := true, colons := 0, percent := false }
    else none
  | '@' => some { s with colons := 0, percent := false }
  | '%' => some { s with percent := true }
  | c => if isHostChar c then some s else none

/-- Whether a text is a host: its brackets match, at most one colon stands before a number, only a
user or an address in brackets has escapes, and something follows the user. -/
def isHost (cs : List Char) : Bool :=
  (cs.foldlM HostScan.step {}).any fun s =>
    s.opened == s.closed && s.colons ≤ 1 && !s.percent && cs.getLast? != some '@'

/-! ## Paths -/

def isPathChar (c : Char) : Bool := ' ' < c && !"<>`".toList.contains c

def isQueryChar (c : Char) : Bool := ' ' < c && !"<>\x22".toList.contains c

/-- The path in front of a query and a fragment. -/
def pathBefore? (cs : List Char) : Option String :=
  let cs := cs.takeWhile (· ≠ '#')
  let path := cs.takeWhile (· ≠ '?')
  if path.all isPathChar && (cs.dropWhile (· ≠ '?')).all isQueryChar then
    some (String.ofList path)
  else none

/-! ## Targets -/

def isSchemeChar (c : Char) : Bool := c.isAlphanum || "+-.~".toList.contains c

/-- Whether a host goes on. -/
def isInHost (c : Char) : Bool := !"/?#".toList.contains c

def parse? (text : String) : Option Target :=
  if maxSize < text.utf8ByteSize then none else
  let cs := text.toList
  match cs with
  | [] => none
  | ['*'] => some .asterisk
  | '/' :: _ => (pathBefore? cs).map .origin
  | _ =>
    let scheme := cs.takeWhile isSchemeChar
    match cs.dropWhile isSchemeChar with
    | ':' :: '/' :: '/' :: rest =>
      let host := rest.takeWhile isInHost
      if scheme.length ≤ maxScheme && !host.isEmpty && isHost host then
        (pathBefore? (rest.dropWhile isInHost)).map
          (.absolute (String.ofList scheme) (String.ofList host))
      else none
    | _ => if isHost cs then some (.authority text) else none

end Target

end ProtocolProver
