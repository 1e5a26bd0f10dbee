import ProtocolProver.Search.Prover
import ProtocolProver.Surface.Format

/-!
# Configuration

A configuration holds the active flags, the limits of a search and the number of threads. It is kept
as JSON, and everything may be left out.
-/

namespace ProtocolProver

open Json (Reader Record)
open Json.Record (field)

/-- The limits of a search as they are written. -/
structure Limits where
  maxSteps : Nat := 200000
  /-- Seconds until a search is given up, or zero for no such limit. -/
  timeoutSecs : Nat := 60
  maxNodes : Nat := 24
deriving DecidableEq, Repr

namespace Limits

def budget (l : Limits) : Budget where
  maxSteps := l.maxSteps
  timeout := if l.timeoutSecs = 0 then none else some l.timeoutSecs
  maxNodes := l.maxNodes

def toJson (l : Limits) : Json :=
  .object [("max_steps", .nat l.maxSteps), ("timeout_secs", .nat l.timeoutSecs),
    ("max_nodes", .nat l.maxNodes)]

def reader : Reader Limits :=
  let default : Limits := {}
  (Limits.mk <$> field "max_steps" .nat (some default.maxSteps)
    <*> field "timeout_secs" .nat (some default.timeoutSecs)
    <*> field "max_nodes" .nat (some default.maxNodes)).read

end Limits

structure Config where
  /-- The flags under which rules, restrictions and lemmas are active. -/
  flags : SortedSet String := ∅
  limits : Limits := {}
  /-- The number of threads, or zero for one on each core. -/
  threads : Nat := 0

namespace Config

def toJson (c : Config) : Json :=
  .object [("flags", .strings (SortedSet.toList c.flags)), ("budget", c.limits.toJson),
    ("threads", .nat c.threads)]

/-- A set of flags, given as a list. -/
def flagsReader : Reader (SortedSet String) := SortedSet.ofList <$> Reader.list .string

def reader : Reader Config :=
  (Config.mk <$> field "flags" flagsReader (some ∅) <*> field "budget" Limits.reader (some {})
    <*> field "threads" .nat (some 0)).read

def ofText (text : String) : Except Json.Fault Config := reader.run text

end Config

end ProtocolProver
