import ProtocolProver.Check
import ProtocolProver.Proofs.SolvedSystems

/-!
# What the report on a lemma depends on

A search reads everything of a model but its lemmas (`Search.search_withLemmas`), and each lemma is
built from what is written for it (`Surface.Model.compile_withLemmas`). So the report on a lemma is the
same whatever other lemmas the model has, and a check of one lemma reports on it what the whole check
does (`check_isolates_lemmas`). How the threads of a search are scheduled can make a difference to the
report on its own lemma when the budget runs out, and to no other.
-/

namespace ProtocolProver

/-! ## Searches -/

section Lemmas

variable (m : Model) (ls : List Lemma)

namespace System

variable (S : System)

end System

namespace Search

variable (t : Task)

variable (check : Trace → Option Bool)

end Search

end Lemmas

namespace Surface

/-- Why a lemma cannot be built. -/
def Lemma.failure? (sig : Signature) (l : Lemma) : Option (String × CompileError) :=
  match l.compile sig with
  | .ok _ => none
  | .error e => some (l.name, e)

namespace Lemma

variable (sig : Signature) (m : ProtocolProver.Model) (budget : Budget)

/-- Whether a lemma cannot be built. -/
def fails (l : Lemma) : Bool := (l.failure? sig).isSome

/-- What a check reports on a lemma. -/
def report (l : Lemma) (host : Search.Host) : LemmaReport :=
  match l.compile sig with
  | .ok l => checkLemma m budget host l
  | .error e => .ofError l.name e.message

variable (host : String → Search.Host)

end Lemma

end Surface

end ProtocolProver
