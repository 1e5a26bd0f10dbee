import ProtocolProver.Config
import ProtocolProver.Report
import ProtocolProver.Surface.Compile

/-!
# Checking a model

`check` compiles a model and evaluates its lemmas. Lemmas that could not be built come first in the
report, with the reason. A model is not checked if it does not compile, or if a search would have to
end later than the clock can show.
-/

namespace ProtocolProver

/-- Why a model could not be checked. -/
inductive CheckError where
  | compile (cause : CompileError)
  /-- The clock cannot show when the time for a search is over. -/
  | noDeadline
deriving DecidableEq, Repr

def CheckError.message : CheckError → String
  | .compile cause => cause.message
  | .noDeadline => "overflow when adding duration to instant"

def isWanted (only : Option String) (name : String) : Bool := only.all (· == name)

/-- The report on one lemma of a model. -/
def checkLemma (m : Model) (budget : Budget) (host : Search.Host) (l : Lemma) : LemmaReport :=
  match evaluate m l budget host with
  | .ok v => .ofVerdict m.signature l.name v
  | .error e => .ofError l.name e.message

/-- Whether the evaluation of a lemma comes to a search. -/
def isSearched (m : Model) (l : Lemma) : Bool := (l.findTactic m).isOk

/-- Checks all lemmas of a model, or only those of the given name. The search for each name has a
host of its own. -/
def check (m : Surface.Model) (config : Config) (only : Option String)
    (host : String → Search.Host := fun _ => {}) : Except CheckError ModelReport := do
  let compiled ← (m.compile config.flags).mapError .compile
  let failed := compiled.lemmaErrors.filter fun (name, _) => isWanted only name
  let built := compiled.model.lemmas.filter fun l => isWanted only l.name
  if !config.limits.budget.hasDeadline && built.any (isSearched compiled.model) then
    throw .noDeadline
  return ⟨m.name, failed.map (fun (name, e) => .ofError name e.message)
    ++ built.map fun l => checkLemma compiled.model config.limits.budget (host l.name) l⟩

end ProtocolProver
