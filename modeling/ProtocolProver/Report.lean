import ProtocolProver.Json.Reader
import ProtocolProver.Search.Verdict
import ProtocolProver.Text

/-!
# Reports

A report lists the lemmas of a model with their verdicts. Traces are shown with all terms as text.
Reports are written as text for people and as JSON for programs.
-/

namespace ProtocolProver

open Json (Reader Record)
open Json.Record (field)

structure StepReport where
  timepoint : Nat
  rule : String
  subst : List (String × String)
  actions : List String
deriving DecidableEq, Repr

/-- Where a search stopped. -/
structure DiagnosticsReport where
  steps : Nat
  openGoals : Nat
  reason : String
deriving DecidableEq, Repr

/-- The result of one lemma: `proven`, `falsified`, `inconclusive` or `error`. -/
structure LemmaReport where
  name : String
  verdict : String
  trace : Option (List StepReport) := none
  diagnostics : Option DiagnosticsReport := none
  error : Option String := none
deriving DecidableEq, Repr

structure ModelReport where
  model : String
  lemmas : List LemmaReport := []
deriving DecidableEq, Repr

/-! ## Building reports -/

def InconclusiveReason.text : InconclusiveReason → String
  | .stepLimit => "step limit"
  | .timeout => "timeout"
  | .nodeLimit => "node limit"
  | .incomplete => "incomplete unification"

def StepReport.ofStep (sig : Signature) (timepoint : Nat) (s : Step) : StepReport where
  timepoint := timepoint
  rule := s.rule
  subst := s.subst.map fun (v, t) => (v.text, t.text sig)
  actions := s.actions.map (Fact.text sig)

namespace LemmaReport

def ofVerdict (sig : Signature) (name : String) (v : Verdict) : LemmaReport where
  name := name
  verdict := v.name
  trace := v.trace?.map fun trace => trace.zipIdx.map fun (s, i) => .ofStep sig i s
  diagnostics := match v with
    | .inconclusive d => some ⟨d.steps, d.openGoals, d.reason.text⟩
    | _ => none

def ofError (name message : String) : LemmaReport :=
  { name := name, verdict := "error", error := some message }

/-- Whether the lemma ended in an error or without an answer. -/
def isFailure (l : LemmaReport) : Bool := l.verdict == "error" || l.verdict == "inconclusive"

end LemmaReport

namespace ModelReport

def lemma? (r : ModelReport) (name : String) : Option LemmaReport :=
  r.lemmas.find? fun l => l.name == name

def hasFailures (r : ModelReport) : Bool := r.lemmas.any LemmaReport.isFailure

end ModelReport

/-! ## Text -/

def StepReport.text (s : StepReport) : String :=
  let actions := if s.actions.isEmpty then "" else " --[" ++ commaList s.actions ++ "]->"
  let values :=
    if s.subst.isEmpty then ""
    else " with " ++ commaList (s.subst.map fun (v, t) => v ++ " = " ++ t)
  "    #" ++ toString s.timepoint ++ ": " ++ s.rule ++ actions ++ values ++ "\n"

def DiagnosticsReport.text (d : DiagnosticsReport) : String :=
  " (" ++ d.reason ++ " after " ++ toString d.steps ++ " steps, " ++ toString d.openGoals
    ++ " open goals)"

def LemmaReport.text (l : LemmaReport) : String :=
  "  " ++ l.name ++ ": " ++ l.verdict ++ (l.diagnostics.map DiagnosticsReport.text).getD ""
    ++ (l.error.map fun e => " (" ++ e ++ ")").getD "" ++ "\n"
    ++ String.join ((l.trace.getD []).map StepReport.text)

def ModelReport.text (r : ModelReport) : String :=
  "model " ++ r.model ++ "\n" ++ String.join (r.lemmas.map LemmaReport.text)

/-! ## JSON -/

def StepReport.toJson (s : StepReport) : Json :=
  .object [("timepoint", .nat s.timepoint), ("rule", .string s.rule),
    ("subst", .array (s.subst.map fun (v, t) => .strings [v, t])),
    ("actions", .strings s.actions)]

def StepReport.reader : Reader StepReport :=
  (StepReport.mk <$> field "timepoint" .nat <*> field "rule" .string
    <*> field "subst" (.list (.pair .string .string)) <*> field "actions" (.list .string)).read

def DiagnosticsReport.toJson (d : DiagnosticsReport) : Json :=
  .object [("steps", .nat d.steps), ("open_goals", .nat d.openGoals), ("reason", .string d.reason)]

def DiagnosticsReport.reader : Reader DiagnosticsReport :=
  (DiagnosticsReport.mk <$> field "steps" .nat <*> field "open_goals" .nat
    <*> field "reason" .string).read

def LemmaReport.toJson (l : LemmaReport) : Json :=
  .object ([("name", .string l.name), ("verdict", .string l.verdict)]
    ++ (l.trace.map fun t => ("trace", Json.array (t.map StepReport.toJson))).toList
    ++ (l.diagnostics.map fun d => ("diagnostics", d.toJson)).toList
    ++ (l.error.map fun e => ("error", Json.string e)).toList)

def LemmaReport.reader : Reader LemmaReport :=
  (LemmaReport.mk <$> field "name" .string <*> field "verdict" .string
    <*> field "trace" (.option (.list StepReport.reader)) (some none)
    <*> field "diagnostics" (.option DiagnosticsReport.reader) (some none)
    <*> field "error" (.option .string) (some none)).read

def ModelReport.toJson (r : ModelReport) : Json :=
  .object [("model", .string r.model), ("lemmas", .array (r.lemmas.map LemmaReport.toJson))]

def ModelReport.reader : Reader ModelReport :=
  (ModelReport.mk <$> field "model" .string <*> field "lemmas" (.list LemmaReport.reader)).read

def ModelReport.ofText (text : String) : Except Json.Fault ModelReport := reader.run text

end ProtocolProver
