import ProtocolProver.Check
import ProtocolProver.Service.MediaType
import ProtocolProver.Service.Target

/-!
# The web service

`Service.respond` answers a request. `GET /health` says that the service is there, and
`POST /evaluate` takes a model as JSON and gives the report.
-/

namespace ProtocolProver

namespace Service

open Json (Reader)
open Json.Record (field)

/-- A model to check. What is left out comes from the configuration of the service. -/
structure CheckRequest where
  model : Surface.Model
  flags : Option (SortedSet String) := none
  limits : Option Limits := none
  only : Option String := none

def CheckRequest.reader : Reader CheckRequest :=
  (CheckRequest.mk <$> field "model" Surface.Model.reader
    <*> Surface.optionField "flags" Config.flagsReader
    <*> Surface.optionField "budget" Limits.reader
    <*> Surface.optionField "lemma" .string).read

structure Request where
  method : String
  /-- The path, or another form of target, with a query if there is one. -/
  target : String
  contentType : Option String
  body : String

inductive Body where
  | empty
  | text (s : String)
  | json (v : Json)

structure Response where
  status : Nat
  body : Body := .empty

def CheckRequest.config (r : CheckRequest) (config : Config) : Config :=
  { config with
    flags := r.flags.getD config.flags
    limits := r.limits.getD config.limits }

/-- Checks the model of a request. -/
def evaluateModel (config : Config) (r : CheckRequest) : Response :=
  match check r.model (r.config config) r.only with
  | .ok report => ⟨200, .json report.toJson⟩
  | .error e =>
    let status := match e with
      | .compile _ => 422
      | .noDeadline => 500
    ⟨status, .json (.object [("error", .string e.message)])⟩

/-- Answers `POST /evaluate`. The content has to be of a JSON type, JSON and of the right shape, in
this order. -/
def evaluate (config : Config) (r : Request) : Response :=
  if (r.contentType.bind MediaType.parse?).any MediaType.isJson then
    match CheckRequest.reader.run r.body with
    | .ok request => evaluateModel config request
    | .error .mismatch => ⟨422, .empty⟩
    | .error _ => ⟨400, .empty⟩
  else ⟨415, .empty⟩

def respond (config : Config) (r : Request) : Response :=
  match (Target.parse? r.target).map Target.path with
  | none => ⟨400, .empty⟩
  | some "/health" =>
    match r.method with
    | "GET" => ⟨200, .text "ok"⟩
    | "HEAD" => ⟨200, .empty⟩
    | _ => ⟨405, .empty⟩
  | some "/evaluate" => if r.method = "POST" then evaluate config r else ⟨405, .empty⟩
  | some _ => ⟨404, .empty⟩

end Service

end ProtocolProver
