import ProtocolProver.Rule.Basic
import ProtocolProver.Tactic

/-!
# Models

A model has a theory, rules, restrictions that every trace must satisfy, lemmas and tactics.
`Model.build` checks the rules and adds the rule by which the adversary learns.
-/

namespace ProtocolProver

/-- A condition that every trace must satisfy. -/
structure Restriction where
  name : String
  formula : Formula
  nnf : Nnf

def Restriction.build (name : String) (formula : Formula) : Except ModelError Restriction :=
  match formula.toNnf with
  | .ok nnf => .ok ⟨name, formula, nnf⟩
  | .error cause => .error (.formula name cause)

inductive LemmaKind where
  /-- Some trace satisfies the formula. -/
  | existsTrace
  /-- Every trace satisfies the formula. -/
  | allTraces
deriving DecidableEq, Repr

/-- A property with the formula that a search starts from. -/
structure Lemma where
  name : String
  kind : LemmaKind
  formula : Formula
  tactic : Option String
  /-- The formula itself, or its negation where a counterexample is looked for. -/
  target : Nnf

/-- Checks that a property is closed and guarded, and so is its negation if that is searched for. -/
def Lemma.build (name : String) (kind : LemmaKind) (formula : Formula) (tactic : Option String) :
    Except ModelError Lemma :=
  match formula.toNnf with
  | .error cause => .error (.formula name cause)
  | .ok _ =>
    let searched := match kind with
      | .existsTrace => formula
      | .allTraces => .neg formula
    match searched.toNnf with
    | .ok target => .ok ⟨name, kind, formula, tactic, target⟩
    | .error cause => .error (.formula name cause)

/-- A checked model. The last rule is the one by which the adversary learns. -/
structure Model where
  theory : Theory
  rules : List Rule
  restrictions : List Restriction
  lemmas : List Lemma
  tactics : List Tactic
  learnRule : Nat

namespace Model

def signature (m : Model) : Signature := m.theory.signature

/-- Checks that the facts of a rule have the arities seen before, and records the new ones. -/
def checkArities (arities : List (String × Nat)) (r : Rule) :
    Except ModelError (List (String × Nat)) :=
  r.facts.foldlM (fun arities f =>
    match arities.lookup f.pred with
    | none => .ok (arities ++ [(f.pred, f.args.length)])
    | some n =>
      if n = f.args.length then .ok arities
      else .error (.arityMismatch f.pred n f.args.length)) arities

/-- Checks rules one after the other: no name twice, each valid, arities that agree. -/
def checkRules : (names : List String) → (arities : List (String × Nat)) → List Rule →
    Except ModelError Unit
  | _, _, [] => .ok ()
  | names, arities, r :: rs => do
    if names.contains r.name then throw (.duplicateRule r.name)
    r.validate
    let arities ← checkArities arities r
    checkRules (names ++ [r.name]) arities rs

def build (theory : Theory) (rules : List Rule) (restrictions : List Restriction)
    (lemmas : List Lemma) (tactics : List Tactic) : Except ModelError Model := do
  checkRules [] [] rules
  return ⟨theory, rules ++ [Rule.learn], restrictions, lemmas, tactics, rules.length⟩

/-- The places of the facts of a predicate among facts of all rules, as rule and index. -/
def places (m : Model) (facts : Rule → List Fact) (pred : String) : List (Nat × Nat) :=
  m.rules.zipIdx.flatMap fun (r, i) =>
    (facts r).zipIdx.filterMap fun (f, j) => if f.pred == pred then some (i, j) else none

/-- The conclusions with a predicate, in declaration order. -/
def producers (m : Model) (pred : String) : List (Nat × Nat) := m.places Rule.conclusions pred

/-- The actions with a predicate, in declaration order. -/
def emitters (m : Model) (pred : String) : List (Nat × Nat) := m.places Rule.actions pred

def tactic? (m : Model) (name : String) : Option Tactic := m.tactics.find? fun t => t.name == name

def lemma? (m : Model) (name : String) : Option Lemma := m.lemmas.find? fun l => l.name == name

def rule? (m : Model) (name : String) : Option Rule := m.rules.find? fun r => r.name == name

end Model

end ProtocolProver
