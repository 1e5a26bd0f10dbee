import ProtocolProver.Json.Reader
import ProtocolProver.Surface.Basic

/-!
# The file format of models

Models are kept as JSON. `Model.ofText` reads a model, and `Model.toText` writes one with one entry
to a line. Fields that have their default value may be left out.
-/

namespace ProtocolProver

namespace Surface

open Json (Reader Record Case)
open Json.Record (field)

/-! ## Writing -/

/-- A field that is left out when there is nothing to say. -/
def optionalField (name : String) (v : Option Json) : List (String × Json) :=
  (v.map fun v => (name, v)).toList

namespace Term

mutual

def toJson : Term → Json
  | ⟨head, args⟩ =>
    .object (("head", .string head)
      :: if args.isEmpty then [] else [("args", .array (toJsonList args))])

def toJsonList : List Term → List Json
  | [] => []
  | t :: ts => toJson t :: toJsonList ts

end

end Term

def Function.toJson (f : Function) : Json :=
  .object [("name", .string f.name), ("arity", .nat f.arity.toNat), ("private", .bool f.isPrivate)]

def Equation.toJson (e : Equation) : Json :=
  .object [("name", .string e.name), ("lhs", e.lhs.toJson), ("rhs", e.rhs.toJson)]

def Fact.toJson (f : Fact) : Json :=
  .object [("name", .string f.name), ("persistent", .bool f.persistent),
    ("args", .array (Term.toJsonList f.args))]

def Definition.toJson (d : Definition) : Json :=
  .object [("var", .string d.var), ("value", d.value.toJson)]

def RuleKind.name : RuleKind → String
  | .protocol => "protocol"
  | .channel => "channel"
  | .secureChannel => "secure-channel"

namespace FlagExpr

mutual

def toJson : FlagExpr → Json
  | .flag name => .object [("flag", .string name)]
  | .neg e => .object [("not", toJson e)]
  | .conj es => .object [("and", .array (toJsonList es))]
  | .disj es => .object [("or", .array (toJsonList es))]

def toJsonList : List FlagExpr → List Json
  | [] => []
  | e :: es => toJson e :: toJsonList es

end

end FlagExpr

namespace Formula

mutual

def toJson : Formula → Json
  | .top => .string "true"
  | .bot => .string "false"
  | .action f i => .object [("action", .object [("fact", f.toJson), ("at", .string i)])]
  | .knows t i => .object [("knows", .object [("term", t.toJson), ("at", .string i)])]
  | .less i j => .object [("less", .strings [i, j])]
  | .timeEq i j => .object [("time_eq", .strings [i, j])]
  | .eq s t => .object [("eq", .array [s.toJson, t.toJson])]
  | .neg f => .object [("not", toJson f)]
  | .conj fs => .object [("and", .array (toJsonList fs))]
  | .disj fs => .object [("or", .array (toJsonList fs))]
  | .imp f g => .object [("implies", .array [toJson f, toJson g])]
  | .ex bs f => .object [("exists", .object [("binders", .strings bs), ("body", toJson f)])]
  | .all bs f => .object [("forall", .object [("binders", .strings bs), ("body", toJson f)])]

def toJsonList : List Formula → List Json
  | [] => []
  | f :: fs => toJson f :: toJsonList fs

end

end Formula

def Rule.toJson (r : Rule) : Json :=
  .object ([("name", .string r.name), ("kind", .string r.kind.name),
      ("premises", .array (r.premises.map Fact.toJson)),
      ("actions", .array (r.actions.map Fact.toJson)),
      ("conclusions", .array (r.conclusions.map Fact.toJson))]
    ++ (if r.definitions.isEmpty then []
      else [("lets", .array (r.definitions.map Definition.toJson))])
    ++ optionalField "restrict" (r.restrict.map Formula.toJson)
    ++ optionalField "when" (r.condition.map FlagExpr.toJson))

def Restriction.toJson (r : Restriction) : Json :=
  .object ([("name", .string r.name), ("formula", r.formula.toJson)]
    ++ optionalField "when" (r.condition.map FlagExpr.toJson))

def LemmaKind.name : LemmaKind → String
  | .existsTrace => "exists-trace"
  | .allTraces => "all-traces"

def Lemma.toJson (l : Lemma) : Json :=
  .object ([("name", .string l.name), ("kind", .string l.kind.name),
      ("formula", l.formula.toJson)]
    ++ optionalField "tactic" (l.tactic.map .string)
    ++ optionalField "when" (l.condition.map FlagExpr.toJson))

def GoalPattern.toJson (p : GoalPattern) : Json :=
  .object (optionalField "kind" (p.kind.map .string)
    ++ optionalField "pred_prefix" (p.predStart.map .string)
    ++ optionalField "persistent" (p.persistent.map .bool)
    ++ optionalField "mentions" (p.mentions.map .string))

def Tactic.toJson (t : Tactic) : Json :=
  .object [("name", .string t.name), ("prefer", .array (t.prefer.map GoalPattern.toJson)),
    ("deprioritize", .array (t.deprioritize.map GoalPattern.toJson))]

def Model.toJson (m : Model) : Json :=
  .object [("name", .string m.name), ("builtins", .strings m.builtins),
    ("functions", .array (m.functions.map Function.toJson)),
    ("equations", .array (m.equations.map Equation.toJson)),
    ("rules", .array (m.rules.map Rule.toJson)),
    ("restrictions", .array (m.restrictions.map Restriction.toJson)),
    ("lemmas", .array (m.lemmas.map Lemma.toJson)),
    ("tactics", .array (m.tactics.map Tactic.toJson))]

/-! ## Reading

Terms, conditions and formulas are recursive. Every step into one goes at least one level deeper in
the text, so the limit on depth also bounds the recursion. -/

/-- A list that is empty when it is left out. -/
def listField {α : Type} (name : String) (r : Reader α) : Record (List α) :=
  field name (.list r) (some [])

/-- A value that is none when it is left out. -/
def optionField {α : Type} (name : String) (r : Reader α) : Record (Option α) :=
  field name (.option r) (some none)

namespace Term

def readerWithin : Nat → Reader Term
  | 0 => throw .malformed
  | n + 1 => (Term.mk <$> field "head" .string <*> listField "args" (readerWithin n)).read

def reader : Reader Term := fun b => readerWithin (b.depth + 1) b

end Term

def Function.reader : Reader Function :=
  (Function.mk <$> field "name" .string <*> field "arity" (Nat.toUInt64 <$> Reader.nat)
    <*> field "private" .bool (some false)).read

def Equation.reader : Reader Equation :=
  (Equation.mk <$> field "name" .string <*> field "lhs" Term.reader
    <*> field "rhs" Term.reader).read

def Fact.reader : Reader Fact :=
  (Fact.mk <$> field "name" .string <*> field "persistent" .bool (some false)
    <*> listField "args" Term.reader).read

def Definition.reader : Reader Definition :=
  (Definition.mk <$> field "var" .string <*> field "value" Term.reader).read

def RuleKind.reader : Reader RuleKind :=
  .variant ([.protocol, .channel, .secureChannel].map fun k => (RuleKind.name k, .unit k))

namespace FlagExpr

def readerWithin : Nat → Reader FlagExpr
  | 0 => throw .malformed
  | n + 1 => .variant
    [("flag", .payload (.flag <$> Reader.string)),
      ("not", .payload (.neg <$> readerWithin n)),
      ("and", .payload (.conj <$> Reader.list (readerWithin n))),
      ("or", .payload (.disj <$> Reader.list (readerWithin n)))]

def reader : Reader FlagExpr := fun b => readerWithin (b.depth + 1) b

end FlagExpr

namespace Formula

def readerWithin : Nat → Reader Formula
  | 0 => throw .malformed
  | n + 1 =>
    let quantified (mk : List String → Formula → Formula) : Reader Formula :=
      (mk <$> field "binders" (.list .string) <*> field "body" (readerWithin n)).readPayload
    .variant
      [("true", .unit .top), ("false", .unit .bot),
        ("action", .payload
          (Formula.action <$> field "fact" Fact.reader <*> field "at" .string).readPayload),
        ("knows", .payload
          (Formula.knows <$> field "term" Term.reader <*> field "at" .string).readPayload),
        ("less", .payload ((fun (i, j) => .less i j) <$> Reader.pair .string .string)),
        ("time_eq", .payload ((fun (i, j) => .timeEq i j) <$> Reader.pair .string .string)),
        ("eq", .payload ((fun (s, t) => .eq s t) <$> Reader.pair Term.reader Term.reader)),
        ("not", .payload (.neg <$> readerWithin n)),
        ("and", .payload (.conj <$> Reader.list (readerWithin n))),
        ("or", .payload (.disj <$> Reader.list (readerWithin n))),
        ("implies", .payload
          ((fun (f, g) => .imp f g) <$> Reader.pair (readerWithin n) (readerWithin n))),
        ("exists", .payload (quantified .ex)),
        ("forall", .payload (quantified .all))]

def reader : Reader Formula := fun b => readerWithin (b.depth + 1) b

end Formula

def Rule.reader : Reader Rule :=
  (Rule.mk <$> field "name" .string <*> field "kind" RuleKind.reader (some .protocol)
    <*> listField "premises" Fact.reader <*> listField "actions" Fact.reader
    <*> listField "conclusions" Fact.reader <*> listField "lets" Definition.reader
    <*> optionField "restrict" Formula.reader <*> optionField "when" FlagExpr.reader).read

def Restriction.reader : Reader Restriction :=
  (Restriction.mk <$> field "name" .string <*> field "formula" Formula.reader
    <*> optionField "when" FlagExpr.reader).read

def LemmaKind.reader : Reader LemmaKind :=
  .variant ([.existsTrace, .allTraces].map fun k => (LemmaKind.name k, .unit k))

def Lemma.reader : Reader Lemma :=
  (Lemma.mk <$> field "name" .string <*> field "kind" LemmaKind.reader
    <*> field "formula" Formula.reader <*> optionField "tactic" .string
    <*> optionField "when" FlagExpr.reader).read

def GoalPattern.reader : Reader GoalPattern :=
  (GoalPattern.mk <$> optionField "kind" .string <*> optionField "pred_prefix" .string
    <*> optionField "persistent" .bool <*> optionField "mentions" .string).read

def Tactic.reader : Reader Tactic :=
  (Tactic.mk <$> field "name" .string <*> listField "prefer" GoalPattern.reader
    <*> listField "deprioritize" GoalPattern.reader).read

def Model.reader : Reader Model :=
  (Model.mk <$> field "name" .string <*> listField "builtins" .string
    <*> listField "functions" Function.reader <*> listField "equations" Equation.reader
    <*> listField "rules" Rule.reader <*> listField "restrictions" Restriction.reader
    <*> listField "lemmas" Lemma.reader <*> listField "tactics" Tactic.reader).read

def Model.toText (m : Model) : String := m.toJson.pretty

def Model.ofText (text : String) : Except Json.Fault Model := Model.reader.run text

end Surface

end ProtocolProver
