import ProtocolProver.Proofs.WrittenValues
import ProtocolProver.Surface.Format

/-!
# Model files

A model that is written to a file is read back as it was (`model_of_written_text`), if the text is
not nested deeper than readers accept. Every part of a model has its own statement of this kind:
terms, conditions and formulas by recursion on the depth, and the other parts field by field.
-/

namespace ProtocolProver.Surface

open Json (Reads Reader Record)
open Json.Record (Fits)

/-! ## Fields that may be left out -/

section Fields

variable {α : Type} {name : String} {r : Reader α} {f : α → Json}

@[simp] theorem names_listField : (listField name r).names = [name] := rfl

@[simp] theorem names_optionField : (optionField name r).names = [name] := rfl

theorem fits_listField {as : List α} (h : ∀ a ∈ as, Reads r (f a) a) :
    (listField name r).Fits [(name, .array (as.map f))] as :=
  .field (.list h) _

theorem fits_listField_nonempty {as : List α} (h : ∀ a ∈ as, Reads r (f a) a) :
    (listField name r).Fits (if as.isEmpty then [] else [(name, .array (as.map f))]) as := by
  cases as with
  | nil => exact .default
  | cons a as => exact fits_listField h

theorem fits_optionField {o : Option α} (h : ∀ a ∈ o, Reads r (f a) a) :
    (optionField name r).Fits (optionalField name (o.map f)) o := by
  cases o with
  | none => exact .default
  | some a => exact .field (h a rfl).option _

end Fields

/-! ## Terms -/

namespace Term

theorem toJsonList_eq_map : ∀ ts : List Term, toJsonList ts = ts.map toJson
  | [] => rfl
  | t :: ts => congrArg (toJson t :: ·) (toJsonList_eq_map ts)

theorem depth_arg (head : String) {args : List Term} {t : Term} (ht : t ∈ args) :
    t.toJson.depth + 2 ≤ (toJson ⟨head, args⟩).depth := by
  have hitem := Json.depth_le_items (List.mem_map_of_mem (f := toJson) ht)
  have hne : args.isEmpty = false := List.isEmpty_eq_false_iff.2 (List.ne_nil_of_mem ht)
  simp only [toJson, hne, Bool.false_eq_true, if_false, Json.depth, Json.depthFields,
    toJsonList_eq_map]
  omega

theorem reads_within : ∀ (n : Nat) (t : Term), t.toJson.depth < n →
    Reads (readerWithin n) t.toJson t
  | n + 1, ⟨head, args⟩, h => by
    have hargs : ∀ t ∈ args, Reads (readerWithin n) t.toJson t := fun t ht =>
      reads_within n t (by have := depth_arg head ht; omega)
    rw [toJson, toJsonList_eq_map]
    exact .record (((Fits.field (.string head) none).map Term.mk).seq
      (fits_listField_nonempty hargs) (by simp))

theorem reads (t : Term) : Reads reader t.toJson t := .within fun n => reads_within n t

theorem fits_args (name : String) (ts : List Term) :
    (listField name reader).Fits [(name, .array (toJsonList ts))] ts := by
  rw [toJsonList_eq_map]
  exact fits_listField fun t _ => reads t

end Term

/-! ## Facts, functions and equations -/

theorem Function.reads (f : Function) : Reads reader f.toJson f := by
  have harity : Reads (Nat.toUInt64 <$> Reader.nat) (.nat f.arity.toNat) f.arity := by
    have hbound : f.arity.toNat ≤ Json.maxExact := Nat.le_of_lt_succ f.arity.toNat_lt
    have h := (Reads.nat hbound).map Nat.toUInt64
    rwa [show f.arity.toNat.toUInt64 = f.arity from UInt64.ofNat_toNat] at h
  exact .record ((((Fits.field (.string f.name) none).map Function.mk).seq
    (.field harity none) (by simp)).seq (.field (.bool f.isPrivate) (some false)) (by simp))

theorem Equation.reads (e : Equation) : Reads reader e.toJson e :=
  .record ((((Fits.field (.string e.name) none).map Equation.mk).seq
    (.field e.lhs.reads none) (by simp)).seq (.field e.rhs.reads none) (by simp))

theorem Fact.reads (f : Fact) : Reads reader f.toJson f :=
  .record ((((Fits.field (.string f.name) none).map Fact.mk).seq
    (.field (.bool f.persistent) (some false)) (by simp)).seq (Term.fits_args "args" f.args)
      (by simp))

theorem Definition.reads (d : Definition) : Reads reader d.toJson d :=
  .record (((Fits.field (.string d.var) none).map Definition.mk).seq
    (.field d.value.reads none) (by simp))

theorem RuleKind.reads (k : RuleKind) : Reads reader (.string k.name) k := by
  cases k <;> exact .variant_unit rfl

theorem LemmaKind.reads (k : LemmaKind) : Reads reader (.string k.name) k := by
  cases k <;> exact .variant_unit rfl

/-! ## Conditions -/

namespace FlagExpr

theorem toJsonList_eq_map : ∀ es : List FlagExpr, toJsonList es = es.map toJson
  | [] => rfl
  | e :: es => congrArg (toJson e :: ·) (toJsonList_eq_map es)

theorem depth_item {es : List FlagExpr} {e : FlagExpr} (he : e ∈ es) :
    e.toJson.depth ≤ Json.depthItems (toJsonList es) := by
  rw [toJsonList_eq_map]
  exact Json.depth_le_items (List.mem_map_of_mem he)

theorem reads_within : ∀ (n : Nat) (e : FlagExpr), e.toJson.depth < n →
    Reads (readerWithin n) e.toJson e
  | n + 1, e, h => by
    have hlist : ∀ es, Json.depthItems (toJsonList es) < n →
        Reads (.list (readerWithin n)) (.array (toJsonList es)) es := by
      intro es hes
      have hitems : ∀ e ∈ es, Reads (readerWithin n) e.toJson e := fun e he =>
        reads_within n e ((depth_item he).trans_lt hes)
      rw [toJsonList_eq_map]
      exact .list hitems
    cases e with
    | flag name => exact .variant_payload rfl ((Reads.string name).map _)
    | neg e =>
      simp only [toJson, Json.depth, Json.depthFields] at h
      exact .variant_payload rfl ((reads_within n e (by omega)).map _)
    | conj es =>
      simp only [toJson, Json.depth, Json.depthFields] at h
      exact .variant_payload rfl ((hlist es (by omega)).map _)
    | disj es =>
      simp only [toJson, Json.depth, Json.depthFields] at h
      exact .variant_payload rfl ((hlist es (by omega)).map _)

theorem reads (e : FlagExpr) : Reads reader e.toJson e := .within fun n => reads_within n e

end FlagExpr

/-! ## Formulas -/

namespace Formula

theorem toJsonList_eq_map : ∀ fs : List Formula, toJsonList fs = fs.map toJson
  | [] => rfl
  | f :: fs => congrArg (toJson f :: ·) (toJsonList_eq_map fs)

theorem depth_item {fs : List Formula} {f : Formula} (hf : f ∈ fs) :
    f.toJson.depth ≤ Json.depthItems (toJsonList fs) := by
  rw [toJsonList_eq_map]
  exact Json.depth_le_items (List.mem_map_of_mem hf)

theorem fits_quantified {r : Reader Formula} (mk : List String → Formula → Formula)
    (bs : List String) {f : Formula} (hf : Reads r f.toJson f) :
    (mk <$> Json.Record.field "binders" (.list .string) <*> Json.Record.field "body" r).Fits
      [("binders", .strings bs), ("body", f.toJson)] (mk bs f) :=
  ((Fits.field (.list fun b _ => .string b) none).map mk).seq (.field hf none) (by simp)

theorem reads_within : ∀ (n : Nat) (f : Formula), f.toJson.depth < n →
    Reads (readerWithin n) f.toJson f
  | n + 1, f, h => by
    have hlist : ∀ fs, Json.depthItems (toJsonList fs) < n →
        Reads (.list (readerWithin n)) (.array (toJsonList fs)) fs := by
      intro fs hfs
      have hitems : ∀ f ∈ fs, Reads (readerWithin n) f.toJson f := fun f hf =>
        reads_within n f ((depth_item hf).trans_lt hfs)
      rw [toJsonList_eq_map]
      exact .list hitems
    have hnames : ∀ i j : String, Reads (.pair .string .string) (.strings [i, j]) (i, j) :=
      fun i j => .pair (.string i) (.string j)
    cases f with
    | top => exact .variant_unit rfl
    | bot => exact .variant_unit rfl
    | action f i =>
      exact .variant_payload rfl (.payload
        (((Fits.field f.reads none).map Formula.action).seq (.field (.string i) none) (by simp)))
    | knows t i =>
      exact .variant_payload rfl (.payload
        (((Fits.field t.reads none).map Formula.knows).seq (.field (.string i) none) (by simp)))
    | less i j => exact .variant_payload rfl ((hnames i j).map _)
    | timeEq i j => exact .variant_payload rfl ((hnames i j).map _)
    | eq s t => exact .variant_payload rfl ((Reads.pair s.reads t.reads).map _)
    | neg f =>
      simp only [toJson, Json.depth, Json.depthFields] at h
      exact .variant_payload rfl ((reads_within n f (by omega)).map _)
    | conj fs =>
      simp only [toJson, Json.depth, Json.depthFields] at h
      exact .variant_payload rfl ((hlist fs (by omega)).map _)
    | disj fs =>
      simp only [toJson, Json.depth, Json.depthFields] at h
      exact .variant_payload rfl ((hlist fs (by omega)).map _)
    | imp f g =>
      simp only [toJson, Json.depth, Json.depthFields, Json.depthItems] at h
      exact .variant_payload rfl ((Reads.pair (reads_within n f (by omega))
        (reads_within n g (by omega))).map _)
    | ex bs f =>
      simp only [toJson, Json.depth, Json.depthFields] at h
      exact .variant_payload rfl (.payload (fits_quantified .ex bs (reads_within n f (by omega))))
    | all bs f =>
      simp only [toJson, Json.depth, Json.depthFields] at h
      exact .variant_payload rfl (.payload (fits_quantified .all bs (reads_within n f (by omega))))

theorem reads (f : Formula) : Reads reader f.toJson f := .within fun n => reads_within n f

end Formula

/-! ## Rules, lemmas and tactics -/

theorem fits_condition (name : String) (c : Option FlagExpr) :
    (optionField name FlagExpr.reader).Fits (optionalField name (c.map FlagExpr.toJson)) c :=
  fits_optionField fun e _ => e.reads

theorem Rule.reads (r : Rule) : Reads reader r.toJson r := by
  have hfacts : ∀ (name : String) (fs : List Fact),
      (listField name Fact.reader).Fits [(name, .array (fs.map Fact.toJson))] fs :=
    fun name fs => fits_listField fun f _ => f.reads
  exact .record (((((((((Fits.field (.string r.name) none).map Rule.mk).seq
    (.field r.kind.reads (some .protocol)) (by simp)).seq
    (hfacts "premises" r.premises) (by simp)).seq
    (hfacts "actions" r.actions) (by simp)).seq
    (hfacts "conclusions" r.conclusions) (by simp)).seq
    (fits_listField_nonempty fun d _ => d.reads) (by simp)).seq
    (fits_optionField fun f _ => f.reads) (by simp)).seq
    (fits_condition "when" r.condition) (by simp))

theorem Restriction.reads (r : Restriction) : Reads reader r.toJson r :=
  .record ((((Fits.field (.string r.name) none).map Restriction.mk).seq
    (.field r.formula.reads none) (by simp)).seq (fits_condition "when" r.condition) (by simp))

theorem Lemma.reads (l : Lemma) : Reads reader l.toJson l :=
  .record ((((((Fits.field (.string l.name) none).map Lemma.mk).seq
    (.field l.kind.reads none) (by simp)).seq (.field l.formula.reads none) (by simp)).seq
    (fits_optionField fun t _ => .string t) (by simp)).seq
    (fits_condition "when" l.condition) (by simp))

theorem GoalPattern.reads (p : GoalPattern) : Reads reader p.toJson p := by
  have hname : ∀ (name : String) (o : Option String),
      (optionField name Reader.string).Fits (optionalField name (o.map Json.string)) o :=
    fun name o => fits_optionField fun s _ => .string s
  exact .record (((((hname "kind" p.kind).map GoalPattern.mk).seq
    (hname "pred_prefix" p.predStart) (by simp)).seq
    (fits_optionField fun b _ => .bool b) (by simp)).seq (hname "mentions" p.mentions) (by simp))

theorem Tactic.reads (t : Tactic) : Reads reader t.toJson t :=
  .record ((((Fits.field (.string t.name) none).map Tactic.mk).seq
    (fits_listField fun p _ => p.reads) (by simp)).seq
    (fits_listField fun p _ => p.reads) (by simp))

/-! ## Models -/

theorem Model.reads (m : Model) : Reads reader m.toJson m :=
  .record (((((((((Fits.field (.string m.name) none).map Model.mk).seq
    (fits_listField fun s _ => .string s) (by simp)).seq
    (fits_listField fun f _ => f.reads) (by simp)).seq
    (fits_listField fun e _ => e.reads) (by simp)).seq
    (fits_listField fun r _ => r.reads) (by simp)).seq
    (fits_listField fun r _ => r.reads) (by simp)).seq
    (fits_listField fun l _ => l.reads) (by simp)).seq
    (fits_listField fun t _ => t.reads) (by simp))

/-- A model that is written is read back as it was. -/
theorem model_of_written_text (m : Model) (h : m.toJson.depth ≤ Json.maxDepth) :
    Model.ofText m.toText = .ok m :=
  m.reads.run_pretty h

/-- A model that uses every part of the format, with names that need escapes. -/
def ledger : Model where
  name := "ledger \x22é\x22\\ \n\x01 λ"
  builtins := ["hashing", "xor"]
  functions := [⟨"seal", 2, false⟩, ⟨"open", 2, true⟩, ⟨"wide", 18446744073709551615, false⟩]
  equations := [⟨"unseal", ⟨"open", [⟨"seal", [⟨"m", []⟩, ⟨"k", []⟩]⟩, ⟨"k", []⟩]⟩, ⟨"m", []⟩⟩]
  rules := [
    { name := "Create"
      premises := [⟨"Fr", false, [⟨"~k", []⟩]⟩]
      conclusions := [⟨"Key", true, [⟨"$A", []⟩, ⟨"~k", []⟩]⟩] },
    { name := "Send"
      kind := .secureChannel
      premises := [⟨"Key", true, [⟨"$A", []⟩, ⟨"~k", []⟩]⟩]
      actions := [⟨"Sent", false, [⟨"c", []⟩]⟩, ⟨"Done", false, []⟩]
      conclusions := [⟨"Out", false, [⟨"c", []⟩]⟩]
      definitions := [⟨"c", ⟨"seal", [⟨"'hello'", []⟩, ⟨"~k", []⟩]⟩⟩]
      restrict := some (.neg (.eq ⟨"$A", []⟩ ⟨"'mallory'", []⟩))
      condition := some (.conj [.flag "sealed", .neg (.disj [.flag "plain", .flag ""])]) }]
  restrictions := [⟨"once",
    .all ["#i", "#j", "x"] (.imp
      (.conj [.action ⟨"Sent", false, [⟨"x", []⟩]⟩ "i", .action ⟨"Sent", false, [⟨"x", []⟩]⟩ "j"])
      (.timeEq "i" "j")), some (.flag "sealed")⟩]
  lemmas := [
    ⟨"runs", .existsTrace, .ex ["x", "#i"] (.action ⟨"Sent", false, [⟨"x", []⟩]⟩ "i"), none, none⟩,
    ⟨"secret", .allTraces,
      .all ["x", "#i"]
        (.disj [.neg (.knows ⟨"x", []⟩ "i"), .bot, .ex [] (.conj [.top, .less "i" "i"])]),
      some "late", some (.conj [])⟩]
  tactics := [⟨"late", [{}, ⟨some "premise", some "Ke", some true, some "~k"⟩], []⟩]

theorem ledger_of_written_text :
    ledger.toJson.depth ≤ Json.maxDepth ∧ Model.ofText ledger.toText = .ok ledger :=
  ⟨by decide, model_of_written_text ledger (by decide)⟩

end ProtocolProver.Surface
