import ProtocolProver.Proofs.Cancellation
import ProtocolProver.Proofs.TermShape
import ProtocolProver.Theory.Packs

/-!
# Equality modulo a theory

The laws of a theory are its rules together with the laws of its algebras, and two terms are equal if
the congruence generated by the laws says so (`Theory.Equal`). Equal terms have equal values in every
algebra that satisfies the laws (`Equal.value_eq`), and the classes of equal terms are such an
algebra (`classes_satisfies`).
-/

namespace ProtocolProver

/-! ## Laws -/

/-- Exponents are an abelian group, and act on what is raised to them. -/
def Exponent.laws : List Equation :=
  let x : Term := .var (.msg "x")
  let y : Term := .var (.msg "y")
  let z : Term := .var (.msg "z")
  [(.app .mult [.app .mult [x, y], z], .app .mult [x, .app .mult [y, z]]),
    (.app .mult [x, y], .app .mult [y, x]),
    (.app .mult [x, .const .one], x),
    (.app .mult [x, .app .inv [x]], .const .one),
    (.app .exp [.app .exp [x, y], z], .app .exp [x, .app .mult [y, z]]),
    (.app .exp [x, .const .one], x)]

/-- Sums are associative and commutative, with a unit, and every term is its own inverse. -/
def ExclusiveOr.laws : List Equation :=
  let x : Term := .var (.msg "x")
  let y : Term := .var (.msg "y")
  let z : Term := .var (.msg "z")
  [(.app .xor [.app .xor [x, y], z], .app .xor [x, .app .xor [y, z]]),
    (.app .xor [x, y], .app .xor [y, x]),
    (.app .xor [x, .const .zero], x),
    (.app .xor [x, x], .const .zero)]

/-- Unions are associative and commutative. -/
def Multiset.laws : List Equation :=
  let x : Term := .var (.msg "x")
  let y : Term := .var (.msg "y")
  let z : Term := .var (.msg "z")
  [(.app .union [.app .union [x, y], z], .app .union [x, .app .union [y, z]]),
    (.app .union [x, y], .app .union [y, x])]

namespace Theory

/-- The rules and the laws of the algebras that the theory has. -/
def laws (T : Theory) : List Equation :=
  T.rules.map (fun r => (r.lhs, r.rhs))
    ++ (if T.algebras.exponents then Exponent.laws else [])
    ++ (if T.algebras.xor then ExclusiveOr.laws else [])
    ++ if T.algebras.multisets then Multiset.laws else []

/-- Every symbol has as many arguments as were declared. -/
def shape (T : Theory) : Shape := ⟨fun _ => True, fun _ => True, fun f n => n = T.signature.arity f⟩

/-- A term that respects the declared arities. -/
def WellFormed (T : Theory) (t : Term) : Prop := t.Has T.shape

/-- The congruence that the instances of the laws generate. -/
inductive Equal (T : Theory) : Term → Term → Prop
  | law {l r : Term} {σ : Var → Term} (h : (l, r) ∈ T.laws) (hσ : ∀ v, T.WellFormed (σ v)) :
    Equal T (l.mapVars σ) (r.mapVars σ)
  | refl (t : Term) : Equal T t t
  | symm {s t : Term} (h : Equal T s t) : Equal T t s
  | trans {s t u : Term} (h : Equal T s t) (h' : Equal T t u) : Equal T s u
  | arg (f : Symbol) (before after : List Term) {s t : Term} (h : Equal T s t) :
    Equal T (.app f (before ++ s :: after)) (.app f (before ++ t :: after))

theorem Equal.app {T : Theory} (f : Symbol) {as bs : List Term} (h : List.Forall₂ T.Equal as bs) :
    T.Equal (.app f as) (.app f bs) := by
  have key : ∀ before, T.Equal (.app f (before ++ as)) (.app f (before ++ bs)) := by
    induction h with
    | nil => exact fun before => .refl _
    | @cons a b as bs hab _ ih =>
      intro before
      have h := ih (before ++ [b])
      rw [List.append_assoc, List.append_assoc] at h
      exact (Equal.arg f before as hab).trans h
  exact key []

end Theory

/-! ## Values in an algebra -/

/-- A meaning for names and symbols. -/
structure TermAlgebra (A : Type) where
  name : Name → A
  op : Symbol → List A → A

namespace TermAlgebra

variable {A : Type} (M : TermAlgebra A) (ρ : Var → A)

mutual

/-- The value of a term. -/
def value : Term → A
  | .var v => ρ v
  | .name n => M.name n
  | .app f as => M.op f (valueList as)

def valueList : List Term → List A
  | [] => []
  | a :: as => value a :: valueList as

end

theorem valueList_eq (as : List Term) : M.valueList ρ as = as.map (M.value ρ) := by
  induction as with
  | nil => rfl
  | cons a as ih => rw [valueList, ih, List.map_cons]

@[simp] theorem value_var (v : Var) : M.value ρ (.var v) = ρ v := rfl

@[simp] theorem value_name (n : Name) : M.value ρ (.name n) = M.name n := rfl

@[simp] theorem value_app (f : Symbol) (as : List Term) :
    M.value ρ (.app f as) = M.op f (as.map (M.value ρ)) := by
  rw [value, valueList_eq]

theorem value_mapVars (t : Term) (σ : Var → Term) :
    M.value ρ (t.mapVars σ) = M.value (fun v => M.value ρ (σ v)) t := by
  induction t using Term.induction_args with
  | var v => rfl
  | name n => rfl
  | app f as ih =>
    rw [Term.mapVars_app, value_app, value_app, List.map_map]
    exact congrArg (M.op f) (List.map_congr_left ih)

/-- Both sides of every law have one value, whatever the variables stand for. -/
def Satisfies (T : Theory) : Prop := ∀ e ∈ T.laws, ∀ ρ, M.value ρ e.1 = M.value ρ e.2

end TermAlgebra

namespace Theory

variable {T : Theory}

theorem Equal.value_eq {A : Type} {M : TermAlgebra A} {s t : Term} (h : T.Equal s t)
    (hM : M.Satisfies T) (ρ : Var → A) : M.value ρ s = M.value ρ t := by
  induction h with
  | law h => rw [TermAlgebra.value_mapVars, TermAlgebra.value_mapVars]; exact hM _ h _
  | refl => rfl
  | symm _ ih => exact ih.symm
  | trans _ _ ih ih' => exact ih.trans ih'
  | arg f before after _ ih => rw [TermAlgebra.value_app, TermAlgebra.value_app, List.map_append,
      List.map_append, List.map_cons, List.map_cons, ih]

/-! ## The classes of equal terms -/

instance termSetoid (T : Theory) : Setoid { t // T.WellFormed t } where
  r s t := T.Equal s.1 t.1
  iseqv := ⟨fun t => .refl t.1, .symm, .trans⟩

/-- Well-formed terms up to equality. -/
abbrev Class (T : Theory) : Type := Quotient T.termSetoid

open scoped Classical in
/-- Symbols act on the classes of equal terms. -/
noncomputable def classes (T : Theory) : TermAlgebra T.Class where
  name n := ⟦⟨.name n, .name trivial⟩⟧
  op f cs :=
    if h : cs.length = T.signature.arity f then
      ⟦⟨.app f (cs.map fun c => c.out.1), .app (by simpa [shape] using h) fun a ha => by
        obtain ⟨c, -, rfl⟩ := List.mem_map.1 ha
        exact c.out.2⟩⟧
    else ⟦⟨.name (.pub ""), .name trivial⟩⟧

/-- The value of a term in the classes is the class of an instance of it. -/
theorem classes_value (σ : Var → { t // T.WellFormed t }) {t : Term} (ht : T.WellFormed t)
    (h : T.WellFormed (t.mapVars fun v => (σ v).1)) :
    T.classes.value (fun v => ⟦σ v⟧) t = ⟦⟨t.mapVars fun v => (σ v).1, h⟩⟧ := by
  induction ht with
  | var => rfl
  | name => rfl
  | @app f as hf has ih =>
    have hlen : (as.map (T.classes.value fun v => ⟦σ v⟧)).length = T.signature.arity f := by
      rw [List.length_map]
      exact hf
    rw [TermAlgebra.value_app]
    refine (dif_pos hlen).trans (Quotient.sound ?_)
    change T.Equal _ ((Term.app f as).mapVars _)
    rw [Term.mapVars_app]
    refine Equal.app f ?_
    rw [List.map_map, List.forall₂_map_left_iff, List.forall₂_map_right_iff, List.forall₂_same]
    intro a ha
    have hwf : T.WellFormed (a.mapVars fun v => (σ v).1) := by
      rw [WellFormed, Term.mapVars_app, Term.has_app] at h
      exact h.2 _ (List.mem_map_of_mem ha)
    simp only [Function.comp_apply]
    rw [ih a ha hwf]
    have he := Quotient.exact (Quotient.out_eq (⟦⟨_, hwf⟩⟧ : T.Class))
    exact he

theorem classes_satisfies (hT : ∀ e ∈ T.laws, T.WellFormed e.1 ∧ T.WellFormed e.2) :
    T.classes.Satisfies T := by
  intro e he ρ
  obtain ⟨hl, hr⟩ := hT e he
  have hρ : ρ = fun v => ⟦(ρ v).out⟧ := funext fun v => ((ρ v).out_eq).symm
  have wf : ∀ {t}, T.WellFormed t → T.WellFormed (t.mapVars fun v => (ρ v).out.1) := fun h =>
    h.mapVars (fun v _ => (ρ v).out.2) (fun _ h => h) fun _ _ h => h
  rw [hρ, classes_value _ hl (wf hl), classes_value _ hr (wf hr)]
  exact Quotient.sound (.law he fun v => (ρ v).out.2)

theorem equal_of_classes_value {s t : Term} (hs : T.WellFormed s) (ht : T.WellFormed t)
    (h : T.classes.value (fun v => ⟦⟨.var v, .var trivial⟩⟧) s =
      T.classes.value (fun v => ⟦⟨.var v, .var trivial⟩⟧) t) : T.Equal s t := by
  have hid : ∀ t : Term, t.mapVars (fun v => .var v) = t := Term.mapVars_var
  rw [classes_value _ hs (by rw [hid]; exact hs), classes_value _ ht (by rw [hid]; exact ht)] at h
  have he := Quotient.exact h
  change T.Equal (s.mapVars fun v => .var v) (t.mapVars fun v => .var v) at he
  rwa [hid, hid] at he

/-! ## Flat terms

Normal forms have sums, products and unions with any number of arguments. They are read as nested
applications of the binary symbol. -/

/-- Whether a symbol is associative, so that its normal forms are flat. -/
def isAssoc (T : Theory) (f : Symbol) : Bool :=
  (T.algebras.exponents && f == .mult) || (T.algebras.xor && f == .xor)
    || (T.algebras.multisets && f == .union)

/-- Flat terms: an associative symbol may have any number of arguments, but `union`, which has no
unit, has at least one. -/
def flatShape (T : Theory) : Shape :=
  ⟨fun _ => True, fun _ => True, fun f n =>
    if T.isAssoc f then f = .union → 0 < n else n = T.signature.arity f⟩

def Flat (T : Theory) (t : Term) : Prop := t.Has T.flatShape

end Theory

/-- The unit of an associative symbol that has one. -/
def Symbol.unit (f : Symbol) : Symbol := if f = .mult then .one else if f = .xor then .zero else f

/-- Combines the elements of a list from the right. -/
def nest {A : Type} (op : A → A → A) (unit : A) : List A → A
  | [] => unit
  | [x] => x
  | x :: y :: xs => op x (nest op unit (y :: xs))

theorem nest_eq_prod {A : Type} [CommMonoid A] {op : A → A → A} {unit : A}
    (hop : ∀ x y, op x y = x * y) (hunit : unit = 1) (xs : List A) :
    nest op unit xs = xs.prod := by
  induction xs with
  | nil => exact hunit
  | cons x xs ih =>
    rcases xs with _ | ⟨y, ys⟩
    · simp [nest]
    · rw [nest, ih, hop]
      rfl

/-- The algebra in which associative symbols take any number of arguments. -/
def TermAlgebra.flatten {A : Type} (M : TermAlgebra A) (T : Theory) : TermAlgebra A where
  name := M.name
  op f xs :=
    if T.isAssoc f then nest (fun x y => M.op f [x, y]) (M.op f.unit []) xs else M.op f xs

namespace Theory

variable {T : Theory} {A : Type} {M : TermAlgebra A}

theorem isAssoc_eq_false {f : Symbol} (hm : f ≠ .mult) (hx : f ≠ .xor) (hu : f ≠ .union) :
    T.isAssoc f = false := by
  simp [isAssoc, hm, hx, hu]

@[simp] theorem isAssoc_exp : T.isAssoc .exp = false :=
  isAssoc_eq_false (by decide) (by decide) (by decide)

@[simp] theorem isAssoc_inv : T.isAssoc .inv = false :=
  isAssoc_eq_false (by decide) (by decide) (by decide)

@[simp] theorem isAssoc_one : T.isAssoc .one = false :=
  isAssoc_eq_false (by decide) (by decide) (by decide)

@[simp] theorem isAssoc_zero : T.isAssoc .zero = false :=
  isAssoc_eq_false (by decide) (by decide) (by decide)

theorem value_flatten_assoc {f : Symbol} (h : T.isAssoc f = true) (ρ : Var → A) (as : List Term) :
    (M.flatten T).value ρ (.app f as) =
      nest (fun x y => M.op f [x, y]) (M.op f.unit []) (as.map ((M.flatten T).value ρ)) := by
  rw [TermAlgebra.value_app]
  exact if_pos h

theorem value_flatten_app {f : Symbol} (h : T.isAssoc f = false) (ρ : Var → A) (as : List Term) :
    (M.flatten T).value ρ (.app f as) = M.op f (as.map ((M.flatten T).value ρ)) := by
  rw [TermAlgebra.value_app]
  exact if_neg (by rw [h]; exact Bool.false_ne_true)

theorem value_flatForm [CommMonoid A] {f : Symbol} {unit : Term} (hf : T.isAssoc f = true)
    (hop : ∀ x y, M.op f [x, y] = x * y) (hone : M.op f.unit [] = 1) (ρ : Var → A)
    (hunit : (M.flatten T).value ρ unit = 1) : ∀ ts : List Term,
      (M.flatten T).value ρ (flatForm f unit ts) = (ts.map ((M.flatten T).value ρ)).prod
  | [] => hunit
  | [a] => by simp [flatForm]
  | a :: b :: ts => by
    rw [flatForm.eq_3 f unit _ (by simp) (by simp), value_flatten_assoc hf,
      nest_eq_prod hop hone]
    exact ((sortTerms_perm _).map _).prod_eq

/-- Nested and flat readings agree on terms in which associative symbols are binary. -/
theorem value_flatten_of_wellFormed (h : ∀ f, T.isAssoc f = true → T.signature.arity f = 2)
    (ρ : Var → A) {t : Term} (ht : T.WellFormed t) : (M.flatten T).value ρ t = M.value ρ t := by
  induction ht with
  | var => rfl
  | name => rfl
  | @app f as hf _ ih =>
    rw [M.value_app ρ f as, ← List.map_congr_left ih]
    cases ha : T.isAssoc f with
    | false => exact value_flatten_app ha ρ as
    | true =>
      obtain ⟨a, b, rfl⟩ := List.length_eq_two.1 (hf.trans (h f ha))
      exact value_flatten_assoc ha ρ [a, b]

theorem flat_of_wellFormed (h : ∀ f, T.isAssoc f = true → T.signature.arity f = 2) {t : Term}
    (ht : T.WellFormed t) : T.Flat t := by
  refine Term.Has.mono ht (fun _ h => h) (fun _ h => h) fun f n hn => ?_
  change if _ then _ else _
  split
  · rename_i ha
    intro _
    rw [show n = 2 from hn.trans (h f ha)]
    exact Nat.zero_lt_two
  · exact hn

end Theory

end ProtocolProver
