import Mathlib.Tactic.Abel
import ProtocolProver.Proofs.TermAlgebra

/-!
# Normal forms of exponents

A normal exponent is a product of a reduced list of factors, in which no factor stands with its
inverse. Such a list is known, up to order, by how often each factor occurs, inverses counted
negatively (`Reduced.perm_of_net_eq`). So an exponent is known by its net factors
(`Element.eq_of_net_eq`), and the operations on exponents satisfy the laws of an abelian group because
they add and negate these.
-/

namespace ProtocolProver.Exponent

/-- A term that is no product, unit or inverse. -/
structure Plain (t : Term) : Prop where
  mult : t.head? ≠ some .mult
  one : t.head? ≠ some .one
  inv : t.head? ≠ some .inv

/-- What a normal product is a product of: plain terms and their inverses. -/
def Factor (t : Term) : Prop := Plain t ∨ ∃ b, Plain b ∧ t = .app .inv [b]

theorem Plain.inverse_eq {t : Term} (h : Plain t) : inverse t = .app .inv [t] := by
  cases t with
  | var v => rfl
  | name n => rfl
  | app f as =>
    obtain ⟨hm, ho, hi⟩ := h
    simp only [Term.head?, ne_eq, Option.some.injEq] at hm ho hi
    rw [inverse, if_neg hi, if_neg ho, if_neg hm]

theorem inverse_inv (b : Term) : inverse (.app .inv [b]) = b := by
  rw [inverse, if_pos rfl, List.headD_cons]

theorem Plain.ne_inv {t b : Term} (h : Plain t) : t ≠ .app .inv [b] :=
  fun he => h.inv (by rw [he]; rfl)

namespace Factor

variable {t : Term}

theorem factors_eq (h : Factor t) : factors t = [t] := by
  rcases h with h | ⟨b, -, rfl⟩
  · cases t with
    | var v => rfl
    | name n => rfl
    | app f as =>
      obtain ⟨hm, ho, -⟩ := h
      simp only [Term.head?, ne_eq, Option.some.injEq] at hm ho
      rw [factors, if_neg hm, if_neg ho]
  · rfl

theorem inverse (h : Factor t) : Factor (inverse t) := by
  rcases h with h | ⟨b, hb, rfl⟩
  · exact .inr ⟨t, h, h.inverse_eq⟩
  · rw [inverse_inv]
    exact .inl hb

theorem inverse_inverse (h : Factor t) : Exponent.inverse (Exponent.inverse t) = t := by
  rcases h with h | ⟨b, hb, rfl⟩
  · rw [h.inverse_eq, inverse_inv]
  · rw [inverse_inv, hb.inverse_eq]

theorem inverse_ne (h : Factor t) : Exponent.inverse t ≠ t := by
  rcases h with h | ⟨b, hb, rfl⟩
  · rw [h.inverse_eq]
    exact h.ne_inv.symm
  · rw [inverse_inv]
    exact hb.ne_inv

end Factor

/-! ## Reduced lists -/

/-- Factors none of which stands with its inverse. -/
structure Reduced (ts : List Term) : Prop where
  factor : ∀ t ∈ ts, Factor t
  apart : ∀ t ∈ ts, inverse t ∉ ts

namespace Reduced

variable {ts us : List Term}

theorem nil : Reduced [] := ⟨by simp, by simp⟩

theorem singleton {t : Term} (h : Factor t) : Reduced [t] := by
  refine ⟨fun u hu => List.mem_singleton.1 hu ▸ h, fun u hu => ?_⟩
  rw [List.mem_singleton.1 hu, List.mem_singleton]
  exact h.inverse_ne

theorem of_perm (h : Reduced ts) (hp : us.Perm ts) : Reduced us :=
  ⟨fun t ht => h.factor t (hp.mem_iff.1 ht),
    fun t ht hi => h.apart t (hp.mem_iff.1 ht) (hp.mem_iff.1 hi)⟩

theorem map_inverse (h : Reduced ts) : Reduced (ts.map inverse) := by
  refine ⟨fun t ht => ?_, fun t ht hi => ?_⟩
  · obtain ⟨u, hu, rfl⟩ := List.mem_map.1 ht
    exact (h.factor u hu).inverse
  · obtain ⟨u, hu, rfl⟩ := List.mem_map.1 ht
    obtain ⟨w, hw, he⟩ := List.mem_map.1 hi
    rw [(h.factor u hu).inverse_inverse] at he
    exact h.apart w hw (he ▸ hu)

end Reduced

theorem apart_of_pairwise : ∀ {ts : List Term}, (∀ t ∈ ts, Factor t) →
    (ts.Pairwise fun a b => inverse b ≠ a) → ∀ t ∈ ts, inverse t ∉ ts
  | [], _, _, _, h => absurd h List.not_mem_nil
  | a :: ts, hf, hp, t, ht => by
    obtain ⟨hpa, hpts⟩ := List.pairwise_cons.1 hp
    have hfa := hf a (List.mem_cons_self ..)
    have ih := apart_of_pairwise (fun t ht => hf t (List.mem_cons_of_mem a ht)) hpts
    intro hi
    rcases List.mem_cons.1 ht with rfl | ht <;> rcases List.mem_cons.1 hi with hi | hi
    · exact hfa.inverse_ne hi
    · exact hpa _ hi hfa.inverse_inverse
    · exact hpa t ht hi
    · exact ih t ht hi

theorem reduced_cancel {ts : List Term} (h : ∀ t ∈ ts, Factor t) : Reduced (cancel ts) := by
  have hf : ∀ t ∈ cancel ts, Factor t := fun t ht => by
    rcases mem_of_mem_cancelFrom ht with ht | ht
    · cases ht
    · exact h t ht
  exact ⟨hf, apart_of_pairwise hf (pairwise_cancelFrom .nil)⟩

/-! ## Net factors -/

/-- One for the factor itself, or minus one for what it is the inverse of. -/
def weight (t : Term) : Term → ℤ :=
  if (base t).2 then -Pi.single (base t).1 1 else Pi.single (base t).1 1

/-- How often each plain factor occurs, inverses counted negatively. -/
def net (ts : List Term) : Term → ℤ := (ts.map weight).sum

theorem Plain.weight_eq {t : Term} (h : Plain t) : weight t = Pi.single t 1 := by
  cases t with
  | var v => rfl
  | name n => rfl
  | app f as =>
    have hi : f ≠ .inv := fun he => h.inv (by rw [he]; rfl)
    simp [weight, base, hi]

theorem weight_inv (b : Term) : weight (.app .inv [b]) = -Pi.single b 1 := by
  simp [weight, base]

theorem Factor.weight_inverse {t : Term} (h : Factor t) : weight (Exponent.inverse t) = -weight t := by
  rcases h with h | ⟨b, hb, rfl⟩
  · rw [h.inverse_eq, weight_inv, h.weight_eq]
  · rw [inverse_inv, weight_inv, hb.weight_eq, neg_neg]

theorem net_append (ts us : List Term) : net (ts ++ us) = net ts + net us := by
  simp [net]

theorem net_perm {ts us : List Term} (h : ts.Perm us) : net ts = net us :=
  (h.map weight).sum_eq

theorem net_cancel {ts : List Term} (h : ∀ t ∈ ts, Factor t) : net (cancel ts) = net ts := by
  have key := @sum_cancelFrom inverse (Term → ℤ) _ weight ts [] fun t ht => by
    rw [(h t ht).weight_inverse, neg_add_cancel]
  rwa [List.map_nil, List.sum_nil, zero_add] at key

theorem Factor.weight_apply {t b : Term} (h : Factor t) (hb : Plain b) :
    weight t b = (if t = b then 1 else 0) - if t = .app .inv [b] then 1 else 0 := by
  rcases h with h | ⟨c, -, rfl⟩
  · rw [h.weight_eq, Pi.single_apply, if_neg h.ne_inv, sub_zero]
    simp only [eq_comm]
  · rw [weight_inv, Pi.neg_apply, Pi.single_apply, if_neg hb.ne_inv.symm, zero_sub]
    simp [eq_comm]

theorem net_apply {b : Term} (hb : Plain b) : ∀ {ts : List Term}, (∀ t ∈ ts, Factor t) →
    net ts b = (ts.count b : ℤ) - ts.count (.app .inv [b])
  | [], _ => by simp [net]
  | t :: ts, h => by
    have ih := net_apply hb fun u hu => h u (List.mem_cons_of_mem t hu)
    have ht := (h t (List.mem_cons_self ..)).weight_apply hb
    have hcons : net (t :: ts) b = weight t b + net ts b := by simp [net]
    rw [hcons, ih, ht, List.count_cons, List.count_cons]
    simp only [beq_iff_eq]
    push_cast
    omega

/-- A reduced list is known by its net factors, up to the order. -/
theorem Reduced.perm_of_net_eq {ts us : List Term} (ht : Reduced ts) (hu : Reduced us)
    (h : net ts = net us) : ts.Perm us := by
  -- of a plain term and its inverse one does not occur, so the difference gives both counts
  have split : ∀ {l : List Term}, Reduced l → ∀ b, Plain b →
      l.count b = 0 ∨ l.count (.app .inv [b]) = 0 := by
    intro l hl b hb
    by_cases hm : b ∈ l
    · right
      rw [List.count_eq_zero, ← hb.inverse_eq]
      exact hl.apart b hm
    · exact .inl (List.count_eq_zero.2 hm)
  have counts : ∀ b, Plain b → ts.count b = us.count b ∧
      ts.count (.app .inv [b]) = us.count (.app .inv [b]) := by
    intro b hb
    have hn := congrFun h b
    rw [net_apply hb ht.factor, net_apply hb hu.factor] at hn
    have h₁ := split ht b hb
    have h₂ := split hu b hb
    omega
  rw [List.perm_iff_count]
  intro t
  by_cases hf : Factor t
  · rcases hf with hp | ⟨b, hb, rfl⟩
    · exact (counts t hp).1
    · exact (counts b hb).2
  · rw [List.count_eq_zero.2 fun hm => hf (ht.factor t hm),
      List.count_eq_zero.2 fun hm => hf (hu.factor t hm)]

/-! ## Elements -/

theorem inverseList_eq (ts : List Term) : inverseList ts = ts.map inverse := by
  induction ts with
  | nil => rfl
  | cons t ts ih => rw [inverseList, ih, List.map_cons]

theorem product_eq_of_perm {ts us : List Term} (h : ts.Perm us) : product ts = product us := by
  rw [product_eq, product_eq, flatForm_eq_of_perm h]

theorem factors_product_perm {ts : List Term} (h : Reduced ts) :
    (factors (product ts)).Perm ts := by
  rw [product_eq]
  exact parts_flatForm_perm rfl (fun t ht => (h.factor t ht).factors_eq) fun _ => rfl

/-- A normal exponent: the product of a reduced list. -/
def Element (t : Term) : Prop := ∃ ts, Reduced ts ∧ t = product ts

namespace Element

variable {s t : Term}

theorem of_reduced {ts : List Term} (h : Reduced ts) : Element (product ts) := ⟨ts, h, rfl⟩

theorem of_factor (h : Factor t) : Element t := ⟨[t], .singleton h, rfl⟩

theorem one : Element (.const .one) := ⟨[], .nil, rfl⟩

theorem reduced (h : Element t) : Reduced (factors t) := by
  obtain ⟨ts, hr, rfl⟩ := h
  exact hr.of_perm (factors_product_perm hr)

theorem product_factors (h : Element t) : product (factors t) = t := by
  obtain ⟨ts, hr, rfl⟩ := h
  exact product_eq_of_perm (factors_product_perm hr)

theorem eq_of_net_eq (hs : Element s) (ht : Element t) (h : net (factors s) = net (factors t)) :
    s = t := by
  rw [← hs.product_factors, ← ht.product_factors]
  exact product_eq_of_perm (hs.reduced.perm_of_net_eq ht.reduced h)

theorem inverse_eq (h : Element t) : inverse t = product ((factors t).map inverse) := by
  obtain ⟨ts, hr, rfl⟩ := h
  rcases ts with _ | ⟨a, _ | ⟨b, ts⟩⟩
  · rfl
  · rw [product, (hr.factor a (List.mem_cons_self ..)).factors_eq]
    rfl
  · change product (inverseList _) = product (List.map inverse _)
    rw [inverseList_eq]
    rfl

theorem inverse (h : Element t) : Element (Exponent.inverse t) := by
  rw [h.inverse_eq]
  exact of_reduced h.reduced.map_inverse

end Element

theorem net_product {ts : List Term} (h : ∀ t ∈ ts, Factor t) :
    net (factors (product (cancel ts))) = net ts := by
  rw [net_perm (factors_product_perm (reduced_cancel h)), net_cancel h]

theorem factor_of_mem_flatMap {as : List Term} (h : ∀ a ∈ as, Element a) :
    ∀ t ∈ as.flatMap factors, Factor t := by
  intro t ht
  obtain ⟨a, ha, hta⟩ := List.mem_flatMap.1 ht
  exact (h a ha).reduced.factor t hta

theorem net_map_inverse : ∀ {ts : List Term}, (∀ t ∈ ts, Factor t) →
    net (ts.map inverse) = -net ts
  | [], _ => by simp [net]
  | t :: ts, h => by
    have hcons : ∀ (u : Term) us, net (u :: us) = weight u + net us := fun u us => by simp [net]
    rw [List.map_cons, hcons, hcons, (h t (List.mem_cons_self ..)).weight_inverse,
      net_map_inverse fun u hu => h u (List.mem_cons_of_mem t hu), neg_add]

theorem Element.net_inverse {t : Term} (h : Element t) :
    net (factors (Exponent.inverse t)) = -net (factors t) := by
  rw [h.inverse_eq, net_perm (factors_product_perm h.reduced.map_inverse),
    net_map_inverse h.reduced.factor]

/-! ## The laws of exponents -/

/-- The product of two exponents. -/
def mul (s t : Term) : Term := reduce .mult [s, t]

theorem reduce_mult (as : List Term) : reduce .mult as = product (cancel (as.flatMap factors)) :=
  if_pos rfl

theorem element_reduce_mult {as : List Term} (h : ∀ a ∈ as, Element a) :
    Element (reduce .mult as) := by
  rw [reduce_mult]
  exact .of_reduced (reduced_cancel (factor_of_mem_flatMap h))

theorem joins_mult : Joins Element factors net (reduce .mult) where
  element := element_reduce_mult
  value_join h := by rw [reduce_mult, net_product (factor_of_mem_flatMap h)]
  value_append := net_append
  ext := Element.eq_of_net_eq

section

variable {s t : Term} (hs : Element s)

include hs

theorem element_mul (ht : Element t) : Element (mul s t) := joins_mult.pair hs ht

theorem net_mul (ht : Element t) : net (factors (mul s t)) = net (factors s) + net (factors t) :=
  joins_mult.value_pair hs ht

theorem mul_unit : mul s (.const .one) = s := by
  refine (element_mul hs .one).eq_of_net_eq hs ?_
  rw [net_mul hs .one]
  simp [factors, Term.const, net]

theorem mul_inverse : mul s (inverse s) = .const .one := by
  refine (element_mul hs hs.inverse).eq_of_net_eq .one ?_
  rw [net_mul hs hs.inverse, hs.net_inverse, add_neg_cancel]
  rfl

end

/-- The power of a term that is no power itself. -/
def raise (b e : Term) : Term := if e = .const .one then b else .app .exp [b, e]

/-- A normal term as a power: its base is no power, and the exponent is `one` for most. -/
def Power (t : Term) : Prop := ∃ b e, b.head? ≠ some .exp ∧ Element e ∧ t = raise b e

theorem power_one {t : Term} : power t (.const .one) = t := if_pos rfl

theorem power_of_base {b e : Term} (hb : b.head? ≠ some .exp) : power b e = raise b e := by
  unfold power raise
  split
  · rfl
  · split
    · rename_i f b' e'
      exact if_neg fun hf => hb (by rw [hf]; rfl)
    · rfl

theorem power_raise {b e e' : Term} (hb : b.head? ≠ some .exp) (he : Element e) (he' : Element e') :
    power (raise b e) e' = raise b (mul e e') := by
  by_cases h : e = .const .one
  · rw [raise, if_pos h, power_of_base hb, h, mul, joins_mult.comm .one he', ← mul, mul_unit he']
  · by_cases h' : e' = .const .one
    · rw [h', mul_unit he, power_one]
    · have hm : mul e e' = product (cancel (factors e ++ factors e')) := by
        rw [mul, reduce_mult]
        simp
      rw [raise, if_neg h, power, if_neg h', hm]
      rfl

theorem power_power {t e e' : Term} (ht : Power t) (he : Element e) (he' : Element e') :
    Exponent.power (Exponent.power t e) e' = Exponent.power t (mul e e') := by
  obtain ⟨b, d, hb, hd, rfl⟩ := ht
  rw [power_raise hb hd he, power_raise hb (element_mul hd he) he',
    power_raise hb hd (element_mul he he'), mul, mul, mul, mul, joins_mult.assoc hd he he']

/-! ## Values -/

section Values

variable {A : Type} {M : TermAlgebra A} {T : Theory}

theorem mem_laws (hT : T.algebras.exponents = true) {e : Equation} (he : e ∈ laws) :
    e ∈ T.laws := by
  simp only [Theory.laws, hT, if_true, List.mem_append]
  exact .inl (.inl (.inr he))

variable (hT : T.algebras.exponents = true) (hM : M.Satisfies T)

include hT hM

theorem laws_hold (x y z : A) :
    M.op .mult [M.op .mult [x, y], z] = M.op .mult [x, M.op .mult [y, z]] ∧
    M.op .mult [x, y] = M.op .mult [y, x] ∧
    M.op .mult [x, M.op .one []] = x ∧
    M.op .mult [x, M.op .inv [x]] = M.op .one [] ∧
    M.op .exp [M.op .exp [x, y], z] = M.op .exp [x, M.op .mult [y, z]] ∧
    M.op .exp [x, M.op .one []] = x := by
  have key : ∀ e ∈ laws, M.value (fun v => if v.name = "x" then x else if v.name = "y" then y else z)
      e.1 = M.value (fun v => if v.name = "x" then x else if v.name = "y" then y else z) e.2 :=
    fun e he => hM e (mem_laws hT he) _
  simpa [laws, Var.msg, Term.const] using key

/-- Exponents form a commutative group in every algebra that satisfies the laws. -/
@[reducible] def commGroup : CommGroup A where
  mul x y := M.op .mult [x, y]
  one := M.op .one []
  inv x := M.op .inv [x]
  mul_assoc x y z := (laws_hold hT hM x y z).1
  mul_comm x y := (laws_hold hT hM x y x).2.1
  mul_one x := (laws_hold hT hM x x x).2.2.1
  one_mul x := ((laws_hold hT hM (M.op .one []) x x).2.1).trans (laws_hold hT hM x x x).2.2.1
  inv_mul_cancel x := ((laws_hold hT hM (M.op .inv [x]) x x).2.1).trans
    (laws_hold hT hM x x x).2.2.2.1

end Values

theorem value_exp {A : Type} {M : TermAlgebra A} {T : Theory} (ρ : Var → A) (b e : Term) :
    (M.flatten T).value ρ (.app .exp [b, e]) =
      M.op .exp [(M.flatten T).value ρ b, (M.flatten T).value ρ e] :=
  Theory.value_flatten_app Theory.isAssoc_exp ρ [b, e]

/-- The operations of an algebra are those of a group that acts by exponentiation. -/
structure GroupOps {A : Type} [CommGroup A] (M : TermAlgebra A) : Prop where
  mul : ∀ x y, M.op .mult [x, y] = x * y
  one : M.op .one [] = 1
  inv : ∀ x, M.op .inv [x] = x⁻¹
  exp_exp : ∀ x y z, M.op .exp [M.op .exp [x, y], z] = M.op .exp [x, y * z]
  exp_one : ∀ x, M.op .exp [x, 1] = x

theorem groupOps {A : Type} {M : TermAlgebra A} {T : Theory} (hT : T.algebras.exponents = true)
    (hM : M.Satisfies T) : @GroupOps A (commGroup hT hM) M := by
  let := commGroup hT hM
  exact ⟨fun _ _ => rfl, rfl, fun _ => rfl, fun x y z => (laws_hold hT hM x y z).2.2.2.2.1,
    fun x => (laws_hold hT hM x x x).2.2.2.2.2⟩

namespace GroupOps

variable {A : Type} [CommGroup A] {M : TermAlgebra A} {T : Theory} (h : GroupOps M)
  (hT : T.algebras.exponents = true) (ρ : Var → A)

include h

theorem value_inv (t : Term) :
    (M.flatten T).value ρ (.app .inv [t]) = ((M.flatten T).value ρ t)⁻¹ := by
  rw [Theory.value_flatten_app Theory.isAssoc_inv]
  exact h.inv _

theorem value_one : (M.flatten T).value ρ (.const .one) = 1 := by
  rw [Term.const, Theory.value_flatten_app Theory.isAssoc_one]
  exact h.one

theorem value_inverse {t : Term} (ht : Factor t) :
    (M.flatten T).value ρ (inverse t) = ((M.flatten T).value ρ t)⁻¹ := by
  rcases ht with hp | ⟨b, -, rfl⟩
  · rw [hp.inverse_eq, h.value_inv]
  · rw [inverse_inv, h.value_inv, inv_inv]

theorem value_cancel {ts : List Term} (hts : ∀ t ∈ ts, Factor t) :
    ((cancel ts).map ((M.flatten T).value ρ)).prod = (ts.map ((M.flatten T).value ρ)).prod := by
  have key := @prod_cancelFrom inverse A _ ((M.flatten T).value ρ) ts [] fun t ht => by
    rw [h.value_inverse ρ (hts t ht), inv_mul_cancel]
  rwa [List.map_nil, List.prod_nil, one_mul] at key

include hT

theorem value_mult (as : List Term) :
    (M.flatten T).value ρ (.app .mult as) = (as.map ((M.flatten T).value ρ)).prod := by
  rw [Theory.value_flatten_assoc (by simp [Theory.isAssoc, hT])]
  exact nest_eq_prod h.mul h.one _

theorem value_product (ts : List Term) :
    (M.flatten T).value ρ (product ts) = (ts.map ((M.flatten T).value ρ)).prod := by
  rw [product_eq]
  exact Theory.value_flatForm (by simp [Theory.isAssoc, hT]) h.mul h.one ρ (h.value_one ρ) ts

theorem value_element {t : Term} (ht : Element t) :
    (M.flatten T).value ρ t = ((factors t).map ((M.flatten T).value ρ)).prod := by
  rw [← h.value_product hT, ht.product_factors]

theorem value_reduce_mult {as : List Term} (has : ∀ a ∈ as, Element a) :
    (M.flatten T).value ρ (reduce .mult as) = (as.map ((M.flatten T).value ρ)).prod := by
  rw [reduce_mult, h.value_product hT, h.value_cancel ρ (factor_of_mem_flatMap has)]
  exact prod_flatMap_parts fun a ha => h.value_element hT ρ (has a ha)

theorem value_inverse_element {t : Term} (ht : Element t) :
    (M.flatten T).value ρ (inverse t) = ((M.flatten T).value ρ t)⁻¹ := by
  rw [ht.inverse_eq, h.value_product hT, h.value_element hT ρ ht, List.map_map, List.prod_inv]
  rw [List.map_map]
  refine congrArg List.prod (List.map_congr_left fun a ha => ?_)
  exact h.value_inverse ρ (ht.reduced.factor a ha)

omit hT in
theorem value_raise (b e : Term) :
    (M.flatten T).value ρ (raise b e) =
      M.op .exp [(M.flatten T).value ρ b, (M.flatten T).value ρ e] := by
  unfold raise
  split
  · rename_i he
    rw [he, h.value_one, h.exp_one]
  · exact value_exp ρ b e

theorem value_power {t e : Term} (ht : Power t) (he : Element e) :
    (M.flatten T).value ρ (power t e) =
      M.op .exp [(M.flatten T).value ρ t, (M.flatten T).value ρ e] := by
  obtain ⟨b, d, hb, hd, rfl⟩ := ht
  have hm : (M.flatten T).value ρ (Exponent.mul d e) =
      (M.flatten T).value ρ d * (M.flatten T).value ρ e := by
    rw [Exponent.mul, h.value_reduce_mult hT ρ (by simp [hd, he])]
    simp
  rw [power_raise hb hd he, h.value_raise, hm, h.value_raise, h.exp_exp]

end GroupOps

/-- The numbers of arguments that the symbols have besides `mult`. -/
structure Arity (f : Symbol) (n : Nat) : Prop where
  inv : f = .inv → n = 1
  exp : f = .exp → n = 2
  one : f = .one → n = 0

theorem value_reduce {A : Type} {M : TermAlgebra A} {T : Theory}
    (hT : T.algebras.exponents = true) (hM : M.Satisfies T) (ρ : Var → A) {f : Symbol}
    {as : List Term} (hf : owns f = true) (hn : Arity f as.length) (he : ∀ a ∈ as, Element a)
    (hp : ∀ a ∈ as, Power a) :
    (M.flatten T).value ρ (reduce f as) =
      (M.flatten T).op f (as.map ((M.flatten T).value ρ)) := by
  let := commGroup hT hM
  have h := groupOps hT hM
  rw [← TermAlgebra.value_app]
  simp only [owns, Bool.or_eq_true, beq_iff_eq] at hf
  rcases hf with ((rfl | rfl) | rfl) | rfl
  · obtain ⟨b, e, rfl⟩ := List.length_eq_two.1 (hn.exp rfl)
    rw [show reduce .exp [b, e] = power b e from rfl,
      h.value_power hT ρ (hp b (by simp)) (he e (by simp)), value_exp]
  · rw [h.value_reduce_mult hT ρ he, h.value_mult hT]
  · obtain ⟨a, rfl⟩ := List.length_eq_one_iff.1 (hn.inv rfl)
    rw [show reduce .inv [a] = inverse a from rfl,
      h.value_inverse_element hT ρ (he a (by simp)), h.value_inv]
  · rw [List.length_eq_zero_iff.1 (hn.one rfl)]
    rfl

end ProtocolProver.Exponent
