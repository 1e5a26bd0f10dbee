import Mathlib.Algebra.Field.ZMod
import ProtocolProver.Proofs.TermAlgebra

/-!
# Normal forms of sums and unions

A normal sum has each summand once, so it is known by the parity with which terms occur in it
(`ExclusiveOr.Element.eq_of_parity_eq`). A normal union is known by its elements up to order. The laws
of both operations follow from how they act on parities and on lists up to order.
-/

namespace ProtocolProver

namespace ExclusiveOr

/-- What a sum is a sum of: no sum, and not the unit. -/
structure Summand (t : Term) : Prop where
  xor : t.head? ≠ some .xor
  zero : t.head? ≠ some .zero

theorem Summand.summands_eq {t : Term} (h : Summand t) : summands t = [t] := by
  cases t with
  | var v => rfl
  | name n => rfl
  | app f as =>
    obtain ⟨hx, hz⟩ := h
    simp only [Term.head?, ne_eq, Option.some.injEq] at hx hz
    rw [summands, if_neg hx, if_neg hz]

/-- Summands without repetition. -/
structure Reduced (ts : List Term) : Prop where
  summand : ∀ t ∈ ts, Summand t
  nodup : ts.Nodup

theorem Reduced.of_perm {ts us : List Term} (h : Reduced ts) (hp : us.Perm ts) : Reduced us :=
  ⟨fun t ht => h.summand t (hp.mem_iff.1 ht), hp.nodup_iff.2 h.nodup⟩

theorem reduced_cancel {ts : List Term} (h : ∀ t ∈ ts, Summand t) : Reduced (cancel ts) := by
  refine ⟨fun t ht => ?_, ?_⟩
  · rcases mem_of_mem_cancelFrom ht with ht | ht
    · cases ht
    · exact h t ht
  · have hp : (cancelFrom id [] ts).Pairwise fun a b => id b ≠ a := pairwise_cancelFrom .nil
    exact hp.imp fun hne => Ne.symm hne

/-- The parity with which each term occurs. -/
def parity (ts : List Term) : Term → ZMod 2 := (ts.map fun t => Pi.single t 1).sum

theorem parity_append (ts us : List Term) : parity (ts ++ us) = parity ts + parity us := by
  simp [parity]

theorem parity_perm {ts us : List Term} (h : ts.Perm us) : parity ts = parity us :=
  (h.map _).sum_eq

theorem add_self_parity (p : Term → ZMod 2) : p + p = 0 := by
  funext t
  exact CharTwo.add_self_eq_zero (p t)

theorem parity_cancel (ts : List Term) : parity (cancel ts) = parity ts := by
  have key := @sum_cancelFrom id (Term → ZMod 2) _ (fun t => Pi.single t 1) ts [] fun t _ =>
    add_self_parity _
  rwa [List.map_nil, List.sum_nil, zero_add] at key

theorem parity_apply (t : Term) : ∀ ts : List Term, parity ts t = (ts.count t : ZMod 2)
  | [] => by simp [parity]
  | u :: ts => by
    have hcons : parity (u :: ts) t = (Pi.single u 1 : Term → ZMod 2) t + parity ts t := by
      simp [parity]
    rw [hcons, parity_apply t ts, List.count_cons, Pi.single_apply]
    by_cases h : u = t
    · simp [h, add_comm]
    · simp [h, Ne.symm h]

theorem Reduced.perm_of_parity_eq {ts us : List Term} (ht : Reduced ts) (hu : Reduced us)
    (h : parity ts = parity us) : ts.Perm us := by
  rw [List.perm_iff_count]
  intro t
  have hp := congrFun h t
  rw [parity_apply, parity_apply, ZMod.natCast_eq_natCast_iff'] at hp
  have h₁ := List.nodup_iff_count_le_one.1 ht.nodup t
  have h₂ := List.nodup_iff_count_le_one.1 hu.nodup t
  omega

/-- A normal sum. -/
def Element (t : Term) : Prop := ∃ ts, Reduced ts ∧ t = flatForm .xor (.const .zero) ts

theorem summands_flatForm_perm {ts : List Term} (h : ∀ t ∈ ts, Summand t) :
    (summands (flatForm .xor (.const .zero) ts)).Perm ts :=
  parts_flatForm_perm rfl (fun t ht => (h t ht).summands_eq) fun _ => rfl

namespace Element

variable {s t : Term}

theorem of_summand (h : Summand t) : Element t :=
  ⟨[t], ⟨fun _ hu => List.mem_singleton.1 hu ▸ h, List.nodup_singleton t⟩, rfl⟩

theorem zero : Element (.const .zero) := ⟨[], ⟨by simp, List.nodup_nil⟩, rfl⟩

theorem reduced (h : Element t) : Reduced (summands t) := by
  obtain ⟨ts, hr, rfl⟩ := h
  exact hr.of_perm (summands_flatForm_perm hr.summand)

theorem flatForm_summands (h : Element t) : flatForm .xor (.const .zero) (summands t) = t := by
  obtain ⟨ts, hr, rfl⟩ := h
  exact flatForm_eq_of_perm (summands_flatForm_perm hr.summand)

theorem eq_of_parity_eq (hs : Element s) (ht : Element t)
    (h : parity (summands s) = parity (summands t)) : s = t := by
  rw [← hs.flatForm_summands, ← ht.flatForm_summands]
  exact flatForm_eq_of_perm (hs.reduced.perm_of_parity_eq ht.reduced h)

end Element

theorem reduce_xor (as : List Term) : reduce .xor as = sum (as.flatMap summands) := if_pos rfl

theorem summand_of_mem_flatMap {as : List Term} (h : ∀ a ∈ as, Element a) :
    ∀ t ∈ as.flatMap summands, Summand t := by
  intro t ht
  obtain ⟨a, ha, hta⟩ := List.mem_flatMap.1 ht
  exact (h a ha).reduced.summand t hta

theorem element_sum {ts : List Term} (h : ∀ t ∈ ts, Summand t) : Element (sum ts) :=
  ⟨cancel ts, reduced_cancel h, sum_eq ts⟩

theorem parity_sum {ts : List Term} (h : ∀ t ∈ ts, Summand t) :
    parity (summands (sum ts)) = parity ts := by
  rw [sum_eq, parity_perm (summands_flatForm_perm (reduced_cancel h).summand), parity_cancel]

def add (s t : Term) : Term := reduce .xor [s, t]

theorem joins_xor : Joins Element summands parity (reduce .xor) where
  element h := element_sum (summand_of_mem_flatMap h)
  value_join h := parity_sum (summand_of_mem_flatMap h)
  value_append := parity_append
  ext := Element.eq_of_parity_eq

section

variable {s t : Term} (hs : Element s)

include hs

theorem element_add (ht : Element t) : Element (add s t) := joins_xor.pair hs ht

theorem parity_add (ht : Element t) :
    parity (summands (add s t)) = parity (summands s) + parity (summands t) :=
  joins_xor.value_pair hs ht

theorem add_unit : add s (.const .zero) = s := by
  refine (element_add hs .zero).eq_of_parity_eq hs ?_
  rw [parity_add hs .zero]
  simp [summands, Term.const, parity]

theorem add_self : add s s = .const .zero := by
  refine (element_add hs hs).eq_of_parity_eq .zero ?_
  rw [parity_add hs hs, add_self_parity]
  rfl

end

/-! ## Values of sums -/

section Values

variable {A : Type} {M : TermAlgebra A} {T : Theory} (hT : T.algebras.xor = true)
  (hM : M.Satisfies T)

include hT hM

/-- What the laws say in an algebra that satisfies them. -/
theorem laws_hold (x y z : A) :
    M.op .xor [M.op .xor [x, y], z] = M.op .xor [x, M.op .xor [y, z]] ∧
    M.op .xor [x, y] = M.op .xor [y, x] ∧
    M.op .xor [x, M.op .zero []] = x ∧
    M.op .xor [x, x] = M.op .zero [] := by
  have key : ∀ e ∈ laws, M.value (fun v => if v.name = "x" then x else if v.name = "y" then y else z)
      e.1 = M.value (fun v => if v.name = "x" then x else if v.name = "y" then y else z) e.2 :=
    fun e he => hM e (by simp [Theory.laws, hT, he]) _
  simpa [laws, Var.msg, Term.const] using key

/-- Sums form a commutative monoid in every algebra that satisfies the laws. -/
@[reducible] def commMonoid : CommMonoid A where
  mul x y := M.op .xor [x, y]
  one := M.op .zero []
  mul_assoc x y z := (laws_hold hT hM x y z).1
  mul_comm x y := (laws_hold hT hM x y x).2.1
  mul_one x := (laws_hold hT hM x x x).2.2.1
  one_mul x := ((laws_hold hT hM (M.op .zero []) x x).2.1).trans (laws_hold hT hM x x x).2.2.1

theorem value_reduce (ρ : Var → A) {f : Symbol} {as : List Term} (hf : owns f = true)
    (hn : f = .zero → as.length = 0) (he : ∀ a ∈ as, Element a) :
    (M.flatten T).value ρ (reduce f as) =
      (M.flatten T).op f (as.map ((M.flatten T).value ρ)) := by
  let := commMonoid hT hM
  have hassoc : T.isAssoc .xor = true := by simp [Theory.isAssoc, hT]
  have hzero : (M.flatten T).value ρ (.const .zero) = 1 :=
    Theory.value_flatten_app Theory.isAssoc_zero ρ []
  have hflat := Theory.value_flatForm hassoc (fun _ _ => rfl) rfl ρ hzero
  rw [← TermAlgebra.value_app]
  simp only [owns, Bool.or_eq_true, beq_iff_eq] at hf
  rcases hf with rfl | rfl
  · have hcancel := fun ts => @prod_cancelFrom id A _ ((M.flatten T).value ρ) ts [] fun t _ =>
      (laws_hold hT hM ((M.flatten T).value ρ t) (M.op .zero []) (M.op .zero [])).2.2.2
    have hnest : ∀ xs, nest (fun x y => M.op .xor [x, y]) (M.op Symbol.xor.unit []) xs = xs.prod :=
      nest_eq_prod (fun _ _ => rfl) rfl
    rw [reduce_xor, sum_eq, hflat, Theory.value_flatten_assoc hassoc, hnest, cancel_eq, hcancel,
      List.map_nil, List.prod_nil, one_mul]
    exact prod_flatMap_parts fun a ha => by rw [← hflat, (he a ha).flatForm_summands]
  · rw [List.length_eq_zero_iff.1 (hn rfl)]
    rfl

end Values

end ExclusiveOr

namespace Multiset

/-- A normal union: the union of one or more terms that are no unions. -/
def Element (t : Term) : Prop :=
  ∃ ts, ts ≠ [] ∧ (∀ u ∈ ts, u.head? ≠ some .union) ∧ t = flatForm .union (.app .union []) ts

theorem elements_eq {t : Term} (h : t.head? ≠ some .union) : elements t = [t] := by
  cases t with
  | var v => rfl
  | name n => rfl
  | app f as =>
    simp only [Term.head?, ne_eq, Option.some.injEq] at h
    rw [elements, if_neg h]

theorem elements_flatForm_perm {ts : List Term} (h : ∀ t ∈ ts, t.head? ≠ some .union) :
    (elements (flatForm .union (.app .union []) ts)).Perm ts :=
  parts_flatForm_perm rfl (fun t ht => elements_eq (h t ht)) fun _ => rfl

namespace Element

variable {t : Term}

theorem of_ne (h : t.head? ≠ some .union) : Element t :=
  ⟨[t], List.cons_ne_nil _ _, fun _ hu => List.mem_singleton.1 hu ▸ h, rfl⟩

theorem ne_union (h : Element t) : ∀ u ∈ elements t, u.head? ≠ some .union := by
  obtain ⟨ts, -, hts, rfl⟩ := h
  exact fun u hu => hts u ((elements_flatForm_perm hts).mem_iff.1 hu)

theorem ne_nil (h : Element t) : elements t ≠ [] := by
  obtain ⟨ts, hne, hts, rfl⟩ := h
  exact fun he => hne (List.Perm.nil_eq (he ▸ elements_flatForm_perm hts)).symm

theorem flatForm_elements (h : Element t) : flatForm .union (.app .union []) (elements t) = t := by
  obtain ⟨ts, -, hts, rfl⟩ := h
  exact flatForm_eq_of_perm (elements_flatForm_perm hts)

end Element

theorem reduce_union (as : List Term) :
    reduce .union as = flatForm .union (.app .union []) (as.flatMap elements) := by
  rw [← union_eq]
  exact if_pos rfl

theorem ne_union_of_mem_flatMap {as : List Term} (h : ∀ a ∈ as, Element a) :
    ∀ t ∈ as.flatMap elements, t.head? ≠ some .union := by
  intro t ht
  obtain ⟨a, ha, hta⟩ := List.mem_flatMap.1 ht
  exact (h a ha).ne_union t hta

theorem flatMap_ne_nil {as : List Term} (hne : as ≠ []) (h : ∀ a ∈ as, Element a) :
    as.flatMap elements ≠ [] := by
  obtain ⟨a, as, rfl⟩ := List.exists_cons_of_ne_nil hne
  rw [List.flatMap_cons]
  exact fun he => (h a (List.mem_cons_self ..)).ne_nil (List.append_eq_nil_iff.1 he).1

theorem reduce_union_nested {as bs cs : List Term} (h : ∀ b ∈ bs, Element b) :
    reduce .union (as ++ reduce .union bs :: cs) = reduce .union (as ++ bs ++ cs) := by
  have hp := elements_flatForm_perm (ne_union_of_mem_flatMap h)
  rw [reduce_union bs, reduce_union, reduce_union]
  refine flatForm_eq_of_perm ?_
  simp only [List.flatMap_append, List.flatMap_cons, List.append_assoc]
  exact (hp.append_right _).append_left _

theorem reduce_union_perm {as bs : List Term} (h : as.Perm bs) :
    reduce .union as = reduce .union bs := by
  rw [reduce_union, reduce_union]
  exact flatForm_eq_of_perm (h.flatMap_right _)

theorem reduce_union_singleton {t : Term} (h : Element t) : reduce .union [t] = t := by
  rw [reduce_union, List.flatMap_cons, List.flatMap_nil, List.append_nil, h.flatForm_elements]

/-! ## Values of unions -/

section Values

variable {A : Type} {M : TermAlgebra A} {T : Theory} (hT : T.algebras.multisets = true)
  (hM : M.Satisfies T)

include hT hM

/-- What the laws say in an algebra that satisfies them. -/
theorem laws_hold (x y z : A) :
    M.op .union [M.op .union [x, y], z] = M.op .union [x, M.op .union [y, z]] ∧
    M.op .union [x, y] = M.op .union [y, x] := by
  have key : ∀ e ∈ laws, M.value (fun v => if v.name = "x" then x else if v.name = "y" then y else z)
      e.1 = M.value (fun v => if v.name = "x" then x else if v.name = "y" then y else z) e.2 :=
    fun e he => hM e (by simp [Theory.laws, hT, he]) _
  simpa [laws, Var.msg] using key

/-- Unions form a commutative semigroup in every algebra that satisfies the laws. -/
@[reducible] def commSemigroup : CommSemigroup A where
  mul x y := M.op .union [x, y]
  mul_assoc x y z := (laws_hold hT hM x y z).1
  mul_comm x y := (laws_hold hT hM x y x).2

omit hT hM in
theorem coe_nest [CommSemigroup A] {op : A → A → A} {unit : A} (hop : ∀ x y, op x y = x * y) :
    ∀ {xs : List A}, xs ≠ [] → ((nest op unit xs : A) : WithOne A) = (xs.map (↑)).prod
  | [x], _ => by simp [nest]
  | x :: y :: xs, _ => by
    rw [nest, hop, WithOne.coe_mul, coe_nest hop (List.cons_ne_nil y xs)]
    rfl

theorem value_reduce (ρ : Var → A) {as : List Term} (hne : as ≠ []) (he : ∀ a ∈ as, Element a) :
    (M.flatten T).value ρ (reduce .union as) =
      (M.flatten T).op .union (as.map ((M.flatten T).value ρ)) := by
  let := commSemigroup hT hM
  have hassoc : T.isAssoc .union = true := by simp [Theory.isAssoc, hT]
  -- a union without elements has no value to speak of, so a unit is added
  have hnest : ∀ us : List Term, us ≠ [] →
      (((M.flatten T).value ρ (.app .union us) : A) : WithOne A) =
        (us.map fun t => (((M.flatten T).value ρ t : A) : WithOne A)).prod := by
    intro us hus
    have hop : ∀ x y, M.op .union [x, y] = x * y := fun _ _ => rfl
    have hxs : us.map ((M.flatten T).value ρ) ≠ [] := by simpa using hus
    rw [Theory.value_flatten_assoc hassoc, coe_nest hop hxs, List.map_map]
    rfl
  have hflat : ∀ us : List Term, us ≠ [] →
      (((M.flatten T).value ρ (flatForm .union (.app .union []) us) : A) : WithOne A) =
        (us.map fun t => (((M.flatten T).value ρ t : A) : WithOne A)).prod := by
    intro us hus
    rcases us with _ | ⟨a, _ | ⟨b, us⟩⟩
    · exact absurd rfl hus
    · simp [flatForm]
    · rw [flatForm.eq_3 .union _ _ (by simp) (by simp), hnest _ (by simp [← List.length_pos_iff])]
      exact ((sortTerms_perm _).map _).prod_eq
  rw [← TermAlgebra.value_app, ← WithOne.coe_inj, reduce_union, hflat _ (flatMap_ne_nil hne he),
    hnest _ hne]
  exact prod_flatMap_parts fun a ha => by
    rw [← hflat _ (he a ha).ne_nil, (he a ha).flatForm_elements]

end Values

end Multiset

end ProtocolProver
