import Mathlib.Algebra.BigOperators.Group.List.Basic
import Mathlib.Algebra.Group.TypeTags.Basic
import ProtocolProver.Theory.ExclusiveOr
import ProtocolProver.Theory.Exponent
import ProtocolProver.Theory.Multiset

/-!
# Sorting and cancelling lists of terms

Normal forms of products and sums are sorted lists in which nothing cancels. Sorting forgets the
order of a list and no more (`sortTerms_perm`, `sortTerms_eq_of_perm`). Cancelling pairs keeps the
product in every commutative monoid in which the pairs are inverse (`prod_cancelFrom`), and leaves
no such pair (`pairwise_cancelFrom`).
-/

namespace ProtocolProver

/-! ## Sorting -/

namespace Term

theorem isLE_cmp_of_not {a b : Term} (h : ¬(cmp a b).isLE = true) : (cmp b a).isLE = true := by
  rw [cmp_swap b a]
  cases hc : cmp a b <;> simp [hc] at h ⊢

theorem eq_of_isLE_cmp {a b : Term} (hab : (cmp a b).isLE = true) (hba : (cmp b a).isLE = true) :
    a = b := by
  rw [cmp_swap b a] at hba
  apply cmp_eq_iff.1
  cases hc : cmp a b <;> simp [hc] at hab hba ⊢

theorem isLE_cmp_trans {a b c : Term} (hab : (cmp a b).isLE = true) (hbc : (cmp b c).isLE = true) :
    (cmp a c).isLE = true :=
  @Std.TransCmp.isLE_trans Term compare _ a b c hab hbc

theorem insertSorted_of_isLE {a u : Term} {us : List Term} (h : (cmp a u).isLE = true) :
    insertSorted a (u :: us) = a :: u :: us := by
  rw [insertSorted, if_pos h]

theorem insertSorted_of_not {a u : Term} {us : List Term} (h : ¬(cmp a u).isLE = true) :
    insertSorted a (u :: us) = u :: insertSorted a us := by
  rw [insertSorted, if_neg h]

theorem insertSorted_comm_of_isLE {a b : Term} (hab : (cmp a b).isLE = true) :
    ∀ l, insertSorted a (insertSorted b l) = insertSorted b (insertSorted a l)
  | [] => by
    rw [insertSorted, insertSorted_of_isLE hab, insertSorted]
    by_cases hba : (cmp b a).isLE = true
    · rw [eq_of_isLE_cmp hab hba, insertSorted_of_isLE (eq_of_isLE_cmp hab hba ▸ hab)]
    · rw [insertSorted_of_not hba, insertSorted]
  | u :: us => by
    by_cases hb : (cmp b u).isLE = true
    · rw [insertSorted_of_isLE hb, insertSorted_of_isLE hab,
        insertSorted_of_isLE (isLE_cmp_trans hab hb)]
      by_cases hba : (cmp b a).isLE = true
      · rw [insertSorted_of_isLE hba, eq_of_isLE_cmp hab hba]
      · rw [insertSorted_of_not hba, insertSorted_of_isLE hb]
    · rw [insertSorted_of_not hb]
      by_cases ha : (cmp a u).isLE = true
      · have hba : ¬(cmp b a).isLE = true := fun h => hb (isLE_cmp_trans h ha)
        rw [insertSorted_of_isLE ha, insertSorted_of_isLE ha, insertSorted_of_not hba,
          insertSorted_of_not hb]
      · rw [insertSorted_of_not ha, insertSorted_of_not ha, insertSorted_of_not hb,
          insertSorted_comm_of_isLE hab us]

instance : LeftCommutative insertSorted where
  left_comm a b l := by
    by_cases h : (cmp a b).isLE = true
    · exact insertSorted_comm_of_isLE h l
    · exact (insertSorted_comm_of_isLE (isLE_cmp_of_not h) l).symm

theorem insertSorted_perm (t : Term) : ∀ l, (insertSorted t l).Perm (t :: l)
  | [] => .refl _
  | u :: us => by
    by_cases h : (cmp t u).isLE = true
    · rw [insertSorted_of_isLE h]
    · rw [insertSorted_of_not h]
      exact ((insertSorted_perm t us).cons u).trans (.swap t u us)

end Term

theorem sortTerms_perm : ∀ ts, (sortTerms ts).Perm ts
  | [] => .refl _
  | t :: ts => (Term.insertSorted_perm t _).trans ((sortTerms_perm ts).cons t)

theorem sortTerms_eq_of_perm {ts us : List Term} (h : ts.Perm us) : sortTerms ts = sortTerms us :=
  h.foldr_eq []

@[simp] theorem sortTerms_sortTerms (ts : List Term) : sortTerms (sortTerms ts) = sortTerms ts :=
  sortTerms_eq_of_perm (sortTerms_perm ts)

@[simp] theorem length_sortTerms (ts : List Term) : (sortTerms ts).length = ts.length :=
  (sortTerms_perm ts).length_eq

@[simp] theorem mem_sortTerms {t : Term} {ts : List Term} : t ∈ sortTerms ts ↔ t ∈ ts :=
  (sortTerms_perm ts).mem_iff

/-! ## Flat forms -/

theorem mem_args_of_part {t u : Term} (h : u ∈ Exponent.factors t ∨ u ∈ ExclusiveOr.summands t ∨
    u ∈ Multiset.elements t) : u = t ∨ u ∈ t.args := by
  cases t with
  | var | name => exact .inl (by simpa [Exponent.factors, ExclusiveOr.summands, Multiset.elements] using h)
  | app f as =>
    simp only [Exponent.factors, ExclusiveOr.summands, Multiset.elements] at h
    grind [Term.args]

/-- The flat application of an associative symbol to a list. -/
def flatForm (f : Symbol) (unit : Term) : List Term → Term
  | [] => unit
  | [t] => t
  | ts => .app f (sortTerms ts)

theorem Exponent.product_eq (ts : List Term) :
    Exponent.product ts = flatForm .mult (.const .one) ts := by
  rcases ts with _ | ⟨a, _ | ⟨b, ts⟩⟩ <;> rfl

theorem ExclusiveOr.sum_eq (ts : List Term) :
    ExclusiveOr.sum ts = flatForm .xor (.const .zero) (ExclusiveOr.cancel ts) := by
  unfold ExclusiveOr.sum
  rcases ExclusiveOr.cancel ts with _ | ⟨a, _ | ⟨b, ts⟩⟩ <;> rfl

theorem Multiset.union_eq (ts : List Term) :
    Multiset.union ts = flatForm .union (.app .union []) ts := by
  rcases ts with _ | ⟨a, _ | ⟨b, ts⟩⟩ <;> rfl

theorem flatForm_eq_of_perm {f : Symbol} {unit : Term} {ts us : List Term} (h : ts.Perm us) :
    flatForm f unit ts = flatForm f unit us := by
  rcases ts with _ | ⟨a, _ | ⟨b, ts⟩⟩
  · rw [h.nil_eq]
  · rw [h.singleton_eq]
  · rcases us with _ | ⟨c, _ | ⟨d, us⟩⟩
    · exact absurd h.length_eq (by simp)
    · exact absurd h.length_eq (by simp)
    · simp only [flatForm]
      rw [sortTerms_eq_of_perm h]

theorem parts_flatForm_perm {f : Symbol} {unit : Term} {parts : Term → List Term} {ts : List Term}
    (hunit : parts unit = []) (hself : ∀ t ∈ ts, parts t = [t])
    (happ : ∀ us, parts (.app f us) = us) : (parts (flatForm f unit ts)).Perm ts := by
  rcases ts with _ | ⟨a, _ | ⟨b, ts⟩⟩
  · rw [flatForm, hunit]
  · rw [flatForm, hself a (List.mem_cons_self ..)]
  · rw [flatForm.eq_3 f unit _ (by simp) (by simp), happ]
    exact sortTerms_perm _

theorem prod_flatMap_parts {G : Type*} [Monoid G] {v : Term → G} {parts : Term → List Term} :
    ∀ {as : List Term}, (∀ a ∈ as, v a = ((parts a).map v).prod) →
      ((as.flatMap parts).map v).prod = (as.map v).prod
  | [], _ => rfl
  | a :: as, h => by
    rw [List.flatMap_cons, List.map_append, List.prod_append, List.map_cons, List.prod_cons,
      ← h a (List.mem_cons_self ..),
      prod_flatMap_parts fun b hb => h b (List.mem_cons_of_mem a hb)]

/-! ## Cancelling -/

/-- Keeps the terms of a list, but drops each one that has an inverse among those kept, together
with that inverse. -/
def cancelFrom (inv : Term → Term) (kept ts : List Term) : List Term :=
  ts.foldl (fun kept t => if kept.contains (inv t) then kept.erase (inv t) else kept ++ [t]) kept

theorem Exponent.cancel_eq (ts : List Term) :
    Exponent.cancel ts = cancelFrom Exponent.inverse [] ts := rfl

theorem ExclusiveOr.cancel_eq (ts : List Term) : ExclusiveOr.cancel ts = cancelFrom id [] ts := rfl

variable {inv : Term → Term}

theorem cancelFrom_cons (kept : List Term) (t : Term) (ts : List Term) :
    (inv t ∈ kept ∧ cancelFrom inv kept (t :: ts) = cancelFrom inv (kept.erase (inv t)) ts) ∨
    (inv t ∉ kept ∧ cancelFrom inv kept (t :: ts) = cancelFrom inv (kept ++ [t]) ts) := by
  by_cases h : inv t ∈ kept
  · refine .inl ⟨h, ?_⟩
    rw [cancelFrom, List.foldl_cons, if_pos (by simpa using h), cancelFrom]
  · refine .inr ⟨h, ?_⟩
    rw [cancelFrom, List.foldl_cons, if_neg (by simpa using h), cancelFrom]

theorem mem_of_mem_cancelFrom {u : Term} : ∀ {ts kept : List Term},
    u ∈ cancelFrom inv kept ts → u ∈ kept ∨ u ∈ ts
  | [], kept, h => .inl h
  | t :: ts, kept, h => by
    rcases cancelFrom_cons kept t ts with ⟨-, he⟩ | ⟨-, he⟩ <;> rw [he] at h
    · rcases mem_of_mem_cancelFrom h with h | h
      · exact .inl (List.mem_of_mem_erase h)
      · exact .inr (List.mem_cons_of_mem t h)
    · rcases mem_of_mem_cancelFrom h with h | h
      · rcases List.mem_append.1 h with h | h
        · exact .inl h
        · exact .inr (by simp_all)
      · exact .inr (List.mem_cons_of_mem t h)

/-- Nothing that is kept has an inverse that is kept before it. -/
theorem pairwise_cancelFrom : ∀ {ts kept : List Term}, kept.Pairwise (fun a b => inv b ≠ a) →
    (cancelFrom inv kept ts).Pairwise fun a b => inv b ≠ a
  | [], _, h => h
  | t :: ts, kept, h => by
    rcases cancelFrom_cons kept t ts with ⟨-, he⟩ | ⟨hn, he⟩ <;> rw [he]
    · exact pairwise_cancelFrom (h.sublist List.erase_sublist)
    · refine pairwise_cancelFrom (List.pairwise_append.2 ⟨h, List.pairwise_singleton _ _, ?_⟩)
      intro a ha b hb
      rw [List.mem_singleton.1 hb]
      exact fun hi => hn (hi ▸ ha)

/-- Cancelling keeps the product of any values under which the dropped pairs have product `1`. -/
theorem prod_cancelFrom {G : Type*} [CommMonoid G] (v : Term → G) :
    ∀ {ts kept : List Term}, (∀ t ∈ ts, v (inv t) * v t = 1) →
      ((cancelFrom inv kept ts).map v).prod = (kept.map v).prod * (ts.map v).prod
  | [], kept, _ => by simp [cancelFrom]
  | t :: ts, kept, h => by
    have ht := h t (List.mem_cons_self ..)
    have hts : ∀ t ∈ ts, v (inv t) * v t = 1 := fun u hu => h u (List.mem_cons_of_mem t hu)
    rcases cancelFrom_cons kept t ts with ⟨hm, he⟩ | ⟨-, he⟩ <;> rw [he, prod_cancelFrom v hts]
    · rw [List.map_cons, List.prod_cons, ← mul_assoc]
      congr 1
      rw [← List.prod_map_erase v hm, mul_right_comm, ht, one_mul]
    · simp [mul_assoc]

theorem sum_cancelFrom {G : Type*} [AddCommMonoid G] (v : Term → G) {ts kept : List Term}
    (h : ∀ t ∈ ts, v (inv t) + v t = 0) :
    ((cancelFrom inv kept ts).map v).sum = (kept.map v).sum + (ts.map v).sum :=
  prod_cancelFrom (fun t => Multiplicative.ofAdd (v t)) h

/-! ## Terms that are known by their parts -/

/-- Terms are joined, and elements are known by a value that is the sum over their parts. -/
structure Joins {G : Type} [AddCommMonoid G] (Element : Term → Prop) (parts : Term → List Term)
    (value : List Term → G) (join : List Term → Term) : Prop where
  element : ∀ {as}, (∀ a ∈ as, Element a) → Element (join as)
  value_join : ∀ {as}, (∀ a ∈ as, Element a) → value (parts (join as)) = value (as.flatMap parts)
  value_append : ∀ ts us, value (ts ++ us) = value ts + value us
  ext : ∀ {s t}, Element s → Element t → value (parts s) = value (parts t) → s = t

namespace Joins

variable {G : Type} [AddCommMonoid G] {Element : Term → Prop} {parts : Term → List Term}
  {value : List Term → G} {join : List Term → Term} (h : Joins Element parts value join)
  {s t u : Term} {ts : List Term}

include h

theorem pair (hs : Element s) (ht : Element t) : Element (join [s, t]) :=
  h.element (List.forall_mem_cons.2 ⟨hs, List.forall_mem_singleton.2 ht⟩)

theorem value_cons (hts : ∀ a ∈ t :: ts, Element a) :
    value (parts (join (t :: ts))) = value (parts t) + value (ts.flatMap parts) := by
  rw [h.value_join hts, List.flatMap_cons, h.value_append]

theorem value_pair (hs : Element s) (ht : Element t) :
    value (parts (join [s, t])) = value (parts s) + value (parts t) := by
  rw [h.value_cons (List.forall_mem_cons.2 ⟨hs, List.forall_mem_singleton.2 ht⟩),
    List.flatMap_singleton]

theorem comm (hs : Element s) (ht : Element t) : join [s, t] = join [t, s] := by
  refine h.ext (h.pair hs ht) (h.pair ht hs) ?_
  rw [h.value_pair hs ht, h.value_pair ht hs, add_comm]

theorem assoc (hs : Element s) (ht : Element t) (hu : Element u) :
    join [join [s, t], u] = join [s, join [t, u]] := by
  have hst := h.pair hs ht
  have htu := h.pair ht hu
  refine h.ext (h.pair hst hu) (h.pair hs htu) ?_
  rw [h.value_pair hst hu, h.value_pair hs ht, h.value_pair hs htu, h.value_pair ht hu, add_assoc]

theorem singleton (ht : Element t) : join [t] = t := by
  have hmem : ∀ a ∈ [t], Element a := List.forall_mem_singleton.2 ht
  refine h.ext (h.element hmem) ht ?_
  rw [h.value_join hmem, List.flatMap_singleton]

theorem cons (hts : ∀ a ∈ t :: ts, Element a) : join (t :: ts) = join [t, join ts] := by
  obtain ⟨ht, htail⟩ := List.forall_mem_cons.1 hts
  have hjoin := h.element htail
  refine h.ext (h.element hts) (h.pair ht hjoin) ?_
  rw [h.value_cons hts, h.value_pair ht hjoin, h.value_join htail]

end Joins

end ProtocolProver
