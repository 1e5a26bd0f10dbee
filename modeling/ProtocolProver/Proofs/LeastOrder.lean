import Mathlib.Data.Fintype.List
import Mathlib.Data.Fintype.Order
import ProtocolProver.Proofs.Acyclicity

/-!
# The least order of nodes

`System.linearize` takes classes of timepoints one by one, each after all that precede it. Its counters
say which classes are ready: they are kept up for those that are left (`Precedence.Queue.Counts`). A
class without a node is taken at once, so the classes to choose from are those with a node that no node
left precedes, and the node with the smallest number among them is what any order can start with at best.
If the ordering constraints have no cycle, this gives all nodes in the least order that meets them
(`System.linearize_least`).
-/

namespace ProtocolProver

open Relation (TransGen ReflTransGen)

namespace Precedence

variable {ps : List Precedence} {left : List TimeVar} {node : TimeVar → Option Nat}

theorem wellFounded_before (h : ∀ i, ¬TransGen (Before ps) i i) : WellFounded (Before ps) := by
  let r (i j : {i // i ∈ ps.map earlier}) : Prop := TransGen (Before ps) i j
  have : IsTrans _ r := ⟨fun _ _ _ => TransGen.trans⟩
  have : Std.Irrefl r := ⟨fun i => h i⟩
  have hr : WellFounded r := Finite.wellFounded_of_trans_of_irrefl r
  have hmem : ∀ {i j}, Before ps i j → i ∈ ps.map earlier := fun hp => List.mem_map.2 ⟨_, hp, rfl⟩
  have hacc : ∀ i : {i // i ∈ ps.map earlier}, Acc (Before ps) i := fun i => by
    induction i using hr.induction with
    | _ i ih => exact .intro _ fun j hj => ih ⟨j, hmem hj⟩ (.single hj)
  exact ⟨fun i => .intro _ fun j hj => hacc ⟨j, hmem hj⟩⟩

/-- Nothing that is left comes right before a class. -/
def Ready (ps : List Precedence) (left : List TimeVar) (c : TimeVar) : Prop :=
  ∀ d, Before ps d c → d ∉ left

/-- Before every class that is left there is one, or it is one itself, that is ready. -/
theorem exists_ready (h : WellFounded (Before ps)) {c : TimeVar} (hc : c ∈ left) :
    ∃ d ∈ left, Ready ps left d ∧ ReflTransGen (Before ps) d c := by
  induction c using h.induction with
  | _ c ih =>
    by_cases hready : Ready ps left c
    · exact ⟨c, hc, hready, .refl⟩
    · simp only [Ready, not_forall, not_not] at hready
      obtain ⟨d, hdc, hd⟩ := hready
      obtain ⟨e, he, hready, hed⟩ := ih d hdc hd
      exact ⟨e, he, hready, hed.tail hdc⟩

/-! ## Counters -/

/-- How many precedences lead from what is left to `i`. -/
def indegree (ps : List Precedence) (left : List TimeVar) (i : TimeVar) : Nat :=
  ps.countP fun p => p.later = i ∧ p.earlier ∈ left

variable {q : Queue} {c d i : TimeVar}

theorem indegree_eq_zero : indegree ps left c = 0 ↔ Ready ps left c := by
  simp only [indegree, List.countP_eq_zero, decide_eq_true_eq, not_and]
  constructor
  · exact fun h d hd => h ⟨d, c⟩ hd rfl
  · rintro h ⟨d, c⟩ hd rfl
    exact h d hd

/-- What comes right after `c` loses one when `c` is taken. -/
theorem indegree_filter (hps : ps.Nodup) (hc : c ∈ left) (d : TimeVar) :
    indegree ps (left.filter (· ≠ c)) d + (if d ∈ next ps c then 1 else 0) = indegree ps left d := by
  have hcount : ps.count ⟨c, d⟩ = if d ∈ next ps c then 1 else 0 := by
    simp only [hps.count, mem_next, Before]
  rw [← hcount, indegree, indegree]
  clear hcount hps
  induction ps with
  | nil => rfl
  | cons p ps ih =>
    have hp : p = ⟨c, d⟩ ↔ p.earlier = c ∧ p.later = d := by
      cases p
      simp
    simp only [List.countP_cons, List.count_cons, decide_eq_true_eq, beq_iff_eq, List.mem_filter, hp]
    split_ifs <;> grind

namespace Queue

/-- The counters are right for all that is left, and so is what can be taken. -/
structure Counts (ps : List Precedence) (left : List TimeVar) (q : Queue) : Prop where
  indegree : ∀ d ∈ left, q.indegrees.get? d = some (indegree ps left d)
  ready : ∀ d, d ∈ SortedSet.toList q.ready ↔ d ∈ left ∧ Ready ps left d

theorem get?_release : (q.release i).indegrees.get? d =
    (q.indegrees.get? d).map fun n => if d = i then n - 1 else n := by
  unfold release
  split <;> by_cases hd : d = i <;> simp [*]

theorem mem_ready_release : d ∈ SortedSet.toList (q.release i).ready ↔
    d ∈ SortedSet.toList q.ready ∨ d = i ∧ ∃ n, q.indegrees.get? d = some n ∧ n - 1 = 0 := by
  unfold release
  split <;> grind [SortedSet.mem_toList_insert]

theorem foldl_release : ∀ {is : List TimeVar} {q : Queue}, is.Nodup →
    (∀ d, (is.foldl release q).indegrees.get? d =
      (q.indegrees.get? d).map fun n => if d ∈ is then n - 1 else n) ∧
    ∀ d, d ∈ SortedSet.toList (is.foldl release q).ready ↔
      d ∈ SortedSet.toList q.ready ∨ d ∈ is ∧ ∃ n, q.indegrees.get? d = some n ∧ n - 1 = 0
  | [], q, _ => by simp
  | i :: is, q, h => by
    obtain ⟨hi, his⟩ := List.nodup_cons.1 h
    obtain ⟨hget, hready⟩ := foldl_release (q := q.release i) his
    refine ⟨fun d => ?_, fun d => ?_⟩
    · rw [List.foldl_cons, hget, get?_release]
      by_cases hd : d = i <;> simp [hd, hi, Function.comp_def]
    · rw [List.foldl_cons, hready, mem_ready_release, get?_release, List.mem_cons]
      by_cases hd : d = i <;> simp [hd, hi]

theorem counts_start (h : ∀ p ∈ ps, p.earlier ∈ left) : Counts ps left (start ps left) := by
  have hcount : ∀ d, ps.countP (fun p => p.later = d) = Precedence.indegree ps left d := fun d =>
    List.countP_congr fun p hp => by simp [h p hp]
  have hget : ∀ d, (start ps left).indegrees.get? d =
      if d ∈ left then some (Precedence.indegree ps left d) else none := fun d => hcount d ▸
    SortedMap.get?_ofList_map (fun d => ps.countP fun p : Precedence => p.later = d) left d
  refine ⟨fun d hd => (hget d).trans (if_pos hd), fun d => ?_⟩
  have hzero : d ∈ SortedSet.toList (start ps left).ready ↔
      (start ps left).indegrees.get? d = some 0 := by
    rw [SortedMap.get?_eq_some_iff, start, SortedSet.mem_toList_ofList]
    simp
  rw [hzero, hget, ← indegree_eq_zero]
  by_cases hd : d ∈ left <;> simp [hd]

/-- The counters stay right when a class is taken. -/
theorem Counts.take (h : q.Counts ps left) (hps : ps.Nodup) (hc : c ∈ left) (hready : Ready ps left c)
    (hafter : ∀ d, Before ps c d → d ∈ left) : (q.take ps c).Counts ps (left.filter (· ≠ c)) := by
  have hnext : (next ps c).Nodup := by
    refine List.Nodup.map_on ?_ (hps.filter _)
    rintro ⟨a, b⟩ ha ⟨a', b'⟩ ha' rfl
    simp_all
  have hleft : ∀ d, d ∈ left.filter (· ≠ c) ↔ d ∈ left ∧ d ≠ c := by simp
  obtain ⟨hget, hmem⟩ := foldl_release (q := { q with ready := q.ready.erase c }) hnext
  refine ⟨fun d hd => ?_, fun d => ?_⟩
  · rw [Queue.take, hget, h.indegree d ((hleft d).1 hd).1, ← indegree_filter hps hc d]
    split_ifs <;> simp
  · rw [Queue.take, hmem, SortedSet.mem_toList_erase, h.ready, hleft, ← indegree_eq_zero,
      ← indegree_eq_zero, ← indegree_filter hps hc d]
    by_cases hd : d ∈ next ps c
    · have hne : d ≠ c := by
        rintro rfl
        exact hready d (mem_next.1 hd) hc
      have hd' := hafter d (mem_next.1 hd)
      simp [hd, hne, hd', h.indegree d hd', ← indegree_filter hps hc d]
    · simp [hd, and_assoc, and_left_comm]

end Queue

/-! ## Orders -/

/-- The nodes that are left are listed once, each after the nodes on classes before its own. -/
structure Compatible (ps : List Precedence) (node : TimeVar → Option Nat) (left : List TimeVar)
    (order : List Nat) : Prop where
  nodup : order.Nodup
  mem : ∀ x, x ∈ order ↔ ∃ c ∈ left, node c = some x
  ordered : ∀ c ∈ left, ∀ d ∈ left, ∀ x y, node c = some x → node d = some y →
    TransGen (Before ps) c d → [x, y].Sublist order

/-- An order starts with a node that is ready, if all ready classes have nodes. -/
theorem Compatible.ready {j : Nat} {order : List Nat} (horder : Compatible ps node left (j :: order))
    (hwf : WellFounded (Before ps)) (hall : ∀ d ∈ left, Ready ps left d → ∃ i, node d = some i) :
    ∃ d ∈ left, node d = some j ∧ Ready ps left d := by
  obtain ⟨d, hd, hdj⟩ := (horder.mem j).1 List.mem_cons_self
  obtain ⟨e, he, hready, hed⟩ := exists_ready hwf hd
  rcases Relation.reflTransGen_iff_eq_or_transGen.1 hed with rfl | hed
  · exact ⟨d, hd, hdj, hready⟩
  · obtain ⟨k, hk⟩ := hall e he hready
    have hsub := horder.ordered e he d hd k j hk hdj hed
    obtain ⟨hj, -⟩ := List.nodup_cons.1 horder.nodup
    -- The node before `j` would come first.
    rcases List.sublist_cons_iff.1 hsub with hsub | ⟨r, hr, hsub⟩
    · exact absurd (hsub.subset (by simp)) hj
    · obtain ⟨rfl, rfl⟩ := List.cons.inj hr
      exact absurd (hsub.subset (by simp)) hj

end Precedence

namespace System

open Precedence

variable {ps : List Precedence} {left : List TimeVar} {node : TimeVar → Option Nat}

/-! ## The choice of a class -/

theorem foldl_firstNode_least : ∀ (nodes : List (TimeVar × Option Nat)) (b : TimeVar × Option Nat),
    ∃ r, nodes.foldl firstNode (some b) = some r ∧ r ∈ b :: nodes ∧
      ∀ e ∈ b :: nodes, r.2.getD 0 ≤ e.2.getD 0
  | [], b => ⟨b, rfl, List.mem_singleton_self b, by simp⟩
  | d :: nodes, b => by
    rw [List.foldl_cons, firstNode]
    split
    · rename_i hlt
      obtain ⟨r, hr, hmem, hle⟩ := foldl_firstNode_least nodes d
      refine ⟨r, hr, List.mem_cons_of_mem b hmem, List.forall_mem_cons.2 ⟨?_, hle⟩⟩
      exact (hle d List.mem_cons_self).trans hlt.le
    · rename_i hlt
      obtain ⟨r, hr, hmem, hle⟩ := foldl_firstNode_least nodes b
      obtain ⟨hb, hle⟩ := List.forall_mem_cons.1 hle
      refine ⟨r, hr, ?_, List.forall_mem_cons.2 ⟨hb, List.forall_mem_cons.2 ⟨by omega, hle⟩⟩⟩
      rcases List.mem_cons.1 hmem with rfl | hmem
      · exact List.mem_cons_self
      · exact List.mem_cons_of_mem _ (List.mem_cons_of_mem _ hmem)

/-- A class without a node goes first, then the one with the smallest node. -/
theorem exists_nextClass? {nodes : List (TimeVar × Option Nat)} (h : nodes ≠ []) :
    ∃ c x, nextClass? nodes = some (c, x) ∧ (c, x) ∈ nodes ∧
      (x = none ∨ ∃ i, x = some i ∧ ∀ d y, (d, y) ∈ nodes → ∃ j, y = some j ∧ i ≤ j) := by
  unfold nextClass?
  split
  · rename_i c hfind
    exact ⟨c.1, c.2, rfl, List.mem_of_find?_eq_some hfind, .inl (by simpa using List.find?_some hfind)⟩
  · rename_i hfind
    have hnode : ∀ d y, (d, y) ∈ nodes → ∃ j, y = some j := fun d y hd =>
      Option.ne_none_iff_exists'.1 (by simpa using List.find?_eq_none.1 hfind _ hd)
    cases nodes with
    | nil => exact absurd rfl h
    | cons b nodes =>
      obtain ⟨⟨c, x⟩, hr, hmem, hle⟩ := foldl_firstNode_least nodes b
      obtain ⟨i, rfl⟩ := hnode c x hmem
      refine ⟨c, some i, hr, hmem, .inr ⟨i, rfl, fun d y hd => ?_⟩⟩
      obtain ⟨j, rfl⟩ := hnode d y hd
      exact ⟨j, rfl, hle _ hd⟩

/-! ## All rounds -/

/-- The classes that are left: each with a node of its own, and with all that comes after. -/
structure Left (ps : List Precedence) (node : TimeVar → Option Nat) (left : List TimeVar) : Prop where
  injective : ∀ c ∈ left, ∀ d ∈ left, ∀ x, node c = some x → node d = some x → c = d
  after : ∀ c ∈ left, ∀ d, Before ps c d → d ∈ left

namespace Left

variable {c d : TimeVar} {i j : Nat} {order : List Nat}

theorem filter (h : Left ps node left) (hc : Ready ps left c) :
    Left ps node (left.filter (· ≠ c)) where
  injective d hd e he := h.injective d (List.mem_filter.1 hd).1 e (List.mem_filter.1 he).1
  after d hd e hde := by
    obtain ⟨hleft, -⟩ := List.mem_filter.1 hd
    refine List.mem_filter.2 ⟨h.after d hleft e hde, decide_eq_true ?_⟩
    rintro rfl
    exact hc d hde hleft

/-- Nothing that is left comes before a class that is ready. -/
theorem not_transGen (h : Left ps node left) (hc : Ready ps left c) (hd : d ∈ left) :
    ¬TransGen (Before ps) d c := by
  intro hdc
  induction hdc using TransGen.head_induction_on with
  | single hdc => exact hc _ hdc hd
  | head hde _ ih => exact ih (h.after _ hd _ hde)

/-- A class without a node makes no difference to orders. -/
theorem compatible_filter (hc : node c = none) :
    Compatible ps node (left.filter (· ≠ c)) order ↔ Compatible ps node left order := by
  have hmem : ∀ d x, node d = some x → (d ∈ left.filter (· ≠ c) ↔ d ∈ left) := fun d x hd => by
    refine List.mem_filter.trans (and_iff_left (decide_eq_true ?_))
    rintro rfl
    cases hc.symm.trans hd
  have hex : ∀ x, (∃ d ∈ left.filter (· ≠ c), node d = some x) ↔ ∃ d ∈ left, node d = some x :=
    fun x => exists_congr fun d => and_congr_left (hmem d x)
  constructor
  · refine fun h => ⟨h.nodup, fun x => (h.mem x).trans (hex x), fun d hd e he x y hx hy => ?_⟩
    exact h.ordered d ((hmem d x hx).2 hd) e ((hmem e y hy).2 he) x y hx hy
  · refine fun h => ⟨h.nodup, fun x => (h.mem x).trans (hex x).symm, fun d hd e he x y hx hy => ?_⟩
    exact h.ordered d ((hmem d x hx).1 hd) e ((hmem e y hy).1 he) x y hx hy

theorem compatible_cons (h : Left ps node left) (hready : Ready ps left c) (hc : c ∈ left)
    (hi : node c = some i) (horder : Compatible ps node (left.filter (· ≠ c)) order) :
    Compatible ps node left (i :: order) := by
  have hmem : ∀ {d}, d ∈ left → d ≠ c → d ∈ left.filter (· ≠ c) := fun hd hdc =>
    List.mem_filter.2 ⟨hd, decide_eq_true hdc⟩
  refine ⟨List.nodup_cons.2 ⟨fun hx => ?_, horder.nodup⟩, fun x => ?_,
    fun d hd e he x y hx hy hde => ?_⟩
  · obtain ⟨d, hd, hx⟩ := (horder.mem i).1 hx
    obtain ⟨hd, hne⟩ := List.mem_filter.1 hd
    exact of_decide_eq_true hne (h.injective d hd c hc i hx hi)
  · rw [List.mem_cons, horder.mem]
    constructor
    · rintro (rfl | ⟨d, hd, hx⟩)
      · exact ⟨c, hc, hi⟩
      · exact ⟨d, (List.mem_filter.1 hd).1, hx⟩
    · rintro ⟨d, hd, hx⟩
      by_cases hdc : d = c
      · cases hdc
        exact .inl (Option.some.inj (hx.symm.trans hi))
      · exact .inr ⟨d, hmem hd hdc, hx⟩
  · have hec : e ≠ c := by
      rintro rfl
      exact h.not_transGen hready hd hde
    by_cases hdc : d = c
    · cases hdc
      cases hx.symm.trans hi
      exact List.Sublist.cons_cons _ (List.singleton_sublist.2 ((horder.mem y).2 ⟨e, hmem he hec, hy⟩))
    · exact (horder.ordered d (hmem hd hdc) e (hmem he hec) x y hx hy hde).cons i

theorem compatible_tail (h : Left ps node left) (hc : c ∈ left) (hi : node c = some i)
    (horder : Compatible ps node left (i :: order)) :
    Compatible ps node (left.filter (· ≠ c)) order := by
  obtain ⟨hnot, hnodup⟩ := List.nodup_cons.1 horder.nodup
  have hne : ∀ {d x}, d ∈ left → node d = some x → (d ≠ c ↔ x ≠ i) := fun hd hx => by
    refine not_congr ⟨?_, ?_⟩
    · rintro rfl
      exact Option.some.inj (hx.symm.trans hi)
    · rintro rfl
      exact h.injective _ hd c hc _ hx hi
  refine ⟨hnodup, fun x => ?_, fun d hd e he x y hx hy hde => ?_⟩
  · simp only [List.mem_filter, decide_eq_true_eq]
    constructor
    · intro hmem
      obtain ⟨d, hd, hx⟩ := (horder.mem x).1 (List.mem_cons_of_mem i hmem)
      refine ⟨d, ⟨hd, (hne hd hx).2 ?_⟩, hx⟩
      rintro rfl
      exact hnot hmem
    · rintro ⟨d, ⟨hd, hdc⟩, hx⟩
      exact (List.mem_cons.1 ((horder.mem x).2 ⟨d, hd, hx⟩)).resolve_left ((hne hd hx).1 hdc)
  · obtain ⟨hd, hdc⟩ := List.mem_filter.1 hd
    have hsub := horder.ordered d hd e (List.mem_filter.1 he).1 x y hx hy hde
    exact (List.sublist_cons_iff.1 hsub).resolve_right fun ⟨r, hr, _⟩ =>
      (hne hd hx).1 (of_decide_eq_true hdc) (List.cons.inj hr).1

end Left

/-- One round takes a class that is ready, one without a node or else that with the smallest node. -/
theorem linearizeFrom_ready (n : Nat) {q : Queue} (hq : q.Counts ps left)
    (h : ∃ d ∈ left, Ready ps left d) : ∃ c ∈ left, Ready ps left c ∧
      (node c = none ∨ ∃ i, node c = some i ∧ ∀ d ∈ left, Ready ps left d →
        ∃ j, node d = some j ∧ i ≤ j) ∧
      linearizeFrom ps node (n + 1) q = (node c).toList ++ linearizeFrom ps node n (q.take ps c) := by
  have hmem : ∀ d y, (d, y) ∈ (SortedSet.toList q.ready).map (fun c => (c, node c)) ↔
      (d ∈ left ∧ Ready ps left d) ∧ node d = y := fun d y => by
    simp only [List.mem_map, Prod.mk.injEq, hq.ready]
    grind
  obtain ⟨d, hd⟩ := h
  obtain ⟨c, x, hnext, hc, hleast⟩ := exists_nextClass? (List.ne_nil_of_mem ((hmem d _).2 ⟨hd, rfl⟩))
  obtain ⟨⟨hleft, hcready⟩, rfl⟩ := (hmem c x).1 hc
  refine ⟨c, hleft, hcready, hleast.imp id ?_, by rw [linearizeFrom, hnext]⟩
  rintro ⟨i, hi, hle⟩
  exact ⟨i, hi, fun d hd hdready => hle d _ ((hmem d _).2 ⟨⟨hd, hdready⟩, rfl⟩)⟩

/-- The classes that are left are put in the least order. -/
theorem linearizeFrom_least (hwf : WellFounded (Before ps)) (hps : ps.Nodup) : ∀ {n : Nat}
    {left : List TimeVar} {q : Queue}, Left ps node left → q.Counts ps left → left.length ≤ n →
      Compatible ps node left (linearizeFrom ps node n q) ∧
        ∀ order, Compatible ps node left order → order ≠ linearizeFrom ps node n q →
          List.Lex (· < ·) (linearizeFrom ps node n q) order
  | n, [], q, _, hq, _ => by
    have hready : SortedSet.toList q.ready = [] :=
      List.eq_nil_iff_forall_not_mem.2 fun d => by simp [hq.ready]
    have hnil : linearizeFrom ps node n q = [] := by
      cases n with
      | zero => rfl
      | succ n => rw [linearizeFrom, hready]; rfl
    rw [hnil]
    refine ⟨⟨.nil, by simp, by simp⟩, fun order _ hne => ?_⟩
    cases order with
    | nil => exact absurd rfl hne
    | cons => exact .nil
  | n + 1, d :: left, q, h, hq, hlen => by
    generalize hall : d :: left = all at h hq hlen
    have hd : d ∈ all := hall ▸ List.mem_cons_self
    obtain ⟨e, he, hready, -⟩ := exists_ready hwf hd
    obtain ⟨c, hc, hcready, hleast, heq⟩ := linearizeFrom_ready n hq ⟨e, he, hready⟩
    have hshorter : (all.filter (· ≠ c)).length ≤ n := by
      have := List.length_filter_lt_length_iff_exists (l := all) (p := (· ≠ c)) |>.2 ⟨c, hc, by simp⟩
      omega
    obtain ⟨hcompatible, hminimal⟩ := linearizeFrom_least hwf hps (h.filter hcready)
      (hq.take hps hc hcready (h.after c hc)) hshorter
    rw [heq]
    rcases hleast with hnone | ⟨i, hi, hleast⟩
    · rw [hnone]
      exact ⟨(Left.compatible_filter hnone).1 hcompatible, fun order horder =>
        hminimal order ((Left.compatible_filter hnone).2 horder)⟩
    · rw [hi]
      refine ⟨h.compatible_cons hcready hc hi hcompatible, fun order horder hne => ?_⟩
      cases order with
      | nil => cases (horder.mem i).2 ⟨c, hc, hi⟩
      | cons j order =>
        obtain ⟨d, hd, hj, hdready⟩ := horder.ready hwf fun d hd hready =>
          (hleast d hd hready).imp fun _ h => h.1
        obtain ⟨j', hj', hle⟩ := hleast d hd hdready
        cases hj.symm.trans hj'
        rcases Nat.lt_or_eq_of_le hle with hlt | rfl
        · exact .rel hlt
        · refine .cons (hminimal order (h.compatible_tail hc hi horder) ?_)
          rintro rfl
          exact hne rfl

/-! ## Systems -/

/-- An order of the live nodes, each once, that meets the ordering constraints: a node comes before
another if its class is before that of the other, be it by classes without a node. -/
structure Compatible (S : System) (order : List Nat) : Prop where
  nodup : order.Nodup
  live : ∀ id, id ∈ order ↔ ∃ n, S.node? id = some n
  ordered : ∀ a b n k, S.node? a = some n → S.node? b = some k →
    TransGen S.Precedes (S.find n.time) (S.find k.time) → [a, b].Sublist order

variable {S : System}

theorem nodeOn?_eq_some {c : TimeVar} {id : Nat} (h : S.nodeOn? c = some id) :
    ∃ n, S.node? id = some n ∧ S.find n.time = c := by
  obtain ⟨⟨a, n⟩, hf, rfl⟩ := Option.map_eq_some_iff.1 h
  exact ⟨n, mem_liveNodes.1 (List.mem_reverse.1 (List.mem_of_find?_eq_some hf)),
    by simpa using List.find?_some hf⟩

theorem nodeOn?_find (h : S.Separated) {id : Nat} {n : Node} (hn : S.node? id = some n) :
    S.nodeOn? (S.find n.time) = some id := by
  cases hf : S.nodeOn? (S.find n.time) with
  | none =>
    have := List.find?_eq_none.1 (Option.map_eq_none_iff.1 hf) (id, n)
      (List.mem_reverse.2 (mem_liveNodes.2 hn))
    simp at this
  | some id' =>
    obtain ⟨n', hn', he⟩ := nodeOn?_eq_some hf
    rw [h id' id n' n hn' hn he]

theorem mem_timeline_find {id : Nat} {n : Node} (h : S.node? id = some n) :
    S.find n.time ∈ S.timeline :=
  SortedSet.mem_toList_ofList.2 <| List.mem_append_left _ <|
    List.mem_map.2 ⟨(id, n), mem_liveNodes.2 h, rfl⟩

theorem mem_timeline_of_mem {p : Precedence} (hp : p ∈ S.precedences) {c : TimeVar}
    (hc : c ∈ [p.earlier, p.later]) : c ∈ S.timeline :=
  SortedSet.mem_toList_ofList.2 (List.mem_append_right _ (List.mem_flatMap.2 ⟨p, hp, hc⟩))

theorem compatible_iff (hS : S.Separated) {order : List Nat} : S.Compatible order ↔
    Precedence.Compatible S.precedences S.nodeOn? S.timeline order := by
  have hmem : ∀ x, (∃ c ∈ S.timeline, S.nodeOn? c = some x) ↔ ∃ n, S.node? x = some n := fun x => by
    constructor
    · rintro ⟨c, -, hc⟩
      exact (nodeOn?_eq_some hc).imp fun _ h => h.1
    · exact fun ⟨n, hn⟩ => ⟨_, mem_timeline_find hn, nodeOn?_find hS hn⟩
  constructor
  · refine fun h => ⟨h.nodup, fun x => (h.live x).trans (hmem x).symm, fun c _ d _ x y hc hd hcd => ?_⟩
    obtain ⟨n, hn, rfl⟩ := nodeOn?_eq_some hc
    obtain ⟨k, hk, rfl⟩ := nodeOn?_eq_some hd
    rw [before_precedences] at hcd
    exact h.ordered x y n k hn hk hcd
  · refine fun h => ⟨h.nodup, fun x => (h.mem x).trans (hmem x), fun a b n k hn hk hnk => ?_⟩
    rw [← before_precedences] at hnk
    exact h.ordered _ (mem_timeline_find hn) _ (mem_timeline_find hk) a b (nodeOn?_find hS hn)
      (nodeOn?_find hS hk) hnk

theorem left_timeline (S : System) : Left S.precedences S.nodeOn? S.timeline := by
  refine ⟨fun c _ d _ x hc hd => ?_, fun c _ d hcd => mem_timeline_of_mem hcd (by simp)⟩
  obtain ⟨n, hn, rfl⟩ := nodeOn?_eq_some hc
  obtain ⟨k, hk, rfl⟩ := nodeOn?_eq_some hd
  cases hn.symm.trans hk
  rfl

/-- All nodes are put in the least order. -/
theorem least_timeline (h : WellFounded (Before S.precedences)) :
    Precedence.Compatible S.precedences S.nodeOn? S.timeline S.linearize ∧
      ∀ order, Precedence.Compatible S.precedences S.nodeOn? S.timeline order →
        order ≠ S.linearize → List.Lex (· < ·) S.linearize order :=
  linearizeFrom_least h (SortedSet.nodup_toList _) S.left_timeline
    (Queue.counts_start fun _ hp => mem_timeline_of_mem hp (by simp)) le_rfl

theorem compatible_linearize (hS : S.Separated) (h : S.isAcyclic = true) :
    S.Compatible S.linearize := by
  rw [isAcyclic, acyclic_iff] at h
  exact (compatible_iff hS).2 (least_timeline (wellFounded_before h)).1

theorem Compatible.mem_of_precedes {before after : List Nat} {a b : Nat} {n k : Node}
    (h : S.Compatible (before ++ b :: after)) (ha : S.node? a = some n) (hb : S.node? b = some k)
    (hab : S.Precedes (S.find n.time) (S.find k.time)) : a ∈ before := by
  obtain ⟨l, r, hl, hbefore, hafter⟩ :=
    List.sublist_append_iff.1 (h.ordered a b n k ha hb (.single hab))
  cases l with
  | nil =>
    rw [← show [a, b] = r from hl] at hafter
    have hnodup := (List.nodup_append.1 h.nodup).2.1
    exact absurd (List.singleton_sublist.1 hafter.tail) (List.nodup_cons.1 hnodup).1
  | cons c l =>
    obtain ⟨rfl, -⟩ := List.cons.inj hl
    exact hbefore.subset List.mem_cons_self

/-- If every node has a class of its own and the ordering constraints have no cycle, then all nodes
are put in an order that meets the constraints, and this is the least of these orders. -/
theorem linearize_least (hS : S.Separated) (h : ∀ c, ¬TransGen S.Precedes c c) :
    S.Compatible S.linearize ∧ ∀ order, S.Compatible order → order ≠ S.linearize →
      List.Lex (· < ·) S.linearize order := by
  rw [← before_precedences] at h
  obtain ⟨hcompatible, hminimal⟩ := least_timeline (wellFounded_before h)
  exact ⟨(compatible_iff hS).2 hcompatible, fun order horder =>
    hminimal order ((compatible_iff hS).1 horder)⟩

/-- Three nodes, the last of which precedes the first by a class without a node. -/
def detour : System :=
  let node (i : String) : Option Node := some ⟨0, .ofName i, ∅, [], [], []⟩
  { nodes := [node "a", none, node "b", node "c"]
    classes := (∅ : TimeClasses).union (.ofName "d") (.ofName "e")
    less := SortedSet.ofList [⟨.ofName "c", .ofName "e"⟩, ⟨.ofName "d", .ofName "a"⟩] }

/-- The node without constraints comes first, and the detour is seen. -/
theorem linearize_least_detour : detour.linearize = [2, 3, 0] ∧ detour.Compatible [2, 3, 0] ∧
    ∀ order, detour.Compatible order → order ≠ [2, 3, 0] → List.Lex (· < ·) [2, 3, 0] order := by
  have horder : detour.linearize = [2, 3, 0] := by decide
  have hcoinciding : detour.coinciding? = none := by decide
  have hacyclic : detour.isAcyclic = true := by decide
  have h := linearize_least (fun _ _ _ _ => coinciding?_eq_none hcoinciding)
    (detour.isAcyclic_iff.1 hacyclic)
  rw [horder] at h
  exact ⟨horder, h⟩

end System

end ProtocolProver
