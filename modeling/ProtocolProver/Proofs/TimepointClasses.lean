import Mathlib.Data.List.Count
import Mathlib.Data.List.Induction
import Mathlib.Logic.Relation
import ProtocolProver.System.TimeClasses

/-!
# Classes of timepoints

There is an end to following links (`TimeClasses.climbs_find`), at a timepoint that has no link and is
not larger than where it started. A union links the least timepoint of one class to that of another, so
the two classes become one and all others stay (`TimeClasses.find_union_cases`). After any unions, two
timepoints are in one class exactly if the unions connect them, and a class is found under the least of
its timepoints (`TimeClasses.unions_connect`).
-/

namespace ProtocolProver.TimeClasses

open Relation (EqvGen)

variable {C : TimeClasses} {i j k l r : TimeVar}

/-! ## Following links -/

/-- Following links from a timepoint, with no bound on their number, ends at the given one. -/
inductive Climbs (C : TimeClasses) : TimeVar → TimeVar → Prop
  | stop {i : TimeVar} (last : C.parent.get? i = none) : Climbs C i i
  | go {i j r : TimeVar} (first : C.parent.get? i = some j) (rest : Climbs C j r) : Climbs C i r

namespace Climbs

theorem parent_eq_none (h : C.Climbs i r) : C.parent.get? r = none := by
  induction h with
  | stop last => exact last
  | go _ _ ih => exact ih

theorem isLE (h : C.Climbs i r) : (compare r i).isLE = true := by
  induction h with
  | stop => exact Std.ReflCmp.isLE_rfl
  | go first _ ih =>
    have hlt := C.descends _ _ first
    exact Std.TransCmp.isLE_trans ih (by rw [hlt]; rfl)

theorem unique {s : TimeVar} (h : C.Climbs i r) (h' : C.Climbs i s) : r = s := by
  induction h with
  | stop last =>
    cases h' with
    | stop => rfl
    | go first => cases last.symm.trans first
  | go first _ ih =>
    cases h' with
    | stop last => cases first.symm.trans last
    | go first' rest =>
      cases first.symm.trans first'
      exact ih rest

theorem link {child root : TimeVar} {hlt : compare root child = .lt}
    (hchild : C.parent.get? child = none) (hroot : C.parent.get? root = none) (h : C.Climbs i r) :
    (C.link child root hlt).Climbs i (if r = child then root else r) := by
  have hget : ∀ k, (C.link child root hlt).parent.get? k =
      if k = child then some root else C.parent.get? k := fun k => C.parent.get?_insert child k root
  induction h with
  | @stop i last =>
    split
    · rename_i hi
      have hne : root ≠ child := by
        rintro rfl
        cases hlt.symm.trans Std.ReflCmp.compare_self
      have hstop : (C.link child root hlt).parent.get? root = none := by
        rw [hget, if_neg hne, hroot]
      exact .go (by rw [hget, if_pos hi]) (.stop hstop)
    · rename_i hi
      exact .stop (by rw [hget, if_neg hi, last])
  | @go i j r first _ ih =>
    refine .go ?_ ih
    rw [hget, if_neg, first]
    rintro rfl
    cases hchild.symm.trans first

end Climbs

/-- The number of links that can be met on the way up from `i`. -/
def linksBelow (C : TimeClasses) (i : TimeVar) : Nat :=
  C.parent.entries.countP fun e => (compare e.1 i).isLE

theorem linksBelow_lt (h : C.parent.get? i = some j) : C.linksBelow j < C.linksBelow i := by
  have hlt : compare j i = .lt := C.descends i j h
  have hmem : (i, j) ∈ C.parent.entries.filter fun e => (compare e.1 i).isLE :=
    List.mem_filter.2 ⟨SortedMap.mem_of_lookup h, Std.ReflCmp.isLE_rfl⟩
  calc C.linksBelow j
    _ = (C.parent.entries.filter fun e => (compare e.1 i).isLE).countP
          fun e => (compare e.1 j).isLE := by
      rw [List.countP_filter]
      refine List.countP_congr fun e _ => ?_
      rw [Bool.and_eq_true, iff_self_and]
      exact fun he => Std.TransCmp.isLE_trans he (by rw [hlt]; rfl)
    _ < (C.parent.entries.filter fun e => (compare e.1 i).isLE).length := by
      refine List.countP_lt_length_iff.2 ⟨_, hmem, ?_⟩
      rw [Std.OrientedCmp.gt_of_lt hlt]
      rfl
    _ = C.linksBelow i := List.countP_eq_length_filter.symm

/-- As many steps as there are links on the way are enough. -/
theorem climbs_climb : ∀ {n : Nat} {i : TimeVar}, C.linksBelow i ≤ n → C.Climbs i (C.climb n i)
  | 0, i, h => by
    cases hi : C.parent.get? i with
    | none => exact .stop hi
    | some j =>
      have := linksBelow_lt hi
      omega
  | n + 1, i, h => by
    unfold climb
    split
    · rename_i j hi
      have := linksBelow_lt hi
      exact .go hi (climbs_climb (by omega))
    · exact .stop ‹_›

theorem climbs_find (C : TimeClasses) (i : TimeVar) : C.Climbs i (C.find i) :=
  climbs_climb List.countP_le_length

theorem parent_find (C : TimeClasses) (i : TimeVar) : C.parent.get? (C.find i) = none :=
  (C.climbs_find i).parent_eq_none

theorem find_find (C : TimeClasses) (i : TimeVar) : C.find (C.find i) = C.find i :=
  (C.climbs_find _).unique (.stop (C.parent_find i))

/-! ## Unions -/

theorem find_union_eq (C : TimeClasses) (i j : TimeVar) :
    (C.find i = C.find j ∧ C.union i j = C) ∨
    (C.find i ≠ C.find j ∧
      ((∀ k, (C.union i j).find k = if C.find k = C.find j then C.find i else C.find k) ∨
        ∀ k, (C.union i j).find k = if C.find k = C.find i then C.find j else C.find k)) := by
  have hlink : ∀ a b (hlt : compare (C.find a) (C.find b) = .lt) k,
      (C.link (C.find b) (C.find a) hlt).find k = if C.find k = C.find b then C.find a else C.find k :=
    fun a b _ k => (climbs_find _ k).unique
      ((C.climbs_find k).link (C.parent_find b) (C.parent_find a))
  have hself : ∀ k : TimeVar, compare k k = .eq := fun _ => Std.ReflCmp.compare_self
  unfold union
  split
  · rename_i h
    exact .inl ⟨Std.LawfulEqCmp.eq_of_compare h, rfl⟩
  · rename_i h
    refine .inr ⟨fun he => ?_, .inl (hlink i j h)⟩
    rw [he, hself] at h
    cases h
  · rename_i h
    refine .inr ⟨fun he => ?_, .inr (hlink j i _)⟩
    rw [he, hself] at h
    cases h

theorem find_union (C : TimeClasses) (i j : TimeVar) :
    (C.union i j).find i = (C.union i j).find j := by
  rcases C.find_union_eq i j with ⟨he, h⟩ | ⟨hne, h | h⟩
  · rw [h, he]
  · rw [h, h, if_neg hne, if_pos rfl]
  · rw [h, h, if_pos rfl, if_neg hne.symm]

theorem find_union_congr (i j : TimeVar) (h : C.find k = C.find l) :
    (C.union i j).find k = (C.union i j).find l := by
  rcases C.find_union_eq i j with ⟨-, hu⟩ | ⟨-, hu | hu⟩
  · rw [hu, h]
  · rw [hu, hu, h]
  · rw [hu, hu, h]

/-- A union moves timepoints only between the classes that it joins. -/
theorem find_union_cases (C : TimeClasses) (i j k : TimeVar) : (C.union i j).find k = C.find k ∨
    (C.find k = C.find i ∨ C.find k = C.find j) ∧
      ((C.union i j).find k = C.find i ∨ (C.union i j).find k = C.find j) := by
  rcases C.find_union_eq i j with ⟨-, h⟩ | ⟨-, h | h⟩ <;> rw [h]
  · exact .inl rfl
  · split <;> simp_all
  · split <;> simp_all

theorem find_eq_of_union (h : (C.union i j).find k = (C.union i j).find l) : C.find k = C.find l ∨
    (C.find k = C.find i ∨ C.find k = C.find j) ∧ (C.find l = C.find i ∨ C.find l = C.find j) := by
  rcases C.find_union_cases i j k with hk | ⟨hk, hk'⟩ <;>
    rcases C.find_union_cases i j l with hl | ⟨hl, hl'⟩
  · exact .inl (hk.symm.trans (h.trans hl))
  · rw [hk] at h
    exact .inr ⟨h ▸ hl', hl⟩
  · rw [hl] at h
    exact .inr ⟨hk, h ▸ hk'⟩
  · exact .inr ⟨hk, hl⟩

/-! ## Unions one after the other -/

/-- The classes after the given unions. -/
def unions (us : List (TimeVar × TimeVar)) : TimeClasses :=
  us.foldl (fun C u => C.union u.1 u.2) ∅

/-- Timepoints that are connected by the given unions. -/
def Connected (us : List (TimeVar × TimeVar)) : TimeVar → TimeVar → Prop :=
  EqvGen fun i j => (i, j) ∈ us

theorem Connected.find_eq {us : List (TimeVar × TimeVar)}
    (h : ∀ i j, (i, j) ∈ us → C.find i = C.find j) (hkl : Connected us k l) :
    C.find k = C.find l := by
  induction hkl with
  | rel i j hij => exact h i j hij
  | refl => rfl
  | symm _ _ _ ih => exact ih.symm
  | trans _ _ _ _ _ ih ih' => exact ih.trans ih'

theorem find_union_iff {us : List (TimeVar × TimeVar)}
    (h : ∀ k l, C.find k = C.find l ↔ Connected us k l) (i j k l : TimeVar) :
    (C.union i j).find k = (C.union i j).find l ↔ Connected (us ++ [(i, j)]) k l := by
  constructor
  · intro hkl
    have old : ∀ a b, C.find a = C.find b → Connected (us ++ [(i, j)]) a b := fun a b hab =>
      EqvGen.mono (fun _ _ => List.mem_append_left _) a b ((h a b).1 hab)
    have new : Connected (us ++ [(i, j)]) i j := .rel i j (by simp)
    have joined : ∀ a, C.find a = C.find i ∨ C.find a = C.find j →
        Connected (us ++ [(i, j)]) a i :=
      fun a ha => ha.elim (old a i) fun ha => .trans a j i (old a j ha) (.symm i j new)
    rcases find_eq_of_union hkl with hkl | ⟨hk, hl⟩
    · exact old k l hkl
    · exact .trans k i l (joined k hk) (.symm l i (joined l hl))
  · refine Connected.find_eq fun a b hab => ?_
    rcases List.mem_append.1 hab with hab | hab
    · exact find_union_congr i j ((h a b).2 (.rel a b hab))
    · cases List.mem_singleton.1 hab
      exact C.find_union i j

theorem find_unions_iff (us : List (TimeVar × TimeVar)) :
    ∀ k l, (unions us).find k = (unions us).find l ↔ Connected us k l := by
  induction us using List.reverseRecOn with
  | nil =>
    refine fun k l => ⟨fun h => ?_, Connected.find_eq fun _ _ hij => ?_⟩
    · cases (show k = l from h)
      exact .refl k
    · cases hij
  | append_singleton us u ih =>
    rw [unions, List.foldl_append]
    exact find_union_iff ih u.1 u.2

/-- After any unions, following links from a timepoint ends, and it ends at the same timepoint from two
timepoints exactly if the unions connect them. It is the least of all timepoints connected with the one
where it started. -/
theorem unions_connect (us : List (TimeVar × TimeVar)) :
    (∀ i r, (unions us).Climbs i r ↔ r = (unions us).find i) ∧
      (∀ i j, (unions us).find i = (unions us).find j ↔ Connected us i j) ∧
      ∀ i, Connected us i ((unions us).find i) ∧
        ∀ j, Connected us i j → (compare ((unions us).find i) j).isLE = true := by
  have hiff := find_unions_iff us
  refine ⟨fun i r => ⟨fun h => h.unique (climbs_find _ i), fun h => h ▸ climbs_find _ i⟩, hiff,
    fun i => ⟨(hiff i _).1 (find_find _ i).symm, fun j hij => ?_⟩⟩
  rw [(hiff i j).2 hij]
  exact (climbs_find _ j).isLE

end ProtocolProver.TimeClasses
