import Mathlib.Data.List.Sigma
import ProtocolProver.Proofs.SystemShapes
import ProtocolProver.Proofs.TimepointClasses
import ProtocolProver.System.Realize

/-!
# Timepoints of a system

A system in which no two nodes coincide has its nodes on classes of their own
(`System.coinciding?_eq_none`), and one without a clash draws every fresh value on one class
(`System.freshClash?_eq_none`).
-/

namespace ProtocolProver

/-! ## Sets -/

namespace SortedSet

variable {α β : Type} [Ord α] [Std.TransOrd α] [Std.LawfulEqOrd α] [DecidableEq α]

theorem mem_toList_insert {s : SortedSet α} {a b : α} :
    b ∈ toList (insert s a) ↔ b = a ∨ b ∈ toList s := by
  rw [← contains_iff_mem_toList, contains_insert, Bool.or_eq_true, beq_iff_eq,
    contains_iff_mem_toList]

theorem mem_toList_ofList {l : List α} {a : α} : a ∈ toList (ofList l) ↔ a ∈ l := by
  have fold : ∀ {l : List α} {s : SortedSet α},
      a ∈ toList (l.foldl insert s) ↔ a ∈ toList s ∨ a ∈ l := by
    intro l
    induction l with
    | nil => exact fun {s} => by simp
    | cons b l ih =>
      intro s
      rw [List.foldl_cons, ih, mem_toList_insert, List.mem_cons]
      tauto
  exact fold.trans ⟨fun h => h.resolve_left List.not_mem_nil, .inr⟩

omit [Std.TransOrd α] [DecidableEq α] in
theorem nodup_toList (s : SortedSet α) : (toList s).Nodup := by
  refine List.pairwise_map.2 (s.sorted.imp fun {a b} hlt he => ?_)
  rw [he, Std.LawfulEqOrd.compare_eq_iff_eq.2 rfl] at hlt
  cases hlt

omit [Std.TransOrd α] in
theorem mem_toList_erase {s : SortedSet α} {a b : α} :
    b ∈ toList (SortedMap.erase s a) ↔ b ≠ a ∧ b ∈ toList s := by
  rw [← contains_iff_mem_toList, ← contains_iff_mem_toList, contains, contains, SortedMap.contains,
    SortedMap.contains, SortedMap.erase, SortedMap.get?_filterKeys]
  by_cases h : b = a <;> simp [h]

theorem mem_toList_map [Ord β] {f : β → α} {s : SortedSet β} {a : α} :
    a ∈ toList (map f s) ↔ ∃ b ∈ toList s, f b = a := by
  rw [map, mem_toList_ofList, List.mem_map]

end SortedSet

namespace System

variable {S : System}

/-! ## Nodes that coincide -/

theorem pairwise_liveNodes (S : System) : S.liveNodes.Pairwise fun p q => p.1 ≠ q.1 := by
  refine List.Pairwise.filterMap _ ?_ (List.pairwise_map.1 (List.nodup_zipIdx_map_snd S.nodes))
  rintro ⟨n, i⟩ ⟨k, j⟩ hij p hp q hq
  obtain ⟨n', -, rfl⟩ := Option.map_eq_some_iff.1 hp
  obtain ⟨k', -, rfl⟩ := Option.map_eq_some_iff.1 hq
  exact hij

theorem coinciding_go_eq_some {a b : Nat} : ∀ {nodes : List (Nat × Node)}
    {seen : List (TimeVar × Nat)}, coinciding?.go S seen nodes = some (a, b) →
      nodes.Pairwise (fun p q => p.1 ≠ q.1) → (∀ p ∈ seen, ∀ q ∈ nodes, p.2 ≠ q.1) →
        a ≠ b ∧ ∃ k, (b, k) ∈ nodes ∧ ((S.find k.time, a) ∈ seen ∨
          ∃ n, (a, n) ∈ nodes ∧ S.find n.time = S.find k.time)
  | [], _, h, _, _ => by cases h
  | (id, n) :: nodes, seen, h, hpair, hseen => by
    obtain ⟨hid, hpair⟩ := List.pairwise_cons.1 hpair
    unfold coinciding?.go at h
    simp only at h
    split at h
    · rename_i first hl
      cases h
      have hmem := SortedMap.mem_of_lookup hl
      exact ⟨hseen _ hmem _ (List.mem_cons_self ..), n, List.mem_cons_self .., .inl hmem⟩
    · have hseen' : ∀ p ∈ (S.find n.time, id) :: seen, ∀ q ∈ nodes, p.2 ≠ q.1 :=
        List.forall_mem_cons.2 ⟨hid, fun p hp q hq => hseen p hp q (List.mem_cons_of_mem _ hq)⟩
      obtain ⟨hne, k, hk, h | ⟨n', hn', h⟩⟩ := coinciding_go_eq_some h hpair hseen'
      · refine ⟨hne, k, List.mem_cons_of_mem _ hk, ?_⟩
        rcases List.mem_cons.1 h with h | h
        · obtain ⟨hf, rfl⟩ := Prod.mk.inj h
          exact .inr ⟨n, List.mem_cons_self .., hf.symm⟩
        · exact .inl h
      · exact ⟨hne, k, List.mem_cons_of_mem _ hk, .inr ⟨n', List.mem_cons_of_mem _ hn', h⟩⟩

theorem coinciding?_eq_some {a b : Nat} (h : S.coinciding? = some (a, b)) :
    a ≠ b ∧ ∃ n k, S.node? a = some n ∧ S.node? b = some k ∧ S.find n.time = S.find k.time := by
  obtain ⟨hne, k, hk, h | ⟨n, hn, h⟩⟩ :=
    coinciding_go_eq_some h S.pairwise_liveNodes (by simp)
  · cases h
  · exact ⟨hne, n, k, mem_liveNodes.1 hn, mem_liveNodes.1 hk, h⟩

theorem coinciding_go_eq_none : ∀ {nodes : List (Nat × Node)} {seen : List (TimeVar × Nat)},
    coinciding?.go S seen nodes = none →
      (∀ p ∈ nodes, ∀ q ∈ seen, S.find p.2.time ≠ q.1) ∧
        nodes.Pairwise fun p q => S.find p.2.time ≠ S.find q.2.time
  | [], _, _ => ⟨nofun, .nil⟩
  | (id, n) :: nodes, seen, h => by
    unfold coinciding?.go at h
    simp only at h
    split at h
    · cases h
    · rename_i hl
      obtain ⟨hseen, hpair⟩ := coinciding_go_eq_none h
      refine ⟨List.forall_mem_cons.2 ⟨?_, fun p hp q hq => hseen p hp q (List.mem_cons_of_mem _ hq)⟩,
        List.pairwise_cons.2 ⟨fun q hq he => ?_, hpair⟩⟩
      · intro q hq he
        exact absurd (beq_iff_eq.2 he) (by simpa using List.lookup_eq_none_iff.1 hl q hq)
      · exact hseen q hq _ (List.mem_cons_self ..) he.symm

theorem coinciding?_eq_none (h : S.coinciding? = none) {a b : Nat} {n k : Node}
    (ha : S.node? a = some n) (hb : S.node? b = some k) (he : S.find n.time = S.find k.time) :
    a = b := by
  by_contra hne
  obtain ⟨-, hpair⟩ := coinciding_go_eq_none h
  have : Std.Symm fun p q : Nat × Node => S.find p.2.time ≠ S.find q.2.time := ⟨fun _ _ h => h.symm⟩
  exact hpair.forall (mem_liveNodes.2 ha) (mem_liveNodes.2 hb)
    (fun h => hne (congrArg Prod.fst h)) he

/-! ## Fresh values -/

theorem lookup_cons_eq {t u : Term} {i : TimeVar} {seen : List (Term × TimeVar)} :
    ((t, i) :: seen).lookup u = if u = t then some i else seen.lookup u := by
  by_cases h : u = t
  · rw [h, if_pos rfl]
    exact SortedMap.lookup_cons_self (t, i) seen
  · rw [if_neg h]
    exact SortedMap.lookup_cons_ne (e := (t, i)) h seen

/-- One fresh value of a node against those that were drawn before. -/
def freshStep (S : System) (n : Node) (acc : List (Term × TimeVar) × Option (TimeVar × TimeVar))
    (t : Term) : List (Term × TimeVar) × Option (TimeVar × TimeVar) :=
  match acc.1.lookup t with
  | some i => (acc.1, if S.find i = S.find n.time then acc.2 else some (i, n.time))
  | none => ((t, n.time) :: acc.1, acc.2)

theorem freshClashAt_eq (S : System) (n : Node) (seen : List (Term × TimeVar)) :
    S.freshClashAt n seen = n.freshArgs.foldl (S.freshStep n) (seen, none) := rfl

/-- What is known of the values of a node once they are compared with those seen before. -/
structure FreshSeen (S : System) (n : Node) (ts : List Term)
    (acc acc' : List (Term × TimeVar) × Option (TimeVar × TimeVar)) : Prop where
  kept : ∀ t i, acc.1.lookup t = some i → acc'.1.lookup t = some i
  new : ∀ t i, acc'.1.lookup t = some i → acc.1.lookup t = some i ∨ t ∈ ts ∧ i = n.time
  clash : ∀ i j, acc'.2 = some (i, j) → acc.2 = some (i, j) ∨
    j = n.time ∧ S.find i ≠ S.find j ∧ ∃ t ∈ ts, acc.1.lookup t = some i
  noClash : acc'.2 = none → acc.2 = none ∧
    ∀ t ∈ ts, ∃ i, acc'.1.lookup t = some i ∧ S.find i = S.find n.time

theorem freshSeen (S : System) (n : Node) : ∀ ts acc,
    FreshSeen S n ts acc (ts.foldl (S.freshStep n) acc)
  | [], acc => ⟨fun _ _ h => h, fun _ _ h => .inl h, fun _ _ h => .inl h, fun h => ⟨h, nofun⟩⟩
  | t :: ts, (seen, clash) => by
    have ih := freshSeen S n ts (S.freshStep n (seen, clash) t)
    rw [List.foldl_cons]
    generalize ts.foldl (S.freshStep n) (S.freshStep n (seen, clash) t) = acc' at ih ⊢
    cases hl : seen.lookup t with
    | some i =>
      have hstep : S.freshStep n (seen, clash) t =
          (seen, if S.find i = S.find n.time then clash else some (i, n.time)) := by
        simp only [freshStep, hl]
      rw [hstep] at ih
      refine ⟨ih.kept, fun u k hu => ?_, fun j k hc => ?_, fun hc => ?_⟩
      · exact (ih.new u k hu).imp id fun h => ⟨List.mem_cons_of_mem t h.1, h.2⟩
      · rcases ih.clash j k hc with hc | hc
        · simp only at hc
          split at hc
          · exact .inl hc
          · rename_i hne
            cases hc
            exact .inr ⟨rfl, hne, t, List.mem_cons_self .., hl⟩
        · obtain ⟨hk, hne, u, hu, hj⟩ := hc
          exact .inr ⟨hk, hne, u, List.mem_cons_of_mem t hu, hj⟩
      · obtain ⟨hnone, hts⟩ := ih.noClash hc
        simp only at hnone
        split at hnone
        · rename_i he
          exact ⟨hnone, List.forall_mem_cons.2 ⟨⟨i, ih.kept t i hl, he⟩, hts⟩⟩
        · cases hnone
    | none =>
      have hstep : S.freshStep n (seen, clash) t = ((t, n.time) :: seen, clash) := by
        simp only [freshStep, hl]
      rw [hstep] at ih
      have hnew : ((t, n.time) :: seen).lookup t = some n.time := by
        rw [lookup_cons_eq, if_pos rfl]
      refine ⟨fun u k hu => ih.kept u k ?_, fun u k hu => ?_, fun j k hc => ?_, fun hc => ?_⟩
      · rw [lookup_cons_eq, if_neg]
        · exact hu
        · rintro rfl
          cases hl.symm.trans hu
      · rcases ih.new u k hu with hu | ⟨hu, hk⟩
        · rw [lookup_cons_eq] at hu
          split at hu
          · rename_i hut
            cases hu
            exact .inr ⟨hut ▸ List.mem_cons_self .., rfl⟩
          · exact .inl hu
        · exact .inr ⟨List.mem_cons_of_mem t hu, hk⟩
      · rcases ih.clash j k hc with hc | ⟨rfl, hne, u, hu, hj⟩
        · exact .inl hc
        · rw [lookup_cons_eq] at hj
          split at hj
          · cases hj
            exact absurd rfl hne
          · exact .inr ⟨rfl, hne, u, List.mem_cons_of_mem t hu, hj⟩
      · obtain ⟨hnone, hts⟩ := ih.noClash hc
        exact ⟨hnone, List.forall_mem_cons.2 ⟨⟨n.time, ih.kept t _ hnew, rfl⟩, hts⟩⟩

theorem freshClash_go_eq_some {i j : TimeVar} : ∀ {nodes : List (Nat × Node)}
    {seen : List (Term × TimeVar)}, freshClash?.go S seen nodes = some (i, j) →
      (∀ t k, seen.lookup t = some k → ∃ a n, S.node? a = some n ∧ n.time = k ∧ t ∈ n.freshArgs) →
      (∀ p ∈ nodes, S.node? p.1 = some p.2) → S.find i ≠ S.find j ∧
        ∃ t, (∃ a n, S.node? a = some n ∧ n.time = i ∧ t ∈ n.freshArgs) ∧
          ∃ b k, S.node? b = some k ∧ k.time = j ∧ t ∈ k.freshArgs
  | [], _, h, _, _ => by cases h
  | (id, n) :: nodes, seen, h, hseen, hnodes => by
    obtain ⟨hn, hnodes⟩ := List.forall_mem_cons.1 hnodes
    have hs := freshSeen S n n.freshArgs (seen, none)
    rw [← freshClashAt_eq] at hs
    unfold freshClash?.go at h
    split at h
    · rename_i clash hc
      cases h
      rw [hc] at hs
      rcases hs.clash i j rfl with hn' | ⟨rfl, hne, t, hmem, ht⟩
      · cases hn'
      · exact ⟨hne, t, hseen t i ht, id, n, hn, rfl, hmem⟩
    · rename_i seen' hc
      rw [hc] at hs
      refine freshClash_go_eq_some h (fun t k ht => ?_) hnodes
      rcases hs.new t k ht with ht | ⟨hmem, rfl⟩
      · exact hseen t k ht
      · exact ⟨id, n, hn, rfl, hmem⟩

/-- A clash is between nodes on different classes that draw the same value. -/
theorem freshClash?_eq_some {i j : TimeVar} (h : S.freshClash? = some (i, j)) :
    S.find i ≠ S.find j ∧ ∃ t, (∃ a n, S.node? a = some n ∧ n.time = i ∧ t ∈ n.freshArgs) ∧
      ∃ b k, S.node? b = some k ∧ k.time = j ∧ t ∈ k.freshArgs :=
  freshClash_go_eq_some h nofun fun _ hp => mem_liveNodes.1 hp

theorem freshClash_go_eq_none : ∀ {nodes : List (Nat × Node)} {seen : List (Term × TimeVar)},
    freshClash?.go S seen nodes = none → ∃ seen' : List (Term × TimeVar),
      (∀ t i, seen.lookup t = some i → seen'.lookup t = some i) ∧
      ∀ p ∈ nodes, ∀ t ∈ p.2.freshArgs, ∃ i, seen'.lookup t = some i ∧
        S.find i = S.find p.2.time
  | [], seen, _ => ⟨seen, fun _ _ h => h, nofun⟩
  | (id, n) :: nodes, seen, h => by
    have hs := freshSeen S n n.freshArgs (seen, none)
    rw [← freshClashAt_eq] at hs
    unfold freshClash?.go at h
    split at h
    · cases h
    · rename_i seen₁ hc
      rw [hc] at hs
      obtain ⟨seen', hkept, hall⟩ := freshClash_go_eq_none h
      refine ⟨seen', fun t i ht => hkept t i (hs.kept t i ht), List.forall_mem_cons.2 ⟨?_, hall⟩⟩
      intro t ht
      obtain ⟨i, hi, hf⟩ := (hs.noClash rfl).2 t ht
      exact ⟨i, hkept t i hi, hf⟩

/-- Without a clash, nodes that draw the same value are on one class. -/
theorem freshClash?_eq_none (h : S.freshClash? = none) {a b : Nat} {n k : Node} {t : Term}
    (ha : S.node? a = some n) (hb : S.node? b = some k) (hn : t ∈ n.freshArgs)
    (hk : t ∈ k.freshArgs) : S.find n.time = S.find k.time := by
  obtain ⟨seen, -, hall⟩ := freshClash_go_eq_none h
  obtain ⟨i, hi, hf⟩ := hall _ (mem_liveNodes.2 ha) t hn
  obtain ⟨j, hj, hf'⟩ := hall _ (mem_liveNodes.2 hb) t hk
  cases hi.symm.trans hj
  exact hf.symm.trans hf'

/-- Joining the classes of a clash makes two nodes coincide. -/
theorem coinciding?_union_of_freshClash? {i j : TimeVar}
    (h : S.freshClash? = some (i, j)) : (S.union i j).coinciding? ≠ none := by
  obtain ⟨hne, t, ⟨a, n, ha, rfl, -⟩, b, k, hb, rfl, -⟩ := freshClash?_eq_some h
  intro hnone
  have hab : a = b := coinciding?_eq_none hnone ha hb (S.classes.find_union _ _)
  rw [hab] at ha
  cases ha.symm.trans hb
  exact hne rfl

/-- Every node is on a class of its own. -/
def Separated (S : System) : Prop := ∀ a b n k, S.node? a = some n → S.node? b = some k →
  S.find n.time = S.find k.time → a = b

end System

end ProtocolProver
