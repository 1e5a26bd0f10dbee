import Mathlib.Algebra.BigOperators.Ring.List
import Mathlib.Algebra.Ring.Nat

/-!
# Lowest binary trees

A binary tree of height `n` has room for leaves that are trees of the heights `n₁, …, nₖ` if
`2 ^ n₁ + … + 2 ^ nₖ ≤ 2 ^ n` (Kraft's inequality). So this is in how many steps something can be put
together of parts, two at a time, when the parts take `n₁, …, nₖ` steps (`join_of_load`).
-/

namespace ProtocolProver

/-- How much of a binary tree is taken up by leaves that are trees of the given heights. -/
def load (ns : List Nat) : Nat := (ns.map (2 ^ ·)).sum

/-- The height of the lowest binary tree whose leaves are trees of the given heights. -/
def height (ns : List Nat) : Nat := if load ns ≤ 1 then 0 else (load ns - 1).log2 + 1

theorem height_le_iff {ns : List Nat} {n : Nat} : height ns ≤ n ↔ load ns ≤ 2 ^ n := by
  have hpos := Nat.two_pow_pos n
  unfold height
  split
  · omega
  · have hlog := Nat.log2_lt (n := load ns - 1) (k := n) (by omega)
    omega

theorem load_cons (n : Nat) (ns : List Nat) : load (n :: ns) = 2 ^ n + load ns := by
  simp [load]

theorem load_append (ns ms : List Nat) : load (ns ++ ms) = load ns + load ms := by
  simp [load]

theorem load_pos {ns : List Nat} (h : ns ≠ []) : 0 < load ns := by
  obtain ⟨n, ns, rfl⟩ := List.exists_cons_of_ne_nil h
  rw [load_cons]
  have := Nat.two_pow_pos n
  omega

theorem load_perm {ns ms : List Nat} (h : ns.Perm ms) : load ns = load ms := (h.map _).sum_eq

theorem height_perm {ns ms : List Nat} (h : ns.Perm ms) : height ns = height ms := by
  rw [height, height, load_perm h]

theorem height_singleton (n : Nat) : height [n] = n := by
  refine Nat.le_antisymm (height_le_iff.2 ?_) ((Nat.pow_le_pow_iff_right (by omega : 1 < 2)).1 ?_)
  · simp [load]
  · have := height_le_iff.1 (Nat.le_refl (height [n]))
    simpa [load] using this

theorem height_append_left (ns ms : List Nat) : height ns ≤ height (ns ++ ms) := by
  have := height_le_iff.1 (Nat.le_refl (height (ns ++ ms)))
  rw [load_append] at this
  exact height_le_iff.2 (by omega)

theorem le_height {n : Nat} {ns : List Nat} (h : n ∈ ns) : n ≤ height ns := by
  obtain ⟨ms, ks, rfl⟩ := List.append_of_mem h
  rw [height_perm List.perm_middle, ← List.singleton_append]
  exact (height_singleton n).ge.trans (height_append_left ..)

theorem load_groups {α : Type} {g : α → Nat} {d : List α → Nat} : ∀ {ps : List (List α)},
    (∀ p ∈ ps, 2 ^ d p ≤ load (p.map g)) → load (ps.map d) ≤ load (ps.flatten.map g)
  | [], _ => Nat.le_refl _
  | p :: ps, h => by
    obtain ⟨hp, hps⟩ := List.forall_mem_cons.1 h
    rw [List.map_cons, load_cons, List.flatten_cons, List.map_append, load_append]
    exact Nat.add_le_add hp (load_groups hps)

theorem exists_least {α : Type} (f : α → Nat) : ∀ {l : List α}, l ≠ [] →
    ∃ a rest, l.Perm (a :: rest) ∧ ∀ b ∈ rest, f a ≤ f b
  | [], h => absurd rfl h
  | [a], _ => ⟨a, [], .refl _, List.forall_mem_nil _⟩
  | a :: b :: l, _ => by
    obtain ⟨c, rest, hp, hc⟩ := exists_least f (List.cons_ne_nil b l)
    by_cases hac : f a ≤ f c
    · refine ⟨a, c :: rest, hp.cons a, List.forall_mem_cons.2 ⟨hac, fun d hd => ?_⟩⟩
      exact hac.trans (hc d hd)
    · refine ⟨c, a :: rest, (hp.cons a).trans (.swap c a rest), List.forall_mem_cons.2 ⟨by omega, hc⟩⟩

theorem exists_least_two {α : Type} (f : α → Nat) {l : List α} (h : 2 ≤ l.length) :
    ∃ a b rest, l.Perm (a :: b :: rest) ∧ f a ≤ f b ∧ ∀ c ∈ rest, f b ≤ f c := by
  obtain ⟨a, as, hp, ha⟩ := exists_least f (List.ne_nil_of_length_pos (by omega : 0 < l.length))
  have hlen := hp.length_eq
  rw [List.length_cons] at hlen
  obtain ⟨b, rest, hq, hb⟩ := exists_least f (List.ne_nil_of_length_pos (by omega : 0 < as.length))
  exact ⟨a, b, rest, hp.trans (hq.cons a), ha b (hq.mem_iff.2 (List.mem_cons_self ..)), hb⟩

/-- Above two least leaves there is room for a node, since all other leaves are as high. -/
theorem load_merge {m k n : Nat} {ns : List Nat} (hns : ∀ i ∈ ns, k ≤ i)
    (h : load (m :: k :: ns) ≤ 2 ^ n) : load ((k + 1) :: ns) ≤ 2 ^ n := by
  obtain ⟨c, hc⟩ : 2 ^ k ∣ load ns := List.dvd_sum fun x hx => by
    obtain ⟨i, hi, rfl⟩ := List.mem_map.1 hx
    exact Nat.pow_dvd_pow 2 (hns i hi)
  rw [load_cons, load_cons, hc] at h
  rw [load_cons, hc]
  have hpos := Nat.two_pow_pos m
  have hk : k ≤ n := (Nat.pow_le_pow_iff_right (by omega : 1 < 2)).1 (by omega)
  obtain ⟨d, hd⟩ := Nat.pow_dvd_pow 2 hk
  rw [hd] at h ⊢
  have hlt : 2 ^ k * (1 + c) < 2 ^ k * d := by
    rw [Nat.mul_add]
    omega
  have hle := Nat.mul_le_mul_left (2 ^ k) (Nat.succ_le_of_lt (Nat.lt_of_mul_lt_mul_left hlt))
  rw [Nat.mul_succ, Nat.mul_add] at hle
  omega

section Join

variable {α : Type} (J : List α → Nat → Prop) {whole : List α}
  (hmono : ∀ {l : List α} {m n : Nat}, J l m → m ≤ n → J l n)
  (hperm : ∀ {l l' : List α} {n : Nat}, l.Perm l' → J l n → J l' n)
  (hjoin : ∀ {l l' rest : List α} {n : Nat}, (l ++ (l' ++ rest)).Perm whole → l ≠ [] → l' ≠ [] →
    J l n → J l' n → J (l ++ l') (n + 1))

include hmono hperm hjoin

/-- What is joined two at a time is joined in as many steps as the lowest tree is high: the two least
parts can always be joined first. -/
theorem join_of_load {n : Nat} : ∀ {k : Nat} {gs : List (List α × Nat)}, gs.length = k + 1 →
    (gs.flatMap Prod.fst).Perm whole → (∀ g ∈ gs, g.1 ≠ [] ∧ J g.1 g.2) →
      load (gs.map Prod.snd) ≤ 2 ^ n → J whole n
  | 0, gs, hlen, hgs, hall, hload => by
    obtain ⟨g, rfl⟩ := List.length_eq_one_iff.1 hlen
    rw [List.map_singleton, load_cons, load, List.map_nil, List.sum_nil] at hload
    rw [List.flatMap_singleton] at hgs
    exact hperm hgs (hmono (hall g (by simp)).2 ((Nat.pow_le_pow_iff_right (by omega)).1 hload))
  | k + 1, gs, hlen, hgs, hall, hload => by
    obtain ⟨x, y, rest, hp, hxy, hy⟩ := exists_least_two Prod.snd (by omega : 2 ≤ gs.length)
    have hsize := hp.length_eq
    rw [List.length_cons, List.length_cons] at hsize
    have hwhole := (hp.flatMap_right Prod.fst).symm.trans hgs
    rw [List.flatMap_cons, List.flatMap_cons] at hwhole
    have hparts : ∀ g ∈ x :: y :: rest, g.1 ≠ [] ∧ J g.1 g.2 := fun g hg => hall g (hp.mem_iff.2 hg)
    simp only [List.forall_mem_cons] at hparts
    obtain ⟨⟨hxne, hxj⟩, ⟨hyne, hyj⟩, hrest⟩ := hparts
    have hjoined := hjoin hwhole hxne hyne (hmono hxj hxy) hyj
    refine @join_of_load n k ((x.1 ++ y.1, y.2 + 1) :: rest) ?_ ?_ ?_ ?_
    · rw [List.length_cons]
      omega
    · rwa [List.flatMap_cons, List.append_assoc]
    · exact List.forall_mem_cons.2 ⟨⟨by simp [hxne], hjoined⟩, hrest⟩
    · rw [load_perm (hp.map Prod.snd)] at hload
      exact load_merge (List.forall_mem_map.2 hy) hload

/-- Pieces that are no higher than what they consist of are joined in the lowest tree for the whole. -/
theorem join_pieces (hne : whole ≠ []) {g : α → Nat} {ps : List (List α)}
    (hps : ps.flatten.Perm whole) (h : ∀ p ∈ ps, p ≠ [] ∧ ∃ d, J p d ∧ 2 ^ d ≤ load (p.map g)) :
    J whole (height (whole.map g)) := by
  obtain ⟨hpieces, hdepth⟩ := forall₂_and.1 h
  choose! d hd hload using hdepth
  obtain ⟨k, hk⟩ : ∃ k, ps.length = k + 1 := by
    refine Nat.exists_eq_succ_of_ne_zero fun hlen => hne ?_
    rw [List.length_eq_zero_iff.1 hlen] at hps
    exact hps.nil_eq.symm
  refine @join_of_load _ J whole hmono hperm hjoin _ k (ps.map fun p => (p, d p)) ?_ ?_ ?_ ?_
  · rwa [List.length_map]
  · rwa [List.flatMap_map, List.flatMap_id']
  · exact List.forall_mem_map.2 fun p hp => ⟨hpieces p hp, hd p hp⟩
  · rw [List.map_map, ← height_perm (hps.map g)]
    exact (load_groups hload).trans (height_le_iff.1 (Nat.le_refl _))

end Join

end ProtocolProver
