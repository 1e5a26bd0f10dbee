import ProtocolProver.Data.SortedMap

/-!
# Finite sets with their elements in order

A `SortedSet` is a `SortedMap` that only has keys, so two sets with the same elements are equal.
-/

namespace ProtocolProver

/-- A finite set, as the list of its elements in increasing order. -/
abbrev SortedSet (α : Type) [Ord α] : Type := SortedMap α Unit

namespace SortedSet

variable {α β : Type} [Ord α] [Ord β]

/-- The elements in increasing order. -/
def toList (s : SortedSet α) : List α := s.keys

section Order

variable [Std.TransOrd α] [Std.LawfulEqOrd α] [Std.TransOrd β] [Std.LawfulEqOrd β]

def insert (s : SortedSet α) (a : α) : SortedSet α := SortedMap.insert s a ()

def ofList (l : List α) : SortedSet α := l.foldl insert ∅

/-- The image of a set. -/
def map (f : α → β) (s : SortedSet α) : SortedSet β := ofList (s.toList.map f)

end Order

section Membership

variable [DecidableEq α]

def contains (s : SortedSet α) (a : α) : Bool := SortedMap.contains s a

theorem contains_empty (a : α) : contains (∅ : SortedSet α) a = false := rfl

theorem contains_insert [Std.TransOrd α] [Std.LawfulEqOrd α] (s : SortedSet α) (a b : α) :
    contains (insert s a) b = (b == a || contains s b) := by
  unfold contains SortedMap.contains insert
  rw [SortedMap.get?_insert]
  by_cases h : b = a <;> simp [h]

theorem contains_iff_mem_toList [Std.LawfulEqOrd α] {s : SortedSet α} {a : α} :
    contains s a = true ↔ a ∈ toList s := by
  unfold contains SortedMap.contains toList SortedMap.keys
  constructor
  · intro h
    obtain ⟨u, hu⟩ := Option.isSome_iff_exists.1 h
    exact List.mem_map.2 ⟨(a, u), SortedMap.get?_eq_some_iff.1 hu, rfl⟩
  · intro h
    obtain ⟨⟨b, u⟩, hm, rfl⟩ := List.mem_map.1 h
    exact Option.isSome_iff_exists.2 ⟨u, SortedMap.get?_eq_some_iff.2 hm⟩

end Membership

end SortedSet

end ProtocolProver
