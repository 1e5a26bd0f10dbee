import ProtocolProver.Formula.Basic

/-!
# Classes of timepoints

Timepoints of a constraint system can turn out to be the same. `TimeClasses` keeps the classes of
equal timepoints as links: every timepoint but the least of its class has a link to a smaller one of
the class, and `find` follows the links. Since a link leads to a smaller timepoint, no timepoint is
met twice on the way, and there are no more steps than links.
-/

namespace ProtocolProver

/-- Links from timepoints to smaller ones of the same class. -/
structure TimeClasses where
  parent : SortedMap TimeVar TimeVar
  descends : ∀ i j, parent.get? i = some j → compare j i = .lt

namespace TimeClasses

/-- Every timepoint is a class of its own. -/
instance : EmptyCollection TimeClasses where
  emptyCollection :=
    { parent := ∅
      descends := fun i j h => by
        rw [SortedMap.get?_empty] at h
        cases h }

/-- The timepoint after at most `n` links from `i`. -/
def climb (C : TimeClasses) : Nat → TimeVar → TimeVar
  | 0, i => i
  | n + 1, i =>
    match C.parent.get? i with
    | some j => C.climb n j
    | none => i

/-- The least timepoint of the class of `i`. -/
def find (C : TimeClasses) (i : TimeVar) : TimeVar := C.climb C.parent.size i

/-- Links a timepoint to a smaller one. -/
def link (C : TimeClasses) (child root : TimeVar) (h : compare root child = .lt) : TimeClasses where
  parent := C.parent.insert child root
  descends i j hij := by
    rw [SortedMap.get?_insert] at hij
    split at hij
    · rename_i hi
      cases hij
      exact hi ▸ h
    · exact C.descends i j hij

/-- Joins the classes of two timepoints, under the smaller of their least members. -/
def union (C : TimeClasses) (i j : TimeVar) : TimeClasses :=
  match h : compare (C.find i) (C.find j) with
  | .eq => C
  | .lt => C.link (C.find j) (C.find i) h
  | .gt => C.link (C.find i) (C.find j) (Std.OrientedCmp.lt_of_gt h)

end TimeClasses

end ProtocolProver
