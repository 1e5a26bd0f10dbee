import ProtocolProver.Term.Basic

/-!
# The order of terms

Variables come before names and names before applications. Variables are ordered by name, index
and sort; public names come before fresh values; applications are ordered by symbol and then by
their arguments from the left, a shorter list first. Texts are compared by code point.

Every order here is linear and decides equality (`Std.TransOrd`, `Std.LawfulEqOrd`), so a list of
terms has one sorted form, `sortTerms`.
-/

namespace ProtocolProver

/-! ## Combining orders -/

theorem then_eq_lt {a b : Ordering} : a.then b = .lt ↔ a = .lt ∨ a = .eq ∧ b = .lt := by
  cases a <;> simp [Ordering.then]

/-- A comparison that goes on with another one is transitive if both are. -/
theorem then_lt_trans {α : Type} {cmp : α → α → Ordering} {a b c : α} {x y z : Ordering}
    (heq : ∀ {a b}, cmp a b = .eq → a = b) (hlt : cmp a b = .lt → cmp b c = .lt → cmp a c = .lt)
    (hnext : x = .lt → y = .lt → z = .lt) (h₁ : (cmp a b).then x = .lt)
    (h₂ : (cmp b c).then y = .lt) : (cmp a c).then z = .lt := by
  rw [then_eq_lt] at *
  rcases h₁ with h₁ | ⟨h₁, h₁'⟩ <;> rcases h₂ with h₂ | ⟨h₂, h₂'⟩
  · exact .inl (hlt h₁ h₂)
  · exact .inl (heq h₂ ▸ h₁)
  · exact .inl (heq h₁ ▸ h₂)
  · exact .inr ⟨heq h₁ ▸ h₂, hnext h₁' h₂'⟩

theorem compare_swap {α : Type} [Ord α] [Std.OrientedOrd α] (a b : α) :
    compare a b = (compare b a).swap :=
  Std.OrientedCmp.eq_swap

/-- Three laws make a comparison linear: it decides equality, swapping its arguments swaps its
answer, and "less" is transitive. -/
theorem transCmp_of_laws {α : Type} {cmp : α → α → Ordering}
    (eq_iff : ∀ {a b}, cmp a b = .eq ↔ a = b) (swap : ∀ a b, cmp a b = (cmp b a).swap)
    (trans : ∀ {a b c}, cmp a b = .lt → cmp b c = .lt → cmp a c = .lt) : Std.TransCmp cmp where
  eq_swap := swap _ _
  isLE_trans := by
    intro a b c hab hbc
    rcases h₁ : cmp a b with _ | _ | _
    · rcases h₂ : cmp b c with _ | _ | _
      · simp [trans h₁ h₂]
      · rw [← eq_iff.1 h₂, h₁]; rfl
      · simp [h₂] at hbc
    · rw [eq_iff.1 h₁]; exact hbc
    · simp [h₁] at hab

theorem lawfulEqCmp_of_iff {α : Type} {cmp : α → α → Ordering}
    (eq_iff : ∀ {a b}, cmp a b = .eq ↔ a = b) : Std.LawfulEqCmp cmp where
  compare_self := eq_iff.2 rfl
  eq_of_compare := eq_iff.1

/-! ## Sorts, variables, names and symbols -/

/-- The place of a sort in the order: fresh, then public, then message. -/
def TermSort.rank : TermSort → Nat
  | .fresh => 0
  | .pub => 1
  | .msg => 2

instance : Ord TermSort := ⟨compareOn TermSort.rank⟩

instance : Std.TransOrd TermSort := inferInstanceAs (Std.TransCmp (compareOn TermSort.rank))

theorem TermSort.compare_eq_iff {s t : TermSort} : compare s t = .eq ↔ s = t := by
  cases s <;> cases t <;> decide

instance : Std.LawfulEqOrd TermSort := lawfulEqCmp_of_iff TermSort.compare_eq_iff

def Var.cmp (v w : Var) : Ordering :=
  (compare v.name w.name).then ((compare v.idx w.idx).then (compare v.sort w.sort))

instance : Ord Var := ⟨Var.cmp⟩

instance : Std.TransOrd Var :=
  inferInstanceAs (Std.TransCmp (compareLex (compareOn Var.name)
    (compareLex (compareOn Var.idx) (compareOn Var.sort))))

theorem Var.cmp_eq_iff {v w : Var} : Var.cmp v w = .eq ↔ v = w := by
  cases v; cases w
  simp [Var.cmp]

instance : Std.LawfulEqOrd Var := lawfulEqCmp_of_iff Var.cmp_eq_iff

def Name.cmp : Name → Name → Ordering
  | .pub a, .pub b => compare a b
  | .pub _, .fresh .. => .lt
  | .fresh .., .pub _ => .gt
  | .fresh a i, .fresh b j => (compare a b).then (compare i j)

instance : Ord Name := ⟨Name.cmp⟩

theorem Name.cmp_eq_iff : ∀ {m n : Name}, Name.cmp m n = .eq ↔ m = n
  | .pub _, .pub _ => by simp [Name.cmp]
  | .pub _, .fresh .. => by simp [Name.cmp]
  | .fresh .., .pub _ => by simp [Name.cmp]
  | .fresh .., .fresh .. => by simp [Name.cmp]

theorem Name.cmp_swap : ∀ m n : Name, Name.cmp m n = (Name.cmp n m).swap
  | .pub _, .pub _ => compare_swap _ _
  | .pub _, .fresh .. => rfl
  | .fresh .., .pub _ => rfl
  | .fresh a i, .fresh b j => by
    simp only [Name.cmp, Ordering.swap_then]
    rw [compare_swap a, compare_swap i]

theorem Name.cmp_trans : ∀ {l m n : Name}, Name.cmp l m = .lt → Name.cmp m n = .lt →
    Name.cmp l n = .lt
  | .pub _, .pub _, .pub _, h₁, h₂ => by
    simp only [Name.cmp] at *
    exact Std.TransCmp.lt_trans h₁ h₂
  | .pub _, _, .fresh .., _, _ => rfl
  | .fresh a i, .fresh b j, .fresh c k, h₁, h₂ => by
    simp only [Name.cmp] at *
    exact then_lt_trans Std.LawfulEqCmp.eq_of_compare Std.TransCmp.lt_trans Std.TransCmp.lt_trans h₁ h₂

instance : Std.TransOrd Name :=
  transCmp_of_laws Name.cmp_eq_iff Name.cmp_swap Name.cmp_trans

instance : Std.LawfulEqOrd Name := lawfulEqCmp_of_iff Name.cmp_eq_iff

instance : Ord Symbol := ⟨compareOn Symbol.index⟩

instance : Std.TransOrd Symbol := inferInstanceAs (Std.TransCmp (compareOn Symbol.index))

theorem Symbol.compare_eq_iff {f g : Symbol} : compare f g = .eq ↔ f = g := by
  cases f with | mk i
  cases g with | mk j
  exact (@Std.compare_eq_iff_eq Nat _ _ i j).trans (by simp)

instance : Std.LawfulEqOrd Symbol := lawfulEqCmp_of_iff Symbol.compare_eq_iff

/-! ## Terms -/

namespace Term

mutual

def cmp : Term → Term → Ordering
  | .var v, .var w => compare v w
  | .var _, .name _ => .lt
  | .var _, .app .. => .lt
  | .name _, .var _ => .gt
  | .name m, .name n => compare m n
  | .name _, .app .. => .lt
  | .app .., .var _ => .gt
  | .app .., .name _ => .gt
  | .app f as, .app g bs => (compare f g).then (cmpList as bs)

def cmpList : List Term → List Term → Ordering
  | [], [] => .eq
  | [], _ :: _ => .lt
  | _ :: _, [] => .gt
  | a :: as, b :: bs => (cmp a b).then (cmpList as bs)

end

mutual

theorem cmp_eq_iff : ∀ {s t : Term}, cmp s t = .eq ↔ s = t
  | .var _, .var _ => by simp [cmp]
  | .var _, .name _ => by simp [cmp]
  | .var _, .app .. => by simp [cmp]
  | .name _, .var _ => by simp [cmp]
  | .name _, .name _ => by simp [cmp]
  | .name _, .app .. => by simp [cmp]
  | .app .., .var _ => by simp [cmp]
  | .app .., .name _ => by simp [cmp]
  | .app _ as, .app _ bs => by
    simp [cmp, @cmpList_eq_iff as bs]

theorem cmpList_eq_iff : ∀ {as bs : List Term}, cmpList as bs = .eq ↔ as = bs
  | [], [] => by simp [cmpList]
  | [], _ :: _ => by simp [cmpList]
  | _ :: _, [] => by simp [cmpList]
  | a :: as, b :: bs => by
    simp [cmpList, @cmp_eq_iff a b, @cmpList_eq_iff as bs]

end

mutual

theorem cmp_swap : ∀ s t : Term, cmp s t = (cmp t s).swap
  | .var _, .var _ => by simp only [cmp]; exact compare_swap _ _
  | .var _, .name _ => by simp [cmp]
  | .var _, .app .. => by simp [cmp]
  | .name _, .var _ => by simp [cmp]
  | .name _, .name _ => by simp only [cmp]; exact compare_swap _ _
  | .name _, .app .. => by simp [cmp]
  | .app .., .var _ => by simp [cmp]
  | .app .., .name _ => by simp [cmp]
  | .app f as, .app g bs => by
    simp only [cmp, Ordering.swap_then]
    rw [cmpList_swap as bs, compare_swap f]

theorem cmpList_swap : ∀ as bs : List Term, cmpList as bs = (cmpList bs as).swap
  | [], [] => by simp [cmpList]
  | [], _ :: _ => by simp [cmpList]
  | _ :: _, [] => by simp [cmpList]
  | a :: as, b :: bs => by
    simp only [cmpList, Ordering.swap_then]
    rw [cmp_swap a b, cmpList_swap as bs]

end

mutual

theorem cmp_trans : ∀ {r s t : Term}, cmp r s = .lt → cmp s t = .lt → cmp r t = .lt
  | .var _, .var _, .var _, h₁, h₂ => by
    simp only [cmp] at *
    exact Std.TransCmp.lt_trans h₁ h₂
  | .var _, _, .name _, _, _ => by simp [cmp]
  | .var _, _, .app .., _, _ => by simp [cmp]
  | .name _, .name _, .name _, h₁, h₂ => by
    simp only [cmp] at *
    exact Std.TransCmp.lt_trans h₁ h₂
  | .name _, _, .app .., _, _ => by simp [cmp]
  | .app f as, .app g bs, .app h cs, h₁, h₂ => by
    simp only [cmp] at *
    exact then_lt_trans Std.LawfulEqCmp.eq_of_compare Std.TransCmp.lt_trans cmpList_trans h₁ h₂
  | .var _, .name _, .var _, _, h₂ => by simp [cmp] at h₂
  | .var _, .app .., .var _, _, h₂ => by simp [cmp] at h₂
  | .name _, .var _, _, h₁, _ => by simp [cmp] at h₁
  | .name _, .name _, .var _, _, h₂ => by simp [cmp] at h₂
  | .name _, .app .., .var _, _, h₂ => by simp [cmp] at h₂
  | .name _, .app .., .name _, _, h₂ => by simp [cmp] at h₂
  | .app .., .var _, _, h₁, _ => by simp [cmp] at h₁
  | .app .., .name _, _, h₁, _ => by simp [cmp] at h₁
  | .app .., .app .., .var _, _, h₂ => by simp [cmp] at h₂
  | .app .., .app .., .name _, _, h₂ => by simp [cmp] at h₂

theorem cmpList_trans : ∀ {as bs cs : List Term}, cmpList as bs = .lt → cmpList bs cs = .lt →
    cmpList as cs = .lt
  | [], _, _ :: _, _, _ => by simp [cmpList]
  | a :: as, b :: bs, c :: cs, h₁, h₂ => by
    simp only [cmpList] at *
    exact then_lt_trans cmp_eq_iff.1 cmp_trans cmpList_trans h₁ h₂
  | [], [], [], h₁, _ => by simp [cmpList] at h₁
  | [], _ :: _, [], _, h₂ => by simp [cmpList] at h₂
  | _ :: _, [], _, h₁, _ => by simp [cmpList] at h₁
  | _ :: _, _ :: _, [], _, h₂ => by simp [cmpList] at h₂

end

instance : Ord Term := ⟨cmp⟩

instance : Std.TransOrd Term := transCmp_of_laws cmp_eq_iff cmp_swap cmp_trans

instance : Std.LawfulEqOrd Term := lawfulEqCmp_of_iff cmp_eq_iff

/-- Puts a term before the first one that is not smaller. -/
def insertSorted (t : Term) : List Term → List Term
  | [] => [t]
  | u :: us => if (cmp t u).isLE then t :: u :: us else u :: insertSorted t us

end Term

/-- The terms of a list in increasing order, with repetitions. -/
def sortTerms (ts : List Term) : List Term := ts.foldr Term.insertSorted []

end ProtocolProver
