/-!
# Finite maps with their entries in key order

A `SortedMap` is the list of its entries, strictly increasing in the key. Reading is by `get?`, and
two maps that read the same are equal (`SortedMap.ext_get?`), so a map is its own canonical form:
it can be compared, printed in key order and put into answers without any further sorting.
-/

namespace ProtocolProver

/-- Entries in strictly increasing key order. -/
def KeysIncrease {α β : Type} [Ord α] (entries : List (α × β)) : Prop :=
  entries.Pairwise fun a b => compare a.1 b.1 = .lt

/-- A finite map, as its entries in increasing key order. -/
structure SortedMap (α β : Type) [Ord α] where
  entries : List (α × β)
  sorted : KeysIncrease entries

namespace SortedMap

variable {α β γ : Type} [Ord α]

theorem eq_of_entries {m n : SortedMap α β} (h : m.entries = n.entries) : m = n := by
  cases m; cases n; cases h; rfl

instance [DecidableEq α] [DecidableEq β] : DecidableEq (SortedMap α β) := fun m n =>
  if h : m.entries = n.entries then isTrue (eq_of_entries h)
  else isFalse fun e => h (congrArg entries e)

def empty : SortedMap α β := ⟨[], List.Pairwise.nil⟩

instance : EmptyCollection (SortedMap α β) := ⟨empty⟩

instance : Inhabited (SortedMap α β) := ⟨empty⟩

def isEmpty (m : SortedMap α β) : Bool := m.entries.isEmpty

def size (m : SortedMap α β) : Nat := m.entries.length

def keys (m : SortedMap α β) : List α := m.entries.map (·.1)

def values (m : SortedMap α β) : List β := m.entries.map (·.2)

def get? [DecidableEq α] (m : SortedMap α β) (k : α) : Option β := m.entries.lookup k

def contains [DecidableEq α] (m : SortedMap α β) (k : α) : Bool := (m.get? k).isSome

/-- Puts `k ↦ v` at its place, over an entry of that key. -/
def insertEntry (k : α) (v : β) : List (α × β) → List (α × β)
  | [] => [(k, v)]
  | e :: rest =>
    match compare k e.1 with
    | .lt => (k, v) :: e :: rest
    | .eq => (k, v) :: rest
    | .gt => e :: insertEntry k v rest

theorem mem_insertEntry {k : α} {v : β} {l : List (α × β)} {e : α × β}
    (h : e ∈ insertEntry k v l) : e = (k, v) ∨ e ∈ l := by
  induction l with
  | nil => simpa [insertEntry] using h
  | cons d rest ih =>
    unfold insertEntry at h
    split at h
    · simpa using h
    · rcases List.mem_cons.1 h with h | h
      · exact .inl h
      · exact .inr (List.mem_cons_of_mem _ h)
    · rcases List.mem_cons.1 h with h | h
      · exact .inr (h ▸ List.mem_cons_self)
      · exact (ih h).imp id (List.mem_cons_of_mem _)

section Order

variable [Std.TransOrd α] [Std.LawfulEqOrd α]

theorem KeysIncrease.insertEntry {k : α} {v : β} :
    ∀ {l : List (α × β)}, KeysIncrease l → KeysIncrease (insertEntry k v l)
  | [], _ => List.pairwise_singleton _ _
  | e :: rest, h => by
    obtain ⟨he, hr⟩ := List.pairwise_cons.1 h
    unfold SortedMap.insertEntry
    split
    · rename_i hk
      refine List.pairwise_cons.2 ⟨fun d hd => ?_, h⟩
      rcases List.mem_cons.1 hd with rfl | hd
      · exact hk
      · exact Std.TransCmp.lt_trans hk (he d hd)
    · rename_i hk
      obtain rfl := Std.LawfulEqCmp.eq_of_compare hk
      exact List.pairwise_cons.2 ⟨he, hr⟩
    · rename_i hk
      refine List.pairwise_cons.2 ⟨fun d hd => ?_, KeysIncrease.insertEntry hr⟩
      rcases mem_insertEntry hd with rfl | hd
      · exact Std.OrientedCmp.gt_iff_lt.1 hk
      · exact he d hd

/-- The map with `k ↦ v`, whatever `k` stood for before. -/
def insert (m : SortedMap α β) (k : α) (v : β) : SortedMap α β :=
  ⟨insertEntry k v m.entries, KeysIncrease.insertEntry m.sorted⟩

/-- The map of a list of entries. Later entries win. -/
def ofList (l : List (α × β)) : SortedMap α β :=
  l.foldl (fun m e => m.insert e.1 e.2) ∅

end Order

/-- The entries whose key satisfies `p`. -/
def filterKeys (p : α → Bool) (m : SortedMap α β) : SortedMap α β :=
  ⟨m.entries.filter fun e => p e.1, List.Pairwise.filter _ m.sorted⟩

def erase [DecidableEq α] (m : SortedMap α β) (k : α) : SortedMap α β :=
  m.filterKeys fun k' => k' != k

/-- Applies `f` to every value. -/
def mapValues (f : β → γ) (m : SortedMap α β) : SortedMap α γ :=
  ⟨m.entries.map fun e => (e.1, f e.2), by
    have h := m.sorted
    unfold KeysIncrease at *
    exact List.pairwise_map.2 h⟩

/-! ## Reading -/

section Reading

variable [DecidableEq α]

@[simp]
theorem get?_empty (k : α) : (∅ : SortedMap α β).get? k = none := rfl

variable [Std.TransOrd α] [Std.LawfulEqOrd α]

omit [Ord α] [Std.TransOrd α] [Std.LawfulEqOrd α] in
theorem lookup_cons_self (e : α × β) (l : List (α × β)) : (e :: l).lookup e.1 = some e.2 :=
  List.lookup_cons_self

omit [Ord α] [Std.TransOrd α] [Std.LawfulEqOrd α] in
theorem lookup_cons_ne {k : α} {e : α × β} (h : k ≠ e.1) (l : List (α × β)) :
    (e :: l).lookup k = l.lookup k := by
  rw [List.lookup_cons, beq_false_of_ne h]

omit [Std.TransOrd α] in
theorem lookup_insertEntry (k k' : α) (v : β) (l : List (α × β)) :
    (insertEntry k v l).lookup k' = if k' = k then some v else l.lookup k' := by
  have first (l : List (α × β)) :
      ((k, v) :: l).lookup k' = if k' = k then some v else l.lookup k' := by
    split
    · rename_i h
      exact h ▸ lookup_cons_self (k, v) l
    · rename_i h
      exact lookup_cons_ne h l
  induction l with
  | nil => exact first []
  | cons e rest ih =>
    unfold insertEntry
    split
    · exact first (e :: rest)
    · rename_i hk
      have hke := Std.LawfulEqCmp.eq_of_compare hk
      rw [first rest]
      split
      · rfl
      · rename_i h
        rw [lookup_cons_ne (hke ▸ h)]
    · rename_i hk
      have hne : k ≠ e.1 := fun h => by simp [h, Std.ReflCmp.compare_self] at hk
      by_cases h : k' = e.1
      · rw [h, lookup_cons_self, lookup_cons_self, if_neg (Ne.symm hne)]
      · rw [lookup_cons_ne h, lookup_cons_ne h, ih]

@[simp]
theorem get?_insert (m : SortedMap α β) (k k' : α) (v : β) :
    (m.insert k v).get? k' = if k' = k then some v else m.get? k' :=
  lookup_insertEntry k k' v m.entries

theorem get?_ofList_map (g : α → β) (ks : List α) (k : α) :
    (ofList (ks.map fun k => (k, g k))).get? k = if k ∈ ks then some (g k) else none := by
  have fold : ∀ (ks : List α) (m : SortedMap α β),
      ((ks.map fun k => (k, g k)).foldl (fun m e => m.insert e.1 e.2) m).get? k =
        if k ∈ ks then some (g k) else m.get? k := by
    intro ks
    induction ks with
    | nil => exact fun m => rfl
    | cons k' ks ih =>
      intro m
      rw [List.map_cons, List.foldl_cons, ih, get?_insert]
      by_cases hk : k ∈ ks
      · simp [hk]
      · by_cases hk' : k = k' <;> simp [hk, hk']
  exact fold ks ∅

omit [Std.TransOrd α] [Std.LawfulEqOrd α] in
@[simp]
theorem get?_mapValues (f : β → γ) (m : SortedMap α β) (k : α) :
    (m.mapValues f).get? k = (m.get? k).map f := by
  show (m.entries.map _).lookup k = (m.entries.lookup k).map f
  induction m.entries with
  | nil => rfl
  | cons e rest ih =>
    by_cases h : k = e.1
    · rw [h, List.map_cons, lookup_cons_self]
      exact lookup_cons_self (e.1, f e.2) _
    · rw [List.map_cons, lookup_cons_ne h, ← ih]
      exact lookup_cons_ne (show k ≠ (e.1, f e.2).1 from h) _

omit [Std.TransOrd α] [Std.LawfulEqOrd α] in
@[simp]
theorem get?_filterKeys (p : α → Bool) (m : SortedMap α β) (k : α) :
    (m.filterKeys p).get? k = if p k then m.get? k else none := by
  show (m.entries.filter _).lookup k = if p k then m.entries.lookup k else none
  induction m.entries with
  | nil => simp
  | cons e rest ih =>
    by_cases h : k = e.1
    · subst h
      by_cases hp : p e.1
      · simp [hp, lookup_cons_self]
      · simpa [hp] using ih
    · rw [lookup_cons_ne h, ← ih]
      by_cases hp : p e.1
      · simp [hp, lookup_cons_ne h]
      · simp [hp]

omit [Std.TransOrd α] [Std.LawfulEqOrd α] in
theorem lookup_eq_some_of_mem {l : List (α × β)} [Std.ReflOrd α] (hl : KeysIncrease l) {k : α}
    {v : β} (h : (k, v) ∈ l) : l.lookup k = some v := by
  induction l with
  | nil => simp at h
  | cons e rest ih =>
    obtain ⟨he, hr⟩ := List.pairwise_cons.1 hl
    rcases List.mem_cons.1 h with rfl | h
    · exact lookup_cons_self (k, v) rest
    · have hlt := he _ h
      have hne : k ≠ e.1 := fun hk => by simp [hk, Std.ReflCmp.compare_self] at hlt
      rw [lookup_cons_ne hne, ih hr h]

omit [Ord α] [Std.TransOrd α] [Std.LawfulEqOrd α] in
theorem mem_of_lookup {l : List (α × β)} {k : α} {v : β} (h : l.lookup k = some v) :
    (k, v) ∈ l := by
  induction l with
  | nil => simp at h
  | cons e rest ih =>
    by_cases hk : k = e.1
    · rw [hk, lookup_cons_self, Option.some.injEq] at h
      rw [hk, ← h]
      exact List.mem_cons_self
    · rw [lookup_cons_ne hk] at h
      exact List.mem_cons_of_mem _ (ih h)

omit [Std.TransOrd α] in
theorem get?_eq_some_iff {m : SortedMap α β} {k : α} {v : β} :
    m.get? k = some v ↔ (k, v) ∈ m.entries :=
  ⟨mem_of_lookup, lookup_eq_some_of_mem m.sorted⟩

private theorem entries_eq_of_lookup : ∀ {l l' : List (α × β)}, KeysIncrease l → KeysIncrease l' →
    (∀ k, l.lookup k = l'.lookup k) → l = l'
  | [], [], _, _, _ => rfl
  | [], e :: _, _, _, h => by simpa [lookup_cons_self] using h e.1
  | e :: _, [], _, _, h => by simpa [lookup_cons_self] using h e.1
  | e :: r, e' :: r', hl, hl', h => by
    obtain ⟨he, hr⟩ := List.pairwise_cons.1 hl
    obtain ⟨he', hr'⟩ := List.pairwise_cons.1 hl'
    have h₁ : e ∈ e' :: r' := mem_of_lookup (by rw [← h e.1, lookup_cons_self])
    have h₂ : e' ∈ e :: r := mem_of_lookup (by rw [h e'.1, lookup_cons_self])
    have hee : e = e' := by
      rcases List.mem_cons.1 h₁ with h₁ | h₁
      · exact h₁
      · rcases List.mem_cons.1 h₂ with h₂ | h₂
        · exact h₂.symm
        · have := Std.TransCmp.lt_trans (he _ h₂) (he' _ h₁)
          simp [Std.ReflCmp.compare_self] at this
    subst hee
    have hrest : ∀ k, r.lookup k = r'.lookup k := by
      intro k
      by_cases hk : k = e.1
      · have none_of : ∀ {l : List (α × β)},
            (∀ d ∈ l, compare e.1 d.1 = .lt) → l.lookup k = none := by
          intro l hd
          cases hv : l.lookup k with
          | none => rfl
          | some v =>
            have hlt := hd _ (mem_of_lookup hv)
            simp [hk, Std.ReflCmp.compare_self] at hlt
        rw [none_of he, none_of he']
      · have hkl := h k
        rwa [lookup_cons_ne hk, lookup_cons_ne hk] at hkl
    rw [entries_eq_of_lookup hr hr' hrest]

/-- A map is determined by what it reads. -/
theorem ext_get? {m n : SortedMap α β} (h : ∀ k, m.get? k = n.get? k) : m = n :=
  eq_of_entries (entries_eq_of_lookup m.sorted n.sorted h)

end Reading

end SortedMap

end ProtocolProver
