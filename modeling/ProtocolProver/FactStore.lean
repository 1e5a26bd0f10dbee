import ProtocolProver.Fact

/-!
# The facts of a state

Linear facts are kept with their number, persistent facts in the order in which they were produced,
each once. An index says at which place a persistent fact stands.
-/

namespace ProtocolProver

/-- A multiset of linear facts and a growing list of persistent ones. -/
structure FactStore where
  linear : SortedMap Fact Nat
  persistent : List Fact
  index : SortedMap Fact Nat
  indexed : ∀ f i, index.get? f = some i ↔ persistent[i]? = some f
deriving DecidableEq

namespace FactStore

theorem indexed_empty (f : Fact) (i : Nat) :
    (∅ : SortedMap Fact Nat).get? f = some i ↔ ([] : List Fact)[i]? = some f := by
  rw [SortedMap.get?_empty, List.getElem?_nil]
  simp

instance : EmptyCollection FactStore := ⟨⟨∅, [], ∅, indexed_empty⟩⟩

instance : Inhabited FactStore := ⟨∅⟩

def count (s : FactStore) (f : Fact) : Nat := (s.linear.get? f).getD 0

/-- A fact that is not in the index can be put at the end. -/
theorem indexed_append {index : SortedMap Fact Nat} {persistent : List Fact} {f : Fact}
    (h : ∀ f i, index.get? f = some i ↔ persistent[i]? = some f) (hf : index.contains f = false)
    (g : Fact) (i : Nat) : (index.insert f persistent.length).get? g = some i ↔
      (persistent ++ [f])[i]? = some g := by
  have hnew (j : Nat) : persistent[j]? ≠ some f := fun hj => by
    simp [SortedMap.contains, (h f j).2 hj] at hf
  have hbound (j : Nat) : persistent[j]? = some g → j < persistent.length := fun hj =>
    (List.getElem?_eq_some_iff.1 hj).1
  grind [SortedMap.get?_insert]

/-- Adds a fact. A persistent fact that is there already changes nothing. -/
def produce (s : FactStore) (f : Fact) : FactStore :=
  match f.multiplicity with
  | .linear => { s with linear := s.linear.insert f (s.count f + 1) }
  | .persistent =>
    if h : s.index.contains f = true then s
    else
      { s with
        persistent := s.persistent ++ [f]
        index := s.index.insert f s.persistent.length
        indexed := indexed_append s.indexed (Bool.eq_false_iff.2 h) }

/-- Uses a fact as a premise, if it is there. A linear fact is taken away once. -/
def consume? (s : FactStore) (f : Fact) : Option FactStore :=
  match f.multiplicity with
  | .persistent => if s.index.contains f then some s else none
  | .linear =>
    match s.linear.get? f with
    | none => none
    | some 0 => none
    | some 1 => some { s with linear := s.linear.erase f }
    | some (n + 2) => some { s with linear := s.linear.insert f (n + 1) }

def contains (s : FactStore) (f : Fact) : Bool :=
  match f.multiplicity with
  | .persistent => s.index.contains f
  | .linear => s.linear.contains f

theorem contains_index (s : FactStore) (f : Fact) :
    s.index.contains f = true ↔ f ∈ s.persistent := by
  rw [SortedMap.contains, Option.isSome_iff_exists, List.mem_iff_getElem?]
  exact exists_congr (s.indexed f)

theorem nodup_persistent (s : FactStore) : s.persistent.Nodup := by
  refine List.pairwise_iff_getElem.2 fun i j hi hj hlt heq => ?_
  have hindex := (s.indexed _ i).2 (List.getElem?_eq_getElem hi)
  rw [heq, (s.indexed _ j).2 (List.getElem?_eq_getElem hj)] at hindex
  cases hindex
  exact Nat.lt_irrefl _ hlt

/-- The number of linear facts. -/
def linearCount (s : FactStore) : Nat := s.linear.values.foldr (· + ·) 0

/-- The stored facts that can satisfy a premise. -/
def candidates (s : FactStore) (pattern : Fact) : List Fact :=
  let stored := match pattern.multiplicity with
    | .linear => s.linear.keys
    | .persistent => s.persistent
  stored.filter (·.sameKind pattern)

/-- Every stored fact that unifies with `pattern` under an extension of `σ`, with the extension. -/
def matchPattern (s : FactStore) (T : Theory) (pattern : Fact) (σ : Subst) :
    StateM VarSupply (List (Subst × Fact)) := do
  let found ← (s.candidates pattern).mapM fun f => do
    let unifiers ← T.unify (pattern.equations f) σ
    return unifiers.substs.map fun τ => (τ, f)
  return found.flatten

end FactStore

end ProtocolProver
