import ProtocolProver.Proofs.Timeline

/-!
# Merging ends

Simplification goes on as long as two nodes are the same rule instance. `System.Simplifies` is this
loop with no bound on the merges in a row. Every merge leaves one node less
(`System.length_liveNodes_of_split`), so `System.simplify`, which allows one merge for each node, is
the whole loop (`System.simplifies_simplify`).
-/

namespace ProtocolProver.System

variable {S S' : System} {m : Model} {b : Branches}

/-- Simplification of a system ends with the given branches. -/
inductive Simplifies (m : Model) : System → Branches → Prop
  | stable {S S' : System} (step : S.simplifyStep m = .stable S') : Simplifies m S (.one S')
  | split {S : System} {b : Branches} {below : System → Branches}
      (step : S.simplifyStep m = .split b)
      (parts : ∀ S' ∈ b.systems, Simplifies m S' (below S')) : Simplifies m S (b.bind below)

theorem length_liveNodes (S : System) : S.liveNodes.length = S.nodes.countP Option.isSome := by
  have hfst : S.nodes.countP Option.isSome =
      (S.nodes.zipIdx.map Prod.fst).countP Option.isSome := by
    rw [List.zipIdx_map_fst]
  rw [hfst, List.countP_map, liveNodes, List.length_filterMap_eq_countP]
  exact List.countP_congr fun _ _ => by simp

theorem length_liveNodes_unify {T : Theory} {eqs : List Equation}
    (h : S' ∈ (S.unify T eqs).systems) : S'.liveNodes.length = S.liveNodes.length := by
  obtain ⟨σ, -, rfl⟩ := List.mem_map.1 h
  rw [length_liveNodes, length_liveNodes, apply]
  split
  · rfl
  · simp only [mapTerms, List.countP_map]
    exact List.countP_congr fun _ _ => by simp

theorem length_liveNodes_absorb (a : Nat) {b : Nat} {n : Node} (hb : S.node? b = some n) :
    (S.absorb a b).liveNodes.length + 1 = S.liveNodes.length := by
  obtain ⟨hlt, hnode⟩ := List.getElem?_eq_some_iff.1 (Option.join_eq_some_iff.1 hb)
  have hpos : 0 < S.nodes.countP Option.isSome :=
    List.countP_pos_iff.2 ⟨some n, hnode ▸ List.getElem_mem hlt, rfl⟩
  rw [length_liveNodes, length_liveNodes, absorb, List.countP_set hlt, hnode]
  simp only [Option.isSome_some, if_true, Option.isSome_none, Bool.false_eq_true, if_false]
  omega

theorem length_liveNodes_merge {a b : Nat} (hab : S.coinciding? = some (a, b))
    (h : S' ∈ (S.merge m a b).systems) : S'.liveNodes.length < S.liveNodes.length := by
  obtain ⟨-, n, k, ha, hb, -⟩ := coinciding?_eq_some hab
  have habsorb := length_liveNodes_absorb a hb
  simp only [merge, ha, hb] at h
  split at h
  · have hunify := length_liveNodes_unify h
    omega
  · cases h

theorem length_liveNodes_of_split (h : S.simplifyStep m = .split b) :
    ∀ S' ∈ b.systems, S'.liveNodes.length < S.liveNodes.length := by
  have hsettle : ∀ S : System, S.settle = .split b → b = {} := by
    intro S h
    unfold settle at h
    simp only at h
    split at h
    · cases h; rfl
    · split at h <;> cases h
      rfl
  intro S' hS'
  unfold simplifyStep at h
  split at h
  · rename_i hab
    cases h
    exact length_liveNodes_merge hab hS'
  split at h
  · rw [hsettle S h] at hS'
    cases hS'
  simp only at h
  split at h
  · rename_i hab
    cases h
    -- To identify timepoints leaves the nodes alone.
    have hlt := length_liveNodes_merge hab hS'
    exact hlt
  · rw [hsettle _ h] at hS'
    cases hS'

theorem simplifies_simplifyWithin : ∀ {n : Nat} {S : System}, S.liveNodes.length ≤ n →
    S.Simplifies m (simplifyWithin m n S)
  | 0, S, hn => by
    unfold simplifyWithin
    split
    · rename_i hstep
      exact .stable hstep
    · rename_i b hstep
      have hlive := length_liveNodes_of_split hstep
      have hempty : b.systems = [] := List.eq_nil_iff_forall_not_mem.2 fun S' hS' => by
        have := hlive S' hS'
        omega
      have hbind : b.bind (fun _ => {}) = ⟨[], b.lossy⟩ := by
        rw [Branches.bind, hempty]
        exact congrArg (Branches.mk []) (Bool.or_false b.lossy)
      have hends : S.Simplifies m (b.bind fun _ => {}) := .split hstep (by simp [hempty])
      rwa [hbind] at hends
  | n + 1, S, hn => by
    unfold simplifyWithin
    split
    · rename_i hstep
      exact .stable hstep
    · rename_i b hstep
      refine .split hstep fun S' hS' => simplifies_simplifyWithin ?_
      have := length_liveNodes_of_split hstep S' hS'
      omega

theorem simplifies_simplify (m : Model) (S : System) : S.Simplifies m (S.simplify m) :=
  simplifies_simplifyWithin le_rfl

end ProtocolProver.System
