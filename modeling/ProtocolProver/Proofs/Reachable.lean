import ProtocolProver.Proofs.SystemInvariants

/-!
# The systems that a search reaches

Every system that is reached from the initial one by solving goals is coherent: its terms have the
shape that the theory closes, and its facts flow (`System.Coherent`). Providing a premise gives the
flow an edge, and merging nodes makes their facts equal, so solving goals keeps it
(`System.stays_coherence`), whatever goal is taken.
-/

namespace ProtocolProver

namespace System

/-- The terms of the system have the shape, and its facts flow. -/
structure Coherent (P : Shape) (m : Model) (S : System) : Prop where
  has : S.Has P
  flow : S.Flow m Eq none

variable {P : Shape} {m : Model} {S : System}

theorem within_renameBinders (hv : ∀ v, P.var v) (bs : List Binder) (s : VarSupply) :
    ((renameBinders bs).run s).1.2.terms.Within P := by
  have fold : ∀ {f : Binding → Binder → Binding}, (∀ b v, f b (.msg v) =
        { b with terms := b.terms.insert v (.var { v with idx := s.next }) }) →
      (∀ b i, (f b (.time i)).terms = b.terms) →
      ∀ (bs : List Binder) (b : Binding), b.terms.Within P → (bs.foldl f b).terms.Within P := by
    intro f hmsg htime bs
    induction bs with
    | nil => exact fun _ h => h
    | cons x bs ih =>
      intro b hb
      refine ih _ ?_
      cases x with
      | msg v =>
        rw [hmsg]
        exact hb.insert (.var (hv _)) (TermSort.admits_self _)
      | time i =>
        rw [htime]
        exact hb
  exact fold (fun _ _ => rfl) (fun _ _ => rfl) bs {} .empty

section Expansion

variable (hm : m.Regular P)

include hm

/-- Solving equations keeps the flow of facts that are the same under the solution. -/
theorem coherent_of_mem_unify {eqs : List Equation} (heqs : EquationsHave P eqs) (hS : S.Has P)
    (h : ∀ σ : Subst, σ.Within P → m.theory.solves σ eqs = true →
      S.Flow m (Fact.SameUnder fun t => m.theory.normalize (σ.apply t)) none) {S' : System}
    (hS' : S' ∈ (S.unify m.theory eqs).systems) : S'.Coherent P m := by
  obtain ⟨σ, supply, hσ, hsolves, rfl⟩ := mem_unify hm.closes heqs hS'
  have hS : ({ S with supply := supply } : System).Has P :=
    ⟨hS.nodes, hS.goals, hS.guarded, hS.disequalities⟩
  exact ⟨hS.apply hm.closes hσ, Flow.apply hm hS hσ
    ((h σ hσ hsolves).grow rfl rfl rfl rfl fun _ => id)⟩

theorem Coherent.unify (h : S.Coherent P m) {eqs : List Equation} (heqs : EquationsHave P eqs) :
    ∀ S' ∈ (S.unify m.theory eqs).systems, S'.Coherent P m := fun _ =>
  coherent_of_mem_unify hm heqs h.has fun _ _ _ => h.flow.sameUnder _

omit hm in
theorem Coherent.pushGoals (h : S.Coherent P m) {gs : List Goal} (hg : ∀ g ∈ gs, g.Has P) :
    (S.pushGoals gs).Coherent P m := ⟨h.has.pushGoals hg, h.flow.pushGoals gs⟩

omit hm in
theorem Coherent.pushGoal (h : S.Coherent P m) {g : Goal} (hg : g.Has P) :
    (S.pushGoal g).Coherent P m := ⟨h.has.pushGoal hg, h.flow.pushGoal g⟩

omit hm in
theorem Coherent.addLess (h : S.Coherent P m) (i j : TimeVar) : (S.addLess i j).Coherent P m :=
  ⟨⟨h.has.nodes, h.has.goals, h.has.guarded, h.has.disequalities⟩, h.flow.addLess i j⟩

omit hm in
theorem Coherent.union (h : S.Coherent P m) (i j : TimeVar) : (S.union i j).Coherent P m :=
  ⟨⟨h.has.nodes, h.has.goals, h.has.guarded, h.has.disequalities⟩, h.flow.union i j⟩

omit hm in
theorem Coherent.withSupply (h : S.Coherent P m) (supply : VarSupply) :
    ({ S with supply := supply } : System).Coherent P m :=
  ⟨⟨h.has.nodes, h.has.goals, h.has.guarded, h.has.disequalities⟩,
    h.flow.grow rfl rfl rfl rfl fun _ => id⟩

theorem Coherent.addNode (h : S.Coherent P m) (rule : Nat) (time : Option TimeVar) :
    (S.addNode m rule time).2.Coherent P m :=
  ⟨h.has.addNode hm.closes hm.has rule time, h.flow.addNode rule time⟩

/-! ## Solving goals -/

theorem Coherent.expandSplit (h : S.Coherent P m) {f : Nnf} (hf : f.Has P) :
    ∀ S' ∈ (S.expandSplit m f).systems, S'.Coherent P m := by
  intro S' hS'
  match f with
  | .top => cases List.mem_singleton.1 hS'; exact h
  | .bot => cases hS'
  | .conj fs =>
    cases List.mem_singleton.1 hS'
    exact h.pushGoals (List.forall_mem_map.2 (Nnf.has_conj.1 hf))
  | .disj fs =>
    obtain ⟨f, hmem, rfl⟩ := List.mem_map.1 hS'
    exact h.pushGoal (Nnf.has_disj.1 hf f hmem)
  | .ex bs f =>
    cases List.mem_singleton.1 hS'
    have hf : f.Has P := hf
    exact (h.withSupply _).pushGoal
      (hf.instantiate hm.closes.var (within_renameBinders hm.closes.var bs S.supply))
  | .guarded bs gs f =>
    cases List.mem_singleton.1 hS'
    refine ⟨⟨h.has.nodes, h.has.goals, List.forall_mem_append.2 ⟨h.has.guarded, ?_⟩,
      h.has.disequalities⟩, h.flow.grow rfl rfl rfl rfl fun _ => id⟩
    exact List.forall_mem_singleton.2 hf
  | .neq s t =>
    cases List.mem_singleton.1 hS'
    refine ⟨⟨h.has.nodes, h.has.goals, h.has.guarded, h.has.disequalities.append ?_⟩,
      h.flow.grow rfl rfl rfl rfl fun _ => id⟩
    exact .cons (hf s (by simp [Nnf.terms])) (hf t (by simp [Nnf.terms])) .nil
  | .atom (.action f i) =>
    cases List.mem_singleton.1 hS'
    exact h.pushGoal hf
  | .atom (.knows t i) =>
    cases List.mem_singleton.1 hS'
    exact h.pushGoal hf
  | .atom (.less i j) =>
    cases List.mem_singleton.1 hS'
    exact h.addLess i j
  | .atom (.timeEq i j) =>
    cases List.mem_singleton.1 hS'
    exact h.union i j
  | .atom (.eq s t) =>
    exact h.unify hm (.cons (hf s (by simp [Nnf.terms, Atom.terms]))
      (hf t (by simp [Nnf.terms, Atom.terms])) .nil) S' hS'

omit hm in
theorem Has.eraseGoal (h : S.Has P) (k : Nat) :
    ({ S with goals := S.goals.eraseIdx k } : System).Has P :=
  ⟨h.nodes, fun g hg => h.goals g (List.mem_of_mem_eraseIdx hg), h.guarded, h.disequalities⟩

theorem Coherent.expandPremise (hS : S.Has P) {node idx : Nat}
    (h : S.Flow m Eq (some ⟨node, idx⟩)) :
    ∀ S' ∈ (S.expandPremise m node idx).systems, S'.Coherent P m := by
  intro S' hS'
  unfold System.expandPremise at hS'
  split at hS'
  · rename_i hnone
    cases List.mem_singleton.1 hS'
    refine ⟨hS, h.instances, h.edges, fun id n k f hn hf hi hfr _ => ?_⟩
    refine h.premises id n k f hn hf hi hfr fun he => ?_
    cases he
    rw [hn] at hnone
    exact absurd (hf.symm.trans hnone) (by simp)
  · rename_i wanted hwanted
    obtain ⟨k, hk, hf⟩ := Option.bind_eq_some_iff.1 hwanted
    have provided : ∀ {S : System} {s : Endpoint} {n : Node} {c : Fact}, S.Has P →
        S.Flow m Eq (some ⟨node, idx⟩) → S.node? node = some k → S.node? s.node = some n →
        n.conclusions[s.idx]? = some c →
        S' ∈ (if c.sameKind wanted then
          (S.addEdge s ⟨node, idx⟩).unify m.theory (wanted.equations c) else {}).systems →
        S'.Coherent P m := by
      intro S s n c hS h hk hn hc hS'
      split at hS'
      · rename_i hkind
        have hwanted := (hS.nodes node k hk).premises wanted (List.mem_of_getElem? hf)
        have hconclusion := (hS.nodes _ n hn).conclusions c (List.mem_of_getElem? hc)
        refine coherent_of_mem_unify hm (hwanted.equations hconclusion) ?_ (fun σ _ hσ => ?_) hS'
        · unfold System.addEdge
          rw [hn, hk]
          exact ⟨hS.nodes, hS.goals, hS.guarded, hS.disequalities⟩
        · exact (h.sameUnder _).addEdge hn hk hc hf (sameUnder_of_solves hkind hσ)
      · cases hS'
    extract_lets provide at hS'
    obtain ⟨b, hb, hS'⟩ := Branches.mem_concat.1 hS'
    rcases List.mem_append.1 hb with hb | hb
    · obtain ⟨⟨id, n⟩, hn, hb⟩ := List.mem_flatMap.1 hb
      obtain ⟨⟨c, j⟩, hc, rfl⟩ := List.mem_map.1 hb
      exact provided hS h hk (mem_liveNodes.1 (List.mem_filter.1 hn).1)
        (List.mk_mem_zipIdx_iff_getElem?.1 hc) hS'
    · obtain ⟨⟨rule, j⟩, -, rfl⟩ := List.mem_map.1 hb
      simp only at hS'
      split at hS'
      · rename_i c he
        obtain ⟨n, hn, hc⟩ := Option.bind_eq_some_iff.1 he
        exact provided (hS.addNode hm.closes hm.has rule none) (h.addNode rule none)
          (node?_addNode hk) hn hc hS'
      · cases hS'

/-! ## Simplification -/

omit hm in
theorem subst_eq_of_solves {r : Rule} {n k : Node} (hn : n.Instance m.theory r)
    (hk : k.Instance m.theory r) {σ : Subst}
    (h : m.theory.solves σ (n.subst.entries.filterMap fun e =>
      (k.subst.get? e.1).map fun u => (e.2, u)) = true) :
    n.subst.mapValues (fun t => m.theory.normalize (σ.apply t)) =
      k.subst.mapValues fun t => m.theory.normalize (σ.apply t) := by
  refine SortedMap.ext_get? fun v => ?_
  rw [SortedMap.get?_mapValues, SortedMap.get?_mapValues]
  cases ht : n.subst.get? v with
  | none =>
    cases hu : k.subst.get? v with
    | none => rfl
    | some u =>
      obtain ⟨t, ht'⟩ := hn.bound v (hk.keys v u hu)
      cases ht.symm.trans ht'
  | some t =>
    obtain ⟨u, hu⟩ := hk.bound v (hn.keys v t ht)
    have hmem : (t, u) ∈ n.subst.entries.filterMap fun e =>
        (k.subst.get? e.1).map fun u => (e.2, u) :=
      List.mem_filterMap.2 ⟨(v, t), SortedMap.get?_eq_some_iff.1 ht, by simp only [hu]; rfl⟩
    rw [hu, Option.map_some, Option.map_some, beq_iff_eq.1 (List.all_eq_true.1 h _ hmem)]

theorem Coherent.merge (h : S.Coherent P m) {a b : Nat} (hab : S.coinciding? = some (a, b)) :
    ∀ S' ∈ (S.merge m a b).systems, S'.Coherent P m := by
  intro S' hS'
  obtain ⟨hne, n, k, ha, hb, htime⟩ := coinciding?_eq_some hab
  unfold System.merge at hS'
  rw [ha, hb] at hS'
  simp only at hS'
  split at hS'
  · rename_i hrule
    have hn := h.has.nodes a n ha
    have hk := h.has.nodes b k hb
    refine coherent_of_mem_unify hm (hn.equations hk) (h.has.absorb a b) (fun σ hσ hsolves => ?_) hS'
    · obtain ⟨r, hr, hin⟩ := h.flow.instances a n ha
      obtain ⟨r', hr', hik⟩ := h.flow.instances b k hb
      rw [← hrule] at hr'
      cases hr.symm.trans hr'
      have hmem := List.mem_of_getElem? hr
      -- With equal values for the rule variables, the facts are equal.
      have hsubst := subst_eq_of_solves hin hik hsolves
      have hin := hin.mapTerms hm hmem hn hσ
      have hik := hik.mapTerms hm hmem hk hσ
      refine (h.flow.sameUnder _).absorb ha hb hne htime ?_ ?_
      · refine hin.premises.trans (Eq.trans ?_ hik.premises.symm)
        exact congrArg (fun τ => r.premises.map (·.instantiate m.theory τ)) hsubst
      · refine hin.conclusions.trans (Eq.trans ?_ hik.conclusions.symm)
        exact congrArg (fun τ => r.conclusions.map (·.instantiate m.theory τ)) hsubst
  · cases hS'

end Expansion

/-- The terms of a coherent system have the shape, and any timepoint may occur. -/
def coherence (P : Shape) (m : Model) : Discipline Unit where
  term _ := P
  time _ _ := True
  formula _ f := f.Has P
  system _ S := S.Coherent P m

theorem goal_coherence {g : Goal} : (coherence P m).Goal () g ↔ g.Has P := by
  cases g <;> simp [Discipline.Goal, coherence, Goal.Has, Goal.terms, Fact.Has, Nnf.Has]

theorem stays_coherence (hm : m.Regular P) : (coherence P m).Stays m where
  nodes h hn := ⟨h.has.nodes _ _ hn, trivial⟩
  pushGoals h hgs := h.pushGoals fun g hg => goal_coherence.1 (hgs g hg)
  addLess h _ _ := h.addLess _ _
  union h _ _ := h.union _ _
  addNode rule time h _ := ⟨(), ⟨fun _ => id, fun _ => id⟩, h.addNode hm rule time⟩
  unify h heqs S' hS' := ⟨(), h.unify hm heqs S' hS'⟩
  decompose _ ht := Theory.Closes.has_decompose hm.closes.keeps ht
  extract h ht := ⟨(), ⟨fun _ => id, fun _ => id⟩, h.withSupply _, hm.closes.have_extract ht _⟩
  split h hf S' hS' := ⟨(), h.expandSplit hm hf S' hS'⟩
  goals h g hg := goal_coherence.2 (h.has.goals g hg)
  eraseGoal := by
    intro _ S k g h hg hpremise
    refine ⟨h.has.eraseGoal k, ?_⟩
    have hflow := h.flow.eraseGoal hg
    revert hflow hpremise
    cases g.goal with
    | premise node idx => exact fun hpremise => absurd rfl (hpremise node idx)
    | split | action | knows | chain => exact fun _ => id
  premise := by
    intro _ S k g node idx h hg he S' hS'
    have hflow := h.flow.eraseGoal hg
    rw [he] at hflow
    exact ⟨(), Coherent.expandPremise hm (h.has.eraseGoal k) hflow S' hS'⟩
  merge h hab S' hS' := ⟨(), h.merge hm hab S' hS'⟩
  saturate h := ⟨h.has.dedupGoals.saturate hm.closes.var, h.flow.dedupGoals.saturate⟩

theorem coherent_initial (hm : m.Has P) {target : Nnf} (ht : target.Has P) :
    (initial m target).Coherent P m := by
  have hempty : ({} : System).Coherent P m :=
    ⟨⟨fun _ _ h => by simp [node?] at h, nofun, nofun, nofun⟩, flow_empty⟩
  refine (hempty.pushGoals fun g hg => ?_).pushGoal ht
  obtain ⟨r, hr, rfl⟩ := List.mem_map.1 hg
  exact hm.restrictions r hr

theorem Reachable.coherent_settled (hm : m.Regular P) {target : Nnf} (ht : target.Has P)
    (h : Reachable m target S) : S.Coherent P m ∧ S.Settled :=
  ((stays_coherence hm).reachable (x := ()) (coherent_initial hm.has ht) h).imp_left
    Exists.choose_spec

end System

end ProtocolProver
