import ProtocolProver.Proofs.Solutions

/-!
# Solutions of simplified systems

A system that some execution solves is not dropped by simplification: two nodes on one timepoint
would be one step, fresh values and linear facts are not used twice in an execution, and the steps
order the timepoints. Nothing is merged either, so simplification only instantiates guarded formulas,
and what these require is true (`Execution.Fulfils.simplify`).
-/

namespace ProtocolProver

variable {m : Model} {R : Execution m} {len : Nat} {S : System} {v : Valuation}

/-! ## The facts of a node on a step -/

namespace Node.SitsOn

variable {n : Node} {step : Step} (h : n.SitsOn R v step)
include h

theorem premise? {idx : Nat} {f : Fact} (hf : n.premises[idx]? = some f) :
    R.trace.premise? ⟨v.time n.time, idx⟩ = some (v.fact f) := by
  obtain ⟨hstep, -, hp, -⟩ := h
  rw [Trace.premise?, hstep, Option.bind_some, hp, List.getElem?_map, hf]
  rfl

theorem conclusion? (idx : Nat) :
    R.trace.conclusion? ⟨v.time n.time, idx⟩ = n.conclusions[idx]?.map v.fact := by
  obtain ⟨hstep, -, -, -, hc⟩ := h
  rw [Trace.conclusion?, hstep, Option.bind_some, hc, List.getElem?_map]

theorem emits {a : Fact} (ha : a ∈ n.actions) :
    R.trace.Emits (v.time n.time) a.pred (a.args.map (Term.mapVars v.term)) := by
  obtain ⟨hstep, -, -, hac, -⟩ := h
  exact ⟨step, hstep, v.fact a, hac ▸ List.mem_map_of_mem ha, rfl, rfl⟩

theorem map_freshArgs (hm : m.Plain) :
    n.freshArgs.map (Term.mapVars v.term) = step.drawn.map .name := by
  obtain ⟨hstep, -, hp, -⟩ := h
  have hname : ∀ f ∈ n.premises, f.pred = Pred.fresh → ∃ name, (v.fact f).args = [.name name] :=
    fun f hf hfresh => R.exists_name_of_fresh hm hstep (hp ▸ List.mem_map_of_mem hf) hfresh
  rw [freshArgs, Step.drawn, hp]
  generalize n.premises = ps at hname
  induction ps with
  | nil => rfl
  | cons f ps ih =>
    obtain ⟨hf, hps⟩ := List.forall_mem_cons.1 hname
    rw [List.map_cons, List.flatMap_cons, List.map_append, ← ih hps]
    by_cases hfresh : f.pred = Pred.fresh
    · obtain ⟨name, hargs⟩ := hf hfresh
      rw [List.filter_cons_of_pos (by simpa using hfresh), List.flatMap_cons, List.map_append,
        Fact.drawn_of_fresh (f := v.fact f) hfresh hargs]
      exact congrArg (· ++ _) hargs
    · rw [List.filter_cons_of_neg (by simpa using hfresh), Fact.drawn_of_ne (f := v.fact f) hfresh]
      rfl

end Node.SitsOn

namespace Execution.Fulfils

/-! ## Nothing is merged -/

theorem time_eq (h : R.Fulfils len S v) {i j : TimeVar} (he : S.find i = S.find j) :
    v.time i = v.time j := System.time_eq_of_find h.classes he

theorem coinciding? (h : R.Fulfils len S v) : S.coinciding? = none := by
  cases hab : S.coinciding? with
  | none => rfl
  | some p =>
    obtain ⟨hne, n, k, hn, hk, he⟩ := System.coinciding?_eq_some hab
    exact absurd (h.distinct _ _ n k hn hk (h.time_eq he)) hne

variable (hm : m.Plain)
include hm

theorem freshClash? (h : R.Fulfils len S v) : S.freshClash? = none := by
  cases hij : S.freshClash? with
  | none => rfl
  | some p =>
    obtain ⟨hne, t, ⟨a, n, ha, hi, hn⟩, b, k, hb, hj, hk⟩ := System.freshClash?_eq_some hij
    obtain ⟨s, hs⟩ := h.nodes a n ha
    obtain ⟨s', hs'⟩ := h.nodes b k hb
    have hn := hs.map_freshArgs hm ▸ List.mem_map_of_mem (f := Term.mapVars v.term) hn
    have hk := hs'.map_freshArgs hm ▸ List.mem_map_of_mem (f := Term.mapVars v.term) hk
    obtain ⟨x, hx, he⟩ := List.mem_map.1 hn
    obtain ⟨y, hy, he'⟩ := List.mem_map.1 hk
    cases he.trans he'.symm
    have hab := h.distinct a b n k ha hb (R.eq_of_mem_drawn hm hs.1 hs'.1 hx hy)
    rw [hab] at ha
    cases ha.symm.trans hb
    exact absurd (by rw [← hi, ← hj]) hne

/-! ## No contradiction is found -/

theorem drawsFreshTwice (h : R.Fulfils len S v) : S.drawsFreshTwice = false := by
  refine List.any_eq_false.2 fun ⟨id, n⟩ hn => ?_
  obtain ⟨step, hstep⟩ := h.nodes id n (System.mem_liveNodes.1 hn)
  have hnodup : n.freshArgs.Nodup := by
    refine List.Nodup.of_map (Term.mapVars v.term) ?_
    rw [hstep.map_freshArgs hm]
    exact (R.drawn_nodup hm hstep.1).map fun _ _ he => by cases he; rfl
  simpa using hnodup

omit hm in
theorem disequalitiesHold (h : R.Fulfils len S v) : S.disequalitiesHold = true := by
  refine List.all_eq_true.2 fun e he => bne_iff_ne.2 fun heq => h.disequalities e he ?_
  rw [heq]

omit hm in
theorem provided (h : R.Fulfils len S v) {e : Edge} (he : e ∈ SortedSet.toList S.edges) :
    ∃ n k f c, S.node? e.source.node = some n ∧ S.node? e.target.node = some k ∧ f.Stored ∧
      R.trace.premise? ⟨v.time k.time, e.target.idx⟩ = some f ∧
      n.conclusions[e.source.idx]? = some c ∧ c.isPersistent = f.isPersistent ∧
      R.provider ⟨v.time k.time, e.target.idx⟩ = ⟨v.time n.time, e.source.idx⟩ := by
  obtain ⟨n, k, f, hn, hk, hf, hstored, hp⟩ := h.edges e he
  obtain ⟨s, hs⟩ := h.nodes _ n hn
  obtain ⟨s', hs'⟩ := h.nodes _ k hk
  have hpremise := hs'.premise? hf
  have hprovides := (R.provides _ _ hpremise hstored).2
  rw [hp, hs.conclusion?] at hprovides
  obtain ⟨c, hc, hfact⟩ := Option.map_eq_some_iff.1 hprovides
  refine ⟨n, k, v.fact f, c, hn, hk, hstored, hpremise, hc, ?_, hp⟩
  exact (congrArg Fact.isPersistent hfact :)

omit hm in
theorem consumesOnce (h : R.Fulfils len S v) : S.consumesOnce = true := by
  refine decide_eq_true ?_
  rw [List.filter_map]
  refine List.Nodup.map_on ?_ ((SortedSet.nodup_toList S.edges).filter _)
  intro e he e' he' hsource
  obtain ⟨he, hused⟩ := List.mem_filter.1 he
  obtain ⟨he', -⟩ := List.mem_filter.1 he'
  obtain ⟨n, k, f, c, hn, hk, hf, hpremise, hc, hpers, hp⟩ := h.provided he
  obtain ⟨n', k', f', -, hn', hk', hf', hpremise', -, -, hp'⟩ := h.provided he'
  have hlinear : f.isPersistent = false := by
    rw [← hpers]
    simpa [hn, hc] using hused
  rw [← hsource, hn] at hn'
  cases hn'
  rw [← hsource] at hp'
  have htarget := R.linear _ _ f f' hpremise hpremise' hf hf' hlinear (hp.trans hp'.symm)
  simp only [Endpoint.mk.injEq] at htarget
  have hnode := h.distinct _ _ k k' hk hk' htarget.1
  obtain ⟨source, ⟨node, idx⟩⟩ := e
  obtain ⟨source', ⟨node', idx'⟩⟩ := e'
  obtain ⟨-, hidx⟩ := htarget
  simp only at hsource hnode hidx
  rw [hsource, hnode, hidx]

omit hm in
theorem isAcyclic (h : R.Fulfils len S v) : S.isAcyclic = true := by
  refine Precedence.acyclic_of_rank v.time fun p hp => ?_
  obtain ⟨q, hq, rfl⟩ := SortedSet.mem_toList_map.1 hp
  change v.time (S.find q.earlier) < v.time (S.find q.later)
  rw [h.classes, h.classes]
  exact h.less q hq

/-! ## Guarded formulas -/

omit hm in
theorem dedupGoals (h : R.Fulfils len S v) : R.Fulfils len S.dedupGoals v :=
  { h with
    steps := h.steps.dedupGoals
    goals := fun g hg => h.goals g (System.mem_dedupGoals hg) }

theorem saturate (h : R.Fulfils len S v) (hS : S.WellFormed m.theory) : R.Fulfils len S.saturate v := by
  have hsteps := (h.scope hS.scope).saturate.any
  obtain ⟨goals, next, applied, he, hgoals⟩ := @System.saturate_eq S
  rw [he] at hsteps ⊢
  refine { h with steps := hsteps, goals := List.forall_mem_append.2 ⟨h.goals, ?_⟩ }
  rw [← List.forall_mem_map (f := OpenGoal.goal) (P := fun g => g.Holds R _ v)]
  intro goal hgoal
  obtain ⟨g, hg, p, hp, rfl⟩ := hgoals goal hgoal
  refine System.sat_requirement (R.grounded hm) hS.scope (hS.scope.guarded g hg) h.sorts h.classes
    (fun id n hn a ha => ?_) hp (h.guarded g hg)
  obtain ⟨step, hstep⟩ := h.nodes id n hn
  exact hstep.emits ha

theorem simplifyStep (h : R.Fulfils len S v) :
    S.simplifyStep m = .stable S.dedupGoals.saturate := by
  unfold System.simplifyStep
  rw [h.coinciding?]
  simp only [h.freshClash? hm, System.settle, h.drawsFreshTwice hm, h.dedupGoals.disequalitiesHold,
    h.dedupGoals.consumesOnce, h.dedupGoals.isAcyclic]
  rfl

theorem simplify (h : R.Fulfils len S v) (hS : S.WellFormed m.theory) :
    S.dedupGoals.saturate ∈ (S.simplify m).systems ∧ R.Fulfils len S.dedupGoals.saturate v := by
  have hdedup : S.dedupGoals.WellFormed m.theory := ⟨hS.pos, hS.scope.dedupGoals⟩
  refine ⟨?_, h.dedupGoals.saturate hm hdedup⟩
  unfold System.simplify
  cases S.liveNodes.length <;> rw [System.simplifyWithin, h.simplifyStep hm] <;>
    exact List.mem_singleton_self _

end Execution.Fulfils

end ProtocolProver
