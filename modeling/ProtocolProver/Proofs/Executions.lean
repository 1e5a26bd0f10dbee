import ProtocolProver.Proofs.RuleConditions
import ProtocolProver.Proofs.ClassicalTruth

/-!
# Executions

An execution is a trace that replays, with a conclusion of an earlier step for every premise that
was taken from the state (`Execution`). What the adversary sends at a step it derives from the
messages of the earlier ones (`Execution.derives_of_input`), and the step has ground values of the
right sorts for the variables of its rule, under which the condition of the rule is true
(`Execution.exists_stepValues`).
-/

namespace ProtocolProver

/-- Facts that a premise takes from the state: neither messages of the adversary nor fresh values. -/
def Fact.Stored (f : Fact) : Prop := f.pred ≠ Pred.input ∧ f.pred ≠ Pred.fresh

/-- No rule or restriction has a destructor, and conditions of rules speak of terms only. -/
structure Model.Plain (m : Model) : Prop where
  standard : m.theory.Standard
  free : m.theory.Free
  shallow : m.theory.Shallow
  scope : m.InScope
  draws : m.DrawsSingly
  conditions : ∀ r ∈ m.rules, ∀ f, r.restrict = some f → f.Static
  bound : ∀ r ∈ m.rules, ∀ x ∈ r.vars,
    x.sort = .pub ∨ ∃ f ∈ r.premises, ∃ t ∈ f.args, x ∈ t.occurrences
  indices : ∀ r ∈ m.rules, ∀ x ∈ r.vars, x.idx = 0

namespace Trace

/-- Premise number `p.idx` of step number `p.node`. -/
def premise? (tr : Trace) (p : Endpoint) : Option Fact :=
  tr[p.node]?.bind fun step => step.premises[p.idx]?

def conclusion? (tr : Trace) (p : Endpoint) : Option Fact :=
  tr[p.node]?.bind fun step => step.conclusions[p.idx]?

end Trace

/-- A trace that replays, with an earlier conclusion for every premise that was taken from the state.
No two premises use up the same conclusion. -/
structure Execution (m : Model) where
  trace : Trace
  states : List State
  replays : replay m trace = .ok states
  provider : Endpoint → Endpoint
  provides : ∀ p f, trace.premise? p = some f → f.Stored →
    (provider p).node < p.node ∧ trace.conclusion? (provider p) = some f
  linear : ∀ p q f g, trace.premise? p = some f → trace.premise? q = some g → f.Stored → g.Stored →
    f.isPersistent = false → provider p = provider q → p = q

/-- The normal form of what the step puts in for a variable. -/
def Step.value (T : Theory) (step : Step) (x : Var) : Term :=
  T.normalize (Subst.value (.ofList step.subst) x)

/-- The steps of a trace give the variables of their rules values of the right sorts. -/
def Trace.RespectsSorts (tr : Trace) (m : Model) : Prop :=
  ∀ step ∈ tr, ∀ r, m.rule? step.rule = some r → ∀ x ∈ r.vars,
    x.sort.admits (step.value m.theory x).sort = true

instance (tr : Trace) (m : Model) : Decidable (tr.RespectsSorts m) :=
  decidable_of_iff (∀ step ∈ tr, ∀ r ∈ (m.rule? step.rule).toList, ∀ x ∈ r.vars,
    x.sort.admits (step.value m.theory x).sort = true) (by simp [Trace.RespectsSorts])

namespace State

variable {T : Theory} {M : Term → Prop}

theorem sound_addConclusions (hT : T.Standard) (hfree : T.Free) (hshallow : T.Shallow) :
    ∀ {cs : List Fact} {s : State}, s.knowledge.Sound T M →
      (∀ f ∈ cs, f.pred = Pred.output → ∀ t ∈ f.args, T.Value t ∧ M t) →
      (cs.foldl (·.addConclusion T) s).knowledge.Sound T M
  | [], _, hs, _ => hs
  | f :: cs, s, hs, hcs => by
    obtain ⟨hf, hcs⟩ := List.forall_mem_cons.1 hcs
    have hfold : ∀ (ts : List Term) (K : Knowledge), K.Sound T M → (∀ t ∈ ts, T.Value t ∧ M t) →
        (ts.foldl (fun K t => K.learn T t) K).Sound T M := by
      intro ts
      induction ts with
      | nil => exact fun K hK _ => hK
      | cons t ts ih =>
        intro K hK hts
        obtain ⟨ht, hts⟩ := List.forall_mem_cons.1 hts
        exact ih _ (hK.learn hT hfree hshallow ht.1 ht.2) hts
    rw [List.foldl_cons]
    refine sound_addConclusions hT hfree hshallow ?_ hcs
    unfold addConclusion
    split
    · exact hfold f.args s.knowledge hs (hf ‹_›)
    · exact hs

end State

namespace Execution

variable {m : Model} (R : Execution m)

/-- The messages that were sent before step `n`. -/
def sent (n : Nat) (t : Term) : Prop :=
  ∃ k < n, ∃ step, R.trace[k]? = some step ∧ ∃ f ∈ step.conclusions, f.pred = Pred.output ∧ t ∈ f.args

theorem sent_mono {n k : Nat} (h : n ≤ k) {t : Term} (ht : R.sent n t) : R.sent k t := by
  obtain ⟨j, hj, ht⟩ := ht
  exact ⟨j, by omega, ht⟩

/-- Truth on the trace of the execution. -/
def interpretation : Interpretation := .ofTrace m.theory R.trace

theorem exists_fires {k : Nat} {step : Step} (hk : R.trace[k]? = some step) :
    ∃ s s' r, R.states[k]? = some s ∧ R.states[k + 1]? = some s' ∧ step.Fires m r s s' := by
  obtain ⟨s, s', hs, hs', hstep⟩ := replayFrom_step R.replays hk
  obtain ⟨r, hr⟩ := fires_of_replayStep hstep
  exact ⟨s, s', r, hs, hs', hr⟩

variable (hm : m.Plain)
include hm

theorem hasValues : R.trace.HasValues m.theory :=
  hasValues_of_replay hm.standard hm.free R.replays

theorem grounded : R.interpretation.Grounded :=
  Interpretation.grounded_ofTrace hm.free (R.hasValues hm)

theorem sound : ∀ {k : Nat} {s : State}, R.states[k]? = some s →
    s.knowledge.Sound m.theory (R.sent k)
  | 0, s, h => by
    cases (head?_replayFrom R.replays).symm.trans h
    intro t ht
    cases ht
  | k + 1, s', h => by
    have hlt := (List.getElem?_eq_some_iff.1 h).1
    rw [length_replayFrom R.replays] at hlt
    have hk : R.trace[k]? = some R.trace[k] := List.getElem?_eq_getElem (by omega)
    obtain ⟨s, s'', r, hs, hs', hr⟩ := R.exists_fires hk
    cases hs'.symm.trans h
    obtain ⟨s₁, hs₁, rfl⟩ := hr.runs
    have hknown := (State.usePremises_uses (hr.singly hm.draws) hs₁).knowledge
    refine State.sound_addConclusions hm.standard hm.free hm.shallow
      (hknown ▸ (sound hs).mono fun t => R.sent_mono (Nat.le_succ k))
      fun f hf hout t ht => ⟨?_, k, Nat.lt_succ_self k, _, hk, f, hf, hout, ht⟩
    exact R.hasValues hm _ (List.mem_of_getElem? hk) f (List.mem_append_right _ hf) t ht

theorem derives_of_input {k : Nat} {step : Step} (hk : R.trace[k]? = some step) {f : Fact}
    (hf : f ∈ step.premises) (hin : f.pred = Pred.input) {t : Term} (ht : t ∈ f.args) :
    m.theory.Derives (R.sent k) t := by
  obtain ⟨s, s', r, hs, -, hr⟩ := R.exists_fires hk
  obtain ⟨s₁, hs₁, -⟩ := hr.runs
  have hd := (State.usePremises_uses (hr.singly hm.draws) hs₁).received f hf hin t ht
  have hvalue := R.hasValues hm step (List.mem_of_getElem? hk) f
    (List.mem_append_left _ (List.mem_append_left _ hf)) t ht
  rw [Knowledge.derives, hvalue.normalize hm.free] at hd
  exact (R.sound hm hs).derivable hm.free hd

/-! ## Fresh values -/

theorem drawn_nodup {k : Nat} {step : Step} (hk : R.trace[k]? = some step) : step.drawn.Nodup :=
  (List.nodup_flatMap.1 (nodup_drawn hm.draws R.replays).1).1 step (List.mem_of_getElem? hk)

/-- No fresh value is drawn by two steps. -/
theorem eq_of_mem_drawn {i j : Nat} {s s' : Step} (hi : R.trace[i]? = some s)
    (hj : R.trace[j]? = some s') {n : Name} (hn : n ∈ s.drawn) (hn' : n ∈ s'.drawn) : i = j := by
  have hpair := (List.nodup_flatMap.1 (nodup_drawn hm.draws R.replays).1).2
  have hlt : ∀ {i j : Nat} {s s' : Step}, R.trace[i]? = some s → R.trace[j]? = some s' →
      n ∈ s.drawn → n ∈ s'.drawn → ¬i < j := by
    intro i j s s' hi hj hn hn' hij
    obtain ⟨hi', rfl⟩ := List.getElem?_eq_some_iff.1 hi
    obtain ⟨hj', rfl⟩ := List.getElem?_eq_some_iff.1 hj
    exact List.pairwise_iff_getElem.1 hpair i j hi' hj' hij hn hn'
  have := hlt hi hj hn hn'
  have := hlt hj hi hn' hn
  omega

theorem exists_name_of_fresh {k : Nat} {step : Step} (hk : R.trace[k]? = some step) {f : Fact}
    (hf : f ∈ step.premises) (hfresh : f.pred = Pred.fresh) : ∃ n, f.args = [.name n] := by
  obtain ⟨s, s', r, -, -, hr⟩ := R.exists_fires hk
  obtain ⟨s₁, hs₁, -⟩ := hr.runs
  obtain ⟨name, idx, h⟩ := (State.usePremises_uses (hr.singly hm.draws) hs₁).fresh f hf hfresh
  exact ⟨_, h⟩

end Execution

/-! ## The values of rule variables -/

/-- Some name of the sort of the variable. -/
def Var.someName (x : Var) : Term :=
  .name (if x.sort = .fresh then .fresh x.name 0 else .pub x.name)

theorem Var.admits_someName (x : Var) : x.sort.admits x.someName.sort = true := by
  rw [someName]
  cases x.sort <;> rfl

/-- The step is the rule under the given values. -/
structure Step.InstanceOf (step : Step) (r : Rule) (w : Var → Term) : Prop where
  premises : step.premises = r.premises.map (·.mapTerms (Term.mapVars w))
  actions : step.actions = r.actions.map (·.mapTerms (Term.mapVars w))
  conclusions : step.conclusions = r.conclusions.map (·.mapTerms (Term.mapVars w))

namespace Step

/-- The values of the rule variables of a step, with `ρ` for what it leaves open. -/
def closed (T : Theory) (step : Step) (r : Rule) (ρ : Var → Term) (x : Var) : Term :=
  if x ∈ r.vars then (step.value T x).mapVars ρ else x.someName

variable {m : Model} {step : Step} {r : Rule} {s s' : State} {ρ : Var → Term}

theorem Fires.mem_rules (h : step.Fires m r s s') : r ∈ m.rules := List.mem_of_find?_eq_some h.rule

theorem normalize_apply_subst {t : Term} (ht : t.Has m.theory.plainShape) :
    m.theory.normalize (Subst.apply (.ofList step.subst) t) = t.mapVars (step.value m.theory) :=
  Theory.normalize_mapVars_constructors ht _

variable (hm : m.Plain) (hfires : step.Fires m r s s')
include hm hfires

theorem Fires.value_of_mem {f : Fact} (hf : f ∈ r.facts) {t : Term} (ht : t ∈ f.args) {x : Var}
    (hx : x ∈ t.occurrences) : m.theory.Value (step.value m.theory x) := by
  have hground := List.all_eq_true.1 (hfires.ground f hf) _ (List.mem_map_of_mem ht)
  have hvalue := hm.standard.value_of_isGround hm.free hground
  rw [normalize_apply_subst ((hm.scope.rules r hfires.mem_rules).plain.facts hf t ht)] at hvalue
  exact hvalue.of_mapVars x hx

theorem Fires.closed_of_mem {f : Fact} (hf : f ∈ r.facts) {t : Term} (ht : t ∈ f.args) {x : Var}
    (hx : x ∈ t.occurrences) : step.closed m.theory r ρ x = step.value m.theory x := by
  rw [closed, if_pos ((hm.scope.rules r hfires.mem_rules).facts f hf t ht x hx),
    (hfires.value_of_mem hm hf ht hx).mapVars]

theorem Fires.instanceOf_closed : step.InstanceOf r (step.closed m.theory r ρ) := by
  have hfact : ∀ f ∈ r.facts, f.instantiate m.theory (.ofList step.subst) =
      f.mapTerms (Term.mapVars (step.closed m.theory r ρ)) := by
    intro f hf
    refine congrArg (Fact.mk f.pred f.multiplicity) (List.map_congr_left fun t ht => ?_)
    rw [normalize_apply_subst ((hm.scope.rules r hfires.mem_rules).plain.facts hf t ht)]
    exact Term.mapVars_congr fun x hx => (hfires.closed_of_mem hm hf ht hx).symm
  simp only [Rule.facts, List.forall_mem_append] at hfact
  exact ⟨hfires.premises.trans (List.map_congr_left hfact.1.1),
    hfires.actions.trans (List.map_congr_left hfact.1.2),
    hfires.conclusions.trans (List.map_congr_left hfact.2)⟩

/-- What is left open has the sort of public values, and becomes a public name. -/
theorem Fires.value_closed (hname : ∀ x, ∃ name, ρ x = .name (.pub name))
    (hsort : ∀ x ∈ r.vars, x.sort.admits (step.value m.theory x).sort = true) (x : Var) :
    m.theory.Value (step.closed m.theory r ρ x) ∧
      x.sort.admits (step.closed m.theory r ρ x).sort = true := by
  by_cases hx : x ∈ r.vars
  · rcases hm.bound r hfires.mem_rules x hx with hpub | ⟨f, hf, t, ht, hxt⟩
    · have hs := hsort x hx
      have hopen : ∃ name, (step.value m.theory x).mapVars ρ = .name (.pub name) := by
        rw [hpub] at hs
        cases hv : step.value m.theory x with
        | var y => exact hname y
        | name n =>
          cases n with
          | pub name => exact ⟨name, rfl⟩
          | fresh => rw [hv] at hs; cases hs
        | app => rw [hv] at hs; cases hs
      obtain ⟨name, he⟩ := hopen
      rw [closed, if_pos hx, he, hpub]
      exact ⟨.name _, rfl⟩
    · have hf : f ∈ r.facts := List.mem_append_left _ (List.mem_append_left _ hf)
      rw [hfires.closed_of_mem hm hf ht hxt]
      exact ⟨hfires.value_of_mem hm hf ht hxt, hsort x hx⟩
  · rw [closed, if_neg hx]
    exact ⟨.name _, x.admits_someName⟩

/-- The condition of the rule is true under the values of its variables. -/
theorem Fires.sat_condition {f : Nnf} (hf : r.restrict = some f)
    (hρ : ∀ t ∈ f.terms, ∀ u ∈ f.terms,
      (t.mapVars (step.value m.theory)).mapVars ρ = (u.mapVars (step.value m.theory)).mapVars ρ →
        t.mapVars (step.value m.theory) = u.mapVars (step.value m.theory))
    (hvalue : ∀ x, m.theory.Value (step.closed m.theory r ρ x)) {I : Interpretation}
    (hI : I.theory = m.theory) {v : Valuation}
    (hv : ∀ x ∈ r.vars, v.term x = step.closed m.theory r ρ x) : f.Sat I v := by
  have hscope := hm.scope.rules r hfires.mem_rules
  have hstatic := hm.conditions r hfires.mem_rules f hf
  have hplain := hscope.plain.restrict f hf
  have hallowed := hfires.allowed
  rw [Rule.allows, hf] at hallowed
  refine hstatic.sat_of_holds hallowed (ρ := ρ) (fun t ht u hu => ?_) fun t ht => ?_
  · rw [normalize_apply_subst (hplain t ht), normalize_apply_subst (hplain u hu)]
    exact hρ t ht u hu
  · rw [hI, normalize_apply_subst (hplain t ht), Term.mapVars_mapVars]
    refine (Theory.normalize_mapVars_constructors (hplain t ht) v.term).trans
      (Term.mapVars_congr fun x hx => ?_)
    have hx := hstatic.terms_scoped (hscope.condition f hf) t ht x hx
    rw [hv x hx, (hvalue x).normalize hm.free, closed, if_pos hx]

end Step

/-- A step is its rule under ground values of the right sorts, which satisfy the condition. -/
theorem Execution.exists_stepValues {m : Model} (R : Execution m) (hm : m.Plain)
    (hR : R.trace.RespectsSorts m) {k : Nat} {step : Step} (hk : R.trace[k]? = some step) :
    ∃ (r : Rule) (w : Var → Term),
      m.rule? step.rule = some r ∧ step.InstanceOf r w ∧ (∀ x, m.theory.Value (w x)) ∧
      RespectsSorts w ∧ ∀ f, r.restrict = some f → ∀ v : Valuation,
        (∀ x ∈ r.vars, v.term x = w x) → f.Sat R.interpretation v := by
  obtain ⟨s, s', r, -, -, hr⟩ := R.exists_fires hk
  obtain ⟨ρ, hname, hρ⟩ := Term.exists_newNames
    ((r.restrict.toList.flatMap Nnf.terms).map (Term.mapVars (step.value m.theory)))
  have hvalue := hr.value_closed hm hname (hR step (List.mem_of_getElem? hk) r hr.rule)
  refine ⟨r, step.closed m.theory r ρ, hr.rule, hr.instanceOf_closed hm, fun x => (hvalue x).1,
    fun x => (hvalue x).2, fun f hf v hv => ?_⟩
  refine hr.sat_condition hm hf (fun t ht u hu => hρ _ ?_ _ ?_) (fun x => (hvalue x).1) rfl hv
  · rw [hf]
    exact List.mem_map_of_mem (by simpa using ht)
  · rw [hf]
    exact List.mem_map_of_mem (by simpa using hu)

end ProtocolProver
