import ProtocolProver.Proofs.EndlessLearning
import ProtocolProver.Proofs.Merging
import ProtocolProver.Proofs.ReplayedLearning
import ProtocolProver.Proofs.Witness

/-!
# The budget of a search

The search goes down as long as there are goals, and deepens as long as systems were cut off. Every
visit is a step, so the steps that are left bound the depth, and the bound on nodes grows up to the
highest one, so there are only so many rounds. `Search.Runs` says that a search ends with no limit on
the depth or on the rounds, however its threads are scheduled. It calls `expand` at most once for
each step that the budget allows.

What the budget does not bound is normalization, and learning, when the trace of a solved system is
replayed. The search ends within its budget if both end (`search_within_budget`), as they do for the
equations of packs, and there is a model in which every term has a normal form and the search does
not end (`endless_search`).
-/

namespace ProtocolProver

namespace Search

variable {t : Task} {check : Trace → Option Bool} {bound n : Nat} {path : Path} {S : System}
  {p : Progress}

/-- The replay of a trace that the search comes to does not end. -/
def Task.Hangs (t : Task) (trace : Trace) : Prop :=
  ∃ S, System.Reachable t.model t.target S ∧ S.selectGoal? t.tactic = none ∧
    S.realize t.model = trace ∧ ¬ReplayEnds t.model {} 0 trace

open Classical in
/-- Whether a trace can be verified, if its replay ends. -/
noncomputable def Task.check? (t : Task) (trace : Trace) : Option Bool :=
  if t.Hangs trace then none else some (verifies t trace)

/-- The search ends with a result after rounds with the given bounds on nodes. Every term has a
normal form, and no visit is endless, be it for the depth of the tree or for the check of a trace. -/
structure Runs (t : Task) (bounds : List Nat) (result : SearchResult) : Prop where
  normalizes : ∀ u, ∃ v, t.model.theory.Normalizes u v
  deepens : ∃ depth, Deepens t t.check? depth ((System.initial t.model t.target).simplify t.model)
    (max 1 (min t.budget.maxNodes 4)) {} bounds result

/-! ## Within the budget -/

/-- If every term has a normal form, and learning ends for the traces that are checked, then the
search ends. It calls `expand` at most as often as the budget has steps, gives up for the steps only
after more of them, and for the nodes only after a round with the highest bound. -/
theorem search_within_budget (t : Task) (hnormal : ∀ u, ∃ v, t.model.theory.Normalizes u v)
    (hends : ∀ S, System.Reachable t.model t.target S → S.selectGoal? t.tactic = none →
      ReplayEnds t.model {} 0 (S.realize t.model)) :
    (∃ bounds, Runs t bounds (search t) ∧
      ((search t).outcome = .inconclusive .nodeLimit →
        bounds.getLast? = some (max 1 t.budget.maxNodes))) ∧
    (search t).statistics.expansions ≤ t.budget.maxSteps ∧
    ((search t).outcome = .inconclusive .stepLimit → t.budget.maxSteps < (search t).steps) ∧
    ∀ S : System, S.Simplifies t.model (S.simplify t.model) := by
  have hcheck : t.check? = fun trace => some (verifies t trace) := by
    funext trace
    rw [Task.check?, if_neg]
    rintro ⟨S, hS, hsolved, rfl, hendless⟩
    exact hendless (hends S hS hsolved)
  obtain ⟨bounds, result, hresult, hdeepens, hjustifies⟩ := exists_within (explains_reachable t)
    (Nat.lt_succ_self _) (Nat.lt_succ_self _)
  obtain rfl : search t = result := by rw [search, hresult, Option.getD_some]
  exact ⟨⟨bounds, ⟨hnormal, _, hcheck ▸ hdeepens⟩, hjustifies.nodeLimit⟩, hjustifies.paid,
    hjustifies.stepLimit, System.simplifies_simplify t.model⟩

/-- A trace of two steps is looked for with one node at most. -/
def relayTask : Task := ⟨relayModel, relayTarget, none, ⟨10, none, 1⟩, {}⟩

/-- The search gives up after a round in which systems have one node. -/
theorem search_within_budget_relay :
    (search relayTask).outcome = .inconclusive .nodeLimit ∧
    (search relayTask).statistics.expansions ≤ 10 ∧
    ∃ bounds, Runs relayTask bounds (search relayTask) ∧ bounds.getLast? = some 1 := by
  have hcompile : relaySource.compile ∅ = .ok ⟨relayModel, []⟩ := rfl
  have htarget : relayTarget.Has relayModel.theory.publicShape :=
    List.forall_mem_singleton.2 (.var trivial)
  have houtcome : (search relayTask).outcome = .inconclusive .nodeLimit := by decide +kernel
  have hrules : Theory.ofRules .builtin [] {} = .ok relayModel.theory := rfl
  have hends : ∀ S, System.Reachable relayModel relayTarget S →
      ReplayEnds relayModel {} 0 (S.realize relayModel) := fun S hS =>
    hS.replayEnds (c := ⟨relayModel, []⟩) hcompile rfl htarget
  obtain ⟨⟨bounds, hruns, hnodes⟩, hcalls, -⟩ := search_within_budget relayTask
    (Theory.shrinking_of_ofRules hrules nofun nofun).exists_normalizes fun S hS _ => hends S hS
  exact ⟨houtcome, hcalls, bounds, hruns, hnodes houtcome⟩

/-! ## Beyond the budget -/

/-- A rule sends a fresh value under eight `g`. -/
def coilSource : Surface.Model where
  name := "coil"
  functions := [⟨"f", 1, false⟩, ⟨"g", 1, false⟩, ⟨"h", 1, false⟩]
  equations :=
    [⟨"release", ⟨"f", [⟨"g", [⟨"h", [⟨"x", []⟩]⟩]⟩]⟩, ⟨"x", []⟩⟩,
      ⟨"unwind", ⟨"h", [⟨"g", [⟨"g", [⟨"y", []⟩]⟩]⟩]⟩, ⟨"y", []⟩⟩]
  rules :=
    [{ name := "Send", premises := [⟨"Fr", false, [⟨"~n", []⟩]⟩],
       actions := [⟨"Sent", false, [⟨"~n", []⟩]⟩],
       conclusions := [⟨"Out", false, [(fun t => ⟨"g", [t]⟩)^[8] ⟨"~n", []⟩]⟩] }]

def coilRule : Rule :=
  ⟨"Send", .protocol, [.linear Pred.fresh [.var (.fresh "n")]],
    [.linear "Sent" [.var (.fresh "n")]], [.linear Pred.output [wind^[8] (.var (.fresh "n"))]],
    none, [.fresh "n"]⟩

def coilModel : Model := ⟨coilTheory, [coilRule, .learn], [], [], [], 1⟩

def coilTask : Task := ⟨coilModel, relayTarget, none, ⟨100, none, 4⟩, {}⟩

/-- The trace of the solved system: the rule is applied once. -/
def coilStep : Step :=
  let a : Name := .fresh "n" 2
  ⟨"Send", [(.fresh "n", .name a)], [.linear Pred.fresh [.name a]], [.linear "Sent" [.name a]],
    [.linear Pred.output [coil a 8]]⟩

theorem not_replayEnds_coilStep : ¬ReplayEnds coilModel {} 0 [coilStep] := by
  rintro ⟨hlearns, -⟩
  let σ : Subst := SortedMap.ofList coilStep.subst
  have hground : ∀ f ∈ coilRule.facts, (f.instantiate coilTheory σ).isGround = true := by
    decide +kernel
  obtain ⟨f, hf, hconclusions⟩ : ∃ f, fire coilTheory {} coilRule σ = .ok f ∧
      f.conclusions = [.linear Pred.output [coil (.fresh "n" 2) 8]] := by
    rw [fire_of_ground hground]
    exact ⟨_, rfl, by decide +kernel⟩
  have hsent := hlearns coilRule f rfl hf
  rw [hconclusions] at hsent
  exact Knowledge.not_learns_coil rfl _ hsent.1

/-- Alone from the progress, the thread does not come to an end. -/
def Stuck {α : Type} (thread : Thread Progress α) (p : Progress) : Prop :=
  thread.process.run p = none

section Stuck

variable {α β : Type} {thread : Thread Progress α} {f : α → Thread Progress β}

theorem Stuck.bind (h : Stuck thread p) : Stuck (thread >>= f) p := by
  have hbind : ∀ (q : Process Progress α) (p : Progress), q.run p = none →
      (q.bind fun a => (f a).process).run p = none := by
    intro q
    induction q with
    | done a => exact fun _ h => nomatch h
    | access update next ih => exact fun p h => ih p _ h
    | endless => exact fun _ _ => rfl
  rw [Stuck, Thread.process_bind]
  exact hbind _ p h

theorem Stuck.modify {update : Progress → Progress} {f : Unit → Thread Progress β}
    (h : Stuck (f ()) (update p)) : Stuck (Thread.modify update >>= f) p := h

theorem Stuck.all {ι : Type} {turns : ι → List Bool} {i : ι} {rest : List (ι × Thread Progress α)}
    (h : Stuck thread p) (hturns : turns i = []) :
    Stuck (Thread.all turns ((i, thread) :: rest)) p := by
  refine Stuck.bind ?_
  rw [hturns]
  exact Stuck.bind (f := fun a => Thread.all turns rest >>= fun as => pure (a, as)) h

end Stuck

/-- Nothing was found or refuted in the first `i` steps of a search. -/
structure Progress.Early (i : Nat) (p : Progress) : Prop where
  steps : p.steps = i
  halted : p.halted = none
  best : p.best = none
  refuted : p.refuted = ∅

variable {i : Nat}

theorem stuck_tick {β : Type} {f : Bool → Thread Progress β} (hp : p.Early i)
    (hsteps : i < t.budget.maxSteps) (htime : t.budget.timeout = none)
    (h : Stuck (f false) { p with steps := p.steps + 1 }) : Stuck (tick t >>= f) p := by
  obtain ⟨rfl, hhalted, -⟩ := hp
  have hspent : t.spent? (p.steps + 1) = none := by
    rw [Task.spent?, htime, if_neg (by omega)]
    rfl
  simp only [Stuck, tick, Bind.bind, Thread.process, Thread.access, Process.run, hspent]
  have hsome : p.halted.isSome = false := by rw [hhalted]; rfl
  change (f p.halted.isSome).process.run { p with steps := p.steps + 1 } = none
  rw [hsome]
  exact h

/-- Systems of which the first visit is stuck. -/
theorem stuck_visitAll {visit : Path → System → Thread Progress Subtree} {turns : Path → List Bool}
    {r : Subtree} {rest : List (Path × System)} (hr : r.witness = none) (hturns : turns path = [])
    (h : ∀ jobs, Stuck (visit path S) { p with jobs }) :
    Stuck (visitAll visit turns r ((path, S) :: rest)) p := by
  unfold visitAll
  change Stuck (Bind.bind (ite _ _ _) _) p
  split
  · exact (h p.jobs).bind.bind
  · change Stuck (ite (r.witness.isSome = true) _ _) p
    rw [hr, if_neg nofun]
    exact .modify (.bind (.all (.bind (h _)) hturns))

/-- The search goes on from the system to the first way to meet its first goal. -/
abbrev Passes (t : Task) (bound : Nat) (S : System) : Prop :=
  S.liveNodes.length ≤ bound ∧ S.selectGoal? t.tactic = some 0 ∧
    (S.expand t.model 0).systems.isEmpty = false

/-- A search whose first ways lead to a system with a trace that cannot be checked does not end,
whatever its depth. The induction is on the number of goals on the way. -/
theorem stuck_of_advance (htime : t.budget.timeout = none)
    (hturns : ∀ path, t.host.turns bound path = []) :
    ∀ {n depth i : Nat} {path : Path} {S : System} {p : Progress},
      p.Early i → i + n < t.budget.maxSteps →
      (∀ j < n, Passes t bound ((System.advance t.model)^[j] S)) →
      ((System.advance t.model)^[n] S).liveNodes.length ≤ bound →
      ((System.advance t.model)^[n] S).selectGoal? t.tactic = none →
      check (((System.advance t.model)^[n] S).realize t.model) = none →
      Stuck (visit t check bound depth path S) p
  | _, 0, _, _, _, _, _, _, _, _, _, _ => rfl
  | n, depth + 1, i, path, S, p, hp, hi, hway, hlast, hsolved, hcheck => by
    have hsmall : S.liveNodes.length ≤ bound := by
      cases n with
      | zero => exact hlast
      | succ n => exact (hway 0 (Nat.succ_pos n)).1
    have hknown : ∀ f, p.isRefuted f = false := by
      intro f
      rw [Progress.isRefuted, hp.refuted]
      rfl
    unfold visit
    change Stuck (ite (p.isSuperseded path = true) _ _) p
    rw [if_neg (by simp [Progress.isSuperseded, hp.best])]
    refine stuck_tick hp (by omega) htime ?_
    rw [if_neg Bool.false_ne_true, if_neg (by omega)]
    change Stuck (ite (p.isRefuted S.fingerprint = true) _ _) _
    rw [hknown, if_neg Bool.false_ne_true]
    cases n with
    | zero =>
      simp only [Function.iterate_zero, id] at hsolved hcheck
      simp only [hsolved, solved, hcheck]
      rfl
    | succ n =>
      obtain ⟨-, hfirst, hne⟩ := hway 0 (Nat.succ_pos n)
      simp only [Function.iterate_zero, id] at hfirst hne
      simp only [hfirst]
      refine .modify (.bind ?_)
      obtain ⟨S', rest, hsystems⟩ : ∃ S' rest, (S.expand t.model 0).systems = S' :: rest :=
        List.exists_cons_of_ne_nil (by simpa using hne)
      obtain rfl : S' = S.advance t.model := by rw [System.advance, hsystems]; rfl
      have hearly : ∀ branches jobs,
          { Progress.record S 0 branches { p with steps := p.steps + 1 } with jobs }.Early (i + 1) := by
        intro branches jobs
        unfold Progress.record
        split <;> exact ⟨congrArg (· + 1) hp.steps, hp.halted, hp.best, hp.refuted⟩
      rw [hsystems]
      exact stuck_visitAll rfl (hturns _) fun jobs => stuck_of_advance htime hturns (hearly _ jobs)
        (by omega) (fun j hj => hway (j + 1) (Nat.succ_lt_succ hj)) hlast hsolved hcheck

/-- Every term of the model has a normal form, and its search does not end. -/
theorem endless_search : coilSource.compile ∅ = .ok ⟨coilModel, []⟩ ∧
    (∀ u, ∃ v, coilModel.theory.Normalizes u v) ∧
    ∀ bounds result, ¬Runs coilTask bounds result := by
  refine ⟨rfl, shrinking_coilTheory.exists_normalizes, fun bounds result hruns => ?_⟩
  obtain ⟨depth, hdeepens⟩ := hruns.deepens
  let S (j : Nat) : System := (System.advance coilModel)^[j] (System.start coilModel relayTarget)
  have hway : ∀ j < 3, Passes coilTask 4 (S j) := by decide +kernel
  have hsmall : (S 3).liveNodes.length ≤ 4 := by decide +kernel
  have hsolved : (S 3).selectGoal? none = none := by decide +kernel
  have htrace : (S 3).realize coilModel = [coilStep] := by decide +kernel
  have hstart : ((System.initial coilModel relayTarget).simplify coilModel).systems.isEmpty = false := by
    decide +kernel
  have hcheck : coilTask.check? ((S 3).realize coilModel) = none :=
    if_pos ⟨S 3, System.reachable_advance hstart 3 fun j hj => (hway j hj).2.2, hsolved, rfl,
      htrace ▸ not_replayEnds_coilStep⟩
  have hround : Stuck (round coilTask coilTask.check? depth
      ((System.initial coilModel relayTarget).simplify coilModel) 4) {} := by
    obtain ⟨S', rest, hsystems⟩ := List.exists_cons_of_ne_nil (by simpa using hstart)
    obtain rfl : S' = S 0 := by simp only [S, Function.iterate_zero, id, System.start, hsystems]; rfl
    rw [round, hsystems]
    exact .bind (.bind (stuck_of_advance rfl (fun _ => rfl) ⟨rfl, rfl, rfl, rfl⟩ (by decide) hway
      hsmall hsolved hcheck))
  cases hdeepens with
  | last ends _ => cases hround.symm.trans ends
  | deeper ends _ _ => cases hround.symm.trans ends

end Search

end ProtocolProver
