import ProtocolProver.Proofs.RunOrder

/-!
# Where premises come from

In a trace that replays, every fact that a premise takes from the state is a conclusion of an earlier
step. A linear fact is used at most as often as it was concluded before (`count_used_le`), so its uses
can be given its conclusions in order. This makes an execution of the trace (`Execution.of_replay`).
-/

namespace ProtocolProver

theorem Fact.count_taken {f : Fact} (hf : f.Stored) (ps : List Fact) :
    (ps.flatMap Fact.taken).count f = ps.count f := by
  induction ps with
  | nil => rfl
  | cons g ps ih =>
    rw [List.flatMap_cons, List.count_append, ih, taken]
    split
    · rename_i hg
      rw [List.count_cons_of_ne, List.count_nil, Nat.zero_add]
      rintro rfl
      exact hg.elim hf.2 hf.1
    · rw [← List.count_append]
      rfl

theorem Fact.kept_sublist (cs : List Fact) : (cs.flatMap Fact.kept).Sublist cs := by
  induction cs with
  | nil => exact .slnil
  | cons g cs ih =>
    rw [List.flatMap_cons, kept]
    split
    · exact ih.cons g
    · exact ih.cons_cons g

namespace Trace

/-- The premises of the first steps. -/
def used (tr : Trace) (n : Nat) : List Fact := (tr.take n).flatMap Step.premises

def left (tr : Trace) (n : Nat) : List Fact := (tr.take n).flatMap Step.conclusions

variable {tr : Trace} {n : Nat} {step : Step} {p q e : Endpoint} {f g : Fact}

theorem used_succ (h : tr[n]? = some step) : tr.used (n + 1) = tr.used n ++ step.premises := by
  rw [used, List.take_add_one, h, List.flatMap_append]
  simp [used]

theorem exists_conclusion (h : f ∈ tr.left n) : ∃ e, e.node < n ∧ tr.conclusion? e = some f := by
  obtain ⟨step, hstep, hf⟩ := List.mem_flatMap.1 h
  obtain ⟨k, hk⟩ := List.mem_iff_getElem?.1 hstep
  obtain ⟨c, hc⟩ := List.mem_iff_getElem?.1 hf
  rw [List.getElem?_take, Option.ite_none_right_eq_some] at hk
  obtain ⟨hlt, hk⟩ := hk
  exact ⟨⟨k, c⟩, hlt, by rw [conclusion?, hk]; exact hc⟩

/-! ## The order of uses -/

/-- The premises that come before premise `p`. -/
def before (tr : Trace) (p : Endpoint) : List Fact :=
  tr.used p.node ++ ((tr[p.node]?.map Step.premises).getD []).take p.idx

theorem before_concat_le (h : tr.premise? p = some f) :
    tr.before p ++ [f] <+: tr.used (p.node + 1) := by
  obtain ⟨step, hstep, hf⟩ := Option.bind_eq_some_iff.1 h
  have htake : step.premises.take p.idx ++ [f] = step.premises.take (p.idx + 1) := by
    rw [List.take_add_one, hf]
    rfl
  rw [used_succ hstep, before, hstep, List.append_assoc]
  change _ ++ (step.premises.take p.idx ++ [f]) <+: _
  rw [htake]
  exact (List.prefix_append_right_inj _).2 (List.take_prefix ..)

theorem count_before_lt (hp : tr.premise? p = some f)
    (h : p.node < q.node ∨ p.node = q.node ∧ p.idx < q.idx) :
    (tr.before p).count f < (tr.before q).count f := by
  have hprefix : tr.before p ++ [f] <+: tr.before q := by
    rcases h with h | ⟨hnode, hidx⟩
    · have hle : tr.used (p.node + 1) <+: tr.used q.node :=
        (List.take_prefix_take_left h).flatMap Step.premises
      exact (before_concat_le hp).trans (hle.trans (List.prefix_append ..))
    · obtain ⟨step, hstep, hf⟩ := Option.bind_eq_some_iff.1 hp
      rw [before, before, ← hnode, hstep, List.append_assoc]
      refine (List.prefix_append_right_inj _).2 ?_
      have htake : step.premises.take p.idx ++ [f] = step.premises.take (p.idx + 1) := by
        rw [List.take_add_one, hf]
        rfl
      change step.premises.take p.idx ++ [f] <+: step.premises.take q.idx
      rw [htake]
      exact List.take_prefix_take_left hidx
  have hle := hprefix.count_le f
  rw [List.count_append, List.count_singleton_self] at hle
  omega

theorem eq_of_count_before (hp : tr.premise? p = some f) (hq : tr.premise? q = some f)
    (h : (tr.before p).count f = (tr.before q).count f) : p = q := by
  obtain ⟨n, i⟩ := p
  obtain ⟨k, j⟩ := q
  by_contra hne
  have hlt : (n < k ∨ n = k ∧ i < j) ∨ k < n ∨ k = n ∧ j < i := by
    simp only [Endpoint.mk.injEq] at hne
    omega
  rcases hlt with hlt | hlt
  · exact (count_before_lt hp hlt).ne h
  · exact (count_before_lt hq hlt).ne h.symm

/-! ## The order of conclusions -/

/-- The conclusions that are the given fact. -/
def sources (tr : Trace) (f : Fact) : List Endpoint :=
  tr.zipIdx.flatMap fun (step, n) =>
    (step.conclusions.zipIdx.filter fun c => c.1 = f).map fun c => ⟨n, c.2⟩

theorem mem_sources (h : e ∈ tr.sources f) : tr.conclusion? e = some f ∧ e.node < tr.length := by
  obtain ⟨⟨step, n⟩, hstep, he⟩ := List.mem_flatMap.1 h
  obtain ⟨⟨g, c⟩, hc, rfl⟩ := List.mem_map.1 he
  obtain ⟨hc, hg⟩ := List.mem_filter.1 hc
  have hstep := List.mk_mem_zipIdx_iff_getElem?.1 hstep
  have hc := List.mk_mem_zipIdx_iff_getElem?.1 hc
  refine ⟨?_, (List.getElem?_eq_some_iff.1 hstep).1⟩
  rw [conclusion?, hstep, Option.bind_some, hc]
  exact congrArg some (of_decide_eq_true hg)

theorem nodup_sources (tr : Trace) (f : Fact) : (tr.sources f).Nodup := by
  refine List.nodup_flatMap.2 ⟨fun ⟨step, n⟩ _ => ?_, ?_⟩
  · have hnodup := (List.filter_sublist (p := fun c : Fact × Nat => c.1 = f)).map Prod.snd |>.nodup
      (List.nodup_zipIdx_map_snd step.conclusions)
    have hmap := hnodup.map (f := Endpoint.mk n) fun _ _ he => by cases he; rfl
    rwa [List.map_map] at hmap
  · refine (List.pairwise_map.1 (List.nodup_zipIdx_map_snd tr)).imp fun {a b} hne e ha hb => ?_
    obtain ⟨_, -, rfl⟩ := List.mem_map.1 ha
    obtain ⟨_, -, he⟩ := List.mem_map.1 hb
    exact hne (congrArg Endpoint.node he).symm

theorem length_sources (tr : Trace) (f : Fact) :
    (tr.sources f).length = (tr.flatMap Step.conclusions).count f := by
  have hstep : ∀ cs : List Fact, ((cs.zipIdx.filter fun c => c.1 = f)).length = cs.count f := by
    intro cs
    rw [← List.countP_eq_length_filter, ← List.zipIdx_map_fst 0 cs, List.count, List.countP_map,
      List.zipIdx_map_fst]
    exact List.countP_congr fun c _ => by simp
  rw [sources, List.length_flatMap, List.count_flatMap, ← List.zipIdx_map_fst 0 tr, List.map_map,
    List.zipIdx_map_fst]
  refine congrArg List.sum (List.map_congr_left fun a _ => ?_)
  exact (List.length_map ..).trans (hstep a.1.conclusions)

theorem sources_take_prefix (tr : Trace) (f : Fact) (n : Nat) :
    Trace.sources (tr.take n) f <+: tr.sources f := by
  have hzip : (tr.take n).zipIdx <+: tr.zipIdx := by
    have := @List.zipIdx_append _ (tr.take n) (tr.drop n) 0
    rw [List.take_append_drop] at this
    rw [this]
    exact List.prefix_append ..
  exact hzip.flatMap _

theorem exists_source {k : Nat} (h : k < (tr.left n).count f) :
    ∃ e, (tr.sources f)[k]? = some e ∧ e.node < n ∧ tr.conclusion? e = some f := by
  have hk : k < (Trace.sources (tr.take n) f).length := (length_sources (tr.take n) f).symm ▸ h
  have he := List.prefix_iff_getElem?.1 (tr.sources_take_prefix f n) k hk
  have hmem := List.getElem_mem hk
  refine ⟨_, he, ?_, (mem_sources (List.mem_of_getElem? he)).1⟩
  have hlt := (mem_sources hmem).2
  rw [List.length_take] at hlt
  omega

end Trace

/-! ## Replayed traces -/

section Replayed

variable {m : Model} {tr : Trace} {states : List State} (hm : m.DrawsSingly)
  (h : replay m tr = .ok states)
include hm h

theorem count_used_le {f : Fact} (hf : f.multiplicity = .linear) (hstored : f.Stored) {n : Nat}
    {s : State} (hs : states[n]? = some s) :
    s.facts.count f + (tr.used n).count f ≤ (tr.left n).count f := by
  rw [← Fact.count_taken hstored, Trace.used, (State.Accounts.of_replay hm h hs).count f hf]
  exact (Fact.kept_sublist _).count_le f

theorem mem_left_of_persistent {f : Fact} {n : Nat} {s : State} (hs : states[n]? = some s)
    (hf : f ∈ s.facts.persistent) : f ∈ tr.left n :=
  (Fact.kept_sublist _).subset (((State.Accounts.of_replay hm h hs).persistent f).1 hf).2

/-- A stored premise is a conclusion of an earlier step. A linear one is the next that was not used
before. -/
theorem exists_provider {p : Endpoint} {f : Fact} (hp : tr.premise? p = some f)
    (hstored : f.Stored) : ∃ e, e.node < p.node ∧ tr.conclusion? e = some f ∧
      (f.isPersistent = false → (tr.sources f)[(tr.before p).count f]? = some e) := by
  obtain ⟨step, hstep, hf⟩ := Option.bind_eq_some_iff.1 hp
  obtain ⟨s, s', hs, hs', hrun⟩ := replayFrom_step h hstep
  obtain ⟨r, hr⟩ := fires_of_replayStep hrun
  obtain ⟨s₁, hs₁, -⟩ := hr.runs
  have huses := State.usePremises_uses (hr.singly hm) hs₁
  cases hmult : f.multiplicity with
  | persistent =>
    have hmem := huses.stored f (List.mem_of_getElem? hf) hmult hstored.2 hstored.1
    obtain ⟨e, hlt, he⟩ := Trace.exists_conclusion (mem_left_of_persistent hm h hs hmem)
    exact ⟨e, hlt, he, fun hpers => by simp [Fact.isPersistent, hmult] at hpers⟩
  | linear =>
    have hle := (Trace.before_concat_le hp).count_le f
    have hcount := huses.count f hmult hstored.2 hstored.1
    have hused := count_used_le hm h hmult hstored hs
    rw [Trace.used_succ hstep, List.count_append, List.count_append, List.count_singleton_self] at hle
    obtain ⟨e, he, hlt, hc⟩ := Trace.exists_source (show (tr.before p).count f < (tr.left p.node).count f
      by omega)
    exact ⟨e, hlt, hc, fun _ => he⟩

/-- A trace that replays is one of an execution. -/
theorem Execution.of_replay : ∃ R : Execution m, R.trace = tr := by
  have hex : ∀ p, ∃ e, ∀ f, tr.premise? p = some f → f.Stored → e.node < p.node ∧
      tr.conclusion? e = some f ∧
        (f.isPersistent = false → (tr.sources f)[(tr.before p).count f]? = some e) := by
    intro p
    by_cases hp : ∃ f, tr.premise? p = some f ∧ f.Stored
    · obtain ⟨f, hf, hstored⟩ := hp
      obtain ⟨e, he⟩ := exists_provider hm h hf hstored
      refine ⟨e, fun g hg _ => ?_⟩
      cases hf.symm.trans hg
      exact he
    · exact ⟨p, fun f hf hstored => absurd ⟨f, hf, hstored⟩ hp⟩
  choose provider hprovider using hex
  refine ⟨⟨tr, states, h, provider, fun p f hp hf => ?_, fun p q f g hp hq hf hg hlinear he => ?_⟩, rfl⟩
  · exact ⟨(hprovider p f hp hf).1, (hprovider p f hp hf).2.1⟩
  · obtain ⟨-, hc, hsource⟩ := hprovider p f hp hf
    obtain ⟨-, hc', hsource'⟩ := hprovider q g hq hg
    rw [he] at hc hsource
    cases hc.symm.trans hc'
    have hlt := (List.getElem?_eq_some_iff.1 (hsource hlinear)).1
    exact Trace.eq_of_count_before hp hq ((List.getElem?_inj hlt (tr.nodup_sources f)).1
      ((hsource hlinear).trans (hsource' hlinear).symm))

end Replayed

theorem Execution.of_isOk {m : Model} (hm : m.DrawsSingly) {tr : Trace}
    (h : (replay m tr).isOk = true) : ∃ R : Execution m, R.trace = tr := by
  cases hs : replay m tr with
  | error e => rw [hs] at h; cases h
  | ok states => exact Execution.of_replay hm hs

end ProtocolProver
