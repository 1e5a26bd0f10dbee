import ProtocolProver.Proofs.CompiledModels

/-!
# What a run conserves

Along a run linear facts are neither lost nor duplicated, persistent facts and knowledge only grow, and
every fresh value is drawn once. This is said of one step first (`Step.Conserves`): premises are used
up one after another (`State.Uses`), conclusions are added one after another (`State.Adds`). A replayed
trace is a sequence of such steps (`replayFrom_step`), so the fresh values of all its steps are apart.
-/

namespace ProtocolProver

/-! ## Knowledge grows -/

namespace Knowledge

variable {K L : Knowledge} {T : Theory} {t u : Term}

theorem contains_insert : (K.insert t).contains u = (u == t || K.contains u) :=
  SortedSet.contains_insert K.terms t u

theorem contains_foldl {f : Knowledge → Term → Knowledge}
    (hf : ∀ K u, K.contains t = true → (f K u).contains t = true) :
    ∀ (ts : List Term) {K : Knowledge}, K.contains t = true → (ts.foldl f K).contains t = true
  | [], _, h => h
  | u :: ts, K, h => contains_foldl hf ts (hf K u h)

theorem contains_analyse : ∀ {n : Nat} {K : Knowledge} {supply : VarSupply},
    K.contains t = true → (analyse T n K supply).contains t = true
  | 0, _, _, h => h
  | n + 1, K, supply, h => by
    unfold analyse
    split
    · exact h
    · refine contains_analyse (contains_foldl (fun K u hK => ?_) _ h)
      simp [contains_insert, hK]

theorem contains_learn (h : K.contains t = true) : (K.learn T u).contains t = true := by
  unfold learn
  simp only
  split
  · exact h
  · exact contains_analyse (by simp [contains_insert, h])

theorem derivable_mono (hle : ∀ t, K.contains t = true → L.contains t = true) :
    ∀ {n : Nat} {t : Term}, K.derivable T n t = true → L.derivable T n t = true
  | 0, t, h => by
    simp only [derivable, Bool.or_eq_true] at h ⊢
    exact h.imp_left (hle t)
  | n + 1, t, h => by
    simp only [derivable, Bool.or_eq_true] at h ⊢
    refine h.imp (hle t) fun h => ?_
    split at h
    · rfl
    · obtain ⟨parts, hparts, h⟩ := List.any_eq_true.1 h
      refine List.any_eq_true.2 ⟨parts, hparts, List.all_eq_true.2 fun u hu => ?_⟩
      exact derivable_mono hle (List.all_eq_true.1 h u hu)
    · cases h

end Knowledge

/-! ## Fresh values -/

/-- The names among the arguments of a premise that draws fresh values. -/
def Fact.drawn (f : Fact) : List Name :=
  if f.pred = Pred.fresh then f.args.filterMap fun
    | .name n => some n
    | _ => none
  else []

/-- The names that the premises of a step draw. -/
def Step.drawn (step : Step) : List Name := step.premises.flatMap Fact.drawn

theorem Fact.drawn_of_fresh {f : Fact} {n : Name} (hf : f.pred = Pred.fresh)
    (hargs : f.args = [.name n]) : f.drawn = [n] := by simp [drawn, hf, hargs]

theorem Fact.drawn_of_ne {f : Fact} (hf : f.pred ≠ Pred.fresh) : f.drawn = [] := if_neg hf

/-! ## One step -/

namespace State

/-- What using up premises takes from a state. -/
structure Uses (T : Theory) (s : State) (ps : List Fact) (s' : State) : Prop where
  count : ∀ f : Fact, f.multiplicity = .linear → f.pred ≠ Pred.fresh → f.pred ≠ Pred.input →
    s'.facts.count f + ps.count f = s.facts.count f
  persistent : s'.facts.persistent = s.facts.persistent
  stored : ∀ f ∈ ps, f.multiplicity = .persistent → f.pred ≠ Pred.fresh → f.pred ≠ Pred.input →
    f ∈ s.facts.persistent
  knowledge : s'.knowledge = s.knowledge
  received : ∀ f ∈ ps, f.pred = Pred.input → ∀ t ∈ f.args, s.knowledge.derives T t = true
  fresh : ∀ f ∈ ps, f.pred = Pred.fresh → ∃ name idx, f.args = [.name (.fresh name idx)]
  used : ∀ n, SortedSet.contains s'.usedFresh n = true ↔
    SortedSet.contains s.usedFresh n = true ∨ n ∈ ps.flatMap Fact.drawn
  apart : ∀ n ∈ ps.flatMap Fact.drawn, SortedSet.contains s.usedFresh n = false
  nodup : (ps.flatMap Fact.drawn).Nodup

variable {T : Theory} {s s' s'' : State} {ps qs : List Fact}

theorem Uses.refl (s : State) : s.Uses T [] s := by
  constructor <;> simp

theorem Uses.trans (h : s.Uses T ps s') (h' : s'.Uses T qs s'') : s.Uses T (ps ++ qs) s'' where
  count f hf hfr hin := by
    have := h.count f hf hfr hin
    have := h'.count f hf hfr hin
    rw [List.count_append]
    omega
  persistent := h'.persistent.trans h.persistent
  stored := List.forall_mem_append.2 ⟨h.stored, h.persistent ▸ h'.stored⟩
  knowledge := h'.knowledge.trans h.knowledge
  received := List.forall_mem_append.2 ⟨h.received, h.knowledge ▸ h'.received⟩
  fresh := List.forall_mem_append.2 ⟨h.fresh, h'.fresh⟩
  used n := by rw [h'.used, h.used, List.flatMap_append, List.mem_append, or_assoc]
  apart n hn := by
    rw [List.flatMap_append, List.mem_append] at hn
    rcases hn with hn | hn
    · exact h.apart n hn
    · have := h'.apart n hn
      rw [Bool.eq_false_iff, Ne, h.used, not_or] at this
      simpa using this.1
  nodup := by
    rw [List.flatMap_append, List.nodup_append]
    refine ⟨h.nodup, h'.nodup, ?_⟩
    rintro n hn _ hn' rfl
    have := h'.apart n hn'
    rw [Bool.eq_false_iff] at this
    exact this ((h.used n).2 (.inr hn))

theorem count_singleton (f g : Fact) : [f].count g = if g = f then 1 else 0 := by
  rw [List.count_singleton]
  by_cases h : g = f
  · simp [h]
  · rw [if_neg h, if_neg]
    simpa using Ne.symm h

theorem uses_of_ne_fresh {f : Fact} {facts : FactStore} (hfresh : f.pred ≠ Pred.fresh)
    (hcount : ∀ g : Fact, g.multiplicity = .linear → g.pred ≠ Pred.input →
      facts.count g + (if g = f then 1 else 0) = s.facts.count g)
    (hpersistent : facts.persistent = s.facts.persistent)
    (hstored : f.multiplicity = .persistent → f.pred ≠ Pred.input → f ∈ s.facts.persistent)
    (hreceived : f.pred = Pred.input → ∀ t ∈ f.args, s.knowledge.derives T t = true) :
    s.Uses T [f] { s with facts } := by
  have hdrawn : [f].flatMap Fact.drawn = [] := by simp [Fact.drawn_of_ne hfresh]
  constructor <;> simp only [hdrawn, List.forall_mem_singleton, count_singleton]
  · exact fun g hg _ => hcount g hg
  · exact hpersistent
  · exact fun hm _ => hstored hm
  · exact hreceived
  · exact fun h => absurd h hfresh
  · simp
  · simp
  · exact .nil

theorem uses_of_fresh {f : Fact} {name : String} {idx : Nat} (hfresh : f.pred = Pred.fresh)
    (hargs : f.args = [.name (.fresh name idx)])
    (hnew : SortedSet.contains s.usedFresh (.fresh name idx) = false) :
    s.Uses T [f] { s with usedFresh := SortedSet.insert s.usedFresh (.fresh name idx) } := by
  have hdrawn : [f].flatMap Fact.drawn = [.fresh name idx] := by
    simp [Fact.drawn_of_fresh hfresh hargs]
  constructor <;> simp only [hdrawn, List.forall_mem_singleton, count_singleton]
  · intro g _ hg _
    rw [if_neg, Nat.add_zero]
    rintro rfl
    exact hg hfresh
  · exact fun _ h => absurd hfresh h
  · exact fun h => absurd (hfresh.symm.trans h) (by decide)
  · exact fun _ => ⟨name, idx, hargs⟩
  · intro n
    rw [SortedSet.contains_insert, Bool.or_eq_true, beq_iff_eq, List.mem_singleton, or_comm]
  · exact hnew
  · exact List.nodup_singleton _

/-- A premise is drawn, derived by the adversary or taken from the store. -/
theorem usePremise_uses {i : Nat} {f : Fact}
    (hf : f.pred = Pred.fresh → ∃ t, f.args = [t]) (h : s.usePremise T i f = .ok s') :
    s.Uses T [f] s' := by
  rcases usePremise_eq_ok h with ⟨hfresh, name, idx, hhead, hnew, rfl⟩ | ⟨hfresh, hin, hall, rfl⟩ |
    ⟨hfresh, hin, facts, hfacts, rfl⟩
  · obtain ⟨t, ht⟩ := hf hfresh
    rw [ht] at hhead
    cases hhead
    exact uses_of_fresh hfresh ht hnew
  · refine uses_of_ne_fresh hfresh (fun g _ hg => ?_) rfl (fun _ h => absurd hin h) fun _ => hall
    rw [if_neg, Nat.add_zero]
    rintro rfl
    exact hg hin
  · rcases FactStore.consume?_eq_some hfacts with ⟨hm, hmem, rfl⟩ | ⟨hm, hpersistent, hleft⟩
    · refine uses_of_ne_fresh hfresh (fun g hg _ => ?_) rfl (fun _ _ => hmem) fun h => absurd h hin
      rw [if_neg, Nat.add_zero]
      rintro rfl
      cases hm.symm.trans hg
    · exact uses_of_ne_fresh hfresh (fun g _ _ => hleft g) hpersistent
        (fun hp => by cases hm.symm.trans hp) fun h => absurd h hin

theorem usePremises_uses : ∀ {ps : List Fact} {s : State} {i : Nat},
    (∀ f ∈ ps, f.pred = Pred.fresh → ∃ t, f.args = [t]) →
      s.usePremises T i ps = .ok s' → s.Uses T ps s'
  | [], s, i, _, h => by
    cases h
    exact .refl _
  | f :: fs, s, i, hps, h => by
    rw [usePremises] at h
    split at h
    · rename_i s₁ hs₁
      obtain ⟨hf, hfs⟩ := List.forall_mem_cons.1 hps
      exact (usePremise_uses hf hs₁).trans (usePremises_uses hfs h)
    · cases h

/-- What adding conclusions brings to a state. -/
structure Adds (s : State) (cs : List Fact) (s' : State) : Prop where
  count : ∀ f : Fact, f.multiplicity = .linear → f.pred ≠ Pred.output →
    s'.facts.count f = s.facts.count f + cs.count f
  persistent : s.facts.persistent <+: s'.facts.persistent
  nodup : s.facts.persistent.Nodup → s'.facts.persistent.Nodup
  knowledge : ∀ t, s.knowledge.contains t = true → s'.knowledge.contains t = true
  usedFresh : s'.usedFresh = s.usedFresh

theorem Adds.refl (s : State) : s.Adds [] s := by
  constructor <;> simp

theorem Adds.trans {cs ds : List Fact} (h : s.Adds cs s') (h' : s'.Adds ds s'') :
    s.Adds (cs ++ ds) s'' where
  count f hf hout := by rw [h'.count f hf hout, h.count f hf hout, List.count_append, Nat.add_assoc]
  persistent := h.persistent.trans h'.persistent
  nodup hs := h'.nodup (h.nodup hs)
  knowledge t ht := h'.knowledge t (h.knowledge t ht)
  usedFresh := h'.usedFresh.trans h.usedFresh

theorem addConclusion_adds (T : Theory) (s : State) (f : Fact) :
    s.Adds [f] (s.addConclusion T f) := by
  unfold addConclusion
  split
  · rename_i hout
    refine ⟨fun g _ hg => ?_, List.prefix_rfl, id, fun t ht => ?_, rfl⟩
    · rw [count_singleton, if_neg, Nat.add_zero]
      rintro rfl
      exact hg hout
    · exact Knowledge.contains_foldl (fun K u => Knowledge.contains_learn) _ ht
  · refine ⟨fun g hg _ => ?_, ?_, fun hs => ?_, fun _ ht => ht, rfl⟩
    · rw [FactStore.count_produce, count_singleton]
      by_cases he : g = f
      · rw [if_pos ⟨he ▸ hg, he⟩, if_pos he]
      · rw [if_neg fun h => he h.2, if_neg he]
    all_goals
      unfold FactStore.produce
      split
    · exact List.prefix_rfl
    · split
      · exact List.prefix_rfl
      · exact List.prefix_append ..
    · exact hs
    · split
      · exact hs
      · rename_i hnew
        exact List.nodup_append.2 ⟨hs, List.nodup_singleton f, by
          rintro a ha b hb rfl
          rw [List.mem_singleton.1 hb] at ha
          exact hnew ((s.facts.contains_index f).2 ha)⟩

theorem addConclusions_adds (T : Theory) : ∀ (cs : List Fact) (s : State),
    s.Adds cs (cs.foldl (·.addConclusion T) s)
  | [], s => .refl s
  | c :: cs, s => (addConclusion_adds T s c).trans (addConclusions_adds T cs _)

end State

/-- What a step conserves. It takes its linear premises from the state and leaves its linear
conclusions in it, the predicates of the network and of fresh values apart. -/
structure Step.Conserves (T : Theory) (step : Step) (s s' : State) : Prop where
  balance : ∀ f : Fact, f.multiplicity = .linear → f.pred ≠ Pred.input → f.pred ≠ Pred.fresh →
    f.pred ≠ Pred.output →
      s'.facts.count f + step.premises.count f = s.facts.count f + step.conclusions.count f
  available : ∀ f : Fact, f.multiplicity = .linear → f.pred ≠ Pred.input → f.pred ≠ Pred.fresh →
    step.premises.count f ≤ s.facts.count f
  persistent : s.facts.persistent <+: s'.facts.persistent
  nodup : s.facts.persistent.Nodup
  known : ∀ t, s.knowledge.contains t = true → s'.knowledge.contains t = true
  derivable : ∀ t, s.knowledge.derives T t = true → s'.knowledge.derives T t = true
  received : ∀ f ∈ step.premises, f.pred = Pred.input → ∀ t ∈ f.args,
    s.knowledge.derives T t = true
  fresh : ∀ f ∈ step.premises, f.pred = Pred.fresh → ∃ name idx, f.args = [.name (.fresh name idx)]
  used : ∀ n, SortedSet.contains s'.usedFresh n = true ↔
    SortedSet.contains s.usedFresh n = true ∨ n ∈ step.drawn
  apart : ∀ n ∈ step.drawn, SortedSet.contains s.usedFresh n = false

/-- A step that runs is a ground instance of its rule, which the condition of the rule allows. -/
structure Step.Fires (m : Model) (step : Step) (r : Rule) (s s' : State) : Prop where
  rule : m.rule? step.rule = some r
  ground : ∀ f ∈ r.facts, (f.instantiate m.theory (.ofList step.subst)).isGround = true
  premises : step.premises = r.premises.map (·.instantiate m.theory (.ofList step.subst))
  actions : step.actions = r.actions.map (·.instantiate m.theory (.ofList step.subst))
  conclusions : step.conclusions = r.conclusions.map (·.instantiate m.theory (.ofList step.subst))
  allowed : r.allows m.theory (.ofList step.subst) = true
  runs : ∃ s₁, s.usePremises m.theory 0 step.premises = .ok s₁ ∧
    s' = step.conclusions.foldl (·.addConclusion m.theory) s₁

section Run

variable {m : Model} {s s' : State} {i : Nat} {step : Step} {tr : Trace} {states : List State}

theorem ground_of_fire {T : Theory} {r : Rule} {σ : Subst} {f : Firing}
    (h : fire T s r σ = .ok f) : ∀ g ∈ r.facts, (g.instantiate T σ).isGround = true := by
  obtain ⟨ps, hps, h⟩ := bind_eq_ok h
  obtain ⟨as, has, h⟩ := bind_eq_ok h
  obtain ⟨cs, hcs, -⟩ := bind_eq_ok h
  simp only [Rule.facts, List.forall_mem_append]
  exact ⟨⟨(groundFacts_eq_ok.1 hps).2, (groundFacts_eq_ok.1 has).2⟩, (groundFacts_eq_ok.1 hcs).2⟩

theorem fires_of_replayStep (h : replayStep m s i step = .ok s') : ∃ r, step.Fires m r s s' := by
  unfold replayStep at h
  split at h
  · cases h
  · rename_i r hr
    split at h
    · cases h
    · rename_i f hf
      split at h
      · rename_i he
        obtain ⟨hp, ha, hc⟩ := he
        cases h
        have hground := ground_of_fire hf
        rw [fire_of_ground hground] at hf
        obtain ⟨s₁, hs₁, hf⟩ := bind_eq_ok hf
        split at hf
        · rename_i hallows
          cases hf
          exact ⟨r, hr, hground, hp.symm, ha.symm, hc.symm, hallows, s₁, hp ▸ hs₁, by rw [← hc]⟩
        · cases hf
      · cases h

theorem replayFrom_cons_eq_ok (h : replayFrom m s i (step :: tr) = .ok states) :
    ∃ s' rest, replayStep m s i step = .ok s' ∧ replayFrom m s' (i + 1) tr = .ok rest ∧
      states = s :: rest := by
  obtain ⟨s', hs', h⟩ := bind_eq_ok h
  obtain ⟨rest, hrest, h⟩ := bind_eq_ok h
  cases h
  exact ⟨s', rest, hs', hrest, rfl⟩

theorem head?_replayFrom (h : replayFrom m s i tr = .ok states) : states[0]? = some s := by
  cases tr with
  | nil => cases h; rfl
  | cons step tr =>
    obtain ⟨s', rest, -, -, rfl⟩ := replayFrom_cons_eq_ok h
    rfl

theorem length_replayFrom : ∀ {tr : Trace} {s : State} {i : Nat} {states : List State},
    replayFrom m s i tr = .ok states → states.length = tr.length + 1
  | [], _, _, _, h => by cases h; rfl
  | step :: tr, _, _, _, h => by
    obtain ⟨s', rest, -, hrest, rfl⟩ := replayFrom_cons_eq_ok h
    simp [length_replayFrom hrest]

/-- A run is a sequence of steps from each state to the next. -/
theorem replayFrom_step : ∀ {tr : Trace} {s : State} {i : Nat} {states : List State},
    replayFrom m s i tr = .ok states → ∀ {k : Nat} {step : Step}, tr[k]? = some step →
      ∃ s₁ s₂, states[k]? = some s₁ ∧ states[k + 1]? = some s₂ ∧
        replayStep m s₁ (i + k) step = .ok s₂
  | [], _, _, _, _, _, _, hk => by simp at hk
  | step :: tr, s, i, _, h, k, step', hk => by
    obtain ⟨s', rest, hs', hrest, rfl⟩ := replayFrom_cons_eq_ok h
    cases k with
    | zero =>
      cases hk
      exact ⟨s, s', rfl, head?_replayFrom hrest, hs'⟩
    | succ k =>
      obtain ⟨s₁, s₂, h₁, h₂, hstep⟩ := replayFrom_step hrest hk
      exact ⟨s₁, s₂, h₁, h₂, by rwa [Nat.add_right_comm] at hstep⟩

/-- What every step keeps is true of all states of a run. -/
theorem replayFrom_invariant {I : State → Prop}
    (hstep : ∀ s j step s', replayStep m s j step = .ok s' → I s → I s') :
    ∀ {tr : Trace} {s : State} {i : Nat} {states : List State}, I s →
      replayFrom m s i tr = .ok states → ∀ s' ∈ states, I s'
  | [], _, _, _, hs, h => by
    cases h
    exact List.forall_mem_singleton.2 hs
  | step :: tr, s, i, _, hs, h => by
    obtain ⟨s', rest, hs', hrest, rfl⟩ := replayFrom_cons_eq_ok h
    exact List.forall_mem_cons.2 ⟨hs, replayFrom_invariant hstep (hstep s i step s' hs' hs) hrest⟩

/-- All rules draw one value at a time. -/
def Model.DrawsSingly (m : Model) : Prop :=
  ∀ r ∈ m.rules, ∀ f ∈ r.premises, f.pred = Pred.fresh → ∃ v : Var, v.sort = .fresh ∧ f.args = [.var v]

theorem Model.drawsSingly_of_build {T : Theory} {rules : List Rule} {restrictions : List Restriction}
    {lemmas : List Lemma} {tactics : List Tactic}
    (h : Model.build T rules restrictions lemmas tactics = .ok m) : m.DrawsSingly := by
  obtain ⟨⟨⟩, hcheck, h⟩ := bind_eq_ok h
  cases h
  intro r hr
  rcases List.mem_append.1 hr with hr | hr
  · exact ((Model.of_checkRules hcheck).1 r hr).1.drawn
  · cases List.mem_singleton.1 hr
    exact List.forall_mem_singleton.2 fun h => absurd h (by decide)

variable (hm : m.DrawsSingly)

include hm

theorem Step.Fires.singly {r : Rule} (h : step.Fires m r s s') :
    ∀ f ∈ step.premises, f.pred = Pred.fresh → ∃ t, f.args = [t] := by
  rw [h.premises]
  refine List.forall_mem_map.2 fun f hf hfresh => ?_
  obtain ⟨v, -, hv⟩ := hm r (List.mem_of_find?_eq_some h.rule) f hf hfresh
  exact ⟨_, by rw [Fact.instantiate, Fact.mapTerms, hv]; rfl⟩

theorem Step.Fires.uses_adds {r : Rule} (h : step.Fires m r s s') :
    ∃ s₁, s.Uses m.theory step.premises s₁ ∧ s₁.Adds step.conclusions s' := by
  obtain ⟨s₁, hs₁, rfl⟩ := h.runs
  exact ⟨s₁, State.usePremises_uses (h.singly hm) hs₁, State.addConclusions_adds _ _ _⟩

theorem conserves_of_replayStep (h : replayStep m s i step = .ok s')
    (hs : s.facts.persistent.Nodup) : step.Conserves m.theory s s' ∧ s'.facts.persistent.Nodup := by
  obtain ⟨r, hr⟩ := fires_of_replayStep h
  obtain ⟨s₁, huses, hadds⟩ := hr.uses_adds hm
  have hknown : ∀ t, s.knowledge.contains t = true → s'.knowledge.contains t = true := fun t ht =>
    hadds.knowledge t (huses.knowledge ▸ ht)
  refine ⟨⟨fun f hf hin hfr hout => ?_, fun f hf hin hfr => ?_, huses.persistent ▸ hadds.persistent,
    hs, hknown, fun t => Knowledge.derivable_mono hknown, huses.received, huses.fresh,
    hadds.usedFresh ▸ huses.used, huses.apart⟩, hadds.nodup (huses.persistent ▸ hs)⟩
  · have := huses.count f hf hfr hin
    rw [hadds.count f hf hout]
    omega
  · have := huses.count f hf hfr hin
    omega

theorem nodup_drawn : ∀ {tr : Trace} {s : State} {i : Nat} {states : List State},
    replayFrom m s i tr = .ok states → (tr.flatMap Step.drawn).Nodup ∧
      ∀ n ∈ tr.flatMap Step.drawn, SortedSet.contains s.usedFresh n = false
  | [], _, _, _, _ => ⟨.nil, nofun⟩
  | step :: tr, s, i, _, h => by
    obtain ⟨s', rest, hs', hrest, -⟩ := replayFrom_cons_eq_ok h
    obtain ⟨r, hr⟩ := fires_of_replayStep hs'
    obtain ⟨s₁, huses, hadds⟩ := hr.uses_adds hm
    obtain ⟨hnodup, hapart⟩ := nodup_drawn hrest
    have hlater : ∀ n ∈ tr.flatMap Step.drawn,
        SortedSet.contains s.usedFresh n = false ∧ n ∉ step.drawn := fun n hn => by
      have := hapart n hn
      rw [Bool.eq_false_iff, Ne, hadds.usedFresh, huses.used, not_or] at this
      exact ⟨Bool.eq_false_iff.2 this.1, this.2⟩
    rw [List.flatMap_cons]
    refine ⟨List.nodup_append.2 ⟨huses.nodup, hnodup, ?_⟩, List.forall_mem_append.2
      ⟨huses.apart, fun n hn => (hlater n hn).1⟩⟩
    rintro n hn _ hn' rfl
    exact (hlater n hn').2 hn

end Run

/-- In a run, facts are conserved by every step, and no fresh value is drawn twice. -/
theorem replay_conserves {T : Theory} {rules : List Rule} {restrictions : List Restriction}
    {lemmas : List Lemma} {tactics : List Tactic} {m : Model} {tr : Trace} {states : List State}
    (hm : Model.build T rules restrictions lemmas tactics = .ok m)
    (h : replay m tr = .ok states) :
    states.length = tr.length + 1 ∧
      (∀ i step, tr[i]? = some step → ∃ s s', states[i]? = some s ∧ states[i + 1]? = some s' ∧
        step.Conserves m.theory s s') ∧
      (∀ s ∈ states, s.facts.persistent.Nodup) ∧ (tr.flatMap Step.drawn).Nodup := by
  have hm := Model.drawsSingly_of_build hm
  have hnodup : ∀ s ∈ states, s.facts.persistent.Nodup :=
    replayFrom_invariant (I := fun s => s.facts.persistent.Nodup)
      (fun s j step s' hs' hs => (conserves_of_replayStep hm hs' hs).2) List.nodup_nil h
  refine ⟨length_replayFrom h, fun i step hi => ?_, hnodup, (nodup_drawn hm h).1⟩
  obtain ⟨s, s', hs, hs', hstep⟩ := replayFrom_step h hi
  exact ⟨s, s', hs, hs', (conserves_of_replayStep hm hstep (hnodup s (List.mem_of_getElem? hs))).1⟩

/-- A key is made and kept. It is sent once. -/
def vaultRules : List Rule :=
  [⟨"Make", .protocol, [.linear Pred.fresh [.var (.fresh "k")]], [],
      [.linear "Key" [.var (.fresh "k")], .persistent "Kept" [.var (.fresh "k")]], none,
      [.fresh "k"]⟩,
    ⟨"Send", .protocol, [.linear "Key" [.var (.msg "k")], .persistent "Kept" [.var (.msg "k")]],
      [.linear "Sent" [.var (.msg "k")]], [.linear Pred.output [.var (.msg "k")]], none, [.msg "k"]⟩]

def vaultModel : Model :=
  ⟨⟨.builtin, {}, Reduction.projections⟩, vaultRules ++ [.learn], [], [], [], 2⟩

/-- The key is made and sent, and the adversary sends it back. -/
def vaultTrace : Trace :=
  let k : Term := .name (.fresh "k" 0)
  [⟨"Make", [(.fresh "k", k)], [.linear Pred.fresh [k]], [],
      [.linear "Key" [k], .persistent "Kept" [k]]⟩,
    ⟨"Send", [(.msg "k", k)], [.linear "Key" [k], .persistent "Kept" [k]], [.linear "Sent" [k]],
      [.linear Pred.output [k]]⟩,
    ⟨"Learn", [(.msg "x", k)], [.linear Pred.input [k]], [.linear Pred.knows [k]], []⟩]

theorem replay_conserves_vault : ∃ states, replay vaultModel vaultTrace = .ok states ∧
    states.length = 4 ∧
      (∀ i step, vaultTrace[i]? = some step → ∃ s s', states[i]? = some s ∧
        states[i + 1]? = some s' ∧ step.Conserves vaultModel.theory s s') ∧
      (∀ s ∈ states, s.facts.persistent.Nodup) ∧ (vaultTrace.flatMap Step.drawn).Nodup := by
  have hbuild : Model.build vaultModel.theory vaultRules [] [] [] = .ok vaultModel := rfl
  have hrun : (replay vaultModel vaultTrace).isOk = true := by decide +kernel
  cases h : replay vaultModel vaultTrace with
  | error e => rw [h] at hrun; cases hrun
  | ok states => exact ⟨states, rfl, replay_conserves hbuild h⟩

end ProtocolProver
