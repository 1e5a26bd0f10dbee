import ProtocolProver.Proofs.Conservation

/-!
# Recorded firings

The step that records a firing keeps the values of the variables and the name of the rule. Names
are all that replay has to find the rule again (`replayStep_record`), so a run replays from its
record if every rule that fired is the first of its name (`replayFrom_record`). The rules that a
model brings have different names, but none of them is compared with the name of the rule of the
adversary. A run in which the adversary learned something replays if and only if no other rule goes
by that name (`recorded_firings_replay`).
-/

namespace ProtocolProver

/-- Fires rules one after another, each in the state that the one before left. -/
def Model.fireAll (m : Model) : State → List (Rule × Subst) → Except FireError (List Firing)
  | _, [] => .ok []
  | s, (r, σ) :: calls => do
    let f ← fire m.theory s r σ
    return f :: (← m.fireAll f.state calls)

section Records

variable {m : Model} {s : State} {i : Nat} {r : Rule} {σ : Subst} {f : Firing} {fs : List Firing}

theorem eq_of_fire {T : Theory} (h : fire T s r σ = .ok f) :
    f.rule = r ∧ f.subst = σ ∧ f.actions = r.actions.map (·.instantiate T σ) := by
  rw [fire_of_ground (ground_of_fire h)] at h
  obtain ⟨s', -, h⟩ := bind_eq_ok h
  split at h
  · cases h
    exact ⟨rfl, rfl, rfl⟩
  · cases h

/-- The record of a firing is replayed if the rule is found by its name. -/
theorem replayStep_record (hr : m.rule? r.name = some r) (h : fire m.theory s r σ = .ok f) :
    replayStep m s i f.step = .ok f.state := by
  obtain ⟨hrule, hsubst, -⟩ := eq_of_fire h
  unfold replayStep Firing.step
  simp only [hrule, hr, hsubst, SortedMap.ofList_entries, h, and_self, if_true]

theorem fireAll_cons_eq_ok {calls : List (Rule × Subst)}
    (h : m.fireAll s ((r, σ) :: calls) = .ok fs) :
    ∃ f rest, fire m.theory s r σ = .ok f ∧ m.fireAll f.state calls = .ok rest ∧
      fs = f :: rest := by
  obtain ⟨f, hf, h⟩ := bind_eq_ok h
  obtain ⟨rest, hrest, h⟩ := bind_eq_ok h
  cases h
  exact ⟨f, rest, hf, hrest, rfl⟩

theorem rule_of_mem_fireAll : ∀ {calls : List (Rule × Subst)} {s : State} {fs : List Firing},
    m.fireAll s calls = .ok fs → ∀ f ∈ fs, ∃ c ∈ calls, f.rule = c.1 ∧
      f.actions = c.1.actions.map (·.instantiate m.theory c.2)
  | [], _, _, h, f, hf => by
    cases h
    cases hf
  | (r, σ) :: calls, s, _, h, f, hf => by
    obtain ⟨f', rest, hf', hrest, rfl⟩ := fireAll_cons_eq_ok h
    rcases List.mem_cons.1 hf with rfl | hf
    · obtain ⟨hrule, -, hactions⟩ := eq_of_fire hf'
      exact ⟨_, List.mem_cons_self, hrule, hactions⟩
    · obtain ⟨c, hc, h⟩ := rule_of_mem_fireAll hrest f hf
      exact ⟨c, List.mem_cons_of_mem _ hc, h⟩

/-- A run replays from its record if all rules that fired are found by their names. -/
theorem replayFrom_record : ∀ {calls : List (Rule × Subst)} {s : State} {i : Nat}
    {fs : List Firing}, m.fireAll s calls = .ok fs → (∀ f ∈ fs, m.rule? f.rule.name = some f.rule) →
      replayFrom m s i (fs.map Firing.step) = .ok (s :: fs.map Firing.state)
  | [], _, _, _, h, _ => by
    cases h
    rfl
  | (r, σ) :: calls, s, i, _, h, hnames => by
    obtain ⟨f, rest, hf, hrest, rfl⟩ := fireAll_cons_eq_ok h
    obtain ⟨hname, hnames⟩ := List.forall_mem_cons.1 hnames
    have hstep : replayStep m s i f.step = .ok f.state := by
      rw [(eq_of_fire hf).1] at hname
      exact replayStep_record hname hf
    rw [List.map_cons, replayFrom, hstep]
    change (replayFrom m f.state (i + 1) (rest.map Firing.step) >>= fun states =>
      .ok (s :: states)) = _
    rw [replayFrom_record hrest hnames]
    rfl

end Records

/-! ## Names of rules -/

namespace Model

variable {T : Theory} {rules : List Rule} {restrictions : List Restriction} {lemmas : List Lemma}
  {tactics : List Tactic} {m : Model} (hm : Model.build T rules restrictions lemmas tactics = .ok m)

include hm

theorem of_build : m.rules = rules ++ [Rule.learn] ∧ (∀ r ∈ rules, r.Valid) ∧
    (rules.map Rule.name).Nodup := by
  obtain ⟨⟨⟩, hcheck, hm⟩ := bind_eq_ok hm
  cases hm
  obtain ⟨hvalid, hnodup⟩ := of_checkRules hcheck
  exact ⟨rfl, fun r hr => (hvalid r hr).1, hnodup⟩

theorem rule?_name {r : Rule} (hr : r ∈ rules) : m.rule? r.name = some r := by
  obtain ⟨hrules, -, hnodup⟩ := of_build hm
  have hfind : rules.find? (fun r' => r'.name == r.name) = some r := by
    cases h : rules.find? fun r' => r'.name == r.name with
    | none => exact absurd (List.find?_eq_none.1 h r hr) (by simp)
    | some r' =>
      have hname : r'.name = r.name := by simpa using List.find?_some h
      rw [List.inj_on_of_nodup_map hnodup (List.mem_of_find?_eq_some h) hr hname]
  rw [rule?, hrules, List.find?_append, hfind, Option.some_or]

/-- The rule of the adversary is found by its name if no other rule has it. -/
theorem rule?_learnName (hnames : ∀ r ∈ rules, r.name ≠ Rule.learnName) :
    m.rule? Rule.learnName = some Rule.learn := by
  obtain ⟨hrules, -⟩ := of_build hm
  have hnone : rules.find? (fun r => r.name == Rule.learnName) = none :=
    List.find?_eq_none.2 fun r hr => by simpa using hnames r hr
  rw [rule?, hrules, List.find?_append, hnone, Option.none_or]
  rfl

end Model

/-- A step of the adversary is no record of a rule that a model may bring: only the adversary has an
action that says what it knows. -/
theorem Rule.Valid.actions_ne {T : Theory} {σ τ : Subst} {r : Rule} (h : r.Valid) :
    Rule.learn.actions.map (·.instantiate T σ) ≠ r.actions.map (·.instantiate T τ) := by
  intro he
  have hmem : (Fact.linear Pred.knows [.var (.msg "x")]).instantiate T σ ∈
      r.actions.map (·.instantiate T τ) := by
    rw [← he]
    exact List.mem_map_of_mem List.mem_cons_self
  obtain ⟨f, hf, hknows⟩ := List.mem_map.1 hmem
  have hpred : f.pred = Pred.knows := congrArg Fact.pred hknows
  have := h.actions f hf
  rw [hpred] at this
  exact absurd this (by decide)

/-- The records of a run replay, and give the states of the run, unless the adversary took part in
it and another rule goes by the name of its rule. -/
theorem recorded_firings_replay {T : Theory} {rules : List Rule} {restrictions : List Restriction}
    {lemmas : List Lemma} {tactics : List Tactic} {m : Model} {calls : List (Rule × Subst)}
    {fs : List Firing} (hm : Model.build T rules restrictions lemmas tactics = .ok m)
    (hcalls : ∀ c ∈ calls, c.1 ∈ m.rules) (h : m.fireAll {} calls = .ok fs) :
    ((∀ r ∈ rules, r.name ≠ Rule.learnName) ∨ (∀ f ∈ fs, f.rule ≠ .learn) →
      replay m (fs.map Firing.step) = .ok ({} :: fs.map Firing.state)) ∧
    ((∃ r ∈ rules, r.name = Rule.learnName) → (∃ f ∈ fs, f.rule = .learn) →
      ∀ states, replay m (fs.map Firing.step) ≠ .ok states) := by
  obtain ⟨hrules, hvalid, -⟩ := Model.of_build hm
  refine ⟨fun hnames => replayFrom_record h fun f hf => ?_, ?_⟩
  · obtain ⟨c, hc, hrule, -⟩ := rule_of_mem_fireAll h f hf
    have hmem := hcalls c hc
    rw [← hrule, hrules, List.mem_append, List.mem_singleton] at hmem
    rcases hmem with hmem | hlearn
    · exact Model.rule?_name hm hmem
    · rw [hlearn]
      exact Model.rule?_learnName hm (hnames.resolve_right fun hne => hne f hf hlearn)
  · rintro ⟨r, hr, hname⟩ ⟨f, hf, hlearn⟩ states hreplay
    obtain ⟨k, hk⟩ := List.mem_iff_getElem?.1 hf
    have hk' : (fs.map Firing.step)[k]? = some f.step := by
      rw [List.getElem?_map, hk]
      rfl
    obtain ⟨s₁, s₂, -, -, hstep⟩ := replayFrom_step hreplay hk'
    obtain ⟨r', hr'⟩ := fires_of_replayStep hstep
    -- The name of the step leads to the rule of the model.
    have hfound : m.rule? f.step.rule = some r := by
      rw [← Model.rule?_name hm hr, hname, Firing.step, hlearn]
      rfl
    cases hfound.symm.trans hr'.rule
    obtain ⟨c, -, hrule, hactions⟩ := rule_of_mem_fireAll h f hf
    rw [← hrule, hlearn] at hactions
    exact (hvalid r hr).actions_ne (hactions.symm.trans hr'.actions)

/-- The key is made and sent, and the adversary learns it. -/
def vaultCalls : List (Rule × Subst) :=
  let k : Term := .name (.fresh "k" 0)
  (vaultRules ++ [Rule.learn]).zip
    [.single (.fresh "k") k, .single (.msg "k") k, .single (.msg "x") k]

theorem recorded_firings_replay_vault : ∃ fs, vaultModel.fireAll {} vaultCalls = .ok fs ∧
    fs.map Firing.step = vaultTrace ∧
      replay vaultModel vaultTrace = .ok ({} :: fs.map Firing.state) := by
  have hbuild : Model.build vaultModel.theory vaultRules [] [] [] = .ok vaultModel := rfl
  have hcalls : ∀ c ∈ vaultCalls, c.1 ∈ vaultModel.rules := fun c hc => (List.of_mem_zip hc).1
  have hnames : ∀ r ∈ vaultRules, r.name ≠ Rule.learnName := by decide +kernel
  have hrun : ((vaultModel.fireAll {} vaultCalls).map (·.map Firing.step)).toOption =
      some vaultTrace := by decide +kernel
  cases h : vaultModel.fireAll {} vaultCalls with
  | error e => rw [h] at hrun; cases hrun
  | ok fs =>
    have htrace : fs.map Firing.step = vaultTrace := by
      rw [h] at hrun
      exact Option.some.inj hrun
    exact ⟨fs, rfl, htrace,
      htrace ▸ (recorded_firings_replay hbuild hcalls h).1 (.inl hnames)⟩

/-- A rule that goes by the name of the rule of the adversary. -/
def namesake : Rule := ⟨Rule.learnName, .protocol, [], [.linear "Done" []], [], none, []⟩

/-- The adversary learns a public name, and its step cannot be replayed: the name of its rule leads
to another one, which is accepted. -/
theorem namesake_blocks_replay : ∃ m fs,
    Model.build ⟨.builtin, {}, Reduction.projections⟩ [namesake] [] [] [] = .ok m ∧
      m.fireAll {} [(.learn, .single (.msg "x") (.pubName "a"))] = .ok fs ∧
      replay m (fs.map Firing.step) = .error (.mismatch 0 Rule.learnName) := by
  refine ⟨⟨⟨.builtin, {}, Reduction.projections⟩, [namesake, .learn], [], [], [], 1⟩,
    [⟨.learn, .single (.msg "x") (.pubName "a"), [.linear Pred.input [.pubName "a"]],
      [.linear Pred.knows [.pubName "a"]], [], {}⟩], rfl, rfl, rfl⟩

end ProtocolProver
