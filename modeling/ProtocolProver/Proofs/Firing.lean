import ProtocolProver.Proofs.TermShape
import ProtocolProver.Trace.Replay

/-!
# What a rule takes from a state and leaves in it

A store counts linear facts (`FactStore.count_produce`, `FactStore.consume?_linear`) and keeps
persistent ones. A rule with a ground instance fires if its premises can be used up one after another
and its condition holds (`fire_of_ground`).
-/

namespace ProtocolProver

theorem Term.isGround_iff {t : Term} :
    t.isGround = true ↔ t.Has ⟨fun _ => False, fun _ => True, fun _ _ => True⟩ := by
  induction t using Term.induction_args with
  | var v => simp [isGround]
  | name n => simp [isGround]
  | app f as ih =>
    rw [isGround, isGroundList_eq, has_app, List.all_eq_true]
    exact ⟨fun h => ⟨trivial, fun a ha => (ih a ha).1 (h a ha)⟩, fun h a ha => (ih a ha).2 (h.2 a ha)⟩

namespace FactStore

variable {s : FactStore} {f g : Fact}

theorem count_produce (s : FactStore) (f g : Fact) :
    (s.produce f).count g = s.count g + if f.multiplicity = .linear ∧ g = f then 1 else 0 := by
  unfold produce
  cases hf : f.multiplicity with
  | linear =>
    simp only [count, SortedMap.get?_insert, true_and]
    split
    · rename_i he
      rw [he, Option.getD_some]
    · rfl
  | persistent =>
    simp only [reduceCtorEq, false_and, if_false, Nat.add_zero]
    split <;> rfl

theorem mem_persistent_produce : g ∈ (s.produce f).persistent ↔
    g ∈ s.persistent ∨ f.multiplicity = .persistent ∧ g = f := by
  unfold produce
  cases hf : f.multiplicity with
  | linear => simp
  | persistent =>
    simp only [true_and]
    split
    · rename_i hc
      refine ⟨.inl, fun h => h.elim id ?_⟩
      rintro rfl
      exact (s.contains_index _).1 hc
    · simp

theorem consume?_persistent (hf : f.multiplicity = .persistent) (h : f ∈ s.persistent) :
    s.consume? f = some s := by
  rw [consume?, hf]
  exact if_pos ((s.contains_index f).2 h)

theorem consume?_linear (hf : f.multiplicity = .linear) (h : 0 < s.count f) :
    ∃ s', s.consume? f = some s' ∧ s'.persistent = s.persistent ∧
      ∀ g, s'.count g = s.count g - if g = f then 1 else 0 := by
  rw [consume?, hf]
  unfold count at h ⊢
  simp only
  rcases hc : s.linear.get? f with _ | _ | _ | n
  · rw [hc] at h
    exact absurd h (Nat.lt_irrefl 0)
  · rw [hc] at h
    exact absurd h (Nat.lt_irrefl 0)
  · refine ⟨_, rfl, rfl, fun g => ?_⟩
    simp only [SortedMap.erase, SortedMap.get?_filterKeys]
    by_cases hg : g = f
    · simp [hg, hc]
    · simp [hg]
  · refine ⟨_, rfl, rfl, fun g => ?_⟩
    simp only [SortedMap.get?_insert]
    by_cases hg : g = f
    · simp [hg, hc]
    · simp [hg]

/-- A premise that is found is a persistent fact, or a linear one that is there once less after it. -/
theorem consume?_eq_some {s' : FactStore} (h : s.consume? f = some s') :
    (f.multiplicity = .persistent ∧ f ∈ s.persistent ∧ s' = s) ∨
      f.multiplicity = .linear ∧ s'.persistent = s.persistent ∧
        ∀ g, s'.count g + (if g = f then 1 else 0) = s.count g := by
  cases hf : f.multiplicity with
  | persistent =>
    rw [consume?, hf] at h
    simp only at h
    split at h
    · rename_i hmem
      cases h
      exact .inl ⟨rfl, (s.contains_index f).1 hmem, rfl⟩
    · cases h
  | linear =>
    rcases Nat.eq_zero_or_pos (s.count f) with h0 | hpos
    · rw [consume?, hf] at h
      unfold count at h0
      simp only at h
      split at h
      · cases h
      · cases h
      all_goals simp_all
    · obtain ⟨s₁, hs₁, hpersistent, hcount⟩ := consume?_linear hf hpos
      cases hs₁.symm.trans h
      refine .inr ⟨rfl, hpersistent, fun g => ?_⟩
      rw [hcount]
      split
      · rename_i hg
        rw [hg]
        omega
      · omega

end FactStore

/-! ## Firing -/

/-- Whether the condition of the rule holds under `σ`. -/
def Rule.allows (T : Theory) (r : Rule) (σ : Subst) : Bool :=
  r.restrict.all fun f => (f.instantiate (.ofSubst σ)).holds T []

variable {T : Theory} {σ : Subst} {r : Rule} {s : State}

theorem groundFacts_eq_ok {fs gs : List Fact} : groundFacts T σ fs = .ok gs ↔
    gs = fs.map (·.instantiate T σ) ∧ ∀ f ∈ fs, (f.instantiate T σ).isGround = true := by
  unfold groundFacts
  induction fs generalizing gs with
  | nil => exact ⟨fun h => by cases h; exact ⟨rfl, nofun⟩, fun h => by rw [h.1]; rfl⟩
  | cons f fs ih =>
    simp only [List.mapM_cons, List.map_cons, List.forall_mem_cons]
    by_cases hg : (f.instantiate T σ).isGround = true
    · rw [if_pos hg]
      cases hrest : List.mapM (fun f => if (f.instantiate T σ).isGround then
          Except.ok (f.instantiate T σ) else Except.error FireError.notGround) fs with
      | error e =>
        refine iff_of_false nofun fun h => ?_
        rw [ih.2 ⟨rfl, h.2.2⟩] at hrest
        cases hrest
      | ok gs' =>
        obtain ⟨rfl, hground⟩ := ih.1 hrest
        exact ⟨fun h => by cases h; exact ⟨rfl, hg, hground⟩, fun h => by rw [h.1]; rfl⟩
    · rw [if_neg hg]
      exact iff_of_false nofun fun h => hg h.2.1

/-- A premise that can be used up is a new fresh value, or derived, or taken from the store. -/
theorem State.usePremise_eq_ok {T : Theory} {s s' : State} {i : Nat} {f : Fact}
    (h : s.usePremise T i f = .ok s') :
    (f.pred = Pred.fresh ∧ ∃ name idx, f.args.head? = some (.name (.fresh name idx)) ∧
      SortedSet.contains s.usedFresh (.fresh name idx) = false ∧
      s' = { s with usedFresh := SortedSet.insert s.usedFresh (.fresh name idx) }) ∨
    (f.pred ≠ Pred.fresh ∧ f.pred = Pred.input ∧
      (∀ t ∈ f.args, s.knowledge.derives T t = true) ∧ s' = s) ∨
    f.pred ≠ Pred.fresh ∧ f.pred ≠ Pred.input ∧
      ∃ facts, s.facts.consume? f = some facts ∧ s' = { s with facts } := by
  unfold usePremise at h
  split at h
  · rename_i hfresh
    split at h
    · rename_i name idx hhead
      split at h
      · cases h
      · rename_i hnew
        cases h
        exact .inl ⟨hfresh, name, idx, hhead, by simpa using hnew, rfl⟩
    · cases h
  · rename_i hfresh
    split at h
    · rename_i hin
      split at h
      · rename_i hall
        cases h
        exact .inr (.inl ⟨hfresh, hin, List.all_eq_true.1 hall, rfl⟩)
      · cases h
    · rename_i hin
      split at h
      · rename_i facts hfacts
        cases h
        exact .inr (.inr ⟨hfresh, hin, facts, hfacts, rfl⟩)
      · cases h

/-- A ground instance fires if its premises can be used up and its condition holds. -/
theorem fire_of_ground (hg : ∀ f ∈ r.facts, (f.instantiate T σ).isGround = true) :
    fire T s r σ = (s.usePremises T 0 (r.premises.map (·.instantiate T σ))).bind fun s' =>
      if r.allows T σ then
        .ok ⟨r, σ, r.premises.map (·.instantiate T σ), r.actions.map (·.instantiate T σ),
          r.conclusions.map (·.instantiate T σ),
          (r.conclusions.map (·.instantiate T σ)).foldl (·.addConclusion T) s'⟩
      else .error .restricted := by
  have hfacts : ∀ f, f ∈ r.facts ↔ (f ∈ r.premises ∨ f ∈ r.actions) ∨ f ∈ r.conclusions := by
    simp [Rule.facts, or_assoc]
  have hp : groundFacts T σ r.premises = .ok _ :=
    groundFacts_eq_ok.2 ⟨rfl, fun f hf => hg f ((hfacts f).2 (.inl (.inl hf)))⟩
  have ha : groundFacts T σ r.actions = .ok _ :=
    groundFacts_eq_ok.2 ⟨rfl, fun f hf => hg f ((hfacts f).2 (.inl (.inr hf)))⟩
  have hc : groundFacts T σ r.conclusions = .ok _ :=
    groundFacts_eq_ok.2 ⟨rfl, fun f hf => hg f ((hfacts f).2 (.inr hf))⟩
  unfold fire Rule.allows
  rw [hp, ha, hc]
  simp only [bind, Except.bind]
  cases s.usePremises T 0 (r.premises.map (·.instantiate T σ)) with
  | error e => rfl
  | ok s' =>
    cases r.restrict with
    | none => rfl
    | some f => cases hh : (f.instantiate (.ofSubst σ)).holds T [] <;> simp [hh] <;> rfl

/-- A step that records a ground instance of its rule is replayed, if the premises can be used up and
the condition holds. -/
theorem replayStep_of_ground {m : Model} {i : Nat} {name : String} (hr : m.rule? name = some r)
    (hg : ∀ f ∈ r.facts, (f.instantiate m.theory σ).isGround = true) {ps as cs : List Fact}
    (hp : ps = r.premises.map (·.instantiate m.theory σ))
    (ha : as = r.actions.map (·.instantiate m.theory σ))
    (hc : cs = r.conclusions.map (·.instantiate m.theory σ)) {l : List (Var × Term)}
    (hl : SortedMap.ofList l = σ) :
    replayStep m s i ⟨name, l, ps, as, cs⟩ =
      match s.usePremises m.theory 0 ps with
      | .error cause => .error (.fire i name cause)
      | .ok s' =>
        if r.allows m.theory σ then .ok (cs.foldl (·.addConclusion m.theory) s')
        else .error (.fire i name .restricted) := by
  subst hp ha hc hl
  unfold replayStep
  rw [hr]
  simp only [fire_of_ground hg]
  cases s.usePremises m.theory 0 (r.premises.map (·.instantiate m.theory (SortedMap.ofList l))) with
  | error cause => rfl
  | ok s' =>
    simp only [Except.bind]
    cases r.allows m.theory (SortedMap.ofList l) with
    | true => exact if_pos ⟨rfl, rfl, rfl⟩
    | false => rfl

theorem replayFrom_cons_eq_error {m : Model} {i : Nat} {step : Step} {steps : Trace}
    {e : ReplayError} (h : replayFrom m s i (step :: steps) = .error e) :
    replayStep m s i step = .error e ∨
      ∃ s', replayStep m s i step = .ok s' ∧ replayFrom m s' (i + 1) steps = .error e := by
  simp only [replayFrom, bind, Except.bind] at h
  cases hs : replayStep m s i step with
  | error e' => rw [hs] at h; cases h; exact .inl rfl
  | ok s' =>
    rw [hs] at h
    refine .inr ⟨s', rfl, ?_⟩
    cases hr : replayFrom m s' (i + 1) steps with
    | error e' => simp only [hr] at h; exact h
    | ok states => simp only [hr] at h; cases h

end ProtocolProver
