import ProtocolProver.Proofs.SearchTree
import ProtocolProver.Proofs.SystemInvariants
import ProtocolProver.Search.Verdict

/-!
# Traces that a search returns

A trace is only returned after it was verified, so in every round and from every branch, whatever
turns the branches take, it is a run of the model on which the target and all restrictions hold
(`witness_verified`). The same goes for the trace that comes with the verdict on a lemma.
-/

namespace ProtocolProver

/-- A run of the model on which the restrictions and a formula hold. -/
structure Model.Satisfies (m : Model) (f : Nnf) (trace : Trace) : Prop where
  replays : ∃ states, replay m trace = .ok states
  holds : f.holds m.theory trace = true
  restricted : ∀ r ∈ m.restrictions, r.nnf.holds m.theory trace = true

namespace Search

variable {t : Task} {trace : Trace}

theorem verifies_iff : verifies t trace = true ↔ t.model.Satisfies t.target trace := by
  unfold verifies
  cases hr : replay t.model trace with
  | error e =>
    refine ⟨fun h => absurd h (by simp), fun h => ?_⟩
    obtain ⟨states, hs⟩ := h.replays
    rw [hr] at hs
    cases hs
  | ok states =>
    simp only [Bool.and_eq_true, List.all_eq_true]
    exact ⟨fun h => ⟨⟨states, hr⟩, h.1, h.2⟩, fun h => ⟨h.holds, h.restricted⟩⟩

/-- The traces that are found are those of systems which the search reaches, and they were
verified. -/
theorem explains_reachable (t : Task) : Explains t (fun trace => some (verifies t trace))
    (System.Reachable t.model t.target) (fun _ => True) (fun trace => verifies t trace = true ∧
      ∃ S, System.Reachable t.model t.target S ∧ S.realize t.model = trace) where
  start _ := .start
  expand hS _ := .expand _ hS
  ends _ _ := rfl
  found hS h := ⟨Option.some.inj h, _, hS, rfl⟩
  split _ _ _ _ := trivial
  alike _ _ _ _ := trivial

theorem witness_verified (h : (search t).outcome = .witness trace) : verifies t trace = true ∧
    ∃ S, System.Reachable t.model t.target S ∧ S.realize t.model = trace := by
  obtain ⟨bounds, hjustifies⟩ := exists_justifies (explains_reachable t)
  exact hjustifies.witness h

end Search

theorem Verdict.trace?_ofSearch {kind : LemmaKind} {r : SearchResult} {trace : Trace}
    (h : (Verdict.ofSearch kind r).trace? = some trace) :
    r.outcome = .witness trace ∧
      (kind = .existsTrace ∧ ofSearch kind r = .proven (some trace) ∨
        kind = .allTraces ∧ ofSearch kind r = .falsified (some trace)) := by
  cases kind <;> cases ho : r.outcome <;> simp [ofSearch, ho, Verdict.trace?] at h ⊢ <;> exact h

/-- What a lemma was built from: its target is the normal form of its formula, or of the negation
of that. -/
theorem Lemma.build_target {name : String} {kind : LemmaKind} {formula : Formula}
    {tactic : Option String} {l : Lemma} (h : Lemma.build name kind formula tactic = .ok l) :
    l.kind = kind ∧ l.formula = formula ∧
      (match kind with
        | .existsTrace => formula
        | .allTraces => .neg formula).toNnf = .ok l.target := by
  unfold Lemma.build at h
  split at h
  · cases h
  · simp only at h
    split at h
    · rename_i target ht
      cases h
      exact ⟨rfl, rfl, ht⟩
    · cases h

theorem evaluate_eq_ok {m : Model} {l : Lemma} {budget : Budget} {host : Search.Host}
    {v : Verdict} (h : evaluate m l budget host = .ok v) :
    ∃ tactic, v = .ofSearch l.kind (search ⟨m, l.target, tactic, budget, host⟩) := by
  unfold evaluate at h
  cases ht : l.findTactic m with
  | error e =>
    rw [ht] at h
    cases h
  | ok tactic =>
    rw [ht] at h
    cases h
    exact ⟨tactic, rfl⟩

/-- Every trace that a search returns is a run of the model on which the target and all
restrictions hold. So the trace that comes with a verdict shows the formula of a property of some
trace, and the negation of the formula of a property of all traces. -/
theorem returned_traces_satisfy (m : Model) :
    (∀ target tactic budget host trace,
      (search ⟨m, target, tactic, budget, host⟩).outcome = .witness trace →
        m.Satisfies target trace) ∧
    ∀ name kind formula tactic l, Lemma.build name kind formula tactic = .ok l →
      ∀ budget host v trace, evaluate m l budget host = .ok v → v.trace? = some trace →
        (kind = .existsTrace ∧ v = .proven (some trace) ∧
          ∃ f, formula.toNnf = .ok f ∧ m.Satisfies f trace) ∨
        (kind = .allTraces ∧ v = .falsified (some trace) ∧
          ∃ f, (Formula.neg formula).toNnf = .ok f ∧ m.Satisfies f trace) := by
  have found : ∀ target tactic budget host trace,
      (search ⟨m, target, tactic, budget, host⟩).outcome = .witness trace →
        m.Satisfies target trace := fun target tactic budget host trace h =>
    Search.verifies_iff.1 (Search.witness_verified h).1
  refine ⟨found, fun name kind formula tactic l hl budget host v trace hv ht => ?_⟩
  obtain ⟨tactic', rfl⟩ := evaluate_eq_ok hv
  obtain ⟨ho, hk⟩ := Verdict.trace?_ofSearch ht
  obtain ⟨hkind, -, htarget⟩ := Lemma.build_target hl
  rw [hkind] at hk ⊢
  have hs := found _ _ _ _ _ ho
  rcases hk with ⟨rfl, hk⟩ | ⟨rfl, hk⟩
  · exact .inl ⟨rfl, hk, l.target, htarget, hs⟩
  · exact .inr ⟨rfl, hk, l.target, htarget, hs⟩

/-- A model of one rule, which makes a nonce and sends it with a tag. -/
def nonceModel : Model where
  theory := ⟨.builtin, {}, Reduction.projections⟩
  rules :=
    [⟨"Gen", .protocol, [.linear Pred.fresh [.var (.fresh "n")]], [.linear "Made" [.var (.fresh "n")]],
      [.linear Pred.output [.pair (.var (.fresh "n")) (.pubName "tag")]], none, [.fresh "n"]⟩, .learn]
  restrictions := []
  lemmas := []
  tactics := []
  learnRule := 1

/-- Some nonce is learned by the adversary. -/
def nonceLemma : Lemma :=
  let bs : List Binder := [.msg (.msg "x"), .time (.ofName "i"), .time (.ofName "j")]
  let made : Atom := .action (.linear "Made" [.var (.msg "x")]) (.ofName "i")
  let known : Atom := .knows (.var (.msg "x")) (.ofName "j")
  ⟨"learned", .existsTrace, .ex bs (.conj [.atom made, .atom known]), none,
    .ex bs (.conj [.atom made, .atom known])⟩

/-- The nonce is made, and learned from the message that holds it. -/
def nonceTrace : Trace :=
  let nonce : Term := .name (.fresh "n" 2)
  [⟨"Gen", [(.fresh "n", nonce)], [.linear Pred.fresh [nonce]], [.linear "Made" [nonce]],
      [.linear Pred.output [.pair nonce (.pubName "tag")]]⟩,
    ⟨"Learn", [(.msg "x", nonce)], [.linear Pred.input [nonce]], [.linear Pred.knows [nonce]], []⟩]

/-- Two rules that do the same. -/
def raceModel : Model where
  theory := ⟨.builtin, {}, Reduction.projections⟩
  rules :=
    [⟨"First", .protocol, [], [.linear "Done" []], [], none, []⟩,
      ⟨"Second", .protocol, [], [.linear "Done" []], [], none, []⟩, Rule.learn]
  restrictions := []
  lemmas := []
  tactics := []
  learnRule := 2

/-- One of the rules was used. The budget is spent with the first of the two branches, and the visit
of the second one stops the search before the first is through. -/
def raceTask : Search.Task where
  model := raceModel
  target := .ex [.time (.ofName "i")] (.atom (.action (.linear "Done" []) (.ofName "i")))
  tactic := none
  budget := ⟨4, none, 4⟩
  host :=
    { turns := fun _ path =>
        if path = [0, 0, 0, 0] then [true, true, true, false, false, false, false] else [] }

def raceTrace : Trace := [⟨"First", [], [], [.linear "Done" []], []⟩]

/-- A nonce is found, with its verdict, and so is a trace while the budget runs out elsewhere. -/
theorem returned_traces_satisfy_nonce :
    Lemma.build "learned" .existsTrace nonceLemma.formula none = .ok nonceLemma ∧
    evaluate nonceModel nonceLemma {} = .ok (.proven (some nonceTrace)) ∧
    (∃ f, nonceLemma.formula.toNnf = .ok f ∧ nonceModel.Satisfies f nonceTrace) ∧
    (search raceTask).outcome = .witness raceTrace ∧
    raceTask.budget.maxSteps < (search raceTask).steps ∧
    raceModel.Satisfies raceTask.target raceTrace := by
  have hb : Lemma.build "learned" .existsTrace nonceLemma.formula none = .ok nonceLemma := by rfl
  have hv : evaluate nonceModel nonceLemma {} = .ok (.proven (some nonceTrace)) := by
    have ho : (search ⟨nonceModel, nonceLemma.target, none, {}, {}⟩).outcome =
        .witness nonceTrace := by
      decide +kernel
    change Except.ok (Verdict.ofSearch .existsTrace
      (search ⟨nonceModel, nonceLemma.target, none, {}, {}⟩)) = _
    simp only [Verdict.ofSearch, ho]
  have hrace : (search raceTask).outcome = .witness raceTrace := by decide +kernel
  refine ⟨hb, hv, ?_, hrace, by decide +kernel,
    (returned_traces_satisfy raceModel).1 _ _ _ _ _ hrace⟩
  rcases (returned_traces_satisfy nonceModel).2 _ _ _ _ _ hb _ _ _ _ hv rfl with ⟨-, -, h⟩ | ⟨h, -⟩
  · exact h
  · cases h

end ProtocolProver
