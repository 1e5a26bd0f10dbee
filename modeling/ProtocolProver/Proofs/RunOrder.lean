import ProtocolProver.Proofs.SaturatedKnowledge

/-!
# Runs in another order

The state that a run ends in can be read off the premises that were used up and the conclusions that
were added (`State.Accounts`): linear facts are counted, and everything else is a set. Both sides of
a count, and all of these sets, are the same for the steps in another order (`Accounts.agrees`). For
knowledge this is so because learning gives the least saturated knowledge.
-/

namespace ProtocolProver

/-! ## Positive counts -/

namespace FactStore

variable {s s' : FactStore} {f : Fact}

/-- Only linear facts are counted, and no fact is listed as missing. -/
def Positive (s : FactStore) : Prop :=
  ∀ f n, s.linear.get? f = some n → f.multiplicity = .linear ∧ 0 < n

theorem Positive.produce (h : s.Positive) (f : Fact) : (s.produce f).Positive := by
  intro g n hn
  unfold FactStore.produce at hn
  split at hn
  · rename_i hf
    simp only [SortedMap.get?_insert] at hn
    split at hn
    · rename_i hg
      cases hn
      exact ⟨hg ▸ hf, Nat.succ_pos _⟩
    · exact h g n hn
  · split at hn <;> exact h g n hn

theorem Positive.consume (h : s.Positive) (hs : s.consume? f = some s') : s'.Positive := by
  intro g n hn
  unfold consume? at hs
  split at hs
  · split at hs
    · cases hs
      exact h g n hn
    · cases hs
  · rename_i hf
    split at hs
    · cases hs
    · cases hs
    · cases hs
      simp only [SortedMap.erase, SortedMap.get?_filterKeys] at hn
      split at hn
      · exact h g n hn
      · cases hn
    · cases hs
      simp only [SortedMap.get?_insert] at hn
      split at hn
      · rename_i hg
        cases hn
        exact ⟨hg ▸ hf, Nat.succ_pos _⟩
      · exact h g n hn

/-- Positive counts determine the linear facts of a store. -/
theorem Positive.linear_eq (h : s.Positive) (h' : s'.Positive)
    (hcount : ∀ f : Fact, f.multiplicity = .linear → s.count f = s'.count f) :
    s.linear = s'.linear := by
  refine SortedMap.ext_get? fun f => ?_
  have hf := hcount f
  unfold count at hf
  rcases hn : s.linear.get? f with _ | n <;> rcases hn' : s'.linear.get? f with _ | n' <;>
    simp only [hn, hn', Option.getD_none, Option.getD_some] at hf
  · rfl
  · obtain ⟨hm, hpos⟩ := h' f n' hn'
    have := hf hm
    omega
  · obtain ⟨hm, hpos⟩ := h f n hn
    have := hf hm
    omega
  · rw [hf (h f n hn).1]

end FactStore

/-! ## Accounts -/

/-- What a premise takes from the facts of a state. -/
def Fact.taken (f : Fact) : List Fact := if f.pred = Pred.fresh ∨ f.pred = Pred.input then [] else [f]

/-- What a conclusion adds to the facts of a state. -/
def Fact.kept (f : Fact) : List Fact := if f.pred = Pred.output then [] else [f]

/-- What a conclusion sends to the network. -/
def Fact.sent (f : Fact) : List Term := if f.pred = Pred.output then f.args else []

def Step.sent (step : Step) : List Term := step.conclusions.flatMap Fact.sent

namespace State

/-- The state accounts for the premises `ps` that were used up and the conclusions `cs`. -/
structure Accounts (T : Theory) (ps cs : List Fact) (s : State) : Prop where
  count : ∀ f : Fact, f.multiplicity = .linear →
    s.facts.count f + (ps.flatMap Fact.taken).count f = (cs.flatMap Fact.kept).count f
  positive : s.facts.Positive
  persistent : ∀ f : Fact, f ∈ s.facts.persistent ↔
    f.multiplicity = .persistent ∧ f ∈ cs.flatMap Fact.kept
  used : ∀ n, SortedSet.contains s.usedFresh n = true ↔ n ∈ ps.flatMap Fact.drawn
  knowledge : s.knowledge = Knowledge.learnAll T (cs.flatMap Fact.sent)

/-- The states are the same, up to the order in which persistent facts were produced. -/
structure Agrees (s s' : State) : Prop where
  linear : s.facts.linear = s'.facts.linear
  persistent : s.facts.persistent.Perm s'.facts.persistent
  usedFresh : s.usedFresh = s'.usedFresh
  knowledge : s.knowledge = s'.knowledge

namespace Accounts

variable {T : Theory} {ps cs : List Fact} {s s' : State}

theorem empty : Accounts T [] [] {} where
  count f _ := rfl
  positive f n h := by cases h
  persistent f := by
    change f ∈ [] ↔ _
    simp
  used n := by simp [SortedSet.contains_empty]
  knowledge := rfl

theorem usePremise (h : s.Accounts T ps cs) {f : Fact} {i : Nat}
    (hf : f.pred = Pred.fresh → ∃ t, f.args = [t]) (hs : s.usePremise T i f = .ok s') :
    s'.Accounts T (ps ++ [f]) cs := by
  obtain ⟨hcount, hpositive, hpersistent, hused, hknowledge⟩ := h
  have hdrawn : f.pred ≠ Pred.fresh → (ps ++ [f]).flatMap Fact.drawn = ps.flatMap Fact.drawn :=
    fun hfresh => by simp [Fact.drawn_of_ne hfresh]
  rcases State.usePremise_eq_ok hs with ⟨hfresh, name, idx, hhead, -, rfl⟩ | ⟨hfresh, hin, -, rfl⟩ |
    ⟨hfresh, hin, facts, hfacts, rfl⟩
  · obtain ⟨t, ht⟩ := hf hfresh
    rw [ht] at hhead
    cases hhead
    refine ⟨?_, hpositive, hpersistent, fun n => ?_, hknowledge⟩
    · simpa [Fact.taken, hfresh] using hcount
    · simp [SortedSet.contains_insert, hused, Fact.drawn_of_fresh hfresh ht, or_comm]
  · refine ⟨?_, hpositive, hpersistent, hdrawn hfresh ▸ hused, hknowledge⟩
    simpa [Fact.taken, hin] using hcount
  · have htaken : (ps ++ [f]).flatMap Fact.taken = ps.flatMap Fact.taken ++ [f] := by
      simp [Fact.taken, hfresh, hin]
    have hpositive' := hpositive.consume hfacts
    rcases FactStore.consume?_eq_some hfacts with ⟨hm, -, rfl⟩ | ⟨hm, hsame, hleft⟩
    · refine ⟨fun g hg => ?_, hpositive, hpersistent, hdrawn hfresh ▸ hused, hknowledge⟩
      rw [htaken, List.count_append, count_singleton, if_neg, Nat.add_zero]
      · exact hcount g hg
      · rintro rfl
        cases hm.symm.trans hg
    · refine ⟨fun g hg => ?_, hpositive', hsame ▸ hpersistent, hdrawn hfresh ▸ hused, hknowledge⟩
      have := hcount g hg
      have := hleft g
      rw [htaken, List.count_append, count_singleton]
      simp only
      omega

theorem addConclusion (h : s.Accounts T ps cs) (f : Fact) :
    (s.addConclusion T f).Accounts T ps (cs ++ [f]) := by
  obtain ⟨hcount, hpositive, hpersistent, hused, hknowledge⟩ := h
  unfold State.addConclusion
  split
  · rename_i hout
    refine ⟨?_, hpositive, ?_, hused, ?_⟩
    · simpa [Fact.kept, hout] using hcount
    · simpa [Fact.kept, hout] using hpersistent
    · simp only [hknowledge, Knowledge.learnAll, Fact.sent, hout, List.flatMap_append,
        List.flatMap_cons, List.flatMap_nil, if_true, List.append_nil, List.foldl_append]
  · rename_i hout
    have hkept : (cs ++ [f]).flatMap Fact.kept = cs.flatMap Fact.kept ++ [f] := by
      simp [Fact.kept, hout]
    refine ⟨fun g hg => ?_, hpositive.produce f, fun g => ?_, hused, ?_⟩
    · have := hcount g hg
      rw [hkept, List.count_append, count_singleton, FactStore.count_produce]
      by_cases he : g = f
      · rw [if_pos ⟨he ▸ hg, he⟩, if_pos he]
        omega
      · rw [if_neg fun h => he h.2, if_neg he]
        omega
    · rw [FactStore.mem_persistent_produce, hpersistent, hkept, List.mem_append, List.mem_singleton]
      grind
    · simpa [Fact.sent, hout] using hknowledge

theorem usePremises : ∀ {qs ps : List Fact} {s : State} {i : Nat}, s.Accounts T ps cs →
    (∀ f ∈ qs, f.pred = Pred.fresh → ∃ t, f.args = [t]) → s.usePremises T i qs = .ok s' →
      s'.Accounts T (ps ++ qs) cs
  | [], ps, s, i, h, _, hs => by
    cases hs
    rwa [List.append_nil]
  | f :: qs, ps, s, i, h, hqs, hs => by
    rw [State.usePremises] at hs
    split at hs
    · rename_i s₁ hs₁
      obtain ⟨hf, hqs⟩ := List.forall_mem_cons.1 hqs
      have hrest := (h.usePremise hf hs₁).usePremises hqs hs
      rwa [List.append_assoc] at hrest
    · cases hs

theorem addConclusions : ∀ {ds cs : List Fact} {s : State}, s.Accounts T ps cs →
    (ds.foldl (·.addConclusion T) s).Accounts T ps (cs ++ ds)
  | [], cs, s, h => by rwa [List.append_nil]
  | f :: ds, cs, s, h => by
    have hrest : (ds.foldl (·.addConclusion T) (s.addConclusion T f)).Accounts T ps (cs ++ [f] ++ ds) :=
      (h.addConclusion f).addConclusions
    rwa [List.append_assoc] at hrest

/-- States that account for the same facts in another order agree. -/
theorem agrees {ps' cs' : List Fact} (h : s.Accounts T ps cs) (h' : s'.Accounts T ps' cs')
    (hps : ps.Perm ps') (hcs : cs.Perm cs')
    (hknown : Knowledge.learnAll T (cs.flatMap Fact.sent) =
      Knowledge.learnAll T (cs'.flatMap Fact.sent)) : s.Agrees s' where
  linear := h.positive.linear_eq h'.positive fun f hf => by
    have htaken := (hps.flatMap_right Fact.taken).count_eq f
    have hkept := (hcs.flatMap_right Fact.kept).count_eq f
    have := h.count f hf
    have := h'.count f hf
    omega
  persistent := (List.perm_ext_iff_of_nodup s.facts.nodup_persistent
    s'.facts.nodup_persistent).2 fun f => by
    rw [h.persistent, h'.persistent, (hcs.flatMap_right Fact.kept).mem_iff]
  usedFresh := SortedSet.ext_contains fun n => by
    rw [h.used, h'.used, (hps.flatMap_right Fact.drawn).mem_iff]
  knowledge := by rw [h.knowledge, h'.knowledge, hknown]

end Accounts

end State

/-! ## Runs -/

section Run

variable {m : Model} {s s' : State} {i : Nat} {step : Step}

theorem isGround_sent : ∀ {tr : Trace} {s : State} {i : Nat} {states : List State},
    replayFrom m s i tr = .ok states → ∀ t ∈ tr.flatMap Step.sent, t.isGround = true
  | [], _, _, _, _ => List.forall_mem_nil _
  | step :: tr, s, i, _, h => by
    obtain ⟨s₁, rest, hs₁, hrest, rfl⟩ := replayFrom_cons_eq_ok h
    obtain ⟨r, hr⟩ := fires_of_replayStep hs₁
    rw [List.flatMap_cons]
    refine List.forall_mem_append.2 ⟨fun t ht => ?_, isGround_sent hrest⟩
    obtain ⟨f, hf, ht⟩ := List.mem_flatMap.1 ht
    unfold Fact.sent at ht
    split at ht
    · rw [hr.conclusions] at hf
      obtain ⟨c, hc, rfl⟩ := List.mem_map.1 hf
      exact List.all_eq_true.1 (hr.ground c (List.mem_append_right _ hc)) t ht
    · cases ht

variable (hm : m.DrawsSingly)

include hm

theorem State.Accounts.replayStep {ps cs : List Fact} (h : s.Accounts m.theory ps cs)
    (hs : replayStep m s i step = .ok s') :
    s'.Accounts m.theory (ps ++ step.premises) (cs ++ step.conclusions) := by
  obtain ⟨r, hr⟩ := fires_of_replayStep hs
  obtain ⟨s₁, hs₁, rfl⟩ := hr.runs
  exact (h.usePremises (hr.singly hm) hs₁).addConclusions

/-- Every state of a run accounts for the premises and conclusions of the steps before it. -/
theorem State.Accounts.replayFrom : ∀ {tr : Trace} {ps cs : List Fact} {s : State} {i : Nat}
    {states : List State}, s.Accounts m.theory ps cs → replayFrom m s i tr = .ok states →
      ∀ {n : Nat} {s' : State}, states[n]? = some s' →
        s'.Accounts m.theory (ps ++ (tr.take n).flatMap Step.premises)
          (cs ++ (tr.take n).flatMap Step.conclusions)
  | tr, _, _, _, _, _, h, hs, 0, _, hn => by
    cases (head?_replayFrom hs).symm.trans hn
    simpa using h
  | [], _, _, _, _, _, _, hs, n + 1, _, hn => by
    cases hs
    cases hn
  | step :: tr, _, _, s, i, _, h, hs, n + 1, _, hn => by
    obtain ⟨s₁, rest, hs₁, hrest, rfl⟩ := replayFrom_cons_eq_ok hs
    simpa using (h.replayStep hm hs₁).replayFrom hrest hn

theorem State.Accounts.of_replay {tr : Trace} {states : List State} (h : replay m tr = .ok states)
    {n : Nat} {s : State} (hs : states[n]? = some s) : s.Accounts m.theory
      ((tr.take n).flatMap Step.premises) ((tr.take n).flatMap Step.conclusions) :=
  empty.replayFrom hm h hs

end Run

/-- If a run can take its steps in two orders, the states that it ends in agree, and observations in
any order give the same knowledge. What is sent and observed respects the arities (`Theory.Flat`), as
it does in compiled rules whose variables stand for such terms. -/
theorem replay_perm {pack : Pack} {sig : Signature} {T : Theory} {rules : List Rule}
    {restrictions : List Restriction} {lemmas : List Lemma} {tactics : List Tactic} {m : Model}
    (hp : Assembled pack sig) (hT : Theory.ofRules sig pack.equations pack.algebras = .ok T)
    (hm : Model.build T rules restrictions lemmas tactics = .ok m) :
    (∀ (tr tr' : Trace) (states states' : List State),
      (∀ step ∈ tr, ∀ t ∈ step.sent, T.Flat t) → replay m tr = .ok states →
        replay m tr' = .ok states' → tr.Perm tr' →
          ∃ s s', states.getLast? = some s ∧ states'.getLast? = some s' ∧ s.Agrees s') ∧
    ∀ ts us : List Term, (∀ t ∈ ts, T.Flat t ∧ t.isGround = true) → ts.Perm us →
      ts.foldl (fun K t => K.learn T t) {} = us.foldl (fun K t => K.learn T t) ({} : Knowledge) := by
  have hpacks := hp.ofPacks hT
  refine ⟨fun tr tr' states states' hflat h h' hperm => ?_, fun ts us hts hperm =>
    Knowledge.learnAll_perm hpacks (fun t ht =>
      hpacks.standard.message_normalize (hts t ht).1 (hts t ht).2) hperm⟩
  have htheory : m.theory = T := by
    obtain ⟨⟨⟩, -, hm⟩ := bind_eq_ok hm
    cases hm
    rfl
  have hsingly := Model.drawsSingly_of_build hm
  have hlast : ∀ {tr : Trace} {states : List State}, replay m tr = .ok states →
      ∃ s, states.getLast? = some s ∧
        s.Accounts m.theory (tr.flatMap Step.premises) (tr.flatMap Step.conclusions) := by
    intro tr states h
    have hlen := length_replayFrom h
    have hs : states[tr.length]? = some states[tr.length] := List.getElem?_eq_getElem (by omega)
    exact ⟨_, by rw [List.getLast?_eq_getElem?, hlen, Nat.add_sub_cancel, hs],
      by simpa using State.Accounts.of_replay hsingly h hs⟩
  obtain ⟨s, hs, haccounts⟩ := hlast h
  obtain ⟨s', hs', haccounts'⟩ := hlast h'
  refine ⟨s, s', hs, hs', haccounts.agrees haccounts' (hperm.flatMap_right _)
    (hperm.flatMap_right _) ?_⟩
  rw [htheory]
  refine Knowledge.learnAll_perm hpacks (fun t ht => ?_)
    ((hperm.flatMap_right Step.conclusions).flatMap_right Fact.sent)
  have hsent : t ∈ tr.flatMap Step.sent := by
    simpa [Step.sent, List.flatMap_assoc] using ht
  obtain ⟨step, hstep, hmem⟩ := List.mem_flatMap.1 hsent
  exact hpacks.standard.message_normalize (hflat step hstep t hmem)
    (isGround_sent h t hsent)

/-- A key is made, a power is sent that has it as a factor, and the key is leaked. -/
def exchangeRules : List Rule :=
  [⟨"Setup", .protocol, [.linear Pred.fresh [.var (.fresh "k")]], [],
      [.persistent "Key" [.var (.fresh "k")]], none, [.fresh "k"]⟩,
    ⟨"Send", .protocol, [.persistent "Key" [.var (.msg "k")], .linear Pred.fresh [.var (.fresh "x")]],
      [], [.linear Pred.output [.app .exp [.pubName "g", .app .mult [.var (.fresh "x"),
        .var (.msg "k")]]], .linear "Sent" [.var (.fresh "x")]], none, [.msg "k", .fresh "x"]⟩,
    ⟨"Leak", .protocol, [.persistent "Key" [.var (.msg "k")]], [],
      [.linear Pred.output [.var (.msg "k")]], none, [.msg "k"]⟩]

def exchangeModel : Model :=
  ⟨agreementTheory, exchangeRules ++ [.learn], [], [], [], 3⟩

def exchangeTrace (leakFirst : Bool) : Trace :=
  let k : Term := .name (.fresh "k" 0)
  let x : Term := .name (.fresh "x" 1)
  let send : Step := ⟨"Send", [(.msg "k", k), (.fresh "x", x)],
    [.persistent "Key" [k], .linear Pred.fresh [x]], [],
    [.linear Pred.output [.app .exp [.pubName "g", .app .mult [k, x]]], .linear "Sent" [x]]⟩
  let leak : Step := ⟨"Leak", [(.msg "k", k)], [.persistent "Key" [k]], [], [.linear Pred.output [k]]⟩
  ⟨"Setup", [(.fresh "k", k)], [.linear Pred.fresh [k]], [], [.persistent "Key" [k]]⟩ ::
    if leakFirst then [leak, send] else [send, leak]

/-- A key that is leaked late opens what was sent before. -/
theorem replay_perm_exchange : (exchangeTrace false).Perm (exchangeTrace true) ∧
    ∃ states states' s s', replay exchangeModel (exchangeTrace false) = .ok states ∧
      replay exchangeModel (exchangeTrace true) = .ok states' ∧ states.getLast? = some s ∧
        states'.getLast? = some s' ∧ s.Agrees s' := by
  have hbuild : Model.build exchangeModel.theory exchangeRules [] [] [] = .ok exchangeModel := rfl
  have hruns : ∀ b, (replay exchangeModel (exchangeTrace b)).isOk = true := by decide +kernel
  have hflat : ∀ step ∈ exchangeTrace false, ∀ t ∈ step.sent, exchangeModel.theory.Flat t := by
    decide
  have hperm : (exchangeTrace false).Perm (exchangeTrace true) := .cons _ (.swap _ _ [])
  rcases h : replay exchangeModel (exchangeTrace false) with e | states
  · have hok := hruns false
    rw [h] at hok
    cases hok
  · rcases h' : replay exchangeModel (exchangeTrace true) with e | states'
    · have hok := hruns true
      rw [h'] at hok
      cases hok
    · obtain ⟨s, s', hagrees⟩ := (replay_perm assembled_agreement rfl hbuild).1 _ _ _ _ hflat h h' hperm
      exact ⟨hperm, states, states', s, s', rfl, rfl, hagrees⟩

end ProtocolProver
