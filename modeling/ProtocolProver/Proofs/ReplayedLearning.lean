import ProtocolProver.Proofs.RunOrder
import ProtocolProver.Proofs.SolvedSystems

/-!
# Learning while a trace is replayed

A step that fires teaches the adversary what it sends, and for this deconstruction is repeated until
nothing new is learned. `ReplayEnds` says of the replay of a trace that this always comes to an end.
It is so for the trace of every system that a search can reach, if the equations of the model are
those of packs (`System.Reachable.replayEnds`).
-/

namespace ProtocolProver

/-- The adversary learns the terms one after the other, and each time learning ends. -/
def Knowledge.LearningEnds (T : Theory) : Knowledge → List Term → Prop
  | _, [] => True
  | K, t :: ts => K.Learns T t (K.learn T t) ∧ (K.learn T t).LearningEnds T ts

/-- All learning ends while steps numbered from `i` are replayed. A step that fires is learned from
before the facts that it records are compared. -/
def ReplayEnds (m : Model) : State → (i : Nat) → Trace → Prop
  | _, _, [] => True
  | s, i, step :: steps =>
    (∀ r f, m.rule? step.rule = some r → fire m.theory s r (SortedMap.ofList step.subst) = .ok f →
      s.knowledge.LearningEnds m.theory (f.conclusions.flatMap Fact.sent)) ∧
    ∀ s', replayStep m s i step = .ok s' → ReplayEnds m s' (i + 1) steps

/-! ## What the steps of a run teach -/

section Step

variable {T : Theory} {s s' : State} {i : Nat}

theorem knowledge_usePremise {f : Fact} (h : s.usePremise T i f = .ok s') :
    s'.knowledge = s.knowledge := by
  rcases State.usePremise_eq_ok h with ⟨-, -, -, -, -, rfl⟩ | ⟨-, -, -, rfl⟩ | ⟨-, -, -, -, rfl⟩
  all_goals rfl

theorem knowledge_usePremises : ∀ {ps : List Fact} {s : State} {i : Nat},
    s.usePremises T i ps = .ok s' → s'.knowledge = s.knowledge
  | [], _, _, h => by
    cases h
    rfl
  | f :: ps, s, i, h => by
    rw [State.usePremises] at h
    split at h
    · rename_i hs
      exact (knowledge_usePremises h).trans (knowledge_usePremise hs)
    · cases h

theorem knowledge_addConclusions : ∀ (cs : List Fact) (s : State),
    (cs.foldl (·.addConclusion T) s).knowledge =
      (cs.flatMap Fact.sent).foldl (fun K t => K.learn T t) s.knowledge
  | [], _ => rfl
  | f :: cs, s => by
    rw [List.foldl_cons, knowledge_addConclusions, List.flatMap_cons, List.foldl_append]
    congr 1
    unfold State.addConclusion Fact.sent
    split <;> rfl

theorem conclusions_of_fire {r : Rule} {σ : Subst} {f : Firing} (h : fire T s r σ = .ok f) :
    f.conclusions = r.conclusions.map (·.instantiate T σ) ∧
      (∀ c ∈ f.conclusions, c.isGround = true) ∧ f.state.knowledge =
        (f.conclusions.flatMap Fact.sent).foldl (fun K t => K.learn T t) s.knowledge := by
  have hground := ground_of_fire h
  rw [fire_of_ground hground] at h
  obtain ⟨s₁, hs₁, h⟩ := bind_eq_ok h
  split at h
  · cases h
    refine ⟨rfl, List.forall_mem_map.2 fun c hc => hground c ?_, ?_⟩
    · exact List.mem_append_right _ hc
    · rw [knowledge_addConclusions, knowledge_usePremises hs₁]
  · cases h

end Step

/-! ## Packs -/

namespace Knowledge

variable {T : Theory} (hT : T.OfPacks)

include hT

theorem learningEnds_of_messages : ∀ {ts : List Term} {K : Knowledge}, K.Messages T →
    (∀ t ∈ ts, T.Message (T.normalize t)) →
      K.LearningEnds T ts ∧ (ts.foldl (fun K t => K.learn T t) K).Messages T
  | [], _, hK, _ => ⟨trivial, hK⟩
  | t :: ts, K, hK, hts => by
    obtain ⟨ht, hts⟩ := List.forall_mem_cons.1 hts
    have hlearned : (K.learn T t).Messages T :=
      (learn_induction (I := fun _ => True) hT (fun _ _ _ _ _ => trivial) hK ht trivial).1
    obtain ⟨hends, hmessages⟩ := learningEnds_of_messages hlearned hts
    exact ⟨⟨learns_learn hT hK ht, hends⟩, hmessages⟩

end Knowledge

namespace Model.Regular

variable {P : Shape} {m : Model} (hm : m.Regular P) (hT : m.theory.OfPacks)

include hm hT

theorem message_of_fire {r : Rule} (hr : r ∈ m.rules) {σ : Subst} (hσ : σ.Within P) {s : State}
    {f : Firing} (h : fire m.theory s r σ = .ok f) :
    ∀ t ∈ f.conclusions.flatMap Fact.sent, m.theory.Message (m.theory.normalize t) := by
  obtain ⟨hconclusions, hground, -⟩ := conclusions_of_fire h
  intro t ht
  obtain ⟨c, hc, ht⟩ := List.mem_flatMap.1 ht
  have hmem : t ∈ c.args := by
    unfold Fact.sent at ht
    split at ht
    · exact ht
    · cases ht
  have hground := List.all_eq_true.1 (hground c hc) t hmem
  rw [hconclusions] at hc
  obtain ⟨d, hd, rfl⟩ := List.mem_map.1 hc
  have hhas := ((hm.has.rules r hr).conclusions d hd).mapTerms
    (fun _ ht => hm.closes.has_normalize_apply hσ ht) t hmem
  exact hT.standard.message_normalize (hm.flat_of_has hhas) hground

theorem replayEnds : ∀ {steps : Trace} {s : State} {i : Nat}, s.knowledge.Messages m.theory →
    (∀ step ∈ steps, Subst.Within (SortedMap.ofList step.subst) P) → ReplayEnds m s i steps
  | [], _, _, _, _ => trivial
  | step :: steps, s, i, hs, hsteps => by
    obtain ⟨hstep, hsteps⟩ := List.forall_mem_cons.1 hsteps
    have hlearns : ∀ r f, m.rule? step.rule = some r →
        fire m.theory s r (SortedMap.ofList step.subst) = .ok f →
          s.knowledge.LearningEnds m.theory (f.conclusions.flatMap Fact.sent) ∧
            f.state.knowledge.Messages m.theory := by
      intro r f hr hf
      rw [(conclusions_of_fire hf).2.2]
      exact Knowledge.learningEnds_of_messages hT hs
        (hm.message_of_fire hT (List.mem_of_find?_eq_some hr) hstep hf)
    refine ⟨fun r f hr hf => (hlearns r f hr hf).1, fun s' hs' => replayEnds ?_ hsteps⟩
    unfold replayStep at hs'
    split at hs'
    · cases hs'
    split at hs'
    · cases hs'
    split at hs'
    · rename_i r hr _ f hf _
      cases hs'
      exact (hlearns r f hr hf).2
    · cases hs'

end Model.Regular

namespace System

variable {P : Shape} {m : Model} {S : System}

theorem within_realize (hm : m.Regular P.anyName) (h : S.Has P.anyName) :
    ∀ step ∈ S.realize m, Subst.Within (SortedMap.ofList step.subst) P.anyName := by
  intro step hstep
  obtain ⟨n, hn, rfl⟩ := List.mem_map.1 hstep
  obtain ⟨id, -, hn⟩ := List.mem_filterMap.1 hn
  have hgrounding : S.grounding.Within P.anyName := S.within_grounding
  rw [realizeNode, SortedMap.ofList_entries]
  intro v u hu
  rw [SortedMap.get?_mapValues, Option.map_eq_some_iff] at hu
  obtain ⟨t, ht, rfl⟩ := hu
  obtain ⟨hhas, hsort⟩ := (h.nodes id n hn).subst v t ht
  exact ⟨hm.closes.has_normalize_apply hgrounding hhas,
    Theory.sort_normalize (hgrounding.sort_apply hsort)⟩

/-- The traces that a search checks can be replayed to the end, if the equations are those of
packs. -/
theorem Reachable.replayEnds {src : Surface.Model} {flags : SortedSet String}
    {c : Surface.Compiled} (hc : src.compile flags = .ok c) (hequations : src.equations = [])
    {target : Nnf} (ht : target.Has c.model.theory.publicShape)
    (hS : Reachable c.model target S) : ReplayEnds c.model {} 0 (S.realize c.model) := by
  obtain ⟨pack, sig, es, rs, hcompiles⟩ := Surface.Model.compiles hc
  have hes := hcompiles.equations
  rw [hequations] at hes
  cases hes
  have hpacks : c.model.theory.OfPacks := by
    rw [hcompiles.theory, List.reverse_nil, List.append_nil]
    exact hcompiles.assembled.ofPacks_theory
  have hregular := hcompiles.regular.anyName
  have hhas := (hS.coherent_settled hcompiles.regular ht).1.has.imp fun _ => Term.Has.anyName
  exact hregular.replayEnds hpacks (fun t ht => by cases ht) (within_realize hregular hhas)

end System

end ProtocolProver
