import ProtocolProver.Proofs.Firing
import ProtocolProver.Proofs.Reachable

/-!
# Solved systems run

The trace of a solved system finds its facts: when a node is realized, the conclusions that its edges
come from are in the store, and no other premise has used them up (`Stocked`). Each premise and each
conclusion keeps this (`Stocked.usePremise`, `Stocked.addConclusion`), so that a run can fail only for
what the adversary cannot derive and for conditions of rules (`Executable.replay`).
-/

namespace ProtocolProver

theorem SortedMap.ofList_entries {α β : Type} [Ord α] [Std.TransOrd α] [Std.LawfulEqOrd α]
    [DecidableEq α] (m : SortedMap α β) : ofList m.entries = m := by
  refine ext_get? fun k => ?_
  have fold : ∀ {l : List (α × β)}, KeysIncrease l → ∀ m : SortedMap α β,
      (l.foldl (fun m e => m.insert e.1 e.2) m).get? k = (l.lookup k).or (m.get? k) := by
    intro l
    induction l with
    | nil => exact fun _ m => rfl
    | cons e l ih =>
      intro hl m
      obtain ⟨he, hl⟩ := List.pairwise_cons.1 hl
      rw [List.foldl_cons, ih hl, get?_insert]
      by_cases hk : k = e.1
      · -- The key comes no second time.
        have hnone : l.lookup k = none := by
          refine Option.eq_none_iff_forall_ne_some.2 fun v hv => ?_
          have hlt := he _ (mem_of_lookup hv)
          rw [hk] at hlt
          simp [Std.ReflCmp.compare_self] at hlt
        rw [hnone, hk, lookup_cons_self]
        simp
      · rw [lookup_cons_ne hk, if_neg hk]
  exact (fold m.sorted ∅).trans (by rw [get?_empty]; exact Option.or_none)

namespace System

variable {m : Model} {G : System}

/-- The conclusion at an endpoint. -/
def conclusion? (G : System) (p : Endpoint) : Option Fact :=
  (G.node? p.node).bind fun n => n.conclusions[p.idx]?

def premise? (G : System) (p : Endpoint) : Option Fact :=
  (G.node? p.node).bind fun n => n.premises[p.idx]?

/-- A system of ground instances, with an order of its nodes in which facts are made before they are
used. -/
structure Executable (m : Model) (G : System) (order : List Nat) : Prop where
  instances : ∀ id ∈ order, ∃ n r, G.node? id = some n ∧ m.rules[n.rule]? = some r ∧
    m.rule? r.name = some r ∧ n.Instance m.theory r
  ground : ∀ id n, G.node? id = some n → ∀ f ∈ n.facts, f.isGround = true
  provided : ∀ p f, G.premise? p = some f → f.pred ≠ Pred.input → f.pred ≠ Pred.fresh →
    ∃ e ∈ SortedSet.toList G.edges, e.target = p ∧ G.conclusion? e.source = some f
  sent : ∀ e ∈ SortedSet.toList G.edges, ∀ f, G.conclusion? e.source = some f →
    f.pred ≠ Pred.output
  once : ∀ e ∈ SortedSet.toList G.edges, ∀ e' ∈ SortedSet.toList G.edges, e.source = e'.source →
    ∀ f, G.conclusion? e.source = some f → f.multiplicity = .linear → e.target = e'.target
  drawn : ∀ p f, G.premise? p = some f → f.pred = Pred.fresh →
    ∃ name idx, f.args = [.name (.fresh name idx)]
  drawnOnce : ∀ p f q g, G.premise? p = some f → G.premise? q = some g → f.pred = Pred.fresh →
    g.pred = Pred.fresh → f.args = g.args → p = q
  nodup : order.Nodup
  before : ∀ done b after, order = done ++ b :: after → ∀ e ∈ SortedSet.toList G.edges,
    e.target.node = b → e.source.node ∈ done

/-- The endpoint belongs to a node that is done, or to the first `i` ones of node `b`. -/
def Reached (done : List Nat) (b i : Nat) (p : Endpoint) : Prop :=
  p.node ∈ done ∨ p.node = b ∧ p.idx < i

theorem reached_succ {done : List Nat} {b i : Nat} {p : Endpoint} :
    Reached done b (i + 1) p ↔ Reached done b i p ∨ p = ⟨b, i⟩ := by
  obtain ⟨node, idx⟩ := p
  simp only [Reached, Endpoint.mk.injEq]
  grind

/-- The conclusions that were made and that wait for a premise are in the store, and only the fresh
values of premises that were used are drawn. -/
structure Stocked (G : System) (made used : Endpoint → Prop) (s : State) : Prop where
  linear : ∃ avail : List Endpoint,
    (∀ f, f.multiplicity = .linear → (avail.filterMap G.conclusion?).count f ≤ s.facts.count f) ∧
    ∀ e ∈ SortedSet.toList G.edges, made e.source → ¬ used e.target →
      ∀ f, G.conclusion? e.source = some f → f.multiplicity = .linear → e.source ∈ avail
  persistent : ∀ e ∈ SortedSet.toList G.edges, made e.source →
    ∀ f, G.conclusion? e.source = some f → f.multiplicity = .persistent → f ∈ s.facts.persistent
  fresh : ∀ name, SortedSet.contains s.usedFresh name = true →
    ∃ p f, used p ∧ G.premise? p = some f ∧ f.pred = Pred.fresh ∧ .name name ∈ f.args

namespace Stocked

variable {order done after : List Nat} {b i : Nat} {f : Fact} {s : State} {made : Endpoint → Prop}

theorem empty : G.Stocked (Reached [] b 0) (Reached [] b 0) {} := by
  refine ⟨⟨[], by simp, fun e _ h => ?_⟩, fun e _ h => ?_, fun name h => ?_⟩
  · simp [Reached] at h
  · simp [Reached] at h
  · cases h

theorem mono {made made' used used' : Endpoint → Prop} (h : G.Stocked made used s)
    (hmade : ∀ p f, made' p → G.conclusion? p = some f → made p) (hused : ∀ p, used p → used' p) :
    G.Stocked made' used' s := by
  obtain ⟨avail, hcount, havail⟩ := h.linear
  refine ⟨⟨avail, hcount, fun e he hm hu f hf => ?_⟩, fun e he hm f hf => ?_, fun name hname => ?_⟩
  · exact havail e he (hmade _ f hm hf) (fun h => hu (hused _ h)) f hf
  · exact h.persistent e he (hmade _ f hm hf) f hf
  · obtain ⟨p, f, hu, rest⟩ := h.fresh name hname
    exact ⟨p, f, hused p hu, rest⟩

/-- A premise of the next node is there, unless the adversary has to derive it. -/
theorem usePremise (hx : G.Executable m order) (ho : order = done ++ b :: after)
    (hmade : ∀ p : Endpoint, p.node ∈ done → made p) (hp : G.premise? ⟨b, i⟩ = some f)
    (h : G.Stocked made (Reached done b i) s) :
    (∃ s', s.usePremise m.theory i f = .ok s' ∧ G.Stocked made (Reached done b (i + 1)) s') ∨
      s.usePremise m.theory i f = .error (.underivable i) := by
  -- Other changes than those of the store leave what is asked of the store.
  have weaken : ∀ {e : Edge}, ¬ Reached done b (i + 1) e.target → ¬ Reached done b i e.target :=
    fun hne h => hne (reached_succ.2 (.inl h))
  have hfresh : ∀ name, SortedSet.contains s.usedFresh name = true →
      ∃ p f, Reached done b (i + 1) p ∧ G.premise? p = some f ∧ f.pred = Pred.fresh ∧
        .name name ∈ f.args := fun name hname => by
    obtain ⟨p, f, hu, rest⟩ := h.fresh name hname
    exact ⟨p, f, reached_succ.2 (.inl hu), rest⟩
  obtain ⟨avail, hcount, havail⟩ := h.linear
  unfold State.usePremise
  split
  · -- A fresh value that was drawn before would be one of another premise.
    rename_i hf
    obtain ⟨name, idx, hargs⟩ := hx.drawn _ f hp hf
    rw [hargs]
    simp only [List.head?_cons]
    split
    · rename_i hc
      obtain ⟨p, g, hu, hg, hgf, hmem⟩ := h.fresh _ hc
      obtain ⟨name', idx', hgargs⟩ := hx.drawn p g hg hgf
      rw [hgargs, List.mem_singleton] at hmem
      cases hx.drawnOnce _ f p g hp hg hf hgf (by rw [hargs, hgargs, hmem])
      rcases hu with hu | ⟨-, hu⟩
      · exact absurd hu fun hb =>
          (List.nodup_append.1 (ho ▸ hx.nodup)).2.2 b hb b (List.mem_cons_self ..) rfl
      · exact absurd hu (Nat.lt_irrefl i)
    · refine .inl ⟨_, rfl, ⟨avail, hcount, fun e he hm hu => havail e he hm (weaken hu)⟩,
        h.persistent, fun drawn hdrawn => ?_⟩
      rw [SortedSet.contains_insert, Bool.or_eq_true, beq_iff_eq] at hdrawn
      rcases hdrawn with rfl | hdrawn
      · exact ⟨_, f, reached_succ.2 (.inr rfl), hp, hf, by rw [hargs]; exact List.mem_cons_self ..⟩
      · exact hfresh drawn hdrawn
  · rename_i hf
    split
    · split
      · exact .inl ⟨s, rfl, ⟨avail, hcount, fun e he hm hu => havail e he hm (weaken hu)⟩,
          h.persistent, hfresh⟩
      · exact .inr rfl
    · -- The fact is the conclusion of an edge, which no other premise uses up.
      rename_i hin
      obtain ⟨e, he, htarget, hc⟩ := hx.provided _ f hp hin hf
      have hsource : made e.source := hmade _ (hx.before done b after ho e he (by rw [htarget]))
      have hunused : ¬ Reached done b i e.target := by
        rw [htarget]
        rintro (hb | ⟨-, hlt⟩)
        · exact (List.nodup_append.1 (ho ▸ hx.nodup)).2.2 b hb b (List.mem_cons_self ..) rfl
        · exact absurd hlt (Nat.lt_irrefl i)
      cases hmult : f.multiplicity with
      | persistent =>
        rw [FactStore.consume?_persistent hmult (h.persistent e he hsource f hc hmult)]
        exact .inl ⟨_, rfl, ⟨avail, hcount, fun e he hm hu => havail e he hm (weaken hu)⟩,
          h.persistent, hfresh⟩
      | linear =>
        have hmem := havail e he hsource hunused f hc hmult
        have hfact : f ∈ avail.filterMap G.conclusion? := List.mem_filterMap.2 ⟨_, hmem, hc⟩
        obtain ⟨F, hF, hpers, hleft⟩ := FactStore.consume?_linear hmult
          (Nat.lt_of_lt_of_le (List.count_pos_iff.2 hfact) (hcount f hmult))
        rw [hF]
        refine .inl ⟨_, rfl, ⟨avail.erase e.source, fun g hg => ?_, ?_⟩, ?_, hfresh⟩
        · have hperm := ((List.perm_cons_erase hmem).filterMap G.conclusion?).count_eq g
          rw [List.filterMap_cons_some hc, List.count_cons] at hperm
          have hle := hcount g hg
          rw [hleft]
          by_cases hgf : g = f
          · rw [if_pos (beq_iff_eq.2 hgf.symm)] at hperm
            rw [if_pos hgf]
            omega
          · rw [if_neg fun h => hgf (beq_iff_eq.1 h).symm] at hperm
            rw [if_neg hgf]
            omega
        · intro e' he' hm' hu' g hg hlin
          refine (List.mem_erase_of_ne fun heq => hu' ?_).2 (havail e' he' hm' (weaken hu') g hg hlin)
          rw [hx.once e' he' e he heq g hg hlin, htarget]
          exact reached_succ.2 (.inr rfl)
        · intro e' he' hm' g hg hlin
          exact hpers ▸ h.persistent e' he' hm' g hg hlin

theorem usePremises (hx : G.Executable m order) (ho : order = done ++ b :: after)
    (hmade : ∀ p : Endpoint, p.node ∈ done → made p) : ∀ {fs : List Fact} {i : Nat} {s : State},
    (∀ j f, fs[j]? = some f → G.premise? ⟨b, i + j⟩ = some f) →
      G.Stocked made (Reached done b i) s →
      (∃ s', s.usePremises m.theory i fs = .ok s' ∧
        G.Stocked made (Reached done b (i + fs.length)) s') ∨
        ∃ k, s.usePremises m.theory i fs = .error (.underivable k)
  | [], i, s, _, h => .inl ⟨s, rfl, h⟩
  | f :: fs, i, s, hfs, h => by
    rw [State.usePremises]
    rcases usePremise (i := i) hx ho hmade (hfs 0 f rfl) h with ⟨s', hs', h'⟩ | he
    · rw [hs']
      have hrest : ∀ j g, fs[j]? = some g → G.premise? ⟨b, i + 1 + j⟩ = some g := fun j g hg => by
        rw [Nat.add_right_comm]
        exact hfs (j + 1) g hg
      rw [List.length_cons, Nat.add_comm fs.length, ← Nat.add_assoc]
      exact usePremises hx ho hmade hrest h'
    · rw [he]
      exact .inr ⟨i, rfl⟩

/-- A conclusion is stocked for the premises that it provides. -/
theorem addConclusion (hx : G.Executable m order) {used : Endpoint → Prop} (T : Theory)
    (hc : G.conclusion? ⟨b, i⟩ = some f) (h : G.Stocked (Reached done b i) used s) :
    G.Stocked (Reached done b (i + 1)) used (s.addConclusion T f) := by
  obtain ⟨avail, hcount, havail⟩ := h.linear
  unfold State.addConclusion
  split
  · -- What is sent to the network provides no premise.
    rename_i hout
    have old : ∀ e ∈ SortedSet.toList G.edges, Reached done b (i + 1) e.source →
        Reached done b i e.source := fun e he hr => by
      rcases reached_succ.1 hr with hr | hr
      · exact hr
      · exact absurd hout (hx.sent e he f (hr ▸ hc))
    exact ⟨⟨avail, hcount, fun e he hr => havail e he (old e he hr)⟩,
      fun e he hr => h.persistent e he (old e he hr), h.fresh⟩
  · refine ⟨⟨⟨b, i⟩ :: avail, fun g hg => ?_, fun e he hr hu g hgc hlin => ?_⟩,
      fun e he hr g hgc hp => ?_, h.fresh⟩
    · rw [List.filterMap_cons_some hc, List.count_cons, FactStore.count_produce]
      have hle := hcount g hg
      by_cases hgf : g = f
      · rw [if_pos (beq_iff_eq.2 hgf.symm), if_pos ⟨hgf ▸ hg, hgf⟩]
        exact Nat.add_le_add_right hle 1
      · rw [if_neg fun h => hgf (beq_iff_eq.1 h).symm, if_neg fun h => hgf h.2]
        exact hle
    · rcases reached_succ.1 hr with hr | hr
      · exact List.mem_cons_of_mem _ (havail e he hr hu g hgc hlin)
      · exact hr ▸ List.mem_cons_self ..
    · rw [FactStore.mem_persistent_produce]
      rcases reached_succ.1 hr with hr | hr
      · exact .inl (h.persistent e he hr g hgc hp)
      · rw [hr, hc] at hgc
        cases hgc
        exact .inr ⟨hp, rfl⟩

theorem addConclusions (hx : G.Executable m order) {used : Endpoint → Prop} (T : Theory) :
    ∀ {fs : List Fact} {i : Nat} {s : State},
      (∀ j f, fs[j]? = some f → G.conclusion? ⟨b, i + j⟩ = some f) →
      G.Stocked (Reached done b i) used s →
        G.Stocked (Reached done b (i + fs.length)) used (fs.foldl (·.addConclusion T) s)
  | [], _, _, _, h => h
  | f :: fs, i, s, hfs, h => by
    have hrest : ∀ j g, fs[j]? = some g → G.conclusion? ⟨b, i + 1 + j⟩ = some g := fun j g hg => by
      rw [Nat.add_right_comm]
      exact hfs (j + 1) g hg
    rw [List.length_cons, Nat.add_comm fs.length, ← Nat.add_assoc]
    exact addConclusions hx T hrest (h.addConclusion hx T (hfs 0 f rfl))

end Stocked

/-! ## Runs -/

/-- The step that a ground node is. -/
def nodeStep (m : Model) (n : Node) : Step :=
  ⟨(m.rules[n.rule]?.map Rule.name).getD "", n.subst.entries, n.premises, n.actions, n.conclusions⟩

/-- The adversary cannot derive a message, or the condition of a rule fails. -/
def BeyondFlow (e : ReplayError) : Prop :=
  ∃ i rule, (∃ k, e = .fire i rule (.underivable k)) ∨ e = .fire i rule .restricted

theorem Executable.replayStep {order done after : List Nat} {b i : Nat} {s : State}
    (hx : G.Executable m order) (ho : order = done ++ b :: after) {n : Node}
    (hn : G.node? b = some n) (h : G.Stocked (Reached done b 0) (Reached done b 0) s) :
    (∃ e, replayStep m s i (nodeStep m n) = .error e ∧ BeyondFlow e) ∨
      ∃ s', replayStep m s i (nodeStep m n) = .ok s' ∧
        ∀ c, G.Stocked (Reached (done ++ [b]) c 0) (Reached (done ++ [b]) c 0) s' := by
  obtain ⟨n', r, hn', hr, hname, hinst⟩ := hx.instances b (ho ▸ by simp)
  cases hn.symm.trans hn'
  have hground : ∀ f ∈ r.facts, (f.instantiate m.theory n.subst).isGround = true := by
    intro f hf
    refine hx.ground b n hn _ ?_
    rw [Node.facts, hinst.premises, hinst.actions, hinst.conclusions, ← List.map_append,
      ← List.map_append]
    exact List.mem_map_of_mem hf
  have hstep := replayStep_of_ground (s := s) (i := i) hname hground hinst.premises hinst.actions
    hinst.conclusions n.subst.ofList_entries
  have hrule : (m.rules[n.rule]?.map Rule.name).getD "" = r.name := by rw [hr]; rfl
  rw [nodeStep, hrule, hstep]
  have hmade : ∀ p : Endpoint, p.node ∈ done → Reached done b 0 p := fun p hp => .inl hp
  have hpremises : ∀ j f, n.premises[j]? = some f → G.premise? ⟨b, 0 + j⟩ = some f := fun j f hf => by
    simpa [premise?, hn] using hf
  have hconclusions : ∀ j f, n.conclusions[j]? = some f → G.conclusion? ⟨b, 0 + j⟩ = some f :=
    fun j f hf => by simpa [conclusion?, hn] using hf
  rcases Stocked.usePremises hx ho hmade hpremises h with ⟨s', hs', h'⟩ | ⟨k, he⟩
  · rw [hs']
    simp only
    split
    · have hc := h'.addConclusions hx m.theory hconclusions
      refine .inr ⟨_, rfl, fun c => hc.mono (fun p f hp hf => ?_) fun p hp => ?_⟩
      · rcases hp with hp | ⟨-, hp⟩
        · rcases List.mem_append.1 hp with hp | hp
          · exact .inl hp
          · have hb := List.mem_singleton.1 hp
            refine .inr ⟨hb, ?_⟩
            rw [conclusion?, hb, hn] at hf
            exact (List.getElem?_eq_some_iff.1 hf).1.trans_eq (Nat.zero_add _).symm
        · exact absurd hp (Nat.not_lt_zero _)
      · rcases hp with hp | ⟨hp, -⟩
        · exact .inl (List.mem_append_left _ hp)
        · exact .inl (List.mem_append_right _ (List.mem_singleton.2 hp))
    · exact .inl ⟨_, rfl, i, r.name, .inr rfl⟩
  · rw [he]
    exact .inl ⟨_, rfl, i, r.name, .inl ⟨k, rfl⟩⟩

theorem Executable.replayFrom {order : List Nat} (hx : G.Executable m order) :
    ∀ {after done : List Nat} {i : Nat} {s : State} {nodes : List Node}, order = done ++ after →
      (∀ b, G.Stocked (Reached done b 0) (Reached done b 0) s) →
      after.filterMap G.node? = nodes →
        ∀ e, replayFrom m s i (nodes.map (nodeStep m)) = .error e → BeyondFlow e
  | [], done, i, s, nodes, _, _, hnodes, e, he => by
    subst hnodes
    cases he
  | b :: after, done, i, s, nodes, ho, h, hnodes, e, he => by
    subst hnodes
    obtain ⟨n, -, hn, -⟩ := hx.instances b (ho ▸ by simp)
    rw [List.filterMap_cons_some hn, List.map_cons] at he
    rcases hx.replayStep ho hn (h b) (i := i) with ⟨e', he', hbeyond⟩ | ⟨s', hs', h'⟩
    · rcases replayFrom_cons_eq_error he with he | ⟨s', hs', -⟩
      · cases he'.symm.trans he
        exact hbeyond
      · cases he'.symm.trans hs'
    · rcases replayFrom_cons_eq_error he with he | ⟨s'', hs'', he⟩
      · cases hs'.symm.trans he
      · cases hs'.symm.trans hs''
        have ho' : order = (done ++ [b]) ++ after := by rw [ho, List.append_assoc]; rfl
        exact hx.replayFrom ho' h' rfl e he

/-- A run of the system in its order fails only for reasons beyond the flow of facts. -/
theorem Executable.replay {order : List Nat} (hx : G.Executable m order) {e : ReplayError}
    (he : replay m ((order.filterMap G.node?).map (nodeStep m)) = .error e) : BeyondFlow e :=
  hx.replayFrom (List.nil_append _).symm (fun _ => .empty) rfl e he

end System

end ProtocolProver
