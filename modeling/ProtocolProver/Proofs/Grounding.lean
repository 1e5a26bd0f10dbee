import ProtocolProver.Proofs.LeastOrder
import ProtocolProver.Proofs.Realization

/-!
# Names for the open variables

The names that stand for open variables make every node ground, and different fresh variables become
different fresh values. A solved system whose terms hold no fresh names is therefore executable once it
is grounded (`Solved.executable`).
-/

namespace ProtocolProver

/-- The shape with any names. -/
def Shape.anyName (P : Shape) : Shape := { P with name := fun _ => True }

variable {P Q : Shape} {m : Model}

theorem Term.Has.anyName {t : Term} (h : t.Has P) : t.Has P.anyName :=
  h.mono (fun _ h => h) (fun _ _ => trivial) fun _ _ h => h

/-! ## Monotone shapes -/

section Monotone

variable (hPQ : ∀ t : Term, t.Has P → t.Has Q)

include hPQ

theorem Rule.Has.imp {r : Rule} (h : r.Has P) : r.Has Q :=
  ⟨fun f hf t ht => hPQ t (h.premises f hf t ht), fun f hf t ht => hPQ t (h.actions f hf t ht),
    fun f hf t ht => hPQ t (h.conclusions f hf t ht), fun f hf t ht => hPQ t (h.restrict f hf t ht)⟩

theorem Model.Has.imp (h : m.Has P) : m.Has Q :=
  ⟨fun r hr => (h.rules r hr).imp hPQ, fun r hr t ht => hPQ t (h.restrictions r hr t ht)⟩

theorem Node.Has.imp {n : Node} (h : n.Has P) : n.Has Q :=
  ⟨fun v t ht => ⟨hPQ t (h.subst v t ht).1, (h.subst v t ht).2⟩,
    fun f hf t ht => hPQ t (h.premises f hf t ht), fun f hf t ht => hPQ t (h.actions f hf t ht),
    fun f hf t ht => hPQ t (h.conclusions f hf t ht)⟩

theorem System.Has.imp {S : System} (h : S.Has P) : S.Has Q :=
  ⟨fun id n hn => (h.nodes id n hn).imp hPQ, fun g hg t ht => hPQ t (h.goals g hg t ht),
    fun g hg t ht => hPQ t (h.guarded g hg t ht),
    fun e he => ⟨hPQ _ (h.disequalities e he).1, hPQ _ (h.disequalities e he).2⟩⟩

end Monotone

theorem Theory.Closes.anyName {T : Theory} (h : T.Closes P) : T.Closes P.anyName :=
  ⟨h.var, h.exponents, h.xor, h.multisets, fun r hr =>
    ⟨fun a ha => ((h.rules r hr).1 a ha).anyName, (h.rules r hr).2.anyName⟩⟩

theorem Model.Regular.anyName (h : m.Regular P) : m.Regular P.anyName :=
  ⟨h.standard, h.closes.anyName, h.flat, h.has.imp fun _ => Term.Has.anyName, h.covers⟩

/-! ## Ground terms -/

theorem Term.isGround_mapVars {σ : Var → Term} {t : Term}
    (h : ∀ v ∈ t.occurrences, (σ v).isGround = true) : (t.mapVars σ).isGround = true := by
  induction t using induction_args with
  | var v => exact h v (List.mem_cons_self ..)
  | name n => rfl
  | app f as ih =>
    rw [mapVars_app, isGround, isGroundList_eq, List.all_map, List.all_eq_true]
    exact fun a ha => ih a ha fun v hv => h v (mem_occurrences_app.2 ⟨a, ha, hv⟩)

theorem Theory.Standard.isGround_normalize {T : Theory} (hT : T.Standard) {t : Term}
    (h : t.isGround = true) : (T.normalize t).isGround = true := by
  have hkeeps : T.Keeps ⟨fun _ => False, fun _ => True, fun _ _ => True⟩ := by
    refine ⟨fun _ => ⟨trivial, trivial, trivial, fun _ => trivial⟩,
      fun _ => ⟨trivial, fun _ => trivial⟩, fun _ _ => trivial, fun r hr => ?_⟩
    rcases (hT.rule r hr).rhs with ⟨v, hv, he⟩ | ⟨c, he, -⟩ <;> rw [he]
    · exact .var (.inr hv)
    · exact .app trivial nofun
  exact Term.isGround_iff.2 (hkeeps.has_normalize (Term.isGround_iff.1 h))

theorem Var.admits_realization (v : Var) : v.sort.admits v.realization.sort = true := by
  unfold realization
  cases h : v.sort <;> simp [Term.sort] <;> rfl

namespace System

variable {S : System}

/-- The variables of the nodes. -/
def nodeVars (S : System) : List Var :=
  S.liveNodes.flatMap fun p => factOccurrences p.2.facts ++ Term.occurrencesList p.2.subst.values

theorem get?_grounding (S : System) (v : Var) :
    S.grounding.get? v = if v ∈ S.nodeVars then some v.realization else none := by
  have he : S.grounding = SortedMap.ofList (S.nodeVars.map fun v => (v, v.realization)) := by
    rw [grounding, nodeVars, List.map_flatMap]
  rw [he, SortedMap.get?_ofList_map]

theorem within_grounding (S : System) : S.grounding.Within P.anyName := by
  intro v t ht
  rw [get?_grounding] at ht
  split at ht <;> cases ht
  refine ⟨?_, v.admits_realization⟩
  unfold Var.realization
  split <;> exact .name trivial

theorem value_grounding {v : Var} (h : v ∈ S.nodeVars) : S.grounding.value v = v.realization :=
  Subst.value_of_get? (by rw [get?_grounding, if_pos h])

theorem isGround_grounding {t : Term} (h : ∀ v ∈ t.occurrences, v ∈ S.nodeVars) :
    (S.grounding.apply t).isGround = true := by
  refine Term.isGround_mapVars fun v hv => ?_
  rw [value_grounding (h v hv)]
  unfold Var.realization
  split <;> rfl

theorem mem_nodeVars {id : Nat} {n : Node} (hn : S.node? id = some n) {f : Fact} (hf : f ∈ n.facts)
    {t : Term} (ht : t ∈ f.args) {v : Var} (hv : v ∈ t.occurrences) : v ∈ S.nodeVars := by
  refine List.mem_flatMap.2 ⟨(id, n), mem_liveNodes.2 hn, List.mem_append_left _ ?_⟩
  refine List.mem_flatMap.2 ⟨f, hf, ?_⟩
  rw [Term.occurrencesList_eq]
  exact List.mem_flatMap.2 ⟨t, ht, hv⟩

end System

/-! ## Solved systems -/

/-- What the rules of a model were checked for: each is found by its name, premises are not sent to
the network, and a fresh value is drawn for a variable. -/
structure Model.Checked (m : Model) : Prop where
  named : ∀ r ∈ m.rules, m.rule? r.name = some r
  sent : ∀ r ∈ m.rules, ∀ f ∈ r.premises, f.pred ≠ Pred.output
  drawn : ∀ r ∈ m.rules, ∀ f ∈ r.premises, f.pred = Pred.fresh →
    ∃ v : Var, v.sort = .fresh ∧ f.args = [.var v]

namespace System

variable {S : System}

theorem eq_var_of_fresh {t : Term} (hP : ∀ name idx, ¬ P.name (.fresh name idx)) (ht : t.Has P)
    (hs : TermSort.fresh.admits t.sort = true) : ∃ w : Var, w.sort = .fresh ∧ t = .var w := by
  cases ht with
  | @var v _ => exact ⟨v, by revert hs; cases h : v.sort <;> simp [Term.sort, h] <;> decide, rfl⟩
  | @name n hn =>
    cases n with
    | fresh name idx => exact absurd hn (hP name idx)
    | pub name => cases hs
  | app => cases hs

section Solved

variable (hm : m.Regular P) (hc : m.Checked) (hP : ∀ name idx, ¬ P.name (.fresh name idx))

include hm hc hP

/-- A fresh value of a node is a fresh variable. -/
theorem Coherent.fresh_premise (h : S.Coherent P m) {id : Nat} {n : Node}
    (hn : S.node? id = some n) {f : Fact} (hf : f ∈ n.premises) (hfr : f.pred = Pred.fresh) :
    ∃ w : Var, w.sort = .fresh ∧ f.args = [.var w] := by
  obtain ⟨r, hr, hinst⟩ := h.flow.instances id n hn
  rw [hinst.premises] at hf
  obtain ⟨f₀, hf₀, rfl⟩ := List.mem_map.1 hf
  obtain ⟨v, hv, hargs⟩ := hc.drawn r (List.mem_of_getElem? hr) f₀ hf₀ hfr
  have hsubst := (h.has.nodes id n hn).subst
  obtain ⟨w, hw, he⟩ := eq_var_of_fresh hP (hsubst.value hm.closes.var v)
    (hv ▸ hsubst.sort_value v)
  refine ⟨w, hw, ?_⟩
  have happly : n.subst.apply (.var v) = .var w := he
  simp only [Fact.instantiate, Fact.mapTerms, hargs, List.map_cons, List.map_nil, happly]
  rfl

omit hm hc hP in
theorem mem_freshArgs {n : Node} {f : Fact} (hf : f ∈ n.premises) (hfr : f.pred = Pred.fresh)
    {t : Term} (ht : t ∈ f.args) : t ∈ n.freshArgs :=
  List.mem_flatMap.2 ⟨f, List.mem_filter.2 ⟨hf, by simpa using hfr⟩, ht⟩

omit hm hc hP in
theorem idx_eq_of_nodup {n : Node} (h : n.freshArgs.Nodup) {i j : Nat} {f g : Fact}
    (hf : n.premises[i]? = some f) (hg : n.premises[j]? = some g) (hff : f.pred = Pred.fresh)
    (hgf : g.pred = Pred.fresh) {t : Term} (htf : t ∈ f.args) (htg : t ∈ g.args) : i = j := by
  have hpair := List.pairwise_filter.1 (List.nodup_flatMap.1 h).2
  obtain ⟨hi, rfl⟩ := List.getElem?_eq_some_iff.1 hf
  obtain ⟨hj, rfl⟩ := List.getElem?_eq_some_iff.1 hg
  rw [List.pairwise_iff_getElem] at hpair
  rcases Nat.lt_trichotomy i j with hlt | he | hlt
  · exact absurd htg (hpair i j hi hj hlt (by simpa using hff) (by simpa using hgf) htf)
  · exact he
  · exact absurd htf (hpair j i hj hi hlt (by simpa using hgf) (by simpa using hff) htg)

omit hm hc hP in
theorem once_of_consumesOnce (h : S.consumesOnce = true) {e e' : Edge}
    (he : e ∈ SortedSet.toList S.edges) (he' : e' ∈ SortedSet.toList S.edges)
    (hs : e.source = e'.source) {f : Fact} (hf : S.conclusion? e.source = some f)
    (hlin : f.multiplicity = .linear) : e = e' := by
  have hnodup := of_decide_eq_true h
  rw [List.filter_map] at hnodup
  have hmem : ∀ e'' ∈ SortedSet.toList S.edges, e''.source = e.source →
      e'' ∈ (SortedSet.toList S.edges).filter ((fun p =>
        !((S.node? p.node).bind fun n => n.conclusions[p.idx]?).any Fact.isPersistent) ∘
          Edge.source) := fun e'' he'' hs => by
    refine List.mem_filter.2 ⟨he'', ?_⟩
    have hf' : ((S.node? e.source.node).bind fun n => n.conclusions[e.source.idx]?) = some f := hf
    simp only [Function.comp_apply, hs, hf', Option.any_some, Fact.isPersistent, hlin]
    rfl
  exact List.inj_on_of_nodup_map hnodup (hmem e he rfl) (hmem e' he' hs.symm) hs

omit hm hc hP in
theorem premise?_mapTerms {G : System} {g : Term → Term}
    (h : ∀ id, G.node? id = (S.node? id).map (Node.mapTerms g)) (p : Endpoint) :
    G.premise? p = (S.premise? p).map (·.mapTerms g) := by
  rw [premise?, h, premise?]
  cases S.node? p.node with
  | none => rfl
  | some n => exact List.getElem?_map ..

omit hm hc hP in
theorem conclusion?_mapTerms {G : System} {g : Term → Term}
    (h : ∀ id, G.node? id = (S.node? id).map (Node.mapTerms g)) (p : Endpoint) :
    G.conclusion? p = (S.conclusion? p).map (·.mapTerms g) := by
  rw [conclusion?, h, conclusion?]
  cases S.node? p.node with
  | none => rfl
  | some n => exact List.getElem?_map ..

omit hm hc hP in
/-- A fresh premise of a grounded node is one fresh value, which tells the variable. -/
theorem args_grounded {T : Theory} {id : Nat} {n : Node} (hn : S.node? id = some n) {f : Fact}
    (hf : f ∈ n.premises) {w : Var} (hw : w.sort = .fresh) (hargs : f.args = [.var w]) :
    (f.mapTerms fun t => T.normalize (S.grounding.apply t)).args =
      [.name (.fresh w.name w.idx)] := by
  have hmem : w ∈ S.nodeVars := mem_nodeVars hn (List.mem_append_left _ (List.mem_append_left _ hf))
    (hargs ▸ List.mem_cons_self ..) (List.mem_cons_self ..)
  have happly : S.grounding.apply (.var w) = .name (.fresh w.name w.idx) := by
    refine (value_grounding hmem).trans ?_
    rw [Var.realization, hw]
  simp only [Fact.mapTerms, hargs, List.map_cons, List.map_nil, happly]
  rfl

/-- The system with names in place of its variables. -/
abbrev grounded (m : Model) (S : System) : System := S.apply m.theory S.grounding

omit hc hP in
theorem Coherent.node?_grounded (h : S.Coherent P m) (id : Nat) : (S.grounded m).node? id =
    (S.node? id).map (Node.mapTerms fun t => m.theory.normalize (S.grounding.apply t)) :=
  node?_apply hm.anyName h.flow (h.has.imp fun _ => Term.Has.anyName) id

omit hc hP in
theorem Coherent.flow_grounded (h : S.Coherent P m) : (S.grounded m).Flow m Eq none :=
  Flow.apply hm.anyName (h.has.imp fun _ => Term.Has.anyName) S.within_grounding (h.flow.sameUnder _)

omit hc hP in
theorem Coherent.of_premise_grounded (h : S.Coherent P m) {p : Endpoint} {f : Fact}
    (hf : (S.grounded m).premise? p = some f) :
    ∃ n f₀, S.node? p.node = some n ∧ n.premises[p.idx]? = some f₀ ∧
      f = f₀.mapTerms fun t => m.theory.normalize (S.grounding.apply t) := by
  rw [premise?_mapTerms (h.node?_grounded hm), Option.map_eq_some_iff] at hf
  obtain ⟨f₀, hf₀, rfl⟩ := hf
  obtain ⟨n, hn, hf₀⟩ := Option.bind_eq_some_iff.1 hf₀
  exact ⟨n, f₀, hn, hf₀, rfl⟩

omit hm hc hP in
/-- An edge leads from a conclusion to an equal premise. -/
theorem Flow.conclusion_source {skip : Option Endpoint} (h : S.Flow m Eq skip) {e : Edge}
    (he : e ∈ SortedSet.toList S.edges) : ∃ k c, S.node? e.target.node = some k ∧
      k.premises[e.target.idx]? = some c ∧ S.conclusion? e.source = some c := by
  obtain ⟨n, k, c, f, -, hn, hk, hc, hf, rfl, -⟩ := h.edges e he
  exact ⟨k, c, hk, hf, Option.bind_eq_some_iff.2 ⟨n, hn, hc⟩⟩

omit hc hP in
/-- No goal of a solved system is a premise, so that an edge leads to every premise. -/
theorem Coherent.provided_grounded (h : S.Coherent P m) (hsolved : S.isSolved = true) {p : Endpoint}
    {f : Fact} (hf : (S.grounded m).premise? p = some f) (hi : f.pred ≠ Pred.input)
    (hfr : f.pred ≠ Pred.fresh) : ∃ e ∈ SortedSet.toList (S.grounded m).edges, e.target = p ∧
      (S.grounded m).conclusion? e.source = some f := by
  obtain ⟨n, f₀, hn, hf₀, rfl⟩ := h.of_premise_grounded hm hf
  rcases h.flow.premises p.node n p.idx f₀ hn hf₀ hi hfr (by rintro ⟨⟩) with ⟨g, hg, hgoal⟩ | ⟨e, he, ht⟩
  · have := List.all_eq_true.1 hsolved g hg
    rw [hgoal] at this
    cases this
  · rw [← (S.apply_frame m.theory S.grounding).2.2] at he
    obtain ⟨k, c, hk, hc, hsource⟩ := (h.flow_grounded hm).conclusion_source he
    have htarget : (S.grounded m).premise? e.target = some c := Option.bind_eq_some_iff.2 ⟨k, hk, hc⟩
    rw [ht, hf] at htarget
    cases htarget
    exact ⟨e, he, ht, hsource⟩

/-- A fresh premise of a grounded system is one fresh value, named after a fresh variable. -/
theorem Coherent.fresh_grounded (h : S.Coherent P m) {p : Endpoint} {f : Fact}
    (hf : (S.grounded m).premise? p = some f) (hfr : f.pred = Pred.fresh) :
    ∃ n f₀ w, S.node? p.node = some n ∧ n.premises[p.idx]? = some f₀ ∧ f₀.pred = Pred.fresh ∧
      w.sort = .fresh ∧ .var w ∈ f₀.args ∧ f.args = [.name (.fresh w.name w.idx)] := by
  obtain ⟨n, f₀, hn, hf₀, rfl⟩ := h.of_premise_grounded hm hf
  have hmem := List.mem_of_getElem? hf₀
  obtain ⟨w, hw, hargs⟩ := h.fresh_premise hm hc hP hn hmem hfr
  exact ⟨n, f₀, w, hn, hf₀, hfr, hw, hargs ▸ List.mem_cons_self .., args_grounded hn hmem hw hargs⟩

/-- The same fresh value comes from the same variable, which is drawn at one premise. -/
theorem Coherent.drawnOnce_grounded (h : S.Coherent P m) (hs : S.Settled) {p q : Endpoint} {f k : Fact}
    (hf : (S.grounded m).premise? p = some f) (hk : (S.grounded m).premise? q = some k)
    (hff : f.pred = Pred.fresh) (hkf : k.pred = Pred.fresh) (hargs : f.args = k.args) : p = q := by
  obtain ⟨n, f₀, w, hn, hf₀, hff, hw, hwf, hfargs⟩ := h.fresh_grounded hm hc hP hf hff
  obtain ⟨l, k₀, w', hl, hk₀, hkf, hw', hwk, hkargs⟩ := h.fresh_grounded hm hc hP hk hkf
  have hww : w = w' := by
    obtain ⟨name, idx, sort⟩ := w
    obtain ⟨name', idx', sort'⟩ := w'
    rw [hfargs, hkargs] at hargs
    simp only [List.cons.injEq, Term.name.injEq, Name.fresh.injEq, and_true] at hargs hw hw'
    simp [hargs, hw, hw']
  subst hww
  have hnodes := hs.distinct _ _ n l (.var w) hn hl
    (mem_freshArgs (List.mem_of_getElem? hf₀) hff hwf) (mem_freshArgs (List.mem_of_getElem? hk₀) hkf hwk)
  rw [← hnodes] at hl
  cases hn.symm.trans hl
  have hidx := idx_eq_of_nodup (hs.drawsOnce _ n hn) hf₀ hk₀ hff hkf hwf hwk
  cases p
  cases q
  exact Endpoint.mk.injEq .. ▸ ⟨hnodes, hidx⟩

/-- The nodes of a grounded system are ground instances in the order of their timepoints. -/
theorem Coherent.executable (h : S.Coherent P m) (hs : S.Settled) (hsolved : S.isSolved = true) :
    (S.grounded m).Executable m S.linearize := by
  have hflow := h.flow_grounded hm
  have hnode := h.node?_grounded hm
  obtain ⟨-, -, hedges⟩ := S.apply_frame m.theory S.grounding
  have horder := S.compatible_linearize hs.separated hs.acyclic
  refine ⟨fun id hid => ?_, fun id n' hn' f hf => ?_, fun p f => h.provided_grounded hm hsolved,
    fun e he c hc' => ?_, fun e he e' he' hse c hc' hlin => ?_, fun p f hf hfr => ?_,
    fun p f q k => h.drawnOnce_grounded hm hc hP hs, horder.nodup, fun done b after ho e he hb => ?_⟩
  · obtain ⟨n, hn⟩ := (horder.live id).1 hid
    have hn' := hnode id
    rw [hn, Option.map_some] at hn'
    obtain ⟨r, hr, hinst⟩ := hflow.instances id _ hn'
    exact ⟨_, r, hn', hr, hc.named r (List.mem_of_getElem? hr), hinst⟩
  · rw [hnode, Option.map_eq_some_iff] at hn'
    obtain ⟨n, hn, rfl⟩ := hn'
    rw [Node.facts, Node.mapTerms, ← List.map_append, ← List.map_append] at hf
    obtain ⟨f₀, hf₀, rfl⟩ := List.mem_map.1 hf
    rw [Fact.isGround, Fact.mapTerms, List.all_map, List.all_eq_true]
    exact fun t ht => hm.standard.isGround_normalize
      (isGround_grounding fun v hv => mem_nodeVars hn hf₀ ht hv)
  · obtain ⟨k, c', hk, hf', hsource⟩ := hflow.conclusion_source he
    cases hc'.symm.trans hsource
    obtain ⟨r, hr, hinst⟩ := hflow.instances _ k hk
    rw [hinst.premises, List.getElem?_map, Option.map_eq_some_iff] at hf'
    obtain ⟨f₀, hf₀, rfl⟩ := hf'
    exact hc.sent r (List.mem_of_getElem? hr) f₀ (List.mem_of_getElem? hf₀)
  · rw [conclusion?_mapTerms hnode, Option.map_eq_some_iff] at hc'
    obtain ⟨c₀, hc₀, rfl⟩ := hc'
    rw [hedges] at he he'
    rw [once_of_consumesOnce hs.consumesOnce he he' hse hc₀ hlin]
  · obtain ⟨-, -, w, -, -, -, -, -, hargs⟩ := h.fresh_grounded hm hc hP hf hfr
    exact ⟨_, _, hargs⟩
  · rw [hedges] at he
    obtain ⟨n, k, c, f, p, hn, hk, -, -, -, hp, hpn, hpk⟩ := h.flow.edges e he
    rw [hb] at hk
    exact (ho ▸ horder).mem_of_precedes hn hk ⟨p, hp, hpn, hpk⟩

/-- The trace of a solved system fails only for reasons beyond the flow of facts. -/
theorem Coherent.replay_realize (h : S.Coherent P m) (hs : S.Settled) (hsolved : S.isSolved = true)
    {e : ReplayError} (he : replay m (S.realize m) = .error e) : BeyondFlow e := by
  have hrealize : S.realize m = (S.linearize.filterMap (S.grounded m).node?).map (nodeStep m) := by
    rw [funext (h.node?_grounded hm), realize, ← List.map_filterMap, List.map_map]
    rfl
  exact (h.executable hm hc hP hs hsolved).replay (hrealize ▸ he)

end Solved

end System

end ProtocolProver
