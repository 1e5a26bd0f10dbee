import ProtocolProver.Proofs.Equality
import ProtocolProver.Proofs.Timeline
import ProtocolProver.Search.Expand

/-!
# The flow of facts in a system

The facts of a node are those of its rule under the values of the rule variables, in normal form, and
stay so under unifiers (`Node.Instance.mapTerms`). Every premise that another node has to provide is a
goal or has an edge, and an edge leads from a conclusion to an equal premise of a later node
(`System.Flow`). Every way to change a system keeps this.
-/

namespace ProtocolProver

/-- A model whose rules only take constructors apart, with terms of a shape that respects arities,
and whose rule variables are all listed. -/
structure Model.Regular (P : Shape) (m : Model) : Prop where
  standard : m.theory.Standard
  closes : m.theory.Closes P
  flat : ∀ f n, P.app f n → m.theory.flatShape.app f n
  has : m.Has P
  covers : ∀ r ∈ m.rules, ∀ f ∈ r.facts, ∀ t ∈ f.args, ∀ v ∈ t.occurrences, v ∈ r.vars

variable {P : Shape} {m : Model}

/-! ## Instances of rules -/

/-- The facts of the node are those of the rule under the values of its variables. -/
structure Node.Instance (T : Theory) (r : Rule) (n : Node) : Prop where
  bound : ∀ v ∈ r.vars, ∃ t, n.subst.get? v = some t
  keys : ∀ v t, n.subst.get? v = some t → v ∈ r.vars
  normal : ∀ v t, n.subst.get? v = some t → T.normalize t = t
  premises : n.premises = r.premises.map (·.instantiate T n.subst)
  actions : n.actions = r.actions.map (·.instantiate T n.subst)
  conclusions : n.conclusions = r.conclusions.map (·.instantiate T n.subst)

namespace Model.Regular

variable (hm : m.Regular P)

include hm

theorem flat_of_has {t : Term} (h : t.Has P) : m.theory.Flat t :=
  h.mono (fun _ _ => trivial) (fun _ _ => trivial) hm.flat

theorem normalize_normalize {t : Term} (h : t.Has P) :
    m.theory.normalize (m.theory.normalize t) = m.theory.normalize t :=
  hm.standard.eval_normalize (hm.flat_of_has h) .var

/-- Applying `σ` to an instance of a term is the same as applying it to the values. -/
theorem normalize_apply_instance {σ τ : Subst} (hσ : σ.Within P) (hτ : τ.Within P) {t : Term}
    (ht : t.Has P) (hb : τ.Binds t) :
    m.theory.normalize (σ.apply (m.theory.normalize (τ.apply t))) =
      m.theory.normalize
        (Subst.apply (τ.mapValues fun u => m.theory.normalize (σ.apply u)) t) := by
  have hvar := hm.closes.var
  have hflat := hm.flat_of_has (hτ.has_apply hvar ht)
  have hvalue : ∀ v ∈ t.occurrences, ∃ u, τ.value v = u ∧ u.Has P ∧
      Subst.value (τ.mapValues fun u => m.theory.normalize (σ.apply u)) v =
        m.theory.normalize (σ.apply u) := by
    intro v hv
    obtain ⟨u, hu⟩ := hb v hv
    exact ⟨u, Subst.value_of_get? hu, (hτ v u hu).1,
      Subst.value_of_get? (by rw [SortedMap.get?_mapValues, hu]; rfl)⟩
  generalize (τ.mapValues fun u => m.theory.normalize (σ.apply u)) = ρ at hvalue ⊢
  refine (hm.standard.normalize_mapVars hflat fun v => hm.flat_of_has (hσ.value hvar v)).trans ?_
  change ((t.mapVars τ.value).mapVars σ.value).eval _ _ = (t.mapVars (Subst.value ρ)).eval _ _
  rw [Term.eval_mapVars, Term.eval_mapVars, Term.eval_mapVars]
  refine Term.eval_congr fun v hv => ?_
  obtain ⟨u, hu, hP, hρ⟩ := hvalue v hv
  rw [hu, hρ, ← Term.eval_mapVars]
  exact (hm.normalize_normalize (hσ.has_apply hvar hP)).symm

end Model.Regular

namespace Node.Instance

variable {r : Rule} {n : Node} (hm : m.Regular P)

include hm

theorem facts_mapTerms {σ τ : Subst} (hσ : σ.Within P) (hτ : τ.Within P) {fs : List Fact}
    (hfs : ∀ f ∈ fs, f.Has P) (hb : ∀ f ∈ fs, ∀ t ∈ f.args, τ.Binds t) :
    (fs.map (·.instantiate m.theory τ)).map
        (·.mapTerms fun t => m.theory.normalize (σ.apply t)) =
      fs.map (·.instantiate m.theory
        (τ.mapValues fun u => m.theory.normalize (σ.apply u))) := by
  rw [List.map_map]
  refine List.map_congr_left fun f hf => ?_
  simp only [Function.comp_apply, Fact.instantiate, Fact.mapTerms, List.map_map]
  refine congrArg _ (List.map_congr_left fun t ht => ?_)
  exact hm.normalize_apply_instance hσ hτ (hfs f hf t ht) (hb f hf t ht)

theorem mapTerms (hr : r ∈ m.rules) (h : n.Instance m.theory r) (hn : n.Has P) {σ : Subst}
    (hσ : σ.Within P) :
    (n.mapTerms fun t => m.theory.normalize (σ.apply t)).Instance m.theory r := by
  have hrule := hm.has.rules r hr
  have hb : ∀ f ∈ r.facts, ∀ t ∈ f.args, n.subst.Binds t := fun f hf t ht v hv =>
    h.bound v (hm.covers r hr f hf t ht v hv)
  have hfacts : ∀ f, f ∈ r.facts ↔ (f ∈ r.premises ∨ f ∈ r.actions) ∨ f ∈ r.conclusions := by
    simp [Rule.facts, or_assoc]
  refine ⟨fun v hv => ?_, fun v t ht => ?_, fun v t ht => ?_, ?_, ?_, ?_⟩
  · obtain ⟨t, ht⟩ := h.bound v hv
    exact ⟨_, by rw [Node.mapTerms, SortedMap.get?_mapValues, ht]; rfl⟩
  · rw [Node.mapTerms, SortedMap.get?_mapValues, Option.map_eq_some_iff] at ht
    obtain ⟨u, hu, -⟩ := ht
    exact h.keys v u hu
  · rw [Node.mapTerms, SortedMap.get?_mapValues, Option.map_eq_some_iff] at ht
    obtain ⟨u, hu, rfl⟩ := ht
    exact hm.normalize_normalize (hσ.has_apply hm.closes.var (hn.subst v u hu).1)
  · simp only [Node.mapTerms]
    rw [h.premises]
    exact facts_mapTerms hm hσ hn.subst hrule.premises fun f hf =>
      hb f ((hfacts f).2 (.inl (.inl hf)))
  · simp only [Node.mapTerms]
    rw [h.actions]
    exact facts_mapTerms hm hσ hn.subst hrule.actions fun f hf =>
      hb f ((hfacts f).2 (.inl (.inr hf)))
  · simp only [Node.mapTerms]
    rw [h.conclusions]
    exact facts_mapTerms hm hσ hn.subst hrule.conclusions fun f hf =>
      hb f ((hfacts f).2 (.inr hf))

theorem mapTerms_of_isEmpty (hr : r ∈ m.rules) (h : n.Instance m.theory r) (hn : n.Has P)
    {σ : Subst} (hσ : σ.isEmpty = true) :
    (n.mapTerms fun t => m.theory.normalize (σ.apply t)) = n := by
  have hσ : σ = ∅ := SortedMap.eq_of_entries (List.isEmpty_iff.1 hσ)
  have hinst := h.mapTerms hm hr hn (hσ ▸ .empty : σ.Within P)
  have happly : ∀ t, σ.apply t = t := fun t => by rw [hσ]; exact t.mapVars_var
  have hsubst : n.subst.mapValues (fun t => m.theory.normalize (σ.apply t)) = n.subst := by
    refine SortedMap.ext_get? fun v => ?_
    rw [SortedMap.get?_mapValues]
    cases ht : n.subst.get? v with
    | none => rfl
    | some t => rw [Option.map_some, happly, h.normal v t ht]
  have hp := hinst.premises
  have ha := hinst.actions
  have hc := hinst.conclusions
  simp only [Node.mapTerms, hsubst, ← h.premises, ← h.actions, ← h.conclusions] at hp ha hc ⊢
  rw [hp, ha, hc]

end Node.Instance

/-- The facts have one instance under `g`. -/
def Fact.SameUnder (g : Term → Term) (c f : Fact) : Prop := c.mapTerms g = f.mapTerms g

namespace System

/-! ## Flow -/

/-- The edge leads from a conclusion to a premise of a later node, and the facts are related. -/
def Linked (R : Fact → Fact → Prop) (S : System) (e : Edge) : Prop :=
  ∃ n k c f p, S.node? e.source.node = some n ∧ S.node? e.target.node = some k ∧
    n.conclusions[e.source.idx]? = some c ∧ k.premises[e.target.idx]? = some f ∧ R c f ∧
    p ∈ SortedSet.toList S.less ∧ S.find p.earlier = S.find n.time ∧ S.find p.later = S.find k.time

/-- The premise is a goal or has an edge. -/
def Provided (S : System) (p : Endpoint) : Prop :=
  (∃ g ∈ S.goals, g.goal = .premise p.node p.idx) ∨
    ∃ e ∈ SortedSet.toList S.edges, e.target = p

/-- Nodes are instances of rules, edges lead to related premises, and all premises that need a provider
have one or are goals, except for `skip`. -/
structure Flow (m : Model) (R : Fact → Fact → Prop) (skip : Option Endpoint) (S : System) :
    Prop where
  instances : ∀ id n, S.node? id = some n →
    ∃ r, m.rules[n.rule]? = some r ∧ n.Instance m.theory r
  edges : ∀ e ∈ SortedSet.toList S.edges, S.Linked R e
  premises : ∀ id n idx f, S.node? id = some n → n.premises[idx]? = some f →
    f.pred ≠ Pred.input → f.pred ≠ Pred.fresh → skip ≠ some ⟨id, idx⟩ → S.Provided ⟨id, idx⟩

variable {S S' : System} {R : Fact → Fact → Prop} {skip : Option Endpoint}

theorem flow_empty : Flow m R none {} :=
  ⟨fun _ _ h => by simp [node?] at h, nofun, fun _ _ _ _ h => by simp [node?] at h⟩

/-- Flow depends on nodes and edges, and does not suffer if there are more constraints on timepoints
and more goals. -/
theorem Flow.mono (h : S.Flow m R skip) (hnodes : S'.nodes = S.nodes) (hedges : S'.edges = S.edges)
    (hfind : ∀ i j, S.find i = S.find j → S'.find i = S'.find j)
    (hless : ∀ p ∈ SortedSet.toList S.less, p ∈ SortedSet.toList S'.less)
    (hgoals : ∀ g ∈ S.goals, ∀ node idx, g.goal = .premise node idx →
      ∃ g' ∈ S'.goals, g'.goal = .premise node idx) : S'.Flow m R skip := by
  have hnode : ∀ id, S'.node? id = S.node? id := fun id => by rw [node?, hnodes, node?]
  refine ⟨fun id n hn => h.instances id n (hnode id ▸ hn), fun e he => ?_,
    fun id n idx f hn hf hi hfr hs => ?_⟩
  · obtain ⟨n, k, c, f, p, hn, hk, hc, hf, hR, hp, he, hl⟩ := h.edges e (hedges ▸ he)
    exact ⟨n, k, c, f, p, (hnode _).trans hn, (hnode _).trans hk, hc, hf, hR, hless p hp,
      hfind _ _ he, hfind _ _ hl⟩
  · rcases h.premises id n idx f (hnode id ▸ hn) hf hi hfr hs with ⟨g, hg, hgoal⟩ | he
    · exact .inl (hgoals g hg id idx hgoal)
    · exact .inr (hedges ▸ he)

theorem Flow.grow (h : S.Flow m R skip) (hnodes : S'.nodes = S.nodes)
    (hclasses : S'.classes = S.classes) (hless : S'.less = S.less) (hedges : S'.edges = S.edges)
    (hgoals : ∀ g ∈ S.goals, g ∈ S'.goals) : S'.Flow m R skip := by
  have hfind : ∀ i, S'.find i = S.find i := fun i => by rw [find, hclasses, find]
  refine h.mono hnodes hedges (fun i j h => ?_) (fun p hp => hless ▸ hp)
    fun g hg _ _ hgoal => ⟨g, hgoals g hg, hgoal⟩
  rw [hfind, hfind, h]

theorem Flow.pushGoals (h : S.Flow m R skip) (gs : List Goal) : (S.pushGoals gs).Flow m R skip := by
  obtain ⟨goals, next, he, -⟩ := @pushGoals_eq S gs
  rw [he]
  exact h.grow rfl rfl rfl rfl fun g => List.mem_append_left _

theorem Flow.pushGoal (h : S.Flow m R skip) (g : Goal) : (S.pushGoal g).Flow m R skip :=
  h.pushGoals [g]

theorem Flow.addLess (h : S.Flow m R skip) (i j : TimeVar) : (S.addLess i j).Flow m R skip :=
  h.mono rfl rfl (fun _ _ h => h) (fun _ hp => SortedSet.mem_toList_insert.2 (.inr hp))
    fun g hg _ _ hgoal => ⟨g, hg, hgoal⟩

theorem Flow.union (h : S.Flow m R skip) (i j : TimeVar) : (S.union i j).Flow m R skip :=
  h.mono rfl rfl (fun _ _ => TimeClasses.find_union_congr i j) (fun _ h => h)
    fun g hg _ _ hgoal => ⟨g, hg, hgoal⟩

theorem mem_dedupGoals_of_mem {g : OpenGoal} (h : g ∈ S.goals) :
    ∃ g' ∈ S.dedupGoals.goals, g'.goal = g.goal := by
  have fold : ∀ {goals kept : List OpenGoal}, (g ∈ goals ∨ ∃ g' ∈ kept, g'.goal = g.goal) →
      ∃ g' ∈ goals.foldl (fun kept g =>
        if kept.any fun k => k.goal = g.goal then kept else kept ++ [g]) kept, g'.goal = g.goal := by
    intro goals
    induction goals with
    | nil => exact fun h => h.resolve_left nofun
    | cons k goals ih =>
      intro kept h
      refine ih ?_
      beta_reduce
      rcases h with h | ⟨g', hg', he⟩
      · rcases List.mem_cons.1 h with rfl | h
        · right
          split
          · rename_i hany
            obtain ⟨g', hg', he⟩ := List.any_eq_true.1 hany
            exact ⟨g', hg', of_decide_eq_true he⟩
          · exact ⟨g, List.mem_append_right _ (List.mem_cons_self ..), rfl⟩
        · exact .inl h
      · right
        split
        · exact ⟨g', hg', he⟩
        · exact ⟨g', List.mem_append_left _ hg', he⟩
  exact fold (.inl h)

theorem Flow.dedupGoals (h : S.Flow m R skip) : S.dedupGoals.Flow m R skip :=
  h.mono rfl rfl (fun _ _ h => h) (fun _ h => h) fun g hg _ _ hgoal => by
    obtain ⟨g', hg', he⟩ := mem_dedupGoals_of_mem hg
    exact ⟨g', hg', he.trans hgoal⟩

theorem Flow.saturate (h : S.Flow m R skip) : S.saturate.Flow m R skip := by
  obtain ⟨goals, next, applied, he, -⟩ := @saturate_eq S
  rw [he]
  exact h.grow rfl rfl rfl rfl fun g => List.mem_append_left _

/-- Taking away a goal leaves at most one premise without a provider. -/
theorem Flow.eraseGoal (h : S.Flow m R none) {k : Nat} {g : OpenGoal} (hg : S.goals[k]? = some g) :
    ({ S with goals := S.goals.eraseIdx k } : System).Flow m R
      (match g.goal with
        | .premise node idx => some ⟨node, idx⟩
        | _ => none) := by
  refine ⟨h.instances, h.edges, fun id n idx f hn hf hi hfr hs => ?_⟩
  rcases h.premises id n idx f hn hf hi hfr nofun with ⟨g', hg', hgoal⟩ | he
  · refine .inl ⟨g', ?_, hgoal⟩
    obtain ⟨j, hj⟩ := List.mem_iff_getElem?.1 hg'
    refine List.mem_eraseIdx_iff_getElem?.2 ⟨j, ?_, hj⟩
    rintro rfl
    cases hg.symm.trans hj
    rw [hgoal] at hs
    exact hs rfl
  · exact .inr he

/-! ## New nodes -/

theorem instance_ruleNode {rule : Nat} {r : Rule} (s : VarSupply) (i : TimeVar) :
    (ruleNode m rule r (VarSupply.renameApart r.vars s).1 i).Instance m.theory r := by
  have hget : ∀ v, (VarSupply.renameApart r.vars s).1.get? v =
      if v ∈ r.vars then some (.var { v with idx := s.next }) else none := fun v =>
    SortedMap.get?_ofList_map (fun v : Var => Term.var { v with idx := s.next }) r.vars v
  refine ⟨fun v hv => ⟨_, (hget v).trans (if_pos hv)⟩, fun v t ht => ?_, fun v t ht => ?_, rfl, rfl,
    rfl⟩
  · have ht := (hget v).symm.trans ht
    split at ht
    · assumption
    · cases ht
  · have ht := (hget v).symm.trans ht
    split at ht <;> cases ht
    rfl

theorem node?_addNode {rule : Nat} {time : Option TimeVar} {id : Nat} {n : Node}
    (h : S.node? id = some n) : (S.addNode m rule time).2.node? id = some n := by
  cases hr : m.rules[rule]? with
  | none => rw [addNode, hr]; exact h
  | some r =>
    obtain ⟨i, goals, supply, next, he, -⟩ := @addNode_eq S m rule r hr time
    rw [he, node?, node?_append S _ rfl, if_neg (lt_of_node? h).ne, h]

theorem Flow.addNode (h : S.Flow m R skip) (rule : Nat) (time : Option TimeVar) :
    (S.addNode m rule time).2.Flow m R skip := by
  cases hr : m.rules[rule]? with
  | none => rw [System.addNode, hr]; exact h
  | some r =>
    have hold := fun {id : Nat} {n : Node} => @node?_addNode m S rule time id n
    obtain ⟨i, goals, supply, next, he, hg, -⟩ := @addNode_eq S m rule r hr time
    rw [he] at hold ⊢
    have hnode := node?_append S (ruleNode m rule r (VarSupply.renameApart r.vars S.supply).1 i) rfl
    refine ⟨fun id n hn => ?_, fun e he => ?_, fun id n idx f hn hf hi hfr hs => ?_⟩
    · rw [node?, hnode] at hn
      split at hn
      · cases hn
        exact ⟨r, hr, instance_ruleNode ..⟩
      · exact h.instances id n hn
    · obtain ⟨n, k, c, f, p, hn, hk, rest⟩ := h.edges e he
      exact ⟨n, k, c, f, p, hold hn, hold hk, rest⟩
    · rw [node?, hnode] at hn
      split at hn
      · rename_i hid
        subst hid
        cases hn
        -- The premises of the new node are among its goals.
        have hgoal : Goal.premise S.nodes.length idx ∈ goals.map OpenGoal.goal := by
          rw [hg]
          refine List.mem_append_left _ (List.mem_flatMap.2 ⟨(f, idx), ?_, ?_⟩)
          · exact List.mk_mem_zipIdx_iff_getElem?.2 hf
          · simp [premiseGoals, hi, hfr]
        obtain ⟨g, hgmem, hgoal⟩ := List.mem_map.1 hgoal
        exact .inl ⟨g, List.mem_append_right _ hgmem, hgoal⟩
      · rcases h.premises id n idx f hn hf hi hfr hs with ⟨g, hg, hgoal⟩ | he
        · exact .inl ⟨g, List.mem_append_left _ hg, hgoal⟩
        · exact .inr he

/-! ## Unifiers -/

theorem Flow.sameUnder (h : S.Flow m Eq skip) (g : Term → Term) :
    S.Flow m (Fact.SameUnder g) skip := by
  refine ⟨h.instances, fun e he => ?_, h.premises⟩
  obtain ⟨n, k, c, f, p, hn, hk, hc, hf, rfl, rest⟩ := h.edges e he
  exact ⟨n, k, c, c, p, hn, hk, hc, hf, rfl, rest⟩

theorem apply_frame (S : System) (T : Theory) (σ : Subst) :
    (S.apply T σ).classes = S.classes ∧ (S.apply T σ).less = S.less ∧
      (S.apply T σ).edges = S.edges := by
  unfold apply
  split <;> exact ⟨rfl, rfl, rfl⟩

theorem premise_mem_goals_apply {T : Theory} {σ : Subst} {g : OpenGoal} {node idx : Nat}
    (h : g ∈ S.goals) (hg : g.goal = .premise node idx) :
    ∃ g' ∈ (S.apply T σ).goals, g'.goal = .premise node idx := by
  unfold apply
  split
  · exact ⟨g, h, hg⟩
  · refine ⟨_, List.mem_map_of_mem h, ?_⟩
    simp only [hg]
    rfl

section Unifiers

variable (hm : m.Regular P)

include hm

theorem node?_apply (h : S.Flow m R skip) (hP : S.Has P) {σ : Subst} (id : Nat) :
    (S.apply m.theory σ).node? id =
      (S.node? id).map (Node.mapTerms fun t => m.theory.normalize (σ.apply t)) := by
  unfold apply
  split
  · rename_i hempty
    cases hn : S.node? id with
    | none => rfl
    | some n =>
      obtain ⟨r, hr, hinst⟩ := h.instances id n hn
      rw [Option.map_some,
        hinst.mapTerms_of_isEmpty hm (List.mem_of_getElem? hr) (hP.nodes id n hn) hempty]
  · exact node?_mapTerms S _ id

/-- Applying a substitution makes the facts of edges equal that are the same under it. -/
theorem Flow.apply {σ : Subst} (hP : S.Has P) (hσ : σ.Within P)
    (h : S.Flow m (Fact.SameUnder fun t => m.theory.normalize (σ.apply t)) skip) :
    (S.apply m.theory σ).Flow m Eq skip := by
  obtain ⟨hclasses, hless, hedges⟩ := S.apply_frame m.theory σ
  have hnode := fun id => node?_apply hm h hP (σ := σ) id
  have hfind : ∀ i, (S.apply m.theory σ).find i = S.find i := fun i => by
    rw [find, hclasses, find]
  refine ⟨fun id n' hn' => ?_, fun e he => ?_,
    fun id n' idx f' hn' hf' hi hfr hs => ?_⟩
  · rw [hnode, Option.map_eq_some_iff] at hn'
    obtain ⟨n, hn, rfl⟩ := hn'
    obtain ⟨r, hr, hinst⟩ := h.instances id n hn
    exact ⟨r, hr, hinst.mapTerms hm (List.mem_of_getElem? hr) (hP.nodes id n hn) hσ⟩
  · rw [hedges] at he
    obtain ⟨n, k, c, f, p, hn, hk, hc, hf, hsame, hp, he, hl⟩ := h.edges e he
    refine ⟨_, _, _, _, p, by rw [hnode, hn]; rfl, by rw [hnode, hk]; rfl,
      by rw [Node.mapTerms, List.getElem?_map, hc]; rfl,
      by rw [Node.mapTerms, List.getElem?_map, hf]; rfl, hsame, hless ▸ hp, ?_, ?_⟩
    · rw [hfind, hfind]
      exact he
    · rw [hfind, hfind]
      exact hl
  · rw [hnode, Option.map_eq_some_iff] at hn'
    obtain ⟨n, hn, rfl⟩ := hn'
    rw [Node.mapTerms, List.getElem?_map, Option.map_eq_some_iff] at hf'
    obtain ⟨f, hf, rfl⟩ := hf'
    rcases h.premises id n idx f hn hf hi hfr hs with ⟨g, hg, hgoal⟩ | he
    · exact .inl (premise_mem_goals_apply hg hgoal)
    · exact .inr (hedges ▸ he)

/-! ## New edges -/

omit hm in
theorem map_eq_of_solves {T : Theory} {σ : Subst} : ∀ {as bs : List Term}, as.length = bs.length →
    T.solves σ (as.zip bs) = true →
      as.map (fun t => T.normalize (σ.apply t)) = bs.map fun t => T.normalize (σ.apply t)
  | [], [], _, _ => rfl
  | a :: as, b :: bs, hlen, h => by
    rw [List.zip_cons_cons, Theory.solves, List.all_cons, Bool.and_eq_true] at h
    rw [List.map_cons, List.map_cons, map_eq_of_solves (Nat.succ.inj hlen) h.2]
    exact congrArg (· :: _) (beq_iff_eq.1 h.1)

omit hm in
theorem sameUnder_of_solves {T : Theory} {σ : Subst} {c f : Fact} (hkind : c.sameKind f = true)
    (h : T.solves σ (f.equations c) = true) :
    Fact.SameUnder (fun t => T.normalize (σ.apply t)) c f := by
  obtain ⟨pred, mult, as⟩ := c
  obtain ⟨pred', mult', bs⟩ := f
  simp only [Fact.sameKind, Bool.and_eq_true, beq_iff_eq] at hkind
  obtain ⟨⟨rfl, rfl⟩, hlen⟩ := hkind
  simp only [Fact.SameUnder, Fact.mapTerms]
  rw [map_eq_of_solves hlen.symm h]

omit hm in
theorem Flow.addEdge {s p : Endpoint} (h : S.Flow m R (some p)) {n k : Node} {c f : Fact}
    (hn : S.node? s.node = some n) (hk : S.node? p.node = some k)
    (hc : n.conclusions[s.idx]? = some c) (hf : k.premises[p.idx]? = some f) (hR : R c f) :
    (S.addEdge s p).Flow m R none := by
  have hless := h.addLess n.time k.time
  unfold System.addEdge
  rw [hn, hk]
  refine ⟨hless.instances, fun e he => ?_,
    fun id n idx f hn hf hi hfr _ => ?_⟩
  · rcases SortedSet.mem_toList_insert.1 he with rfl | he
    · exact ⟨n, k, c, f, ⟨n.time, k.time⟩, hn, hk, hc, hf, hR,
        SortedSet.mem_toList_insert.2 (.inl rfl), rfl, rfl⟩
    · exact hless.edges e he
  · by_cases hp : p = ⟨id, idx⟩
    · exact .inr ⟨⟨s, p⟩, SortedSet.mem_toList_insert.2 (.inl rfl), hp⟩
    · rcases hless.premises id n idx f hn hf hi hfr (by simpa using hp) with hg | ⟨e, he, ht⟩
      · exact .inl hg
      · exact .inr ⟨e, SortedSet.mem_toList_insert.2 (.inr he), ht⟩

/-! ## Merged nodes -/

omit hm in
/-- A node may be dropped for another one on its class, if the facts of both are the same. -/
theorem Flow.absorb {g : Term → Term} (h : S.Flow m (Fact.SameUnder g) none) {a b : Nat}
    {n k : Node} (ha : S.node? a = some n) (hb : S.node? b = some k) (hne : a ≠ b)
    (htime : S.find n.time = S.find k.time)
    (hpremises : n.premises.map (·.mapTerms g) = k.premises.map (·.mapTerms g))
    (hconclusions : n.conclusions.map (·.mapTerms g) = k.conclusions.map (·.mapTerms g)) :
    (S.absorb a b).Flow m (Fact.SameUnder g) none := by
  have same : ∀ {fs fs' : List Fact}, fs.map (·.mapTerms g) = fs'.map (·.mapTerms g) →
      ∀ {idx : Nat} {f' : Fact}, fs'[idx]? = some f' →
        ∃ f, fs[idx]? = some f ∧ Fact.SameUnder g f f' := by
    intro fs fs' he idx f' hf'
    have hi : (fs.map (·.mapTerms g))[idx]? = some (f'.mapTerms g) := by
      rw [he, List.getElem?_map, hf']
      rfl
    rw [List.getElem?_map, Option.map_eq_some_iff] at hi
    exact hi
  -- The endpoints of edges of `b` move to the same facts of `a`.
  have moved : ∀ {facts : Node → List Fact} {p : Endpoint} {l : Node} {f : Fact},
      (facts n).map (·.mapTerms g) = (facts k).map (·.mapTerms g) →
      S.node? p.node = some l → (facts l)[p.idx]? = some f →
      ∃ l' f', (S.absorb a b).node? (p.redirect a b).node = some l' ∧
        (facts l')[(p.redirect a b).idx]? = some f' ∧ Fact.SameUnder g f' f ∧
        S.find l'.time = S.find l.time := by
    intro facts p l f he hl hf
    unfold Endpoint.redirect
    split
    · rename_i hp
      rw [hp] at hl
      cases hb.symm.trans hl
      obtain ⟨f', hf', hs⟩ := same he hf
      exact ⟨n, f', by rw [node?_absorb, if_neg hne]; exact ha, hf', hs, htime⟩
    · rename_i hp
      exact ⟨l, f, by rw [node?_absorb, if_neg hp]; exact hl, hf, rfl, rfl⟩
  have hedge : ∀ e, e ∈ SortedSet.toList (S.absorb a b).edges ↔
      ∃ e₀ ∈ SortedSet.toList S.edges, e₀.redirect a b = e := fun e => SortedSet.mem_toList_map
  refine ⟨fun id l hl => ?_, fun e he => ?_, fun id l idx f hl hf hi hfr _ => ?_⟩
  · rw [node?_absorb] at hl
    split at hl
    · cases hl
    · exact h.instances id l hl
  · obtain ⟨e₀, he₀, rfl⟩ := (hedge e).1 he
    obtain ⟨l, l', c, f, p, hl, hl', hc, hf, hs, hp, hbefore, hafter⟩ := h.edges e₀ he₀
    obtain ⟨s, c', hs₁, hs₂, hs₃, hs₄⟩ := moved hconclusions hl hc
    obtain ⟨t, f', ht₁, ht₂, ht₃, ht₄⟩ := moved hpremises hl' hf
    exact ⟨s, t, c', f', p, hs₁, ht₁, hs₂, ht₂, hs₃.trans (hs.trans ht₃.symm), hp,
      hbefore.trans hs₄.symm, hafter.trans ht₄.symm⟩
  · rw [node?_absorb] at hl
    split at hl
    · cases hl
    · rename_i hid
      rcases h.premises id l idx f hl hf hi hfr nofun with ⟨g', hg', hgoal⟩ | ⟨e, he, ht⟩
      · by_cases hany : ∃ e ∈ SortedSet.toList (S.absorb a b).edges, e.target = ⟨id, idx⟩
        · exact .inr hany
        · refine .inl ⟨g', List.mem_filter.2 ⟨hg', ?_⟩, hgoal⟩
          simp only [hgoal, Bool.and_eq_true, bne_iff_ne, ne_eq, hid, not_false_eq_true, true_and,
            Bool.not_eq_true', List.any_eq_false, beq_iff_eq]
          exact fun e he ht => hany ⟨e, he, ht⟩
      · refine .inr ⟨e.redirect a b, (hedge _).2 ⟨e, he, rfl⟩, ?_⟩
        simp [Edge.redirect, Endpoint.redirect, ht, hid]

end Unifiers

end System

end ProtocolProver
