import ProtocolProver.Proofs.SolverShapes
import ProtocolProver.System.Simplify

/-!
# Systems with terms of a shape

If the terms of a model and of a system have a shape that the theory closes, then every way to change
the system keeps it so: new nodes and goals, unifiers that are applied, nodes that are merged and
guarded formulas that are instantiated (`System.Has`).
-/

namespace ProtocolProver

variable {P : Shape}

/-! ## Facts and formulas -/

/-- The arguments of a fact have the shape. -/
def Fact.Has (P : Shape) (f : Fact) : Prop := ∀ t ∈ f.args, t.Has P

theorem Fact.Has.mapTerms {f : Fact} (h : f.Has P) {g : Term → Term}
    (hg : ∀ t, t.Has P → (g t).Has P) : (f.mapTerms g).Has P := by
  intro u hu
  obtain ⟨t, ht, rfl⟩ := List.mem_map.1 hu
  exact hg t (h t ht)

theorem Fact.Has.equations {f g : Fact} (hf : f.Has P) (hg : g.Has P) :
    EquationsHave P (f.equations g) := EquationsHave.zip hf hg

namespace Nnf

def Has (P : Shape) (f : Nnf) : Prop := ∀ t ∈ f.terms, t.Has P

/-- Induction on formulas, with the hypothesis for every part of a list. -/
@[elab_as_elim]
theorem induction_parts {motive : Nnf → Prop} (top : motive .top) (bot : motive .bot)
    (atom : ∀ a, motive (.atom a)) (neq : ∀ s t, motive (.neq s t))
    (conj : ∀ fs, (∀ f ∈ fs, motive f) → motive (.conj fs))
    (disj : ∀ fs, (∀ f ∈ fs, motive f) → motive (.disj fs))
    (ex : ∀ bs f, motive f → motive (.ex bs f))
    (guarded : ∀ bs gs f, motive f → motive (.guarded bs gs f)) (f : Nnf) : motive f :=
  @Nnf.rec motive (fun fs => ∀ f ∈ fs, motive f) top bot atom neq conj disj ex guarded
    (List.forall_mem_nil _) (fun _ _ hf hfs => List.forall_mem_cons.2 ⟨hf, hfs⟩) f

theorem termsList_eq (fs : List Nnf) : termsList fs = fs.flatMap terms := by
  induction fs with
  | nil => rfl
  | cons f fs ih => simp [termsList, ih]

theorem mapList_eq (terms : Term → Term) (times : TimeVar → TimeVar) (fs : List Nnf) :
    mapList terms times fs = fs.map (map terms times) := by
  induction fs with
  | nil => rfl
  | cons f fs ih => simp [mapList, ih]

theorem instantiateList_eq (b : Binding) (fs : List Nnf) :
    instantiateList b fs = fs.map (instantiate b) := by
  induction fs with
  | nil => rfl
  | cons f fs ih => simp [instantiateList, ih]

theorem has_conj {fs : List Nnf} : (conj fs).Has P ↔ ∀ f ∈ fs, f.Has P := by
  simp only [Has, terms, termsList_eq, List.mem_flatMap]
  exact ⟨fun h f hf t ht => h t ⟨f, hf, ht⟩, fun h t ⟨f, hf, ht⟩ => h f hf t ht⟩

theorem has_disj {fs : List Nnf} : (disj fs).Has P ↔ ∀ f ∈ fs, f.Has P := has_conj

theorem has_guarded {bs : List Binder} {gs : List Atom} {f : Nnf} :
    (guarded bs gs f).Has P ↔ (∀ a ∈ gs, ∀ t ∈ a.terms, t.Has P) ∧ f.Has P := by
  simp only [Has, terms, List.forall_mem_append, List.mem_flatMap]
  exact and_congr_left' ⟨fun h a ha t ht => h t ⟨a, ha, ht⟩, fun h t ⟨a, ha, ht⟩ => h a ha t ht⟩

end Nnf

theorem Atom.terms_map (a : Atom) (terms : Term → Term) (times : TimeVar → TimeVar) :
    (a.map terms times).terms = a.terms.map terms := by
  cases a <;> rfl

theorem Atom.terms_negate {a : Atom} {f : Nnf} (h : a.negate = .ok f) : ∀ t ∈ f.terms, t ∈ a.terms := by
  cases a <;> cases h <;> simp [Nnf.terms, Nnf.termsList, Atom.terms]

theorem Atom.args_action? {a : Atom} {f : Fact} {i : TimeVar} (h : a.action? = some (f, i)) :
    f.args = a.terms := by
  cases a <;> cases h <;> rfl

namespace Nnf

theorem Has.map {f : Nnf} (h : f.Has P) {g : Term → Term} (hg : ∀ t, t.Has P → (g t).Has P)
    (times : TimeVar → TimeVar) : (f.map g times).Has P := by
  have hatom : ∀ a : Atom, (∀ t ∈ a.terms, t.Has P) → ∀ t ∈ (a.map g times).terms, t.Has P := by
    intro a ha t ht
    rw [Atom.terms_map] at ht
    obtain ⟨u, hu, rfl⟩ := List.mem_map.1 ht
    exact hg u (ha u hu)
  induction f using induction_parts with
  | top => exact nofun
  | bot => exact nofun
  | atom a => exact hatom a h
  | neq s t =>
    obtain ⟨hs, ht⟩ : s.Has P ∧ t.Has P := by simpa [Has, terms] using h
    simpa [Has, terms, Nnf.map] using ⟨hg s hs, hg t ht⟩
  | conj fs ih | disj fs ih =>
    have h := has_conj.1 h
    rw [Nnf.map, mapList_eq]
    refine has_conj.2 fun f' hf' => ?_
    obtain ⟨f, hf, rfl⟩ := List.mem_map.1 hf'
    exact ih f hf (h f hf)
  | ex bs f ih => exact ih h
  | guarded bs gs f ih =>
    obtain ⟨hgs, hf⟩ := has_guarded.1 h
    refine has_guarded.2 ⟨fun a' ha' => ?_, ih hf⟩
    obtain ⟨a, ha, rfl⟩ := List.mem_map.1 ha'
    exact hatom a (hgs a ha)

/-- A formula keeps a shape when values of it are put in. -/
theorem Has.instantiate_values {f : Nnf} (h : f.Has P) {b : Binding}
    (hb : ∀ v, P.var v → (b.terms.value v).Has P) : (f.instantiate b).Has P := by
  have hterm : ∀ {b : Binding}, (∀ v, P.var v → (b.terms.value v).Has P) → ∀ t : Term, t.Has P →
      (b.terms.apply t).Has P := fun hb t ht =>
    ht.mapVars (fun v hv => hb v (ht.var_of_mem hv)) (fun _ h => h) fun _ _ h => h
  have hatom : ∀ {b : Binding}, (∀ v, P.var v → (b.terms.value v).Has P) → ∀ a : Atom,
      (∀ t ∈ a.terms, t.Has P) → ∀ t ∈ (a.instantiate b).terms, t.Has P := by
    intro b hb a ha t ht
    rw [Atom.instantiate, Atom.terms_map] at ht
    obtain ⟨u, hu, rfl⟩ := List.mem_map.1 ht
    exact hterm hb u (ha u hu)
  have hwithout : ∀ {b : Binding} (bs : List Binder), (∀ v, P.var v → (b.terms.value v).Has P) →
      ∀ v, P.var v → ((b.without bs).terms.value v).Has P := by
    intro b bs hb v hv
    simp only [Binding.without, Subst.value, SortedMap.get?_filterKeys]
    split
    · exact hb v hv
    · exact .var hv
  induction f using induction_parts generalizing b with
  | top => exact List.forall_mem_nil _
  | bot => exact List.forall_mem_nil _
  | atom a => exact hatom hb a h
  | neq s t =>
    obtain ⟨hs, ht⟩ : s.Has P ∧ t.Has P := by simpa [Has, terms] using h
    simpa [Has, terms, Nnf.instantiate] using ⟨hterm hb s hs, hterm hb t ht⟩
  | conj fs ih | disj fs ih =>
    have h := has_conj.1 h
    rw [Nnf.instantiate, instantiateList_eq]
    refine has_conj.2 fun f' hf' => ?_
    obtain ⟨f, hf, rfl⟩ := List.mem_map.1 hf'
    exact ih f hf (h f hf) hb
  | ex bs f ih => exact ih h (hwithout bs hb)
  | guarded bs gs f ih =>
    obtain ⟨hgs, hf⟩ := has_guarded.1 h
    refine has_guarded.2 ⟨fun a' ha' => ?_, ih hf (hwithout bs hb)⟩
    obtain ⟨a, ha, rfl⟩ := List.mem_map.1 ha'
    exact hatom (hwithout bs hb) a (hgs a ha)

theorem Has.instantiate {f : Nnf} (h : f.Has P) (hv : ∀ v, P.var v) {b : Binding}
    (hb : b.terms.Within P) : (f.instantiate b).Has P :=
  h.instantiate_values fun v _ => hb.value hv v

end Nnf

namespace Guarded

theorem has_requirement {g : Guarded} (h : g.toNnf.Has P) (hv : ∀ v, P.var v) {b : Binding}
    (hb : b.terms.Within P) : (g.requirement b).Has P := by
  obtain ⟨hguard, hbody⟩ := Nnf.has_guarded.1 h
  have hbody' := hbody.instantiate hv hb
  unfold requirement
  simp only
  split
  · exact hbody'
  · refine Nnf.has_disj.2 (List.forall_mem_append.2 ⟨fun f hf => ?_, by simpa using hbody'⟩)
    obtain ⟨a, ha, hn⟩ := List.mem_filterMap.1 hf
    intro t ht
    cases hneg : (a.instantiate b).negate with
    | error e => rw [hneg] at hn; cases hn
    | ok f' =>
      rw [hneg] at hn
      cases hn
      have hterm := Atom.terms_negate hneg t ht
      rw [Atom.instantiate, Atom.terms_map] at hterm
      obtain ⟨u, hu, rfl⟩ := List.mem_map.1 hterm
      exact hb.has_apply hv (hguard a (List.mem_filter.1 ha).1 u hu)

end Guarded

/-! ## Parts of systems -/

/-- Every term of the goal has the shape. -/
def Goal.Has (P : Shape) (g : Goal) : Prop := ∀ t ∈ g.terms, t.Has P

theorem Goal.Has.map {g : Goal} (h : g.Has P) {f : Term → Term} (hf : ∀ t, t.Has P → (f t).Has P)
    (times : TimeVar → TimeVar) : (g.map f times).Has P := by
  cases g with
  | action fact i => exact Fact.Has.mapTerms h hf
  | premise node idx => exact nofun
  | knows t i => simpa [Goal.Has, Goal.map, Goal.terms] using hf t (h t (by simp [Goal.terms]))
  | chain s t i =>
    simpa [Goal.Has, Goal.map, Goal.terms] using
      ⟨hf s (h s (by simp [Goal.terms])), hf t (h t (by simp [Goal.terms]))⟩
  | split f => exact Nnf.Has.map h hf times

/-- The facts of the node and the values of its rule variables have the shape. -/
structure Node.Has (P : Shape) (n : Node) : Prop where
  subst : n.subst.Within P
  premises : ∀ f ∈ n.premises, f.Has P
  actions : ∀ f ∈ n.actions, f.Has P
  conclusions : ∀ f ∈ n.conclusions, f.Has P

/-- The node with its terms replaced. -/
def Node.mapTerms (f : Term → Term) (n : Node) : Node :=
  { n with
    premises := n.premises.map (·.mapTerms f)
    actions := n.actions.map (·.mapTerms f)
    conclusions := n.conclusions.map (·.mapTerms f)
    subst := n.subst.mapValues f }

theorem Node.Has.mapTerms {P : Shape} {n : Node} {g : Term → Term} (h : n.Has P)
    (hterm : ∀ t : Term, t.Has P → (g t).Has P)
    (hsort : ∀ (s : TermSort) (t : Term), s.admits t.sort = true → s.admits (g t).sort = true) :
    (n.mapTerms g).Has P := by
  have hfacts : ∀ {fs : List Fact}, (∀ f ∈ fs, f.Has P) → ∀ f ∈ fs.map (·.mapTerms g), f.Has P :=
    fun hfs => List.forall_mem_map.2 fun f hf => (hfs f hf).mapTerms hterm
  refine ⟨fun v t' ht' => ?_, hfacts h.premises, hfacts h.actions, hfacts h.conclusions⟩
  simp only [Node.mapTerms, SortedMap.get?_mapValues, Option.map_eq_some_iff] at ht'
  obtain ⟨t, ht, rfl⟩ := ht'
  exact ⟨hterm t (h.subst v t ht).1, hsort _ t (h.subst v t ht).2⟩

/-- The terms of a rule have the shape. -/
structure Rule.Has (P : Shape) (r : Rule) : Prop where
  premises : ∀ f ∈ r.premises, f.Has P
  actions : ∀ f ∈ r.actions, f.Has P
  conclusions : ∀ f ∈ r.conclusions, f.Has P
  restrict : ∀ f, r.restrict = some f → f.Has P

structure Model.Has (P : Shape) (m : Model) : Prop where
  rules : ∀ r ∈ m.rules, r.Has P
  restrictions : ∀ r ∈ m.restrictions, r.nnf.Has P

structure System.Has (P : Shape) (S : System) : Prop where
  nodes : ∀ id n, S.node? id = some n → n.Has P
  goals : ∀ g ∈ S.goals, g.goal.Has P
  guarded : ∀ g ∈ S.guarded, g.toNnf.Has P
  disequalities : EquationsHave P S.disequalities

namespace System

variable {S : System}

theorem mem_liveNodes {id : Nat} {n : Node} : (id, n) ∈ S.liveNodes ↔ S.node? id = some n := by
  unfold liveNodes node?
  simp only [List.mem_filterMap, Prod.exists, List.mk_mem_zipIdx_iff_getElem?, Option.map_eq_some_iff,
    Prod.mk.injEq, Option.join_eq_some_iff]
  constructor
  · rintro ⟨k, i, hk, n', rfl, rfl, rfl⟩
    exact hk
  · intro h
    exact ⟨some n, id, h, n, rfl, rfl, rfl⟩

theorem lt_of_node? {id : Nat} {n : Node} (h : S.node? id = some n) : id < S.nodes.length := by
  obtain ⟨hlt, -⟩ := List.getElem?_eq_some_iff.1 (Option.join_eq_some_iff.1 h)
  exact hlt

theorem node?_mapTerms (S : System) (f : Term → Term) (id : Nat) :
    (S.mapTerms f).node? id = (S.node? id).map (Node.mapTerms f) := by
  simp only [node?, System.mapTerms, List.getElem?_map]
  cases S.nodes[id]? with
  | none => rfl
  | some n => cases n <;> rfl

theorem node?_absorb (S : System) (a b id : Nat) :
    (S.absorb a b).node? id = if id = b then none else S.node? id := by
  simp only [node?, System.absorb, List.getElem?_set]
  split
  · rename_i h
    subst h
    rw [if_pos rfl]
    split <;> rfl
  · rename_i h
    rw [if_neg fun h' => h h'.symm]

/-! ## Goals and new nodes -/

theorem drawing_eq {α : Type} (x : StateM VarSupply α) :
    S.drawing x = ((x.run S.supply).1, { S with supply := (x.run S.supply).2 }) := rfl

theorem pushGoals_cons (g : Goal) (gs : List Goal) :
    S.pushGoals (g :: gs) = (S.pushGoal g).pushGoals gs := rfl

theorem pushGoals_pushGoals (gs hs : List Goal) :
    (S.pushGoals gs).pushGoals hs = S.pushGoals (gs ++ hs) := List.foldl_append.symm

theorem pushGoals_eq (gs : List Goal) : ∃ goals next,
    S.pushGoals gs = { S with goals := S.goals ++ goals, nextGoal := next } ∧
      goals.map OpenGoal.goal = gs := by
  induction gs generalizing S with
  | nil => exact ⟨[], S.nextGoal, by simp [pushGoals], rfl⟩
  | cons g gs ih =>
    obtain ⟨goals, next, he, hg⟩ := @ih (S.pushGoal g)
    refine ⟨⟨g, S.nextGoal⟩ :: goals, next, ?_, by simp [hg]⟩
    rw [pushGoals_cons, he]
    simp [pushGoal]

/-- The node that a renamed copy of a rule gives. -/
def ruleNode (m : Model) (rule : Nat) (r : Rule) (subst : Subst) (time : TimeVar) : Node :=
  ⟨rule, time, subst, r.premises.map (·.instantiate m.theory subst),
    r.actions.map (·.instantiate m.theory subst), r.conclusions.map (·.instantiate m.theory subst)⟩

/-- The goals that come with a new node. -/
def nodeGoals (id : Nat) (n : Node) (r : Rule) : List Goal :=
  (n.premises.zipIdx.flatMap fun (f, idx) => premiseGoals id n.time idx f)
    ++ r.restrict.toList.map fun f => Goal.split (f.instantiate (.ofSubst n.subst))

/-- A new node is a renamed copy of its rule. It comes last, with its goals. -/
theorem addNode_eq {m : Model} {rule : Nat} {r : Rule} (hr : m.rules[rule]? = some r)
    (time : Option TimeVar) : ∃ i goals supply next,
      let n := ruleNode m rule r (VarSupply.renameApart r.vars S.supply).1 i
      S.addNode m rule time = (S.nodes.length, { S with
        nodes := S.nodes ++ [some n]
        goals := S.goals ++ goals
        supply := supply
        nextGoal := next }) ∧
      goals.map OpenGoal.goal = nodeGoals S.nodes.length n r ∧
      (∀ j, time = some j → i = j ∧ supply.next = S.supply.next + 1) ∧
      (time = none → i = ⟨"t", S.supply.next + 1⟩ ∧ supply.next = S.supply.next + 2) := by
  have push : ∀ (B : System) (n : Node), ∃ goals next,
      { (B.pushGoals (nodeGoals S.nodes.length n r)) with
        nodes := (B.pushGoals (nodeGoals S.nodes.length n r)).nodes ++ [some n] } =
      { B with nodes := B.nodes ++ [some n], goals := B.goals ++ goals, nextGoal := next } ∧
      goals.map OpenGoal.goal = nodeGoals S.nodes.length n r := by
    intro B n
    obtain ⟨goals, next, he, hg⟩ := @pushGoals_eq B (nodeGoals S.nodes.length n r)
    exact ⟨goals, next, by rw [he], hg⟩
  unfold addNode
  rw [hr]
  cases time with
  | some j =>
    obtain ⟨goals, next, he, hg⟩ := push (S.drawing (VarSupply.renameApart r.vars)).2
      (ruleNode m rule r (VarSupply.renameApart r.vars S.supply).1 j)
    refine ⟨j, goals, (VarSupply.renameApart r.vars S.supply).2, next, ?_, hg,
      fun _ h => ⟨Option.some.inj h, rfl⟩, nofun⟩
    simp only [drawing_eq, pushGoals_pushGoals] at he ⊢
    exact congrArg _ he
  | none =>
    obtain ⟨goals, next, he, hg⟩ := push
      ((S.drawing (VarSupply.renameApart r.vars)).2.freshTime "t").2
      (ruleNode m rule r (VarSupply.renameApart r.vars S.supply).1
        ((S.drawing (VarSupply.renameApart r.vars)).2.freshTime "t").1)
    refine ⟨_, goals, ((S.drawing (VarSupply.renameApart r.vars)).2.freshTime "t").2.supply, next, ?_,
      hg, nofun, fun _ => ⟨rfl, rfl⟩⟩
    simp only [drawing_eq, freshTime, pushGoals_pushGoals] at he ⊢
    exact congrArg _ he

theorem node?_append (S : System) {nodes : List (Option Node)} (n : Node)
    (h : nodes = S.nodes ++ [some n]) (id : Nat) :
    nodes[id]?.join = if id = S.nodes.length then some n else S.node? id := by
  subst h
  split
  · rename_i hid
    simp [hid]
  · rename_i hid
    rw [node?, List.getElem?_append]
    split
    · rfl
    · rw [List.getElem?_eq_none (by simp; omega), List.getElem?_eq_none (by omega)]

theorem premiseGoals_has {id : Nat} {i : TimeVar} {idx : Nat} {f : Fact} (h : f.Has P) :
    ∀ g ∈ premiseGoals id i idx f, g.Has P := by
  intro g hg
  unfold premiseGoals at hg
  split at hg
  · obtain ⟨t, ht, rfl⟩ := List.mem_map.1 hg
    simpa [Goal.Has, Goal.terms] using h t ht
  · split at hg
    · cases hg
    · rw [List.mem_singleton.1 hg]
      exact nofun

theorem Has.goals_append (h : S.Has P) {goals : List OpenGoal}
    (hg : ∀ g ∈ goals.map OpenGoal.goal, g.Has P) : ∀ g ∈ S.goals ++ goals, g.goal.Has P :=
  List.forall_mem_append.2 ⟨h.goals, fun g hgoal => hg g.goal (List.mem_map_of_mem hgoal)⟩

theorem Has.pushGoals (h : S.Has P) {gs : List Goal} (hg : ∀ g ∈ gs, g.Has P) :
    (S.pushGoals gs).Has P := by
  obtain ⟨goals, next, he, rfl⟩ := @pushGoals_eq S gs
  rw [he]
  exact ⟨h.nodes, h.goals_append hg, h.guarded, h.disequalities⟩

theorem Has.pushGoal (h : S.Has P) {g : Goal} (hg : g.Has P) : (S.pushGoal g).Has P :=
  show (S.pushGoals [g]).Has P from h.pushGoals (by simpa using hg)

section Theory

variable {m : Model} (hT : m.theory.Closes P)

include hT

theorem has_ruleNode {r : Rule} (hr : r.Has P) (rule : Nat) {subst : Subst}
    (hs : subst.Within P) (i : TimeVar) : (ruleNode m rule r subst i).Has P := by
  have instances : ∀ {fs : List Fact}, (∀ f ∈ fs, f.Has P) →
      ∀ f ∈ fs.map (·.instantiate m.theory subst), f.Has P := by
    intro fs h f' hf'
    obtain ⟨f, hf, rfl⟩ := List.mem_map.1 hf'
    exact (h f hf).mapTerms fun t => hT.has_normalize_apply hs
  exact ⟨hs, instances hr.premises, instances hr.actions, instances hr.conclusions⟩

theorem has_nodeGoals {r : Rule} (hr : r.Has P) (id : Nat) {n : Node} (hn : n.Has P) :
    ∀ g ∈ nodeGoals id n r, g.Has P := by
  refine List.forall_mem_append.2 ⟨fun g hg => ?_, fun g hg => ?_⟩
  · obtain ⟨⟨f, idx⟩, hf, hg⟩ := List.mem_flatMap.1 hg
    exact premiseGoals_has (hn.premises f (List.fst_mem_of_mem_zipIdx hf)) g hg
  · obtain ⟨f, hf, rfl⟩ := List.mem_map.1 hg
    exact (hr.restrict f (Option.mem_toList.1 hf)).instantiate hT.var hn.subst

theorem Has.addNode (hm : m.Has P) (h : S.Has P) (rule : Nat) (time : Option TimeVar) :
    (S.addNode m rule time).2.Has P := by
  cases hr : m.rules[rule]? with
  | none =>
    unfold System.addNode
    rw [hr]
    exact h
  | some r =>
    obtain ⟨i, goals, supply, next, he, hg, -⟩ := @addNode_eq S m rule r hr time
    have hrule := hm.rules r (List.mem_of_getElem? hr)
    have hn := has_ruleNode hT hrule rule (yields_renameApart hT.var r.vars S.supply) i
    rw [he]
    refine ⟨fun id n hid => ?_, h.goals_append ?_, h.guarded, h.disequalities⟩
    · rw [node?, node?_append S _ rfl] at hid
      split at hid
      · cases hid
        exact hn
      · exact h.nodes id n hid
    · rw [hg]
      exact has_nodeGoals hT hrule _ hn

/-! ## Unifiers -/

theorem Has.apply (h : S.Has P) {σ : Subst} (hσ : σ.Within P) : (S.apply m.theory σ).Has P := by
  have hterm : ∀ t : Term, t.Has P → (m.theory.normalize (σ.apply t)).Has P :=
    fun t => hT.has_normalize_apply hσ
  unfold System.apply
  split
  · exact h
  · refine ⟨fun id n' hn' => ?_, fun g' hg' => ?_, fun g' hg' => ?_, fun e' he' => ?_⟩
    · rw [node?_mapTerms, Option.map_eq_some_iff] at hn'
      obtain ⟨n, hn, rfl⟩ := hn'
      exact (h.nodes id n hn).mapTerms hterm fun _ _ ht => Theory.sort_normalize (hσ.sort_apply ht)
    · obtain ⟨g, hg, rfl⟩ := List.mem_map.1 hg'
      exact (h.goals g hg).map hterm id
    · obtain ⟨g, hg, rfl⟩ := List.mem_map.1 hg'
      exact Nnf.Has.map (h.guarded g hg) hterm id
    · obtain ⟨e, he, rfl⟩ := List.mem_map.1 he'
      obtain ⟨hs, ht⟩ := h.disequalities e he
      exact ⟨hterm _ hs, hterm _ ht⟩

theorem mem_unify {eqs : List Equation} (heqs : EquationsHave P eqs) {S' : System}
    (h : S' ∈ (S.unify m.theory eqs).systems) : ∃ (σ : Subst) (supply : VarSupply),
      σ.Within P ∧ m.theory.solves σ eqs = true ∧
        S' = { S with supply := supply }.apply m.theory σ := by
  obtain ⟨σ, hσ, rfl⟩ := List.mem_map.1 h
  exact ⟨σ, _, hT.within_unify heqs hσ, Theory.solves_of_mem_unify hσ, rfl⟩

end Theory

/-! ## Simplification -/

theorem Has.absorb (h : S.Has P) (a b : Nat) : (S.absorb a b).Has P := by
  refine ⟨fun id n hn => ?_, fun g hg => h.goals g (List.mem_filter.1 hg).1, h.guarded,
    h.disequalities⟩
  rw [node?_absorb] at hn
  split at hn
  · cases hn
  · exact h.nodes id n hn

theorem mem_dedupGoals {g : OpenGoal} (h : g ∈ S.dedupGoals.goals) : g ∈ S.goals := by
  have fold : ∀ {goals kept : List OpenGoal}, g ∈ goals.foldl (fun kept g =>
      if kept.any fun k => k.goal = g.goal then kept else kept ++ [g]) kept →
        g ∈ kept ∨ g ∈ goals := by
    intro goals
    induction goals with
    | nil => exact fun h => .inl h
    | cons k goals ih =>
      intro kept h
      rcases ih h with h | h
      · beta_reduce at h
        split at h
        · exact .inl h
        · rcases List.mem_append.1 h with h | h
          · exact .inl h
          · rw [List.mem_singleton.1 h]
            exact .inr (List.mem_cons_self ..)
      · exact .inr (List.mem_cons_of_mem k h)
  exact (fold h).resolve_left nofun

theorem Has.dedupGoals (h : S.Has P) : S.dedupGoals.Has P :=
  ⟨h.nodes, fun g hg => h.goals g (mem_dedupGoals hg), h.guarded, h.disequalities⟩

/-- Values of the shape are found for a guard if its free variables are of the shape. -/
theorem within_guardMatches_of_free (h : ∀ id n, S.node? id = some n → n.Has P) {g : Guarded}
    (hfree : ∀ v ∈ factOccurrences (g.actions.map (·.1)), .msg v ∉ g.binders → P.var v) :
    ∀ p ∈ S.guardMatches g, p.subst.Within P := by
  have start : Subst.Within (SortedMap.ofList (((factOccurrences (g.actions.map (·.1))).filter
      fun v => !g.binders.contains (.msg v)).map fun v => (v, Term.var v))) P := by
    intro v t ht
    obtain ⟨w, hw, he⟩ := List.mem_map.1 (SortedMap.mem_of_get?_ofList ht)
    cases he
    obtain ⟨hw, hb⟩ := List.mem_filter.1 hw
    exact ⟨.var (hfree _ hw (by simpa using hb)), TermSort.admits_self _⟩
  have step : ∀ {found : GuardMatch}, found.subst.Within P → ∀ pattern i,
      ∀ p ∈ S.matchAction g.binders found pattern i, p.subst.Within P := by
    intro found hfound pattern i p hp
    obtain ⟨⟨id, n⟩, hn, hp⟩ := List.mem_flatMap.1 hp
    simp only at hp
    split at hp
    · obtain ⟨⟨action, a⟩, ha, hp⟩ := List.mem_filterMap.1 hp
      simp only at hp
      split at hp
      · obtain ⟨σ, hσ, rfl⟩ := Option.map_eq_some_iff.1 hp
        have haction := (h id n (mem_liveNodes.1 hn)).actions action (List.fst_mem_of_mem_zipIdx ha)
        cases hm : matchTerms pattern.args action.args found.subst with
        | error e => rw [matchTerms?, hm] at hσ; cases hσ
        | ok τ =>
          rw [matchTerms?, hm] at hσ
          cases hσ
          exact matchTerms_within hm haction hfound
      · cases hp
    · cases hp
  have fold : ∀ (actions : List (Fact × TimeVar)) (found : List GuardMatch),
      (∀ p ∈ found, p.subst.Within P) → ∀ p ∈ actions.foldl (fun found a =>
        found.flatMap fun p => S.matchAction g.binders p a.1 a.2) found, p.subst.Within P := by
    intro actions
    induction actions with
    | nil => exact fun _ h => h
    | cons a actions ih =>
      intro found hfound
      refine ih _ fun p hp => ?_
      obtain ⟨q, hq, hp⟩ := List.mem_flatMap.1 hp
      exact step (hfound q hq) _ _ p hp
  exact fold _ _ (List.forall_mem_singleton.2 start)

theorem within_guardMatches (h : S.Has P) (hv : ∀ v, P.var v) {g : Guarded} :
    ∀ p ∈ S.guardMatches g, p.subst.Within P := within_guardMatches_of_free h.nodes fun v _ _ => hv v

/-- Instantiating guarded formulas adds goals and records the uses. -/
theorem saturate_eq : ∃ goals next applied,
    S.saturate = { S with goals := S.goals ++ goals, nextGoal := next, applied := applied } ∧
      ∀ goal ∈ goals.map OpenGoal.goal, ∃ g ∈ S.guarded, ∃ p ∈ S.guardMatches g,
        goal = .split (g.requirement
          ⟨p.subst.filterKeys fun v => g.binders.contains (.msg v), p.times⟩) := by
  have fold : ∀ (uses : List (GuardUse × Nnf)) (S : System), ∃ goals next applied,
      uses.foldl (fun S use =>
        { S with applied := SortedSet.insert S.applied use.1 }.pushGoal (.split use.2)) S =
        { S with goals := S.goals ++ goals, nextGoal := next, applied := applied } ∧
      goals.map OpenGoal.goal = uses.map fun use => .split use.2 := by
    intro uses
    induction uses with
    | nil => exact fun S => ⟨[], S.nextGoal, S.applied, by simp, rfl⟩
    | cons use uses ih =>
      intro S
      obtain ⟨goals, next, applied, he, hg⟩ := ih
        ({ S with applied := SortedSet.insert S.applied use.1 }.pushGoal (.split use.2))
      refine ⟨⟨.split use.2, S.nextGoal⟩ :: goals, next, applied, ?_, by simp [hg]⟩
      rw [List.foldl_cons, he]
      simp [pushGoal]
  obtain ⟨goals, next, applied, he, hg⟩ := fold _ S
  refine ⟨goals, next, applied, he, fun goal hgoal => ?_⟩
  rw [hg] at hgoal
  obtain ⟨⟨use, f⟩, huse, rfl⟩ := List.mem_map.1 hgoal
  obtain ⟨⟨g, k⟩, hgk, huse⟩ := List.mem_flatMap.1 huse
  obtain ⟨p, hp, huse⟩ := List.mem_filterMap.1 huse
  simp only at huse
  split at huse <;> cases huse
  exact ⟨g, List.fst_mem_of_mem_zipIdx hgk, p, hp, rfl⟩

theorem Has.saturate (h : S.Has P) (hv : ∀ v, P.var v) : S.saturate.Has P := by
  obtain ⟨goals, next, applied, he, hg⟩ := @saturate_eq S
  rw [he]
  refine ⟨h.nodes, h.goals_append fun goal hgoal => ?_, h.guarded, h.disequalities⟩
  obtain ⟨g, hgS, p, hp, rfl⟩ := hg goal hgoal
  exact Guarded.has_requirement (h.guarded g hgS) hv ((within_guardMatches h hv p hp).filterKeys _)

end System

end ProtocolProver
