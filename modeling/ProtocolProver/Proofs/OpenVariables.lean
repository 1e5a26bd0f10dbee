import ProtocolProver.Proofs.QuantifiedVariables
import ProtocolProver.Proofs.WellFormedSystems

/-!
# Variables of systems

If the rules, the formulas and the equations of a model draw unmixed variables only, then the variables
of a system keep apart (`System.Apart`): a new node draws copies of the variables of its rule, a formula
that is taken apart those of a quantifier, and a unifier those of equations. Every way to solve a goal
and to simplify keeps this, so it holds of all systems that a search reaches (`Reachable.apart`).
-/

namespace ProtocolProver

variable {T : Theory} {L A B : Set Var}

/-! ## Models and systems -/

/-- The rule draws unmixed variables, and nothing else is free in its facts and its condition. -/
structure Rule.Apart (T : Theory) (L : Set Var) (r : Rule) : Prop where
  unmixed : Unmixed r.vars
  facts : ∀ f ∈ r.facts, f.Has (.over {x | x ∈ r.vars})
  condition : ∀ f, r.restrict = some f → f.Apart T L {x | x ∈ r.vars}

structure Model.Apart (L : Set Var) (m : Model) : Prop where
  theory : m.theory.Apart
  rules : ∀ r ∈ m.rules, r.Apart m.theory L
  restrictions : ∀ r ∈ m.restrictions, r.nnf.Apart m.theory L ∅

/-- The goal is about variables in use. -/
def Goal.Apart (T : Theory) (L A : Set Var) : Goal → Prop
  | .action f _ => f.Has (.over A)
  | .premise .. => True
  | .knows t _ => t.Has (.over A)
  | .chain s t _ => s.Has (.over A) ∧ t.Has (.over A)
  | .split f => f.Apart T L A

/-- The variables of the system are in use, and they keep apart. -/
structure System.Apart (T : Theory) (L A : Set Var) (S : System) : Prop where
  stock : Stock L A S.supply
  nodes : ∀ id n, S.node? id = some n → n.Has (.over A)
  goals : ∀ g ∈ S.goals, g.goal.Apart T L A
  guarded : ∀ g ∈ S.guarded, g.toNnf.Apart T L A
  disequalities : EquationsHave (.over A) S.disequalities

theorem Goal.Apart.mono {g : Goal} (h : g.Apart T L A) (hB : A ⊆ B) : g.Apart T L B := by
  cases g with
  | action f i => exact fun t ht => (h t ht).over_mono hB
  | premise => trivial
  | knows t i => exact Term.Has.over_mono hB h
  | chain s t i => exact ⟨h.1.over_mono hB, h.2.over_mono hB⟩
  | split f => exact Nnf.Apart.mono h hB

theorem Goal.Apart.apply (hT : T.Apart) {g : Goal} (h : g.Apart T L A) {σ : Subst}
    (hσ : σ.Over (.over A)) (hA : ∀ x ∈ A, x.idx = 0 → x ∈ L) :
    (g.map (fun t => T.normalize (σ.apply t)) id).Apart T L A := by
  have hterm : ∀ t : Term, t.Has (.over A) → (T.normalize (σ.apply t)).Has (.over A) :=
    fun t ht => (hT.keeps A).has_normalize (hσ.apply ht)
  cases g with
  | action f i => exact Fact.Has.mapTerms h hterm
  | premise => trivial
  | knows t i => exact hterm t h
  | chain s t i => exact ⟨hterm s h.1, hterm t h.2⟩
  | split f => exact Nnf.Apart.apply hT hσ hA h subset_rfl id

namespace System.Apart

variable {S : System} {m : Model}

theorem mono (h : S.Apart T L A) (hB : A ⊆ B) {supply : VarSupply} (hs : Stock L B supply) :
    ({ S with supply := supply } : System).Apart T L B where
  stock := hs
  nodes id n hn := (h.nodes id n hn).imp fun _ => Term.Has.over_mono hB
  goals g hg := (h.goals g hg).mono hB
  guarded g hg := (h.guarded g hg).mono hB
  disequalities := h.disequalities.mono (Shape.over_le.2 hB)

theorem pushGoals (h : S.Apart T L A) {gs : List Goal} (hgs : ∀ g ∈ gs, g.Apart T L A) :
    (S.pushGoals gs).Apart T L A := by
  obtain ⟨goals, next, he, rfl⟩ := @pushGoals_eq S gs
  rw [he]
  exact { h with goals := List.forall_mem_append.2 ⟨h.goals, by simpa using hgs⟩ }

theorem pushGoal (h : S.Apart T L A) {g : Goal} (hg : g.Apart T L A) : (S.pushGoal g).Apart T L A :=
  (h.pushGoals (List.forall_mem_singleton.2 hg) : (S.pushGoals [g]).Apart T L A)

theorem addLess (h : S.Apart T L A) (i j : TimeVar) : (S.addLess i j).Apart T L A := { h with }

theorem union (h : S.Apart T L A) (i j : TimeVar) : (S.union i j).Apart T L A := { h with }

theorem addEdge (h : S.Apart T L A) (source target : Endpoint) :
    (S.addEdge source target).Apart T L A := by
  unfold System.addEdge
  split <;> exact { h with }

theorem absorb (h : S.Apart T L A) (a b : Nat) : (S.absorb a b).Apart T L A := by
  refine { h with nodes := fun id n hn => ?_, goals := fun g hg => h.goals g (List.mem_filter.1 hg).1 }
  rw [node?_absorb] at hn
  split at hn
  · cases hn
  · exact h.nodes id n hn

theorem eraseGoal (h : S.Apart T L A) (k : Nat) :
    ({ S with goals := S.goals.eraseIdx k } : System).Apart T L A :=
  { h with goals := fun g hg => h.goals g (List.mem_of_mem_eraseIdx hg) }

theorem dedupGoals (h : S.Apart T L A) : S.dedupGoals.Apart T L A :=
  { h with goals := fun g hg => h.goals g (mem_dedupGoals hg) }

/-! ## Unifiers -/

theorem apply (hT : T.Apart) (h : S.Apart T L A) {σ : Subst} (hσ : σ.Over (.over A)) :
    (S.apply T σ).Apart T L A := by
  have hA : ∀ x ∈ A, x.idx = 0 → x ∈ L := fun x hx hidx => (h.stock.zero x).2 ⟨hx, hidx⟩
  have hterm : ∀ t : Term, t.Has (.over A) → (T.normalize (σ.apply t)).Has (.over A) :=
    fun t ht => (hT.keeps A).has_normalize (hσ.apply ht)
  unfold System.apply
  split
  · exact h
  · refine { h with nodes := fun id n' hn' => ?_, goals := ?_, guarded := ?_, disequalities := ?_ }
    · rw [node?_mapTerms, Option.map_eq_some_iff] at hn'
      obtain ⟨n, hn, rfl⟩ := hn'
      exact (h.nodes id n hn).mapTerms hterm fun _ _ ht =>
        Theory.sort_normalize (hσ.within.sort_apply ht)
    · exact List.forall_mem_map.2 fun g hg => (h.goals g hg).apply hT hσ hA
    · exact List.forall_mem_map.2 fun g hg => (h.guarded g hg).apply hT hσ hA subset_rfl id
    · exact List.forall_mem_map.2 fun e he =>
        ⟨hterm _ (h.disequalities e he).1, hterm _ (h.disequalities e he).2⟩

theorem unify (hT : T.Apart) (h : S.Apart T L A) {eqs : List Equation}
    (heqs : EquationsHave (.over A) eqs) :
    ∀ S' ∈ (S.unify T eqs).systems, ∃ B, S'.Apart T L B := by
  intro S' hS'
  obtain ⟨σ, hσ, rfl⟩ := List.mem_map.1 hS'
  obtain ⟨B, hB, hs, hover⟩ := (hT.supplies L).draws_unify heqs S.supply h.stock
  have hB := Shape.over_le.1 hB
  exact ⟨B, (h.mono hB hs).apply hT (hover σ hσ)⟩

end System.Apart

/-! ## New nodes -/

section NewNode

variable {m : Model} {r : Rule} (s : VarSupply)

theorem Rule.over_value_rename {x : Var} (hx : x ∈ r.vars) :
    ((r.rename s).value x).Has (.over (Stock.copies r.vars s)) := by
  rw [Rule.value_rename hx]
  exact .var (Stock.mem_copies hx)

theorem Rule.Apart.over_ruleNode (hr : r.Apart m.theory L) (hT : m.theory.Apart) (rule : Nat)
    (i : TimeVar) : (System.ruleNode m rule r (r.rename s) i).Has (.over (Stock.copies r.vars s)) := by
  have hfacts : ∀ f ∈ r.facts,
      (f.instantiate m.theory (r.rename s)).Has (.over (Stock.copies r.vars s)) := fun f hf =>
    List.forall_mem_map.2 fun t ht => (hT.keeps _).has_normalize
      ((hr.facts f hf t ht).over_mapVars fun _ => Rule.over_value_rename s)
  simp only [Rule.facts, List.forall_mem_append] at hfacts
  refine ⟨fun x t ht => ?_, List.forall_mem_map.2 hfacts.1.1, List.forall_mem_map.2 hfacts.1.2,
    List.forall_mem_map.2 hfacts.2⟩
  obtain ⟨y, hy, he⟩ := List.mem_map.1 (SortedMap.mem_of_get?_ofList ht)
  cases he
  exact ⟨.var (Stock.mem_copies hy), TermSort.admits_self _⟩

theorem Rule.Apart.nodeGoals (hr : r.Apart m.theory L) (hT : m.theory.Apart) (id rule : Nat)
    (i : TimeVar) : ∀ g ∈ System.nodeGoals id (System.ruleNode m rule r (r.rename s) i) r,
      g.Apart m.theory L (Stock.copies r.vars s) := by
  refine List.forall_mem_append.2 ⟨fun g hg => ?_, List.forall_mem_map.2 fun f hf => ?_⟩
  · obtain ⟨⟨f, idx⟩, hf, hg⟩ := List.mem_flatMap.1 hg
    have hf := (hr.over_ruleNode s hT rule i).premises f (List.fst_mem_of_mem_zipIdx hf)
    have hg : g ∈ System.premiseGoals id i idx f := hg
    unfold System.premiseGoals at hg
    split at hg
    · obtain ⟨t, ht, rfl⟩ := List.mem_map.1 hg
      exact hf t ht
    · split at hg
      · cases hg
      · cases List.mem_singleton.1 hg
        trivial
  · exact Nnf.Apart.instantiate (hr.condition f (Option.mem_toList.1 hf)) fun _ =>
      Rule.over_value_rename s

end NewNode

namespace System.Apart

variable {S : System} {m : Model} (hm : m.Apart L)

include hm

theorem addNode (h : S.Apart m.theory L A) (rule : Nat) (time : Option TimeVar) :
    ∃ B, A ⊆ B ∧ (S.addNode m rule time).2.Apart m.theory L B := by
  cases hr : m.rules[rule]? with
  | none =>
    unfold System.addNode
    rw [hr]
    exact ⟨A, subset_rfl, h⟩
  | some r =>
    obtain ⟨i, goals, supply, next, he, hg, hsome, hnone⟩ := @addNode_eq S m rule r hr time
    have hrule := hm.rules r (List.mem_of_getElem? hr)
    have hstock : Stock L (A ∪ Stock.copies r.vars S.supply) supply := by
      obtain ⟨k⟩ := supply
      have hcopy := h.stock.copy hrule.unmixed
      cases time with
      | some j =>
        cases (hsome j rfl).2
        exact hcopy
      | none =>
        cases (hnone rfl).2
        exact hcopy.draw
    have hnew : Stock.copies r.vars S.supply ⊆ A ∪ Stock.copies r.vars S.supply :=
      Set.subset_union_right
    have h := h.mono Set.subset_union_left hstock
    refine ⟨A ∪ Stock.copies r.vars S.supply, Set.subset_union_left, ?_⟩
    rw [he]
    refine { h with nodes := fun id n hid => ?_, goals := List.forall_mem_append.2 ⟨h.goals, ?_⟩ }
    · rw [node?, node?_append S _ rfl] at hid
      split at hid
      · cases hid
        exact (hrule.over_ruleNode S.supply hm.theory rule i).imp fun _ => Term.Has.over_mono hnew
      · exact h.nodes id n hid
    · rw [← List.forall_mem_map (f := OpenGoal.goal) (P := fun g => g.Apart m.theory L _), hg]
      exact fun g hg => (hrule.nodeGoals S.supply hm.theory _ rule i g hg).mono hnew

/-! ## Solving goals -/

theorem expandSplit (h : S.Apart m.theory L A) {f : Nnf} (hf : f.Apart m.theory L A) :
    ∀ S' ∈ (S.expandSplit m f).systems, ∃ B, S'.Apart m.theory L B := by
  intro S' hS'
  cases hf with
  | top => exact ⟨A, List.mem_singleton.1 hS' ▸ h⟩
  | bot => cases hS'
  | conj hfs => exact ⟨A, List.mem_singleton.1 hS' ▸ h.pushGoals (List.forall_mem_map.2 hfs)⟩
  | disj hfs =>
    obtain ⟨f, hmem, rfl⟩ := List.mem_map.1 hS'
    exact ⟨A, h.pushGoal (hfs f hmem)⟩
  | @ex _ bs f hbs hf =>
    cases List.mem_singleton.1 hS'
    have hstock := h.stock.copy hbs
    refine ⟨_, (h.mono Set.subset_union_left hstock).pushGoal (hf.instantiate fun x hx => ?_)⟩
    change (((renameBinders bs).run S.supply).1.2.replacement.term x).Has _
    rw [replacement_renameBinders, Replacement.reindex]
    simp only
    split
    · rename_i hbound
      exact .var (.inr (Stock.mem_copies (mem_filterMap_var?.2 hbound)))
    · rename_i hbound
      exact .var (.inl (hx.resolve_right hbound))
  | guarded hbs hgs hf =>
    refine ⟨A, List.mem_singleton.1 hS' ▸
      { h with guarded := List.forall_mem_append.2 ⟨h.guarded, List.forall_mem_singleton.2 ?_⟩ }⟩
    exact .guarded hbs hgs hf
  | neq hs ht =>
    exact ⟨A, List.mem_singleton.1 hS' ▸
      { h with disequalities := h.disequalities.append (.cons hs ht .nil) }⟩
  | @atom _ a ha =>
    cases a with
    | action f i => exact ⟨A, List.mem_singleton.1 hS' ▸ h.pushGoal ha⟩
    | knows t i => exact ⟨A, List.mem_singleton.1 hS' ▸ h.pushGoal ha⟩
    | less i j => exact ⟨A, List.mem_singleton.1 hS' ▸ h.addLess i j⟩
    | timeEq i j => exact ⟨A, List.mem_singleton.1 hS' ▸ h.union i j⟩
    | eq s t =>
      exact h.unify hm.theory (.cons (ha s (by simp [Atom.terms])) (ha t (by simp [Atom.terms])) .nil)
        S' hS'

/-! ## Simplification -/

omit hm in
/-- A match of a guard gives values in use to the variables of the formula. One that it gives no value
to was dropped from the guard, so it is in use itself. -/
theorem over_binding (h : S.Apart T L A) {g : Guarded} (hg : g.toNnf.Apart T L A) {p : GuardMatch}
    (hp : p ∈ S.guardMatches g) :
    ∀ x ∈ A ∪ bound g.binders, ((p.binding g).terms.value x).Has (.over A) := by
  cases hg with
  | guarded hbs hgs _ =>
    have hwithin : p.subst.Within (.over A) := by
      refine within_guardMatches_of_free h.nodes (fun v hv hb => ?_) p hp
      obtain ⟨f, hf, hv⟩ := List.mem_flatMap.1 hv
      obtain ⟨c, hc, rfl⟩ := List.mem_map.1 hf
      obtain ⟨a, ha, hac⟩ := mem_actions.1 hc
      rw [Term.occurrencesList_eq] at hv
      obtain ⟨t, ht, hv⟩ := List.mem_flatMap.1 hv
      rw [Atom.args_action? hac] at ht
      exact ((hgs a ha t ht).var_of_mem hv).resolve_right hb
    intro x hx
    change ((p.binding g).replacement.term x).Has _
    rw [p.term_binding]
    split
    · rename_i hb
      cases hget : p.subst.get? x with
      | some u =>
        rw [Subst.value_of_get? hget]
        exact (hwithin x u hget).1
      | none =>
        rw [Subst.value, hget]
        refine .var ?_
        rcases (hbs x hb).2 with hL | hanchored
        · exact ((h.stock.zero x).1 hL).1
        · obtain ⟨a, ha, hanchored⟩ := List.mem_flatMap.1 hanchored
          obtain ⟨c, hc, t, ht, hanchored⟩ := Atom.mem_anchored.1 hanchored
          obtain ⟨u, hu⟩ := (fits_guardMatches hp).binds c (mem_actions.2 ⟨a, ha, hc⟩) t ht x
            (Theory.mem_occurrences_of_anchored hanchored)
          cases hget.symm.trans hu
    · rename_i hb
      exact .var (hx.resolve_right hb)

omit hm in
theorem saturate (h : S.Apart T L A) : S.saturate.Apart T L A := by
  obtain ⟨goals, next, applied, he, hgoals⟩ := @saturate_eq S
  rw [he]
  refine { h with goals := List.forall_mem_append.2 ⟨h.goals, ?_⟩ }
  rw [← List.forall_mem_map (f := OpenGoal.goal) (P := fun g => g.Apart T L A)]
  intro goal hgoal
  obtain ⟨g, hg, p, hp, rfl⟩ := hgoals goal hgoal
  exact (h.guarded g hg).requirement (h.over_binding (h.guarded g hg) hp)

omit hm in
theorem mem_of_nodeVars (h : S.Apart T L A) {x : Var} (hx : x ∈ S.nodeVars) : x ∈ A := by
  obtain ⟨⟨id, n⟩, hn, hx⟩ := List.mem_flatMap.1 hx
  obtain ⟨hsubst, hp, ha, hc⟩ := h.nodes id n (mem_liveNodes.1 hn)
  have hfacts : ∀ f ∈ n.facts, f.Has (.over A) :=
    List.forall_mem_append.2 ⟨List.forall_mem_append.2 ⟨hp, ha⟩, hc⟩
  rcases List.mem_append.1 hx with hx | hx
  · obtain ⟨f, hf, hx⟩ := List.mem_flatMap.1 hx
    rw [Term.occurrencesList_eq] at hx
    obtain ⟨t, ht, hx⟩ := List.mem_flatMap.1 hx
    exact (hfacts f hf t ht).var_of_mem hx
  · rw [Term.occurrencesList_eq] at hx
    obtain ⟨t, ht, hx⟩ := List.mem_flatMap.1 hx
    obtain ⟨⟨v, t⟩, hv, rfl⟩ := List.mem_map.1 ht
    exact (hsubst v t (SortedMap.get?_eq_some_iff.2 hv)).1.var_of_mem hx

end System.Apart

namespace System

/-- The terms of a system whose variables keep apart are about the variables in use. -/
def apartness (T : Theory) (L : Set Var) : Discipline (Set Var) where
  term := .over
  time _ _ := True
  formula A f := f.Apart T L A
  system A S := S.Apart T L A

theorem goal_apartness {g : Goal} : (apartness T L).Goal A g ↔ g.Apart T L A := by
  cases g <;> simp [Discipline.Goal, apartness, Goal.Apart]

theorem apartness_le (h : A ⊆ B) : (apartness T L).Le A B := ⟨Shape.over_le.2 h, fun _ => id⟩

theorem grows_apartness {m : Model} (hm : m.Apart L) : (apartness m.theory L).Grows m where
  nodes h hn := ⟨h.nodes _ _ hn, trivial⟩
  pushGoals h hgs := Apart.pushGoals h fun g hg => goal_apartness.1 (hgs g hg)
  addLess h _ _ := Apart.addLess h _ _
  union h _ _ := Apart.union h _ _
  addNode rule time h _ := by
    obtain ⟨B, hB, hnew⟩ := Apart.addNode hm h rule time
    exact ⟨B, apartness_le hB, hnew⟩
  unify h heqs := Apart.unify hm.theory h heqs
  decompose _ ht := Theory.Closes.has_decompose (hm.theory.keeps _) ht
  extract := by
    intro A S t h ht
    obtain ⟨B, hB, hstock, hextract⟩ := (hm.theory.supplies L).draws_extract ht S.supply h.stock
    exact ⟨B, ⟨hB, fun _ => id⟩, h.mono (Shape.over_le.1 hB) hstock, hextract⟩
  split h hf := Apart.expandSplit hm h hf

variable {m : Model} {target : Nnf} {S : System} (hL : ∀ x ∈ L, x.idx = 0)
  (hinj : Set.InjOn Var.realization L) (hm : m.Apart L) (ht : target.Apart m.theory L ∅)

include hL hinj hm ht

omit hL hinj ht in
theorem stays_apartness : (apartness m.theory L).Stays m where
  toGrows := grows_apartness hm
  goals h g hg := goal_apartness.2 (h.goals g hg)
  eraseGoal h _ _ := h.eraseGoal _
  premise h _ _ :=
    (grows_apartness hm).expandPremise (h.eraseGoal _) (fun s t h => Apart.addEdge h s t) _ _
  merge h _ := (grows_apartness hm).merge h (fun a b h => Apart.absorb h a b) _ _
  saturate h := Apart.saturate (Apart.dedupGoals h)

theorem apart_initial : (initial m target).Apart m.theory L L := by
  have hempty : ({} : System).Apart m.theory L L :=
    ⟨⟨Nat.one_pos, fun x hx => hL x hx ▸ Nat.one_pos, fun x => ⟨fun hx => ⟨hx, hL x hx⟩, And.left⟩, hinj⟩,
      fun _ _ h => by simp [node?] at h, List.forall_mem_nil _, List.forall_mem_nil _,
      List.forall_mem_nil _⟩
  refine (hempty.pushGoals (List.forall_mem_map.2 fun r hr => ?_)).pushGoal (ht.mono (Set.empty_subset L))
  exact (hm.restrictions r hr).mono (Set.empty_subset L)

theorem Reachable.apart (h : Reachable m target S) : ∃ A, S.Apart m.theory L A :=
  ((stays_apartness hm).reachable (apart_initial hL hinj hm ht) h).1

end System

end ProtocolProver
