import ProtocolProver.Proofs.Executions
import ProtocolProver.Proofs.WellFormedSystems

/-!
# Solutions of systems

An execution solves a system under a valuation of its variables and timepoints if its nodes are
different steps of the execution and all its constraints and goals are true (`Execution.Solution`).
This module says what each operation on systems does to solutions. Applying a unifier keeps those
that have taken it in (`Fulfils.apply`), and a step that no node sits on can be added as a new node
(`Fulfils.addNode`).
-/

namespace ProtocolProver

namespace Valuation

variable {s : Scope} {u v w : Valuation} {k : Nat}

/-- The valuations give the same values to what is in scope. -/
structure Agrees (s : Scope) (v w : Valuation) : Prop where
  term : ∀ x, s.var x → v.term x = w.term x
  time : ∀ i, s.time i → v.time i = w.time i

theorem Agrees.refl (v : Valuation) : v.Agrees s v := ⟨fun _ _ => rfl, fun _ _ => rfl⟩

theorem Agrees.symm (h : v.Agrees s w) : w.Agrees s v :=
  ⟨fun x hx => (h.term x hx).symm, fun i hi => (h.time i hi).symm⟩

theorem Agrees.trans (h : u.Agrees s v) (h' : v.Agrees s w) : u.Agrees s w :=
  ⟨fun x hx => (h.term x hx).trans (h'.term x hx), fun i hi => (h.time i hi).trans (h'.time i hi)⟩

theorem Agrees.mono {s' : Scope} (h : v.Agrees s' w) (hs : s.Le s') : v.Agrees s w :=
  ⟨fun x hx => h.term x (hs.var x hx), fun i hi => h.time i (hs.time i hi)⟩

theorem Agrees.mapVars {T : Theory} (h : v.Agrees s w) {t : Term}
    (ht : t.Has (T.constructors s.var)) : t.mapVars v.term = t.mapVars w.term :=
  Term.mapVars_congr fun x hx => h.term x (ht.var_of_mem hx)

/-- The valuation with the values of `w` for what has the index `k`. -/
def extend (v : Valuation) (k : Nat) (w : Valuation) : Valuation where
  term x := if x.idx = k then w.term (x.reindex 0) else v.term x
  time i := if i.idx = k then w.time (i.reindex 0) else v.time i

theorem agrees_extend (v : Valuation) (k : Nat) (w : Valuation) :
    (v.extend k w).Agrees (.below k) v :=
  ⟨fun _ hx => if_neg hx.2.ne, fun _ hi => if_neg hi.2.ne⟩

theorem term_extend (v w : Valuation) {x : Var} (hx : x.idx = 0) :
    (v.extend k w).term (x.reindex k) = w.term x := by
  obtain ⟨name, idx, sort⟩ := x
  cases hx
  exact if_pos rfl

theorem time_extend (v w : Valuation) {i : TimeVar} (hi : i.idx = 0) :
    (v.extend k w).time (i.reindex k) = w.time i := by
  obtain ⟨name, idx⟩ := i
  cases hi
  exact if_pos rfl

theorem extend_values {T : Theory} (hv : ∀ x, T.Value (v.term x)) (hw : ∀ x, T.Value (w.term x))
    (x : Var) : T.Value ((v.extend k w).term x) := by
  unfold extend
  simp only
  split
  · exact hw _
  · exact hv x

theorem extend_sorts (hv : RespectsSorts v.term) (hw : RespectsSorts w.term) :
    RespectsSorts (v.extend k w).term := by
  intro x
  unfold extend
  simp only
  split
  · exact hw (x.reindex 0)
  · exact hv x

/-- The timepoints with a value below a bound. -/
def within (v : Valuation) (len : Nat) : Scope := ⟨fun _ => True, fun i => v.time i < len⟩

/-- The fact under a valuation. -/
def fact (v : Valuation) (f : Fact) : Fact := f.mapTerms (Term.mapVars v.term)

end Valuation

variable {m : Model}

/-- The node is the step on its timepoint. -/
def Node.SitsOn (R : Execution m) (v : Valuation) (n : Node) (step : Step) : Prop :=
  R.trace[v.time n.time]? = some step ∧ (∃ r, m.rules[n.rule]? = some r ∧ m.rule? step.rule = some r) ∧
    step.premises = n.premises.map v.fact ∧ step.actions = n.actions.map v.fact ∧
      step.conclusions = n.conclusions.map v.fact

/-- An action is emitted on its timepoint, the adversary derives what it is to know from messages that
were sent before, and a premise that is to be provided is one that the state provides. -/
def Goal.Holds (R : Execution m) (S : System) (v : Valuation) : Goal → Prop
  | .action f i => R.trace.Emits (v.time i) f.pred (f.args.map (Term.mapVars v.term))
  | .premise node idx => ∃ n f, S.node? node = some n ∧ n.premises[idx]? = some f ∧ f.Stored
  | .knows t i => m.theory.Derives (R.sent (v.time i)) (t.mapVars v.term)
  | .chain t u i => m.theory.Reaches (R.sent (v.time i)) (t.mapVars v.term) (u.mapVars v.term)
  | .split f => f.Sat R.interpretation v

/-- The conclusion at the source of the edge provides the premise at its target. -/
def Edge.Holds (R : Execution m) (S : System) (v : Valuation) (e : Edge) : Prop :=
  ∃ n k f, S.node? e.source.node = some n ∧ S.node? e.target.node = some k ∧
    k.premises[e.target.idx]? = some f ∧ f.Stored ∧
      R.provider ⟨v.time k.time, e.target.idx⟩ = ⟨v.time n.time, e.source.idx⟩

namespace Execution

/-- The execution solves the system under the valuation, which gives every variable a ground value of
its sort and every timepoint a number below `len`. Different nodes are different steps, and all
constraints, edges and goals are true. -/
structure Fulfils (R : Execution m) (len : Nat) (S : System) (v : Valuation) : Prop where
  values : ∀ x, m.theory.Value (v.term x)
  sorts : RespectsSorts v.term
  steps : S.In .any m.theory (v.within len)
  nodes : ∀ id n, S.node? id = some n → ∃ step, n.SitsOn R v step
  distinct : ∀ a b n k, S.node? a = some n → S.node? b = some k →
    v.time n.time = v.time k.time → a = b
  classes : ∀ i, v.time (S.find i) = v.time i
  less : ∀ p ∈ SortedSet.toList S.less, v.time p.earlier < v.time p.later
  edges : ∀ e ∈ SortedSet.toList S.edges, e.Holds R S v
  disequalities : ∀ e ∈ S.disequalities, e.1.mapVars v.term ≠ e.2.mapVars v.term
  guarded : ∀ g ∈ S.guarded, g.toNnf.Sat R.interpretation v
  goals : ∀ g ∈ S.goals, g.goal.Holds R S v

/-- The execution solves the system, and every timepoint is one of its steps. -/
abbrev Solution (R : Execution m) (S : System) (v : Valuation) : Prop :=
  R.Fulfils R.trace.length S v

end Execution

section Operations

variable {R : Execution m} {len : Nat} {S : System} {v w : Valuation} {s : Scope}

theorem Valuation.value_eq (hm : m.Plain) (hv : ∀ x, m.theory.Value (v.term x)) {t : Term}
    (ht : t.Has m.theory.plainShape) : v.value R.interpretation.theory t = t.mapVars v.term :=
  (Theory.normalize_mapVars_constructors ht v.term).trans
    (Term.mapVars_congr fun x _ => (hv x).normalize hm.free)

theorem Valuation.Agrees.fact (h : v.Agrees s w) {f : Fact}
    (hf : f.Has (m.theory.constructors s.var)) : v.fact f = w.fact f :=
  congrArg (Fact.mk f.pred f.multiplicity) (List.map_congr_left fun t ht => h.mapVars (hf t ht))

/-! ## A change of the valuation outside the system -/

theorem Node.SitsOn.congr {n : Node} (htime : v.time n.time = w.time n.time)
    (hfacts : ∀ f ∈ n.facts, v.fact f = w.fact f) {step : Step} (hsits : n.SitsOn R v step) :
    n.SitsOn R w step := by
  obtain ⟨hstep, hrule, hp, ha, hc⟩ := hsits
  simp only [Node.facts, List.forall_mem_append] at hfacts
  exact ⟨htime ▸ hstep, hrule, hp.trans (List.map_congr_left hfacts.1.1),
    ha.trans (List.map_congr_left hfacts.1.2), hc.trans (List.map_congr_left hfacts.2)⟩

theorem Goal.Holds.congr {L : Fragment} (h : v.Agrees s w) {g : Goal} (hg : g.In L m.theory s)
    (hholds : g.Holds R S v) : g.Holds R S w := by
  cases g with
  | action f i =>
    have hargs : f.args.map (Term.mapVars v.term) = f.args.map (Term.mapVars w.term) :=
      List.map_congr_left fun t ht => h.mapVars (hg.1 t ht)
    rw [Goal.Holds, ← h.time i hg.2, ← hargs]
    exact hholds
  | premise => exact hholds
  | knows t i =>
    rw [Goal.Holds, ← h.time i hg.2, ← h.mapVars hg.1]
    exact hholds
  | chain t u i =>
    rw [Goal.Holds, ← h.time i hg.2.2, ← h.mapVars hg.1, ← h.mapVars hg.2.1]
    exact hholds
  | split f => exact (hg.scope.sat_congr h.term h.time).1 hholds

/-- What a valuation gives to other variables does not matter. -/
theorem Execution.Fulfils.congr {L : Fragment} (h : R.Fulfils len S v) (hS : S.In L m.theory s)
    (hvw : v.Agrees s w) (hw : ∀ x, m.theory.Value (w.term x)) (hsorts : RespectsSorts w.term) :
    R.Fulfils len S w := by
  have htime : ∀ {id n}, S.node? id = some n → v.time n.time = w.time n.time := fun hn =>
    hvw.time _ (hS.nodes _ _ hn).time
  constructor
  case values => exact hw
  case sorts => exact hsorts
  case steps =>
    exact ((hS.inf h.steps).mono
      ⟨fun _ _ => trivial, fun i hi => show w.time i < _ from hvw.time i hi.1 ▸ hi.2⟩).any
  case nodes =>
    intro id n hn
    obtain ⟨step, hstep⟩ := h.nodes id n hn
    refine ⟨step, hstep.congr (htime hn) ?_⟩
    obtain ⟨⟨-, hp, ha, hc⟩, -⟩ := hS.nodes id n hn
    simp only [Node.facts, List.forall_mem_append]
    exact ⟨⟨fun f hf => hvw.fact (hp f hf), fun f hf => hvw.fact (ha f hf)⟩,
      fun f hf => hvw.fact (hc f hf)⟩
  case distinct =>
    intro a b n k ha hb he
    rw [← htime ha, ← htime hb] at he
    exact h.distinct a b n k ha hb he
  case classes =>
    intro i
    rcases hS.classes i with he | ⟨hi, hf⟩
    · rw [he]
    · rw [← hvw.time _ hi, ← hvw.time _ hf]
      exact h.classes i
  case less =>
    intro p hp
    rw [← hvw.time _ (hS.less p hp).1, ← hvw.time _ (hS.less p hp).2]
    exact h.less p hp
  case edges =>
    intro e he
    obtain ⟨n, k, f, hn, hk, hf, hstored, hp⟩ := h.edges e he
    refine ⟨n, k, f, hn, hk, hf, hstored, ?_⟩
    rw [← htime hn, ← htime hk]
    exact hp
  case disequalities =>
    intro e he
    rw [← hvw.mapVars (hS.disequalities e he).1, ← hvw.mapVars (hS.disequalities e he).2]
    exact h.disequalities e he
  case guarded =>
    exact fun g hg => ((hS.guarded g hg).scope.sat_congr hvw.term hvw.time).1 (h.guarded g hg)
  case goals => exact fun g hg => (h.goals g hg).congr hvw (hS.goals g hg)

/-! ## Constraints and goals -/

namespace Execution.Fulfils

theorem scope {L : Fragment} (h : R.Fulfils len S v) (hS : S.In L m.theory s) :
    S.In L m.theory (v.within len) :=
  (hS.inf h.steps).mono ⟨fun _ _ => trivial, fun _ hi => hi.2⟩

theorem withSupply (h : R.Fulfils len S v) (supply : VarSupply) :
    R.Fulfils len { S with supply := supply } v := { h with steps := h.steps.withSupply supply }

theorem eraseGoal (h : R.Fulfils len S v) (k : Nat) :
    R.Fulfils len { S with goals := S.goals.eraseIdx k } v :=
  { h with
    steps := h.steps.eraseGoal k
    goals := fun g hg => h.goals g (List.mem_of_mem_eraseIdx hg) }

theorem pushGoals (h : R.Fulfils len S v) {gs : List Goal}
    (hin : ∀ g ∈ gs, g.In .any m.theory (v.within len)) (hgs : ∀ g ∈ gs, g.Holds R S v) :
    R.Fulfils len (S.pushGoals gs) v := by
  have hsteps := h.steps.pushGoals hin
  obtain ⟨goals, next, he, rfl⟩ := @System.pushGoals_eq S gs
  rw [he] at hsteps ⊢
  exact { h with
    steps := hsteps
    goals := List.forall_mem_append.2 ⟨h.goals, List.forall_mem_map.1 hgs⟩ }

theorem pushGoal (h : R.Fulfils len S v) {g : Goal} (hin : g.In .any m.theory (v.within len))
    (hg : g.Holds R S v) : R.Fulfils len (S.pushGoal g) v :=
  (h.pushGoals (List.forall_mem_singleton.2 hin) (List.forall_mem_singleton.2 hg) :
    R.Fulfils len (S.pushGoals [g]) v)

theorem addLess (h : R.Fulfils len S v) {i j : TimeVar} (hi : v.time i < len)
    (hj : v.time j < len) (hij : v.time i < v.time j) : R.Fulfils len (S.addLess i j) v := by
  refine { h with steps := h.steps.addLess hi hj, less := fun p hp => ?_ }
  rcases SortedSet.mem_toList_insert.1 hp with rfl | hp
  · exact hij
  · exact h.less p hp

theorem union (h : R.Fulfils len S v) {i j : TimeVar} (hi : v.time i < len)
    (hij : v.time i = v.time j) : R.Fulfils len (S.union i j) v := by
  have hj : v.time j < len := hij ▸ hi
  refine { h with steps := h.steps.union hi hj, classes := fun k => ?_ }
  have hi' : v.time (S.classes.find i) = v.time i := h.classes i
  have hj' : v.time (S.classes.find j) = v.time j := h.classes j
  have hk' : v.time (S.classes.find k) = v.time k := h.classes k
  change v.time ((S.classes.union i j).find k) = v.time k
  rcases S.classes.find_union_cases i j k with he | ⟨hk, he⟩
  · rw [he, hk']
  · have hk : v.time k = v.time i := by
      rcases hk with hk | hk <;> rw [← hk', hk]
      · exact hi'
      · rw [hj', hij]
    rw [hk]
    rcases he with he | he <;> rw [he]
    · exact hi'
    · rw [hj', hij]

theorem addGuarded (h : R.Fulfils len S v) {g : Guarded}
    (hin : g.toNnf.In .any m.theory (v.within len)) (hg : g.toNnf.Sat R.interpretation v) :
    R.Fulfils len { S with guarded := S.guarded ++ [g] } v := by
  have hsteps : ({ S with guarded := S.guarded ++ [g] } : System).In .any m.theory (v.within len) :=
    { h.steps with
      guarded := List.forall_mem_append.2 ⟨h.steps.guarded, List.forall_mem_singleton.2 hin⟩ }
  exact { h with
    steps := hsteps
    guarded := List.forall_mem_append.2 ⟨h.guarded, List.forall_mem_singleton.2 hg⟩ }

theorem addDisequality (h : R.Fulfils len S v) {e : Equation}
    (hin : e.1.Has m.theory.plainShape ∧ e.2.Has m.theory.plainShape)
    (he : e.1.mapVars v.term ≠ e.2.mapVars v.term) :
    R.Fulfils len { S with disequalities := S.disequalities ++ [e] } v := by
  have hsteps : ({ S with disequalities := S.disequalities ++ [e] } : System).In .any m.theory
      (v.within len) :=
    { h.steps with disequalities := h.steps.disequalities.append (.cons hin.1 hin.2 .nil) }
  exact { h with
    steps := hsteps
    disequalities := List.forall_mem_append.2 ⟨h.disequalities, List.forall_mem_singleton.2 he⟩ }

theorem addEdge (h : R.Fulfils len S v) (source target : Endpoint) {n k : Node} {f : Fact}
    (hn : S.node? source.node = some n) (hk : S.node? target.node = some k)
    (hf : k.premises[target.idx]? = some f) (hstored : f.Stored)
    (hp : R.provider ⟨v.time k.time, target.idx⟩ = ⟨v.time n.time, source.idx⟩)
    (hlt : v.time n.time < v.time k.time) : R.Fulfils len (S.addEdge source target) v := by
  have h' := h.addLess (h.steps.nodes _ n hn).time (h.steps.nodes _ k hk).time hlt
  have hsteps := h.steps.addEdge source target
  unfold System.addEdge at hsteps ⊢
  rw [hn, hk] at hsteps ⊢
  refine { h' with steps := hsteps, edges := fun e he => ?_ }
  rcases SortedSet.mem_toList_insert.1 he with rfl | he
  · exact ⟨n, k, f, hn, hk, hf, hstored, hp⟩
  · exact h.edges e he

/-! ## Unifiers -/

section Apply

variable {V : Var → Prop} {σ : Subst} (hσ : σ.Over (m.theory.constructors V))
  (hV : ∀ x, V x → x.idx ≠ 0) (ha : σ.Absorbed v.term)
include hσ hV ha

theorem mapVars_apply {t : Term} (ht : t.Has m.theory.plainShape) :
    (m.theory.normalize (σ.apply t)).mapVars v.term = t.mapVars v.term := by
  rw [hσ.normalize_apply (s := ⟨fun _ => True, fun _ => True⟩) (fun x hx => ⟨trivial, hV x hx⟩) ht,
    ha.apply]

theorem fact_apply {f : Fact} (hf : f.Has m.theory.plainShape) :
    v.fact (f.mapTerms fun t => m.theory.normalize (σ.apply t)) = v.fact f := by
  refine congrArg (Fact.mk f.pred f.multiplicity) ?_
  rw [Fact.mapTerms, List.map_map]
  exact List.map_congr_left fun t ht => mapVars_apply hσ hV ha (hf t ht)

theorem facts_apply {fs : List Fact} (hfs : ∀ f ∈ fs, f.Has m.theory.plainShape) :
    (fs.map (·.mapTerms fun t => m.theory.normalize (σ.apply t))).map v.fact = fs.map v.fact := by
  rw [List.map_map]
  exact List.map_congr_left fun f hf => fact_apply hσ hV ha (hfs f hf)

theorem sat_apply {f : Nnf} (hf : f.In .indexed m.theory s) :
    (f.map (fun t => m.theory.normalize (σ.apply t)) id).Sat R.interpretation v ↔
      f.Sat R.interpretation v := by
  have hafter : v.after ⟨σ.value, id⟩ = v := congrArg₂ Valuation.mk (funext ha) rfl
  rw [hf.plain.map_eq hσ hV, hf.scope.sat_map (hσ.fixes hV) (hσ.apart hV), hafter]

theorem apply (h : R.Fulfils len S v) (hS : S.In .indexed m.theory s) :
    R.Fulfils len (S.apply m.theory σ) v := by
  have hsteps := ((h.scope hS).apply hσ fun x hx => ⟨trivial, hV x hx⟩).any
  have hhas := hS.has
  unfold System.apply at hsteps ⊢
  split at hsteps
  · rwa [if_pos ‹_›]
  rw [if_neg ‹_›]
  have hnode : ∀ {id : Nat} {n' : Node}, (S.mapTerms fun t => m.theory.normalize (σ.apply t)).node? id =
      some n' → ∃ n, S.node? id = some n ∧ n' = n.mapTerms fun t => m.theory.normalize (σ.apply t) := by
    intro id n' hn'
    rw [System.node?_mapTerms, Option.map_eq_some_iff] at hn'
    obtain ⟨n, hn, rfl⟩ := hn'
    exact ⟨n, hn, rfl⟩
  have hmapped : ∀ {id : Nat} {n : Node}, S.node? id = some n →
      (S.mapTerms fun t => m.theory.normalize (σ.apply t)).node? id =
        some (n.mapTerms fun t => m.theory.normalize (σ.apply t)) := by
    intro id n hn
    rw [System.node?_mapTerms, hn]
    rfl
  have hpremise : ∀ {n : Node} {idx : Nat} {f : Fact}, n.premises[idx]? = some f → f.Stored →
      ∃ f', (n.mapTerms fun t => m.theory.normalize (σ.apply t)).premises[idx]? = some f' ∧
        f'.Stored := by
    intro n idx f hf hstored
    refine ⟨f.mapTerms fun t => m.theory.normalize (σ.apply t), ?_, hstored⟩
    rw [Node.mapTerms, List.getElem?_map, hf]
    rfl
  refine ⟨h.values, h.sorts, hsteps, ?_, ?_, h.classes, h.less, ?_, ?_, ?_, ?_⟩
  · intro id n' hn'
    obtain ⟨n, hn, rfl⟩ := hnode hn'
    obtain ⟨step, hstep, hrule, hp, hac, hc⟩ := h.nodes id n hn
    refine ⟨step, hstep, hrule, hp.trans ?_, hac.trans ?_, hc.trans ?_⟩
    · exact (facts_apply hσ hV ha (hhas.nodes id n hn).premises).symm
    · exact (facts_apply hσ hV ha (hhas.nodes id n hn).actions).symm
    · exact (facts_apply hσ hV ha (hhas.nodes id n hn).conclusions).symm
  · intro a b n' k' hn' hk' he
    obtain ⟨n, hn, rfl⟩ := hnode hn'
    obtain ⟨k, hk, rfl⟩ := hnode hk'
    exact h.distinct a b n k hn hk he
  · intro e he
    obtain ⟨n, k, f, hn, hk, hf, hstored, hp⟩ := h.edges e he
    obtain ⟨f', hf', hstored'⟩ := hpremise hf hstored
    exact ⟨_, _, f', hmapped hn, hmapped hk, hf', hstored', hp⟩
  · refine List.forall_mem_map.2 fun e he => ?_
    rw [mapVars_apply hσ hV ha (hhas.disequalities e he).1,
      mapVars_apply hσ hV ha (hhas.disequalities e he).2]
    exact h.disequalities e he
  · exact List.forall_mem_map.2 fun g hg =>
      (sat_apply hσ hV ha (hS.guarded g hg)).2 (h.guarded g hg)
  · refine List.forall_mem_map.2 fun g hg => ?_
    have hin := (h.scope hS).goals g hg
    have hg := h.goals g hg
    revert hin hg
    cases g.goal with
    | action f i =>
      intro hin hg
      have hargs : (f.mapTerms fun t => m.theory.normalize (σ.apply t)).args.map (Term.mapVars v.term) =
          f.args.map (Term.mapVars v.term) := congrArg Fact.args (fact_apply hσ hV ha hin.1)
      rw [Goal.map, Goal.Holds, hargs]
      exact hg
    | premise node idx =>
      rintro - ⟨n, f, hn, hf, hstored⟩
      obtain ⟨f', hf', hstored'⟩ := hpremise hf hstored
      exact ⟨_, f', hmapped hn, hf', hstored'⟩
    | knows t i =>
      intro hin hg
      rw [Goal.map, Goal.Holds, mapVars_apply hσ hV ha hin.1]
      exact hg
    | chain t u i =>
      intro hin hg
      rw [Goal.map, Goal.Holds, mapVars_apply hσ hV ha hin.1, mapVars_apply hσ hV ha hin.2.1]
      exact hg
    | split f => exact fun hin hg => (sat_apply hσ hV ha hin).2 hg

end Apply

/-- Unless alternatives are missing, a solution of the equations has taken in a unifier, and it solves
the branch of this unifier. -/
theorem unify (h : R.Fulfils len S v) (hS : S.In .indexed m.theory s) {k : Nat} {eqs : List Equation}
    (heqs : EquationsHave (m.theory.constructors (Scope.below k).var) eqs)
    (hsolves : Solves v.term eqs) (hl : (S.unify m.theory eqs).lossy = false) :
    ∃ σ : Subst, σ.Over (m.theory.constructors (Scope.below k).var) ∧
      m.theory.solves σ eqs = true ∧ σ.Absorbed v.term ∧
      S.apply m.theory σ ∈ (S.unify m.theory eqs).systems ∧
      R.Fulfils len (S.apply m.theory σ) v := by
  obtain ⟨σ, hσ, hs, ha, hmem⟩ := System.exists_mem_unify heqs S hl h.sorts hsolves
  exact ⟨σ, hσ, hs, ha, hmem, h.apply hσ (fun x hx => hx.1.ne') ha hS⟩

end Execution.Fulfils

/-! ## New nodes -/

section NewNode

variable {k n : Nat} {r : Rule} {step : Step}

/-- The valuation with the values of a step for the variables of a new node, on step `n`. -/
def Valuation.onStep (v : Valuation) (k : Nat) (w : Var → Term) (n : Nat) : Valuation :=
  (v.extend k ⟨w, v.time⟩).extend (k + 1) ⟨v.term, fun _ => n⟩

theorem Valuation.agrees_onStep (v : Valuation) (k : Nat) (w : Var → Term) (n : Nat) :
    (v.onStep k w n).Agrees (.below k) v :=
  ((agrees_extend _ (k + 1) _).mono (Scope.below_mono (Nat.le_succ k))).trans (agrees_extend v k _)

theorem Valuation.term_onStep (v : Valuation) (w : Var → Term) (n : Nat) {x : Var} (hx : x.idx = 0) :
    (v.onStep k w n).term (x.reindex k) = w x :=
  (if_neg (Nat.lt_succ_self k).ne).trans (term_extend v _ hx)

theorem Valuation.fact_reindex (hm : m.Plain) (hr : r ∈ m.rules) {f : Fact} (hf : f ∈ r.facts)
    (v : Valuation) (w : Var → Term) (n : Nat) {σ : Subst}
    (hσ : ∀ x ∈ r.vars, σ.value x = .var (x.reindex k)) :
    (v.onStep k w n).fact (f.instantiate m.theory σ) = f.mapTerms (Term.mapVars w) := by
  have hscope := hm.scope.rules r hr
  rw [hscope.instantiate hσ hf]
  refine congrArg (Fact.mk f.pred f.multiplicity) ?_
  rw [Fact.mapTerms, List.map_map]
  refine List.map_congr_left fun t ht => ?_
  rw [Function.comp_apply, Term.reindex, Term.mapVars_mapVars]
  exact Term.mapVars_congr fun x hx =>
    v.term_onStep w n (hm.indices r hr x (hscope.facts f hf t ht x hx))

theorem sitsOn_ruleNode (hm : m.Plain) {rule : Nat} (hr : m.rules[rule]? = some r)
    (hr' : m.rule? step.rule = some r) (hn : R.trace[n]? = some step) {w : Var → Term}
    (hinstance : step.InstanceOf r w) {i : TimeVar}
    (hi : (v.onStep S.supply.next w n).time i = n) :
    (System.ruleNode m rule r (r.rename S.supply) i).SitsOn R (v.onStep S.supply.next w n) step := by
  have hfact : ∀ f ∈ r.facts, f.mapTerms (Term.mapVars w) =
      (v.onStep S.supply.next w n).fact (f.instantiate m.theory (r.rename S.supply)) := fun f hf =>
    (Valuation.fact_reindex hm (List.mem_of_getElem? hr) hf v w n fun _ => Rule.value_rename).symm
  simp only [Rule.facts, List.forall_mem_append] at hfact
  refine ⟨by rw [System.ruleNode, hi]; exact hn, ⟨r, hr, hr'⟩, hinstance.premises.trans ?_,
    hinstance.actions.trans ?_, hinstance.conclusions.trans ?_⟩ <;>
      rw [System.ruleNode, List.map_map]
  · exact List.map_congr_left hfact.1.1
  · exact List.map_congr_left hfact.1.2
  · exact List.map_congr_left hfact.2

theorem holds_nodeGoals (hm : m.Plain) {S' : System} {id : Nat} {k : Node}
    (hk : S'.node? id = some k) (hsits : k.SitsOn R v step)
    (hcondition : ∀ f, r.restrict = some f →
      (f.instantiate (.ofSubst k.subst)).Sat R.interpretation v) :
    ∀ g ∈ System.nodeGoals id k r, g.Holds R S' v := by
  refine List.forall_mem_append.2 ⟨fun g hg => ?_, List.forall_mem_map.2 fun f hf => ?_⟩
  · obtain ⟨⟨f, idx⟩, hf, hg⟩ := List.mem_flatMap.1 hg
    have hf := List.mk_mem_zipIdx_iff_getElem?.1 hf
    have hg : g ∈ System.premiseGoals id k.time idx f := hg
    unfold System.premiseGoals at hg
    split at hg
    · rename_i hin
      obtain ⟨t, ht, rfl⟩ := List.mem_map.1 hg
      obtain ⟨hstep, -, hp, -⟩ := hsits
      have hmem : v.fact f ∈ step.premises := hp ▸ List.mem_map_of_mem (List.mem_of_getElem? hf)
      exact R.derives_of_input hm hstep hmem hin (List.mem_map_of_mem ht)
    · split at hg
      · cases hg
      · cases List.mem_singleton.1 hg
        exact ⟨k, f, hk, hf, ‹_›, ‹_›⟩
  · exact hcondition f (Option.mem_toList.1 hf)

theorem sat_condition_rename (hm : m.Plain) (hr : r ∈ m.rules) (hpos : 0 < S.supply.next)
    {w : Var → Term} {f : Nnf} (hf : r.restrict = some f) {u : Valuation}
    (hu : ∀ x ∈ r.vars, u.term (x.reindex S.supply.next) = w x)
    (hsat : ∀ v : Valuation, (∀ x ∈ r.vars, v.term x = w x) → f.Sat R.interpretation v) :
    (f.instantiate (.ofSubst (r.rename S.supply))).Sat R.interpretation u := by
  have hvalue : ∀ x, (r.rename S.supply).value x =
      if x ∈ r.vars then .var (x.reindex S.supply.next) else .var x := by
    intro x
    rw [Subst.value, Rule.rename]
    change ((SortedMap.ofList
      (r.vars.map fun v => (v, Term.var (v.reindex S.supply.next)))).get? x).getD
      (.var x) = _
    rw [SortedMap.get?_ofList_map]
    split <;> rfl
  have hapart : (Binding.ofSubst (r.rename S.supply)).replacement.Apart := by
    refine ⟨fun x => ?_, fun _ => .inl rfl⟩
    change (r.rename S.supply).value x = _ ∨ ∀ y ∈ ((r.rename S.supply).value x).occurrences, _
    rw [hvalue]
    split
    · exact .inr (List.forall_mem_singleton.2 hpos.ne')
    · exact .inl rfl
  refine ((((hm.scope.rules r hr).condition f hf).sat_instantiate hapart).2 (hsat _ fun x hx => ?_))
  change ((r.rename S.supply).value x).mapVars u.term = _
  rw [hvalue, if_pos hx]
  exact hu x hx

theorem Goal.Holds.of_nodes {S' : System}
    (hnode : ∀ id n, S.node? id = some n → S'.node? id = some n) {g : Goal} (h : g.Holds R S v) :
    g.Holds R S' v := by
  cases g with
  | premise =>
    obtain ⟨n, f, hn, hf⟩ := h
    exact ⟨n, f, hnode _ _ hn, hf⟩
  | _ => exact h

/-- A step that no node sits on can be added as a new node. -/
theorem Execution.Fulfils.addNode (hm : m.Plain) (hR : R.trace.RespectsSorts m)
    (hlen : R.trace.length ≤ len) (h : R.Fulfils len S v) (hS : S.WellFormed m.theory)
    (hn : R.trace[n]? = some step) {rule : Nat}
    (hr : m.rules[rule]? = some r) (hr' : m.rule? step.rule = some r)
    (hfree : ∀ id k, S.node? id = some k → v.time k.time ≠ n) (time : Option TimeVar)
    (htime : ∀ j, time = some j → (Scope.below S.supply.next).time j ∧ v.time j = n) :
    ∃ u : Valuation, u.Agrees (.below S.supply.next) v ∧ R.Fulfils len (S.addNode m rule time).2 u ∧
      ∃ k, (S.addNode m rule time).2.node? (S.addNode m rule time).1 = some k ∧
        u.time k.time = n ∧ k.SitsOn R u step := by
  obtain ⟨r', w, hr'', hinstance, hw, hsorts, hcondition⟩ := R.exists_stepValues hm hR hn
  cases hr'.symm.trans hr''
  have hagrees := v.agrees_onStep S.supply.next w n
  have hvars : ∀ x ∈ r.vars, (v.onStep S.supply.next w n).term (x.reindex S.supply.next) = w x :=
    fun x hx => v.term_onStep w n (hm.indices r (List.mem_of_getElem? hr) x hx)
  have hlt : n < len := (List.getElem?_eq_some_iff.1 hn).1.trans_le hlen
  have htimes : ∀ j, time = some j → (v.onStep S.supply.next w n).time j = n := fun j hj =>
    (hagrees.time j (htime j hj).1).trans (htime j hj).2
  have h' : R.Fulfils len S (v.onStep S.supply.next w n) := h.congr hS.scope hagrees.symm
    (Valuation.extend_values (Valuation.extend_values h.values hw) h.values)
    (Valuation.extend_sorts (Valuation.extend_sorts h.sorts hsorts) h.sorts)
  have hsteps := ((h'.scope hS.scope).addNode hm.scope hr (fun _ _ => trivial)
    (fun j hj => show _ < _ from (htimes j hj).trans_lt hlt)
    fun _ => show (v.onStep S.supply.next w n).time _ < _ from (if_pos rfl).trans_lt hlt).any
  have hold : ∀ id k, S.node? id = some k → (S.addNode m rule time).2.node? id = some k :=
    fun _ _ => System.node?_addNode
  refine ⟨v.onStep S.supply.next w n, hagrees, ?_⟩
  generalize hu : v.onStep S.supply.next w n = u at *
  obtain ⟨i, goals, supply, next, he, hg, hsome, hnone⟩ := @System.addNode_eq S m rule r hr time
  have hi : u.time i = n := by
    cases time with
    | some j => exact (hsome j rfl).1 ▸ htimes j rfl
    | none =>
      rw [(hnone rfl).1, ← hu]
      exact if_pos rfl
  have hsits := sitsOn_ruleNode (v := v) (S := S) hm hr hr' hn hinstance (i := i) (hu ▸ hi)
  rw [hu] at hsits
  rw [he] at hsteps hold ⊢
  have hnode := fun id => System.node?_append S
    (System.ruleNode m rule r (r.rename S.supply) i) rfl id
  have hnew := (hnode S.nodes.length).trans (if_pos rfl)
  have hdistinct : ∀ id k, S.node? id = some k → u.time k.time ≠ n := by
    intro id k hk
    rw [hagrees.time _ (hS.scope.nodes id k hk).time]
    exact hfree id k hk
  refine ⟨⟨h'.values, h'.sorts, hsteps, ?_, ?_, h'.classes, h'.less, ?_, h'.disequalities, h'.guarded,
    List.forall_mem_append.2 ⟨fun g hg => (h'.goals g hg).of_nodes hold, ?_⟩⟩, _, hnew, hi, hsits⟩
  · intro id k hk
    rw [System.node?, hnode] at hk
    split at hk
    · cases hk
      exact ⟨step, hsits⟩
    · exact h'.nodes id k hk
  · intro a b k l hk hl ht
    rw [System.node?, hnode] at hk hl
    split at hk <;> split at hl
    · rw [‹a = _›, ‹b = _›]
    · cases hk
      exact absurd (ht.symm.trans hi) (hdistinct b l hl)
    · cases hl
      exact absurd (ht.trans hi) (hdistinct a k hk)
    · exact h'.distinct a b k l hk hl ht
  · intro e hmem
    obtain ⟨k, l, f, hk, hl, hf⟩ := h'.edges e hmem
    exact ⟨k, l, f, hold _ _ hk, hold _ _ hl, hf⟩
  · rw [← List.forall_mem_map (f := OpenGoal.goal) (P := fun g => g.Holds R _ u), hg]
    exact holds_nodeGoals hm hnew hsits fun f hf =>
      sat_condition_rename hm (List.mem_of_getElem? hr) hS.pos hf hvars (hcondition f hf)

end NewNode

end Operations

end ProtocolProver
