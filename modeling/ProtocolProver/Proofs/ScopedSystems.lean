import ProtocolProver.Proofs.Deduction
import ProtocolProver.Proofs.Reachable
import ProtocolProver.Proofs.Satisfaction

/-!
# Scopes of systems

The variables and timepoints of a system carry indices that were drawn from its supply, all but those
that a quantifier binds, which have the index 0. What is drawn next is therefore new to the system. A
system without destructors stays one. `System.In` says all this of one scope, and each operation on
systems keeps it.
-/

namespace ProtocolProver

/-- What was drawn from a supply before the index `k`. -/
def Scope.below (k : Nat) : Scope where
  var x := 0 < x.idx ∧ x.idx < k
  time i := 0 < i.idx ∧ i.idx < k

structure Scope.Le (s s' : Scope) : Prop where
  var : ∀ x, s.var x → s'.var x
  time : ∀ i, s.time i → s'.time i

def Scope.inf (s s' : Scope) : Scope where
  var x := s.var x ∧ s'.var x
  time i := s.time i ∧ s'.time i

theorem Scope.below_mono {k k' : Nat} (h : k ≤ k') : (Scope.below k).Le (.below k') :=
  ⟨fun _ hx => ⟨hx.1, by have := hx.2; omega⟩, fun _ hi => ⟨hi.1, by have := hi.2; omega⟩⟩

theorem Term.Has.constructors {T : Theory} {t : Term} {s : Scope} (ht : t.Has T.plainShape)
    (hs : t.Scoped s) : t.Has (T.constructors s.var) := Theory.constructors_iff.2 ⟨ht, hs⟩

theorem Term.Has.inf {T : Theory} {V W : Var → Prop} {t : Term} (h : t.Has (T.constructors V))
    (h' : t.Has (T.constructors W)) : t.Has (T.constructors fun x => V x ∧ W x) :=
  Theory.constructors_iff.2
    ⟨(Theory.constructors_iff.1 h).1, fun _ hx => ⟨h.var_of_mem hx, h'.var_of_mem hx⟩⟩

theorem Nnf.Scoped.inf {L L' : Fragment} {s s' : Scope} {f : Nnf} (h : f.Scoped L s)
    (h' : f.Scoped L' s') : f.Scoped L (s.inf s') := by
  have hatom : ∀ {s s' : Scope} {a : Atom}, a.Scoped s → a.Scoped s' → a.Scoped (s.inf s') :=
    fun h h' => ⟨fun t ht x hx => ⟨h.terms t ht x hx, h'.terms t ht x hx⟩,
      fun i hi => ⟨h.times i hi, h'.times i hi⟩⟩
  have hbind : ∀ {s s' : Scope} (bs : List Binder),
      (∀ x, ((s.bind bs).inf (s'.bind bs)).var x → ((s.inf s').bind bs).var x) ∧
        ∀ i, ((s.bind bs).inf (s'.bind bs)).time i → ((s.inf s').bind bs).time i :=
    fun bs => ⟨fun _ hx => and_or_right.2 hx, fun _ hi => and_or_right.2 hi⟩
  induction h generalizing s' with
  | top => exact .top
  | bot => exact .bot
  | atom hl ha => cases h' with | atom _ ha' => exact .atom hl (hatom ha ha')
  | neq ht hu =>
    cases h' with
    | neq ht' hu' =>
      exact .neq (fun x hx => ⟨ht x hx, ht' x hx⟩) fun x hx => ⟨hu x hx, hu' x hx⟩
  | conj _ ih => cases h' with | conj h' => exact .conj fun f hf => ih f hf (h' f hf)
  | disj _ ih => cases h' with | disj h' => exact .disj fun f hf => ih f hf (h' f hf)
  | @ex _ bs _ hbs _ ih =>
    cases h' with
    | ex _ h' => exact .ex hbs ((ih h').mono (hbind bs).1 (hbind bs).2)
  | @guarded _ bs _ _ hbs hg hk hl hgs _ ih =>
    cases h' with
    | guarded _ _ _ _ hgs' h' =>
      refine .guarded hbs hg hk hl (fun a ha => ?_) ((ih h').mono (hbind bs).1 (hbind bs).2)
      have ha := hatom (hgs a ha) (hgs' a ha)
      exact ⟨fun t ht x hx => (hbind bs).1 x (ha.terms t ht x hx),
        fun i hi => (hbind bs).2 i (ha.times i hi)⟩

/-- All formulas. -/
def Fragment.any : Fragment := ⟨fun _ => True, fun _ => True⟩

/-- A formula with terms of a shape is in every fragment that lets actions have such terms. -/
theorem Nnf.Scoped.weaken {L L' : Fragment} {P : Shape} {s : Scope} {f : Nnf} (h : f.Scoped L s)
    (hf : f.Has P) (hbinder : ∀ b, L.binder b → L'.binder b)
    (haction : ∀ c : Fact, c.Has P → L'.action c) :
    f.Scoped L' s := by
  have hatom : ∀ {a : Atom}, (∀ t ∈ a.terms, t.Has P) → a.Within L' := by
    rintro (f | t | _ | _ | _) ha c hc <;> cases hc
    · exact haction f ha
    · exact haction _ ha
  induction h with
  | top => exact .top
  | bot => exact .bot
  | atom _ ha => exact .atom (hatom hf) ha
  | neq ht hu => exact .neq ht hu
  | conj _ ih => exact .conj fun f hmem => ih f hmem (has_conj.1 hf f hmem)
  | disj _ ih => exact .disj fun f hmem => ih f hmem (has_disj.1 hf f hmem)
  | ex hbs _ ih => exact .ex (fun b hb => hbinder b (hbs b hb)) (ih hf)
  | guarded hbs hg hk _ hgs _ ih =>
    simp only [Nnf.Has, terms, List.mem_append, List.mem_flatMap] at hf
    exact .guarded (fun b hb => hbinder b (hbs b hb)) hg hk
      (fun a ha => hatom fun t ht => hf t (.inl ⟨a, ha, ht⟩)) hgs (ih fun t ht => hf t (.inr ht))

/-! ## Formulas -/

/-- What is free in the formula is in scope, quantifiers bind what the fragment lets them, and there
are no destructors. -/
structure Nnf.In (L : Fragment) (T : Theory) (s : Scope) (f : Nnf) : Prop where
  scope : f.Scoped L s
  plain : f.Has T.plainShape

namespace Nnf

variable {L : Fragment} {T : Theory} {s s' : Scope} {f : Nnf} {fs : List Nnf}

theorem map_congr {g h : Term → Term} (he : ∀ t ∈ f.terms, g t = h t) (times : TimeVar → TimeVar) :
    f.map g times = f.map h times := by
  have hatom : ∀ a : Atom, (∀ t ∈ a.terms, g t = h t) → a.map g times = a.map h times := by
    rintro (f | _ | _ | _ | _) ha <;> simp only [Atom.terms, List.mem_cons, List.not_mem_nil,
      or_false, forall_eq_or_imp, forall_eq] at ha <;> simp [Atom.map, Fact.mapTerms, ha]
    exact ha
  induction f using induction_parts with
  | top => rfl
  | bot => rfl
  | atom a => exact congrArg atom (hatom a he)
  | neq s t => simp [map, he s (by simp [terms]), he t (by simp [terms])]
  | conj fs ih | disj fs ih =>
    simp only [terms, termsList_eq, List.mem_flatMap] at he
    rw [map, map, mapList_eq, mapList_eq,
      List.map_congr_left fun f hf => ih f hf fun t ht => he t ⟨f, hf, ht⟩]
  | ex bs f ih => exact congrArg (ex bs) (ih he)
  | guarded bs gs f ih =>
    simp only [terms, List.mem_append, List.mem_flatMap] at he
    rw [map, map, ih fun t ht => he t (.inr ht),
      List.map_congr_left fun a ha => hatom a fun t ht => he t (.inl ⟨a, ha, ht⟩)]

namespace In

theorem any (h : f.In L T s) : f.In .any T s :=
  ⟨h.scope.weaken h.plain (fun _ _ => trivial) fun _ _ => trivial, h.plain⟩

theorem mono (h : f.In L T s) (hs : s.Le s') : f.In L T s' := ⟨h.scope.mono hs.var hs.time, h.plain⟩

theorem conj (h : (conj fs).In L T s) : ∀ f ∈ fs, f.In L T s := by
  obtain ⟨hs, hp⟩ := h
  cases hs with
  | conj hs => exact fun f hf => ⟨hs f hf, has_conj.1 hp f hf⟩

theorem disj (h : (disj fs).In L T s) : ∀ f ∈ fs, f.In L T s := by
  obtain ⟨hs, hp⟩ := h
  cases hs with
  | disj hs => exact fun f hf => ⟨hs f hf, has_disj.1 hp f hf⟩

theorem atom {a : Atom} (h : (atom a).In L T s) :
    (∀ t ∈ a.terms, t.Has (T.constructors s.var)) ∧ ∀ i ∈ a.times, s.time i := by
  obtain ⟨hs, hp⟩ := h
  cases hs with
  | atom _ ha => exact ⟨fun t ht => (hp t ht).constructors (ha.terms t ht), ha.times⟩

theorem neq {t u : Term} (h : (neq t u).In L T s) :
    t.Has (T.constructors s.var) ∧ u.Has (T.constructors s.var) := by
  obtain ⟨hs, hp⟩ := h
  cases hs with
  | neq ht hu =>
    exact ⟨(hp t (by simp [terms])).constructors ht, (hp u (by simp [terms])).constructors hu⟩

end In

end Nnf

/-! ## Substitutions -/

section Apply

variable {T : Theory} {s : Scope} {V : Var → Prop} {σ : Subst}
  (hσ : σ.Over (T.constructors V)) (hV : ∀ x, V x → s.var x ∧ x.idx ≠ 0)
include hσ hV

theorem Subst.Over.value_in_scope {x : Var} (hx : s.var x) :
    (σ.value x).Has (T.constructors s.var) := by
  by_cases h : V x
  · exact Theory.constructors_mono (hσ.value h) fun y hy => (hV y hy).1
  · rw [hσ.value_of_not h]
    exact .var hx

omit hV in
theorem Subst.Over.fixes (hV : ∀ x, V x → x.idx ≠ 0) : (Replacement.mk σ.value id).Fixes :=
  ⟨fun x hx => hσ.value_of_not fun h => hV x h hx, fun _ _ => rfl⟩

omit hV in
theorem Subst.Over.apart (hV : ∀ x, V x → x.idx ≠ 0) : (Replacement.mk σ.value id).Apart := by
  refine ⟨fun x => ?_, fun _ => .inl rfl⟩
  by_cases h : V x
  · exact .inr fun y hy => hV y ((hσ.value h).var_of_mem hy)
  · exact .inl (hσ.value_of_not h)

theorem Subst.Over.apply_in_scope {t : Term} (ht : t.Has (T.constructors s.var)) :
    (σ.apply t).Has (T.constructors s.var) :=
  ht.mapVars (fun _ hx => hσ.value_in_scope hV (ht.var_of_mem hx)) (fun _ h => h) fun _ _ h => h

theorem Subst.Over.normalize_apply {t : Term} (ht : t.Has (T.constructors s.var)) :
    T.normalize (σ.apply t) = σ.apply t :=
  Theory.normalize_constructors (hσ.apply_in_scope hV ht)

omit hV in
/-- Within a formula without destructors, applying a substitution replaces its variables. -/
theorem Nnf.Has.map_eq (hV : ∀ x, V x → x.idx ≠ 0) {f : Nnf} (h : f.Has T.plainShape) :
    f.map (fun t => T.normalize (σ.apply t)) id = f.map (Term.mapVars σ.value) id :=
  Nnf.map_congr (fun t ht => (hσ.normalize_apply (s := ⟨fun _ => True, fun _ => True⟩)
    (fun x hx => ⟨trivial, hV x hx⟩) (h t ht))) id

theorem Nnf.In.apply {f : Nnf} (h : f.In .indexed T s) :
    (f.map (fun t => T.normalize (σ.apply t)) id).In .indexed T s := by
  rw [h.plain.map_eq hσ fun x hx => (hV x hx).2]
  refine ⟨h.scope.map (hσ.fixes fun x hx => (hV x hx).2) ⟨fun x hx => ?_, fun _ hi => hi⟩,
    h.plain.map (fun t ht => ?_) id⟩
  · exact fun y hy => (hσ.value_in_scope hV hx).var_of_mem hy
  · exact hσ.apply_in_scope (s := ⟨fun _ => True, fun _ => True⟩)
      (fun x hx => ⟨trivial, (hV x hx).2⟩) ht

end Apply

/-! ## Systems -/

/-- The goal has no destructors, and what is free in it is in scope. -/
def Goal.In (L : Fragment) (T : Theory) (s : Scope) : Goal → Prop
  | .action f i => f.Has (T.constructors s.var) ∧ s.time i
  | .premise .. => True
  | .knows t i => t.Has (T.constructors s.var) ∧ s.time i
  | .chain t u i => t.Has (T.constructors s.var) ∧ u.Has (T.constructors s.var) ∧ s.time i
  | .split f => f.In L T s

structure Node.In (T : Theory) (s : Scope) (n : Node) : Prop where
  has : n.Has (T.constructors s.var)
  time : s.time n.time

/-- The system has no destructors, and its variables and timepoints are in scope. -/
structure System.In (L : Fragment) (T : Theory) (s : Scope) (S : System) : Prop where
  nodes : ∀ id n, S.node? id = some n → n.In T s
  goals : ∀ g ∈ S.goals, g.goal.In L T s
  guarded : ∀ g ∈ S.guarded, g.toNnf.In L T s
  disequalities : EquationsHave (T.constructors s.var) S.disequalities
  less : ∀ p ∈ SortedSet.toList S.less, s.time p.earlier ∧ s.time p.later
  classes : ∀ i, S.find i = i ∨ s.time i ∧ s.time (S.find i)

section

variable {L : Fragment} {T : Theory} {s s' : Scope}

theorem Fact.Has.mono {P Q : Shape} {f : Fact} (h : f.Has P) (hle : ∀ t : Term, t.Has P → t.Has Q) :
    f.Has Q := fun t ht => hle t (h t ht)

theorem Goal.In.mono {g : Goal} (h : g.In L T s) (hs : s.Le s') : g.In L T s' := by
  have hterm : ∀ t : Term, t.Has (T.constructors s.var) → t.Has (T.constructors s'.var) :=
    fun t ht => Theory.constructors_mono ht hs.var
  cases g with
  | action f i => exact ⟨h.1.mono hterm, hs.time i h.2⟩
  | premise => trivial
  | knows t i => exact ⟨hterm t h.1, hs.time i h.2⟩
  | chain t u i => exact ⟨hterm t h.1, hterm u h.2.1, hs.time i h.2.2⟩
  | split f => exact Nnf.In.mono h hs

theorem Goal.In.any {g : Goal} (h : g.In L T s) : g.In .any T s := by
  cases g with
  | split f => exact Nnf.In.any h
  | _ => exact h

theorem Node.In.mono {n : Node} (h : n.In T s) (hs : s.Le s') : n.In T s' := by
  have hterm : ∀ t : Term, t.Has (T.constructors s.var) → t.Has (T.constructors s'.var) :=
    fun t ht => Theory.constructors_mono ht hs.var
  obtain ⟨⟨hsubst, hp, ha, hc⟩, htime⟩ := h
  exact ⟨⟨fun v t ht => ⟨hterm t (hsubst v t ht).1, (hsubst v t ht).2⟩,
    fun f hf => (hp f hf).mono hterm, fun f hf => (ha f hf).mono hterm,
    fun f hf => (hc f hf).mono hterm⟩, hs.time _ htime⟩

namespace System

variable {S : System}

namespace In

theorem mono (h : S.In L T s) (hs : s.Le s') : S.In L T s' where
  nodes id n hn := (h.nodes id n hn).mono hs
  goals g hg := (h.goals g hg).mono hs
  guarded g hg := (h.guarded g hg).mono hs
  disequalities e he := ⟨Theory.constructors_mono (h.disequalities e he).1 hs.var,
    Theory.constructors_mono (h.disequalities e he).2 hs.var⟩
  less p hp := ⟨hs.time _ (h.less p hp).1, hs.time _ (h.less p hp).2⟩
  classes i := (h.classes i).imp id fun hi => ⟨hs.time _ hi.1, hs.time _ hi.2⟩

theorem any (h : S.In L T s) : S.In .any T s :=
  { h with
    goals := fun g hg => (h.goals g hg).any
    guarded := fun g hg => (h.guarded g hg).any }

theorem inf {L' : Fragment} (h : S.In L T s) (h' : S.In L' T s') : S.In L T (s.inf s') where
  nodes id n hn := by
    obtain ⟨⟨hs, hp, ha, hc⟩, ht⟩ := h.nodes id n hn
    obtain ⟨⟨hs', hp', ha', hc'⟩, ht'⟩ := h'.nodes id n hn
    exact ⟨⟨fun x t hx => ⟨(hs x t hx).1.inf (hs' x t hx).1, (hs x t hx).2⟩,
      fun f hf t ht => (hp f hf t ht).inf (hp' f hf t ht),
      fun f hf t ht => (ha f hf t ht).inf (ha' f hf t ht),
      fun f hf t ht => (hc f hf t ht).inf (hc' f hf t ht)⟩, ht, ht'⟩
  goals g hg := by
    have hg' := h'.goals g hg
    have hg := h.goals g hg
    revert hg hg'
    cases g.goal with
    | action f i => exact fun hg' hg => ⟨fun t ht => (hg.1 t ht).inf (hg'.1 t ht), hg.2, hg'.2⟩
    | premise => exact fun _ _ => trivial
    | knows t i => exact fun hg' hg => ⟨hg.1.inf hg'.1, hg.2, hg'.2⟩
    | chain t u i => exact fun hg' hg => ⟨hg.1.inf hg'.1, hg.2.1.inf hg'.2.1, hg.2.2, hg'.2.2⟩
    | split f => exact fun hg' hg => ⟨hg.scope.inf hg'.scope, hg.plain⟩
  guarded g hg := ⟨(h.guarded g hg).scope.inf (h'.guarded g hg).scope, (h.guarded g hg).plain⟩
  disequalities e he := ⟨(h.disequalities e he).1.inf (h'.disequalities e he).1,
    (h.disequalities e he).2.inf (h'.disequalities e he).2⟩
  less p hp := ⟨⟨(h.less p hp).1, (h'.less p hp).1⟩, (h.less p hp).2, (h'.less p hp).2⟩
  classes i := by
    rcases h.classes i with hi | hi
    · exact .inl hi
    · rcases h'.classes i with hi' | hi'
      · exact .inl hi'
      · exact .inr ⟨⟨hi.1, hi'.1⟩, hi.2, hi'.2⟩

theorem has (h : S.In L T s) : S.Has T.plainShape := by
  have hterm : ∀ t : Term, t.Has (T.constructors s.var) → t.Has T.plainShape :=
    fun t ht => Theory.constructors_mono ht fun _ _ => trivial
  have hle : s.Le ⟨fun _ => True, fun _ => True⟩ := ⟨fun _ _ => trivial, fun _ _ => trivial⟩
  refine ⟨fun id n hn => ((h.nodes id n hn).mono hle).has, fun g hg => ?_,
    fun g hg => (h.guarded g hg).plain, fun e he => ?_⟩
  · have hg := h.goals g hg
    revert hg
    cases g.goal with
    | action f i => exact fun hg => hg.1.mono hterm
    | premise => exact fun _ => nofun
    | knows t i => exact fun hg => by simpa [Goal.Has, Goal.terms] using hterm t hg.1
    | chain t u i =>
      exact fun hg => by simpa [Goal.Has, Goal.terms] using ⟨hterm t hg.1, hterm u hg.2.1⟩
    | split f => exact fun hg => hg.plain
  · exact ⟨hterm _ (h.disequalities e he).1, hterm _ (h.disequalities e he).2⟩

theorem find (h : S.In L T s) {i : TimeVar} (hi : s.time i) : s.time (S.find i) := by
  rcases h.classes i with he | he
  · rwa [he]
  · exact he.2

theorem of_find (h : S.In L T s) {i : TimeVar} (hi : s.time (S.find i)) : s.time i := by
  rcases h.classes i with he | he
  · rwa [he] at hi
  · exact he.1

theorem pushGoals (h : S.In L T s) {gs : List Goal} (hgs : ∀ g ∈ gs, g.In L T s) :
    (S.pushGoals gs).In L T s := by
  obtain ⟨goals, next, he, rfl⟩ := @pushGoals_eq S gs
  rw [he]
  exact { h with goals := List.forall_mem_append.2 ⟨h.goals, by simpa using hgs⟩ }

theorem pushGoal (h : S.In L T s) {g : Goal} (hg : g.In L T s) : (S.pushGoal g).In L T s :=
  (h.pushGoals (List.forall_mem_singleton.2 hg) : (S.pushGoals [g]).In L T s)

theorem eraseGoal (h : S.In L T s) (k : Nat) :
    ({ S with goals := S.goals.eraseIdx k } : System).In L T s :=
  { h with goals := fun g hg => h.goals g (List.mem_of_mem_eraseIdx hg) }

theorem withSupply (h : S.In L T s) (supply : VarSupply) :
    ({ S with supply := supply } : System).In L T s := { h with }

theorem addLess (h : S.In L T s) {i j : TimeVar} (hi : s.time i) (hj : s.time j) :
    (S.addLess i j).In L T s := by
  refine { h with less := fun p hp => ?_ }
  rcases SortedSet.mem_toList_insert.1 hp with rfl | hp
  · exact ⟨hi, hj⟩
  · exact h.less p hp

theorem union (h : S.In L T s) {i j : TimeVar} (hi : s.time i) (hj : s.time j) :
    (S.union i j).In L T s := by
  refine { h with classes := fun k => ?_ }
  have hfi : s.time (S.classes.find i) := h.find hi
  have hfj : s.time (S.classes.find j) := h.find hj
  rcases S.classes.find_union_cases i j k with he | ⟨hk, he⟩
  · exact (h.classes k).imp he.trans fun hk => ⟨hk.1, by rw [System.find, System.union, he]; exact hk.2⟩
  · have hk : s.time (S.find k) := by rcases hk with hk | hk <;> rw [System.find, hk] <;> assumption
    refine .inr ⟨h.of_find hk, ?_⟩
    rcases he with he | he <;> rw [System.find, System.union, he] <;> assumption

theorem addEdge (h : S.In L T s) (source target : Endpoint) : (S.addEdge source target).In L T s := by
  unfold System.addEdge
  split
  · rename_i n k hn hk
    have h' := h.addLess (h.nodes _ n hn).time (h.nodes _ k hk).time
    exact { h' with }
  · exact { h with }

theorem absorb (h : S.In L T s) (a b : Nat) : (S.absorb a b).In L T s := by
  refine { h with nodes := fun id n hn => ?_, goals := fun g hg => h.goals g (List.mem_filter.1 hg).1 }
  rw [node?_absorb] at hn
  split at hn
  · cases hn
  · exact h.nodes id n hn

theorem dedupGoals (h : S.In L T s) : S.dedupGoals.In L T s :=
  { h with goals := fun g hg => h.goals g (mem_dedupGoals hg) }

/-! ## Unifiers -/

section Apply

variable {V : Var → Prop} {σ : Subst} (hσ : σ.Over (T.constructors V))
  (hV : ∀ x, V x → s.var x ∧ x.idx ≠ 0)
include hσ hV

theorem apply (h : S.In .indexed T s) : (S.apply T σ).In .indexed T s := by
  have hterm : ∀ t : Term, t.Has (T.constructors s.var) →
      (T.normalize (σ.apply t)).Has (T.constructors s.var) := fun t ht => by
    rw [hσ.normalize_apply hV ht]
    exact hσ.apply_in_scope hV ht
  unfold System.apply
  split
  · exact h
  · refine { h with nodes := ?_, goals := ?_, guarded := ?_, disequalities := ?_ }
    · intro id n' hn'
      rw [node?_mapTerms, Option.map_eq_some_iff] at hn'
      obtain ⟨n, hn, rfl⟩ := hn'
      exact ⟨(h.nodes id n hn).has.mapTerms hterm fun _ _ ht =>
        Theory.sort_normalize (hσ.within.sort_apply ht), (h.nodes id n hn).time⟩
    · refine List.forall_mem_map.2 fun g hg => ?_
      have hg := h.goals g hg
      revert hg
      cases g.goal with
      | action f i => exact fun hg => ⟨hg.1.mapTerms hterm, hg.2⟩
      | premise => exact id
      | knows t i => exact fun hg => ⟨hterm t hg.1, hg.2⟩
      | chain t u i => exact fun hg => ⟨hterm t hg.1, hterm u hg.2.1, hg.2.2⟩
      | split f => exact fun hg => Nnf.In.apply hσ hV hg
    · exact List.forall_mem_map.2 fun g hg => (h.guarded g hg).apply hσ hV
    · exact List.forall_mem_map.2 fun e he =>
        ⟨hterm _ (h.disequalities e he).1, hterm _ (h.disequalities e he).2⟩

end Apply

end In

section Unify

variable {V : Var → Prop} {eqs : List Equation} (heqs : EquationsHave (T.constructors V) eqs)
include heqs

theorem unify_constructors (S : System) : S.unify T eqs =
    ⟨((T.unify eqs ∅).run S.supply).1.substs.map (S.apply T),
      !((T.unify eqs ∅).run S.supply).1.complete⟩ := by
  obtain ⟨hs, -, -⟩ := Theory.unify_constructors heqs S.supply
  unfold System.unify
  rw [drawing_eq, hs]

theorem mem_unify_constructors {S' : System} (h : S' ∈ (S.unify T eqs).systems) :
    ∃ σ : Subst, σ.Over (T.constructors V) ∧ S' = S.apply T σ := by
  rw [S.unify_constructors heqs] at h
  obtain ⟨σ, hσ, rfl⟩ := List.mem_map.1 h
  exact ⟨σ, (Theory.unify_constructors heqs S.supply).2.1 σ hσ, rfl⟩

theorem exists_mem_unify (S : System) (hl : (S.unify T eqs).lossy = false) {θ : Var → Term}
    (hθ : RespectsSorts θ) (hsolves : Solves θ eqs) : ∃ σ : Subst,
      σ.Over (T.constructors V) ∧ T.solves σ eqs = true ∧ σ.Absorbed θ ∧
        S.apply T σ ∈ (S.unify T eqs).systems := by
  rw [S.unify_constructors heqs] at hl ⊢
  obtain ⟨-, hover, hcomplete⟩ := Theory.unify_constructors heqs S.supply
  obtain ⟨σ, hσ, ha⟩ := hcomplete (by simpa using hl) θ hθ hsolves
  exact ⟨σ, hover σ hσ, Theory.solves_of_mem_unify hσ, ha, List.mem_map_of_mem hσ⟩

end Unify

theorem supply_pushGoals (S : System) (gs : List Goal) : (S.pushGoals gs).supply = S.supply := by
  obtain ⟨goals, next, he, -⟩ := @pushGoals_eq S gs
  rw [he]

theorem supply_apply (S : System) (T : Theory) (σ : Subst) : (S.apply T σ).supply = S.supply := by
  unfold System.apply
  split <;> rfl

end System

end

/-! ## New nodes -/

/-- The facts and the condition of the rule speak of its variables only. -/
structure Rule.InScope (T : Theory) (r : Rule) : Prop where
  plain : r.Has T.plainShape
  facts : ∀ f ∈ r.facts, ∀ t ∈ f.args, ∀ x ∈ t.occurrences, x ∈ r.vars
  condition : ∀ f, r.restrict = some f → f.Scoped .indexed ⟨(· ∈ r.vars), fun _ => False⟩

/-- The model has no destructors, and nothing is free in its rules and restrictions. -/
structure Model.InScope (m : Model) : Prop where
  rules : ∀ r ∈ m.rules, r.InScope m.theory
  restrictions : ∀ r ∈ m.restrictions, r.nnf.In .indexed m.theory .closed

theorem Rule.Has.facts {P : Shape} {r : Rule} (h : r.Has P) {f : Fact} (hf : f ∈ r.facts) :
    f.Has P := by
  simp only [Rule.facts, List.mem_append] at hf
  rcases hf with (hf | hf) | hf
  · exact h.premises f hf
  · exact h.actions f hf
  · exact h.conclusions f hf

section

variable {T : Theory} {s : Scope} {r : Rule} {k : Nat}

theorem Rule.InScope.instantiate (hr : r.InScope T) {σ : Subst}
    (hσ : ∀ x ∈ r.vars, σ.value x = .var (x.reindex k)) {f : Fact} (hf : f ∈ r.facts) :
    f.instantiate T σ = f.mapTerms (Term.reindex k) := by
  refine congrArg (Fact.mk f.pred f.multiplicity) (List.map_congr_left fun t ht => ?_)
  calc T.normalize (σ.apply t) = t.mapVars fun x => T.normalize (σ.value x) :=
        Theory.normalize_mapVars_constructors (hr.plain.facts hf t ht) _
    _ = t.reindex k := Term.mapVars_congr fun x hx => by
        rw [hσ x (hr.facts f hf t ht x hx)]
        rfl

theorem Term.Has.reindex {t : Term} (ht : t.Has T.plainShape)
    (hk : ∀ x ∈ t.occurrences, s.var (x.reindex k)) : (t.reindex k).Has (T.constructors s.var) :=
  ht.mapVars (fun x hx => .var (hk x hx)) (fun _ h => h) fun _ _ h => h

theorem Rule.InScope.reindex (hr : r.InScope T) (hvars : ∀ x ∈ r.vars, s.var (x.reindex k))
    {f : Fact} (hf : f ∈ r.facts) : (f.mapTerms (Term.reindex k)).Has (T.constructors s.var) :=
  List.forall_mem_map.2 fun t ht => (hr.plain.facts hf t ht).reindex fun x hx =>
    hvars x (hr.facts f hf t ht x hx)

end

/-- The copy of a rule with variables from the supply. -/
abbrev Rule.rename (r : Rule) (s : VarSupply) : Subst := (VarSupply.renameApart r.vars s).1

theorem Rule.value_rename {r : Rule} {s : VarSupply} {x : Var} (h : x ∈ r.vars) :
    (r.rename s).value x = .var (x.reindex s.next) := VarSupply.value_renameApart h

namespace System

variable {m : Model} {s : Scope} {S : System} {rule : Nat} {r : Rule} {i : TimeVar}

theorem in_ruleNode (rule : Nat) (hr : r.InScope m.theory) (hi : s.time i)
    (hvars : ∀ x ∈ r.vars, s.var (x.reindex S.supply.next)) :
    (ruleNode m rule r (r.rename S.supply) i).In m.theory s := by
  have hfacts : ∀ f ∈ r.facts,
      (f.instantiate m.theory (r.rename S.supply)).Has (m.theory.constructors s.var) := by
    intro f hf
    rw [hr.instantiate (fun _ => Rule.value_rename) hf]
    exact hr.reindex hvars hf
  simp only [Rule.facts, List.forall_mem_append] at hfacts
  refine ⟨⟨fun x t ht => ?_, List.forall_mem_map.2 hfacts.1.1, List.forall_mem_map.2 hfacts.1.2,
    List.forall_mem_map.2 hfacts.2⟩, hi⟩
  obtain ⟨y, hy, he⟩ := List.mem_map.1 (SortedMap.mem_of_get?_ofList ht)
  cases he
  exact ⟨.var (hvars _ hy), TermSort.admits_self _⟩

theorem in_nodeGoals (hr : r.InScope m.theory)
    (hvars : ∀ x ∈ r.vars, s.var (x.reindex S.supply.next)) {id : Nat} {n : Node}
    (hn : n.In m.theory s) (hsubst : n.subst = r.rename S.supply) :
    ∀ g ∈ nodeGoals id n r, g.In .indexed m.theory s := by
  refine List.forall_mem_append.2 ⟨fun g hg => ?_, List.forall_mem_map.2 fun f hf => ?_⟩
  · obtain ⟨⟨f, idx⟩, hf, hg⟩ := List.mem_flatMap.1 hg
    have hf := hn.has.premises f (List.fst_mem_of_mem_zipIdx hf)
    have hg : g ∈ premiseGoals id n.time idx f := hg
    unfold premiseGoals at hg
    split at hg
    · obtain ⟨t, ht, rfl⟩ := List.mem_map.1 hg
      exact ⟨hf t ht, hn.time⟩
    · split at hg
      · cases hg
      · cases List.mem_singleton.1 hg
        trivial
  · have hf : r.restrict = some f := Option.mem_toList.1 hf
    refine ⟨(hr.condition f hf).instantiate ⟨fun x hx => ?_, nofun⟩,
      (hr.plain.restrict f hf).instantiate_values fun x _ => ?_⟩
    · intro y hy
      have he : (Binding.ofSubst n.subst).replacement.term x = .var (x.reindex S.supply.next) :=
        hsubst ▸ Rule.value_rename hx
      rw [he] at hy
      cases List.mem_singleton.1 hy
      exact hvars x hx
    · have hwithin : n.subst.Within m.theory.plainShape := fun x t ht =>
        ⟨Theory.constructors_mono (hn.has.subst x t ht).1 fun _ _ => trivial,
          (hn.has.subst x t ht).2⟩
      exact hwithin.value (fun _ => trivial) x

theorem In.addNode (hm : m.InScope) (h : S.In .indexed m.theory s) (hr : m.rules[rule]? = some r)
    (hvars : ∀ x ∈ r.vars, s.var (x.reindex S.supply.next)) {time : Option TimeVar}
    (htime : ∀ j, time = some j → s.time j) (hnew : time = none → s.time ⟨"t", S.supply.next + 1⟩) :
    (S.addNode m rule time).2.In .indexed m.theory s := by
  obtain ⟨i, goals, supply, next, he, hg, hsome, hnone⟩ := @addNode_eq S m rule r hr time
  have hrule := hm.rules r (List.mem_of_getElem? hr)
  have hi : s.time i := by
    cases time with
    | some j => exact (hsome j rfl).1 ▸ htime j rfl
    | none => exact (hnone rfl).1 ▸ hnew rfl
  have hn := in_ruleNode rule hrule hi hvars
  rw [he]
  refine { h with nodes := fun id n hid => ?_, goals := List.forall_mem_append.2 ⟨h.goals, ?_⟩ }
  · rw [node?, node?_append S _ rfl] at hid
    split at hid
    · cases hid
      exact hn
    · exact h.nodes id n hid
  · rw [← List.forall_mem_map (f := OpenGoal.goal) (P := fun g => g.In .indexed m.theory s), hg]
    exact in_nodeGoals hrule hvars hn rfl

end System

end ProtocolProver
