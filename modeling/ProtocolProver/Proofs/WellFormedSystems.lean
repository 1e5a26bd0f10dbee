import ProtocolProver.Proofs.Saturation

/-!
# Well-formed systems

In a well-formed system every index was drawn from its supply, and nothing has a destructor. Solving a
goal and simplifying keep systems so, and the systems that a search reaches are well-formed
(`Reachable.wellFormed`).
-/

namespace ProtocolProver

/-! ## Renamed binders -/

def TimeVar.reindex (k : Nat) (i : TimeVar) : TimeVar := { i with idx := k }

/-- The variables of a quantifier with another index. -/
def Replacement.reindex (bs : List Binder) (k : Nat) : Replacement where
  term x := if .msg x ∈ bs then .var (x.reindex k) else .var x
  time i := if .time i ∈ bs then i.reindex k else i

theorem Binding.foldl_reindex {extend : Binding → Binder → Binding} {k : Nat}
    (hmsg : ∀ b v, extend b (.msg v) = { b with terms := b.terms.insert v (.var (v.reindex k)) })
    (htime : ∀ b i, extend b (.time i) = { b with times := b.times.insert i (i.reindex k) })
    (bs : List Binder) (b : Binding) :
    (∀ x, (bs.foldl extend b).terms.value x =
      if .msg x ∈ bs then .var (x.reindex k) else b.terms.value x) ∧
    ∀ i, (bs.foldl extend b).time i = if .time i ∈ bs then i.reindex k else b.time i := by
  induction bs generalizing b with
  | nil => simp
  | cons c bs ih =>
    obtain ⟨hterms, htimes⟩ := ih (extend b c)
    rw [List.foldl_cons]
    refine ⟨fun x => (hterms x).trans ?_, fun i => (htimes i).trans ?_⟩
    · cases c with
      | msg y =>
        by_cases hx : x = y <;> by_cases hb : .msg x ∈ bs <;>
          simp_all [Subst.value, SortedMap.get?_insert]
      | time j => simp [htime]
    · cases c with
      | msg y => simp [hmsg, Binding.time]
      | time j =>
        by_cases hx : i = j <;> by_cases hb : .time i ∈ bs <;>
          simp_all [Binding.time, SortedMap.get?_insert]

theorem replacement_renameBinders (bs : List Binder) (s : VarSupply) :
    ((renameBinders bs).run s).1.2.replacement = .reindex bs s.next := by
  obtain ⟨extend, hfold, hmsg, htime⟩ : ∃ extend, ((renameBinders bs).run s).1.2 = bs.foldl extend {} ∧
      (∀ b v, extend b (.msg v) = { b with terms := b.terms.insert v (.var (v.reindex s.next)) }) ∧
      ∀ b i, extend b (.time i) = { b with times := b.times.insert i (i.reindex s.next) } :=
    ⟨_, rfl, fun _ _ => rfl, fun _ _ => rfl⟩
  obtain ⟨hterms, htimes⟩ := Binding.foldl_reindex hmsg htime bs {}
  rw [hfold]
  exact congrArg₂ Replacement.mk (funext hterms) (funext htimes)

theorem Replacement.apart_reindex (bs : List Binder) {k : Nat} (hk : 0 < k) :
    (Replacement.reindex bs k).Apart := by
  refine ⟨fun x => ?_, fun i => ?_⟩
  · by_cases hx : .msg x ∈ bs
    · refine .inr fun y hy => ?_
      simp only [Replacement.reindex, if_pos hx] at hy
      cases List.mem_singleton.1 hy
      exact hk.ne'
    · exact .inl (if_neg hx)
  · by_cases hi : .time i ∈ bs
    · simp only [Replacement.reindex, if_pos hi]
      exact .inr hk.ne'
    · exact .inl (if_neg hi)

namespace System

/-- Every variable and timepoint comes from the supply, and there are no destructors. -/
structure WellFormed (T : Theory) (S : System) : Prop where
  pos : 0 < S.supply.next
  scope : S.In .indexed T (.below S.supply.next)

variable {T : Theory} {s : Scope} {S : System} {m : Model}

theorem plain_of_opens (hT : T.Standard) {r : Reduction} {i : Nat} {g c : Symbol} {as ps : List Term}
    (h : T.Opens r i g as c ps) : (∀ t ∈ as, t.Has T.plainShape) ∧ r.rhs.Has T.plainShape := by
  refine ⟨fun t ht => (h.patterns hT t ht).mono (fun _ _ => trivial) (by rintro _ ⟨⟩)
    fun _ _ h => h.1, ?_⟩
  rcases (hT.rule r h.mem).2 with ⟨v, -, hrhs⟩ | ⟨c, hrhs, hc, -⟩ <;> rw [hrhs]
  · exact .var trivial
  · exact .app hc (List.forall_mem_nil _)

theorem in_of_ex {bs : List Binder} {f : Nnf} (hf : (Nnf.ex bs f).In .indexed T s) {s' : Scope}
    (hs : s.Le s')
    {supply : VarSupply} (hvar : ∀ x : Var, .msg x ∈ bs → s'.var (x.reindex supply.next))
    (htime : ∀ i : TimeVar, .time i ∈ bs → s'.time (i.reindex supply.next)) :
    (f.instantiate ((renameBinders bs).run supply).1.2).In .indexed T s' := by
  obtain ⟨hscope, hplain⟩ := hf
  have hplain : f.Has T.plainShape := hplain
  cases hscope with
  | ex hbs hscope =>
    refine ⟨hscope.instantiate ?_, hplain.instantiate (fun _ => trivial)
      (within_renameBinders (fun _ => trivial) bs supply)⟩
    rw [replacement_renameBinders]
    refine ⟨fun x hx y hy => ?_, fun i hi => ?_⟩
    · unfold Replacement.reindex at hy
      simp only at hy
      split at hy
      · cases List.mem_singleton.1 hy
        exact hvar x ‹_›
      · cases List.mem_singleton.1 hy
        exact hs.var _ (hx.resolve_right ‹_›)
    · unfold Replacement.reindex
      simp only
      split
      · exact htime i ‹_›
      · exact hs.time _ (hi.resolve_right ‹_›)

namespace WellFormed

theorem of_in {S' : System} (h : S.WellFormed T) (hin : S'.In .indexed T (.below S.supply.next))
    (hs : S'.supply = S.supply) : S'.WellFormed T := ⟨hs ▸ h.pos, hs ▸ hin⟩

theorem unify (h : S.WellFormed T) {eqs : List Equation}
    (heqs : EquationsHave (T.constructors (Scope.below S.supply.next).var) eqs) :
    ∀ S' ∈ (S.unify T eqs).systems, S'.WellFormed T := by
  intro S' hS'
  obtain ⟨σ, hσ, rfl⟩ := mem_unify_constructors heqs hS'
  exact h.of_in (h.scope.apply hσ fun x hx => ⟨hx, hx.1.ne'⟩) (S.supply_apply T σ)

theorem addNode (hm : m.InScope) (h : S.WellFormed m.theory) (rule : Nat) (time : Option TimeVar)
    (htime : ∀ j, time = some j → (Scope.below S.supply.next).time j) :
    (S.addNode m rule time).2.WellFormed m.theory ∧
      S.supply.next ≤ (S.addNode m rule time).2.supply.next := by
  cases hr : m.rules[rule]? with
  | none =>
    unfold System.addNode
    rw [hr]
    exact ⟨h, Nat.le_refl _⟩
  | some r =>
    have hnext : S.supply.next + 1 ≤ (S.addNode m rule time).2.supply.next ∧
        (time = none → S.supply.next + 1 < (S.addNode m rule time).2.supply.next) := by
      obtain ⟨i, goals, supply, next, he, -, hsome, hnone⟩ := @addNode_eq S m rule r hr time
      rw [he]
      cases time with
      | some j => exact ⟨by simp [(hsome j rfl).2], nofun⟩
      | none => simp [(hnone rfl).2]
    have hle : S.supply.next ≤ (S.addNode m rule time).2.supply.next := by omega
    refine ⟨⟨h.pos.trans_le hle, (h.scope.mono (Scope.below_mono hle)).addNode hm hr (fun x _ => ?_)
      (fun j hj => (Scope.below_mono hle).time j (htime j hj)) fun hn => ?_⟩, hle⟩
    · exact ⟨h.pos, hnext.1⟩
    · exact ⟨Nat.succ_pos _, hnext.2 hn⟩

theorem eraseGoal (h : S.WellFormed T) (k : Nat) :
    ({ S with goals := S.goals.eraseIdx k } : System).WellFormed T := ⟨h.pos, h.scope.eraseGoal k⟩

theorem pushGoals (h : S.WellFormed T) {gs : List Goal}
    (hgs : ∀ g ∈ gs, g.In .indexed T (.below S.supply.next)) : (S.pushGoals gs).WellFormed T :=
  h.of_in (h.scope.pushGoals hgs) (S.supply_pushGoals gs)

theorem pushGoal (h : S.WellFormed T) {g : Goal} (hg : g.In .indexed T (.below S.supply.next)) :
    (S.pushGoal g).WellFormed T := ⟨h.pos, h.scope.pushGoal hg⟩

theorem addLess (h : S.WellFormed T) {i j : TimeVar} (hi : (Scope.below S.supply.next).time i)
    (hj : (Scope.below S.supply.next).time j) : (S.addLess i j).WellFormed T :=
  ⟨h.pos, h.scope.addLess hi hj⟩

theorem union (h : S.WellFormed T) {i j : TimeVar} (hi : (Scope.below S.supply.next).time i)
    (hj : (Scope.below S.supply.next).time j) : (S.union i j).WellFormed T :=
  ⟨h.pos, h.scope.union hi hj⟩

/-! ## Solving goals -/

theorem expandSplit (h : S.WellFormed m.theory) {f : Nnf}
    (hf : f.In .indexed m.theory (.below S.supply.next)) :
    ∀ S' ∈ (S.expandSplit m f).systems, S'.WellFormed m.theory := by
  intro S' hS'
  match f with
  | .top => cases List.mem_singleton.1 hS'; exact h
  | .bot => cases hS'
  | .conj fs =>
    cases List.mem_singleton.1 hS'
    exact h.pushGoals (List.forall_mem_map.2 hf.conj)
  | .disj fs =>
    obtain ⟨f, hmem, rfl⟩ := List.mem_map.1 hS'
    exact h.pushGoal (hf.disj f hmem)
  | .ex bs f =>
    cases List.mem_singleton.1 hS'
    have hle := Scope.below_mono (Nat.le_succ S.supply.next)
    refine ⟨Nat.succ_pos _, ((h.scope.mono hle).withSupply _).pushGoal (in_of_ex hf hle ?_ ?_)⟩
    · exact fun x _ => ⟨h.pos, Nat.lt_succ_self _⟩
    · exact fun i _ => ⟨h.pos, Nat.lt_succ_self _⟩
  | .guarded bs gs f =>
    cases List.mem_singleton.1 hS'
    exact ⟨h.pos, { h.scope with
      guarded := List.forall_mem_append.2 ⟨h.scope.guarded, List.forall_mem_singleton.2 hf⟩ }⟩
  | .neq t u =>
    cases List.mem_singleton.1 hS'
    exact ⟨h.pos, { h.scope with
      disequalities := h.scope.disequalities.append (.cons hf.neq.1 hf.neq.2 .nil) }⟩
  | .atom (.action f i) =>
    cases List.mem_singleton.1 hS'
    exact h.pushGoal ⟨hf.atom.1, hf.atom.2 i (by simp [Atom.times])⟩
  | .atom (.knows t i) =>
    cases List.mem_singleton.1 hS'
    exact h.pushGoal ⟨hf.atom.1, hf.atom.2 i (by simp [Atom.times])⟩
  | .atom (.less i j) =>
    cases List.mem_singleton.1 hS'
    exact h.addLess (hf.atom.2 i (by simp [Atom.times])) (hf.atom.2 j (by simp [Atom.times]))
  | .atom (.timeEq i j) =>
    cases List.mem_singleton.1 hS'
    exact h.union (hf.atom.2 i (by simp [Atom.times])) (hf.atom.2 j (by simp [Atom.times]))
  | .atom (.eq t u) =>
    exact h.unify (.cons (hf.atom.1 t (by simp [Atom.terms])) (hf.atom.1 u (by simp [Atom.terms]))
      .nil) S' hS'

theorem withSupply (h : S.WellFormed T) {supply : VarSupply} (hle : S.supply.next ≤ supply.next) :
    ({ S with supply } : System).WellFormed T :=
  ⟨h.pos.trans_le hle, (h.scope.mono (Scope.below_mono hle)).withSupply _⟩

theorem have_extraction (hT : T.Standard) (h : S.WellFormed T) {f : Symbol} {bs : List Term}
    (hs : (Term.app f bs).Has (T.constructors (Scope.below S.supply.next).var)) {r : Reduction}
    {j k : Nat} {g : Symbol} {as ps : List Term} (hopens : T.Opens r j g as f ps) {supply : VarSupply}
    (hk : S.supply.next ≤ k) (hlt : k < supply.next) :
    let e := Theory.extraction (.app f bs) r j as f ps k
    let P := T.constructors (Scope.below supply.next).var
    EquationsHave P e.eqs ∧ e.output.Has P ∧ ∀ u ∈ e.side, u.Has P := by
  obtain ⟨hargs, hrhs⟩ := plain_of_opens hT hopens
  have hreindex : ∀ t : Term, t.Has T.plainShape → (t.reindex k).Has
      (T.constructors (Scope.below supply.next).var) :=
    fun t ht => ht.reindex fun _ _ => ⟨h.pos.trans_le hk, hlt⟩
  refine ⟨.cons (Theory.constructors_mono hs (Scope.below_mono (hk.trans hlt.le)).var)
    (hreindex _ (hargs _ (List.mem_of_getElem? hopens.arg))) .nil, hreindex _ hrhs, ?_⟩
  exact List.forall_mem_map.2 fun t ht => hreindex t (hargs t (List.mem_of_mem_eraseIdx ht))

theorem extraction (hT : T.Standard) (h : S.WellFormed T) {f : Symbol} {bs : List Term}
    {target : Term} {i : TimeVar}
    (hs : (Term.app f bs).Has (T.constructors (Scope.below S.supply.next).var))
    (ht : target.Has (T.constructors (Scope.below S.supply.next).var))
    (hi : (Scope.below S.supply.next).time i) {r : Reduction} {j k : Nat} {g : Symbol}
    {as ps : List Term} (hopens : T.Opens r j g as f ps) {supply : VarSupply} (hk : S.supply.next ≤ k)
    (hlt : k < supply.next) :
    let e := Theory.extraction (.app f bs) r j as f ps k
    ((({ S with supply } : System).pushGoals (e.side.map fun t => .knows t i)).pushGoal
      (.chain e.output target i)).WellFormed T := by
  have hle := Scope.below_mono (hk.trans hlt.le)
  obtain ⟨-, houtput, hside⟩ := h.have_extraction hT hs hopens hk hlt
  refine ((h.withSupply (hk.trans hlt.le)).pushGoals (List.forall_mem_map.2 fun u hu => ?_)).pushGoal ?_
  · exact ⟨hside u hu, hle.time i hi⟩
  · rw [supply_pushGoals]
    exact ⟨houtput, Theory.constructors_mono ht hle.var, hle.time i hi⟩

end WellFormed

/-- A well-formed system is about what its supply has given out. -/
def formation (T : Theory) : Discipline Nat where
  term k := T.constructors (Scope.below k).var
  time k := (Scope.below k).time
  formula k f := f.In .indexed T (.below k)
  system k S := k = S.supply.next ∧ S.WellFormed T

theorem formation_le {k l : Nat} (h : k ≤ l) : (formation T).Le k l :=
  ⟨fun _ ht => Theory.constructors_mono ht (Scope.below_mono h).var, (Scope.below_mono h).time⟩

theorem grows_formation (hT : m.theory.Standard) (hfree : m.theory.Free) (hm : m.InScope) :
    (formation m.theory).Grows m where
  nodes := by
    rintro _ S id n ⟨rfl, h⟩ hn
    exact ⟨(h.scope.nodes id n hn).has, (h.scope.nodes id n hn).time⟩
  pushGoals := by
    rintro _ S gs ⟨rfl, h⟩ hgs
    refine ⟨by rw [supply_pushGoals], h.pushGoals fun g hg => ?_⟩
    have hg := hgs g hg
    cases g <;> exact hg
  addLess := by
    rintro _ S i j ⟨rfl, h⟩ hi hj
    exact ⟨rfl, h.addLess hi hj⟩
  union := by
    rintro _ S i j ⟨rfl, h⟩ hi hj
    exact ⟨rfl, h.union hi hj⟩
  addNode := by
    rintro _ S rule time ⟨rfl, h⟩ htime
    obtain ⟨hnew, hle⟩ := h.addNode hm rule time htime
    exact ⟨_, formation_le hle, rfl, hnew⟩
  unify := by
    rintro _ S eqs ⟨rfl, h⟩ heqs S' hS'
    exact ⟨_, rfl, h.unify heqs S' hS'⟩
  decompose := by
    rintro _ S t ⟨rfl, h⟩ ht parts hparts
    cases t with
    | var | name => cases hparts
    | app f as =>
      simp only [Theory.decompose, hfree f] at hparts
      split at hparts
      · cases List.mem_singleton.1 hparts
        exact ht.args
      · cases hparts
  extract := by
    rintro _ S t ⟨rfl, h⟩ ht
    cases t with
    | var | name => exact ⟨_, formation_le le_rfl, ⟨rfl, h⟩, List.forall_mem_nil _⟩
    | app f bs =>
      obtain ⟨hle, hmem, -⟩ := Theory.mem_extract (hfree f) bs S.supply
      refine ⟨_, formation_le hle, ⟨rfl, h.withSupply hle⟩, fun e he => ?_⟩
      obtain ⟨r, j, g, as, ps, k, hopens, hk, hlt, rfl⟩ := hmem e he
      exact h.have_extraction hT ht hopens hk hlt
  split := by
    rintro _ S f ⟨rfl, h⟩ hf S' hS'
    exact ⟨_, rfl, h.expandSplit hf S' hS'⟩

theorem stays_formation (hT : m.theory.Standard) (hfree : m.theory.Free) (hm : m.InScope) :
    (formation m.theory).Stays m where
  toGrows := grows_formation hT hfree hm
  goals := by
    rintro _ S ⟨rfl, h⟩ g hg
    have hg := h.scope.goals g hg
    cases hgoal : g.goal <;> exact hgoal ▸ hg
  eraseGoal := by
    rintro _ S k g ⟨rfl, h⟩ - -
    exact ⟨rfl, h.eraseGoal k⟩
  premise := by
    rintro _ S k g node idx ⟨rfl, h⟩ - -
    refine (grows_formation hT hfree hm).expandPremise ⟨rfl, h.eraseGoal k⟩ ?_ node idx
    rintro _ S s t ⟨rfl, h⟩
    have hsupply : (S.addEdge s t).supply = S.supply := by
      unfold System.addEdge
      split <;> rfl
    exact ⟨congrArg _ hsupply.symm, h.of_in (h.scope.addEdge s t) hsupply⟩
  merge := by
    rintro _ S a b h -
    refine (grows_formation hT hfree hm).merge h ?_ a b
    rintro _ S a b ⟨rfl, h⟩
    exact ⟨rfl, h.pos, h.scope.absorb a b⟩
  saturate := by
    rintro _ S ⟨rfl, h⟩
    obtain ⟨goals, next, applied, he, -⟩ := @saturate_eq S.dedupGoals
    have hsupply : S.dedupGoals.saturate.supply = S.supply := by rw [he]; rfl
    exact ⟨congrArg _ hsupply.symm, h.of_in h.scope.dedupGoals.saturate hsupply⟩

theorem WellFormed.expandGoal (hT : m.theory.Standard) (hfree : m.theory.Free) (hm : m.InScope)
    (h : S.WellFormed m.theory) {k : Nat} {g : OpenGoal} (hg : S.goals[k]? = some g) :
    ∀ S' ∈ ({ S with goals := S.goals.eraseIdx k }.expandGoal m g.goal).systems,
      S'.WellFormed m.theory := by
  intro S' hS'
  obtain ⟨_, -, hS'⟩ := (stays_formation hT hfree hm).expandGoal ⟨rfl, h⟩ hg S' hS'
  exact hS'

theorem wellFormed_initial (hm : m.InScope) {target : Nnf} (ht : target.In .indexed m.theory .closed) :
    (initial m target).WellFormed m.theory := by
  have hclosed : Scope.closed.Le (.below 1) := ⟨nofun, nofun⟩
  have hempty : ({} : System).WellFormed m.theory :=
    ⟨Nat.one_pos, fun id n h => by simp [node?] at h, nofun, nofun, nofun, nofun,
      fun _ => .inl rfl⟩
  refine (hempty.pushGoals fun g hg => ?_).pushGoal ?_
  · obtain ⟨r, hr, rfl⟩ := List.mem_map.1 hg
    exact (hm.restrictions r hr).mono hclosed
  · rw [supply_pushGoals]
    exact ht.mono hclosed

theorem Reachable.wellFormed (hT : m.theory.Standard) (hfree : m.theory.Free) (hm : m.InScope)
    {target : Nnf} (ht : target.In .indexed m.theory .closed) (h : Reachable m target S) :
    S.WellFormed m.theory := by
  obtain ⟨⟨_, -, hS⟩, -⟩ := (stays_formation hT hfree hm).reachable ⟨rfl, wellFormed_initial hm ht⟩ h
  exact hS

end System

end ProtocolProver
