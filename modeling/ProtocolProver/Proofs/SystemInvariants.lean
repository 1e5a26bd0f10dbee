import ProtocolProver.Proofs.FactFlow

/-!
# Invariants of systems

What solving a goal can do to a system is said once: it pushes goals, orders or identifies timepoints,
adds a node or an edge, unifies terms, and simplifies. A property of systems that each of these keeps
(`Discipline.Grows`, `Discipline.Stays`) holds of all systems that a search reaches, whatever goals it
takes (`Discipline.Stays.reachable`). After simplification no two nodes are on one timepoint, no fresh
value is drawn twice and no linear fact is used up twice (`System.Settled`).
-/

namespace ProtocolProver

namespace Branches

theorem mem_append {b c : Branches} {S : System} :
    S ∈ (b ++ c).systems ↔ S ∈ b.systems ∨ S ∈ c.systems := List.mem_append

theorem mem_concat {bs : List Branches} {S : System} :
    S ∈ (concat bs).systems ↔ ∃ b ∈ bs, S ∈ b.systems := by
  induction bs with
  | nil => simp [concat]
  | cons b bs ih => rw [List.exists_mem_cons_iff, ← ih]; exact mem_append

theorem mem_bind {b : Branches} {step : System → Branches} {S' : System} :
    S' ∈ (b.bind step).systems ↔ ∃ S ∈ b.systems, S' ∈ (step S).systems := by
  simp [bind, mem_append, mem_concat]

end Branches

namespace System

variable {m : Model} {S : System}

/-! ## Simplification -/

/-- A system is dropped, or its guarded formulas are instantiated after all checks. -/
theorem settle_cases (S : System) : S.settle = .split {} ∨
    S.settle = .stable S.dedupGoals.saturate ∧ S.drawsFreshTwice = false ∧
      S.disequalitiesHold = true ∧ S.consumesOnce = true ∧ S.isAcyclic = true := by
  unfold settle
  split
  · exact .inl rfl
  · rename_i hfresh
    simp only
    split
    · rename_i h
      simp only [Bool.and_eq_true] at h
      exact .inr ⟨rfl, by simpa using hfresh, h.1.1, h.1.2, h.2⟩
    · exact .inl rfl

/-- A step merges two nodes that coincide, now or after their fresh values have met, or settles. -/
theorem simplifyStep_cases :
    (∃ a b, S.coinciding? = some (a, b) ∧ S.simplifyStep m = .split (S.merge m a b)) ∨
      (∃ i j a b, S.freshClash? = some (i, j) ∧ (S.union i j).coinciding? = some (a, b) ∧
        S.simplifyStep m = .split ((S.union i j).merge m a b)) ∨
      S.coinciding? = none ∧ S.freshClash? = none ∧ S.simplifyStep m = S.settle := by
  unfold simplifyStep
  cases hc : S.coinciding? with
  | some p => exact .inl ⟨p.1, p.2, rfl, rfl⟩
  | none =>
    cases hf : S.freshClash? with
    | none => exact .inr (.inr ⟨rfl, rfl, rfl⟩)
    | some q =>
      cases hu : (S.union q.1 q.2).coinciding? with
      | some p => exact .inr (.inl ⟨q.1, q.2, p.1, p.2, rfl, hu, by simp only [hu]⟩)
      | none => exact absurd hu (coinciding?_union_of_freshClash? hf)

/-- Nodes are on classes of their own, which have no cycle, and what they draw and use up is so
once. -/
structure Settled (S : System) : Prop where
  separated : S.Separated
  distinct : ∀ a b n k t, S.node? a = some n → S.node? b = some k → t ∈ n.freshArgs →
    t ∈ k.freshArgs → a = b
  drawsOnce : ∀ id n, S.node? id = some n → n.freshArgs.Nodup
  consumesOnce : S.consumesOnce = true
  acyclic : S.isAcyclic = true

theorem settled_saturate (hc : S.coinciding? = none) (hf : S.freshClash? = none)
    (hd : S.drawsFreshTwice = false) (ho : S.consumesOnce = true) (ha : S.isAcyclic = true) :
    S.dedupGoals.saturate.Settled := by
  obtain ⟨goals, next, applied, he, -⟩ := @saturate_eq S.dedupGoals
  rw [he]
  refine ⟨fun a b n k => coinciding?_eq_none hc, fun a b n k t ha hb hn hk => ?_,
    fun id n hn => ?_, ho, ha⟩
  · exact coinciding?_eq_none hc ha hb (freshClash?_eq_none hf ha hb hn hk)
  · have := List.any_eq_false.1 hd (id, n) (mem_liveNodes.2 hn)
    simpa using this

/-- The systems that a search for a trace with the target can reach. -/
inductive Reachable (m : Model) (target : Nnf) : System → Prop
  | start {S : System} : S ∈ ((initial m target).simplify m).systems → Reachable m target S
  | expand {S S' : System} (k : Nat) :
    Reachable m target S → S' ∈ (S.expand m k).systems → Reachable m target S'

end System

theorem Node.Has.equations {P : Shape} {n k : Node} (hn : n.Has P) (hk : k.Has P) :
    EquationsHave P (n.subst.entries.filterMap fun e => (k.subst.get? e.1).map fun u => (e.2, u)) := by
  intro e he
  obtain ⟨⟨v, t⟩, ht, he⟩ := List.mem_filterMap.1 he
  obtain ⟨u, hu, rfl⟩ := Option.map_eq_some_iff.1 he
  exact ⟨(hn.subst v t (SortedMap.get?_eq_some_iff.2 ht)).1, (hk.subst v u hu).1⟩

/-! ## Disciplines -/

/-- What systems keep to: the terms, the timepoints and the formulas that a system may be about, and
the systems. What is in use when a system is looked at is an index. -/
structure Discipline (X : Type) where
  term : X → Shape
  time : X → TimeVar → Prop
  formula : X → Nnf → Prop
  system : X → System → Prop

namespace Discipline

variable {X : Type} (D : Discipline X) (m : Model) {x : X} {S : System}

structure Le (x y : X) : Prop where
  term : (D.term x).Le (D.term y)
  time : ∀ i, D.time x i → D.time y i

def Goal (x : X) : ProtocolProver.Goal → Prop
  | .action f i => f.Has (D.term x) ∧ D.time x i
  | .premise .. => True
  | .knows t i => t.Has (D.term x) ∧ D.time x i
  | .chain s t i => s.Has (D.term x) ∧ t.Has (D.term x) ∧ D.time x i
  | .split f => D.formula x f

/-- The steps that bring something new in a system keep to the discipline. -/
structure Grows : Prop where
  nodes : ∀ {x S id n}, D.system x S → S.node? id = some n → n.Has (D.term x) ∧ D.time x n.time
  pushGoals : ∀ {x S gs}, D.system x S → (∀ g ∈ gs, D.Goal x g) → D.system x (S.pushGoals gs)
  addLess : ∀ {x S i j}, D.system x S → D.time x i → D.time x j → D.system x (S.addLess i j)
  union : ∀ {x S i j}, D.system x S → D.time x i → D.time x j → D.system x (S.union i j)
  addNode : ∀ {x S} rule time, D.system x S → (∀ i, time = some i → D.time x i) →
    ∃ y, D.Le x y ∧ D.system y (S.addNode m rule time).2
  unify : ∀ {x S eqs}, D.system x S → EquationsHave (D.term x) eqs →
    ∀ S' ∈ (S.unify m.theory eqs).systems, ∃ y, D.system y S'
  decompose : ∀ {x S t}, D.system x S → t.Has (D.term x) →
    ∀ parts ∈ m.theory.decompose t, ∀ u ∈ parts, u.Has (D.term x)
  extract : ∀ {x S t}, D.system x S → t.Has (D.term x) → ∃ y, D.Le x y ∧
    D.system y (S.drawing (m.theory.extract t)).2 ∧ ∀ e ∈ (S.drawing (m.theory.extract t)).1,
      EquationsHave (D.term y) e.eqs ∧ e.output.Has (D.term y) ∧ ∀ u ∈ e.side, u.Has (D.term y)
  split : ∀ {x S f}, D.system x S → D.formula x f →
    ∀ S' ∈ (S.expandSplit m f).systems, ∃ y, D.system y S'

/-- So do the steps that take something away. -/
structure Stays : Prop extends D.Grows m where
  goals : ∀ {x S}, D.system x S → ∀ g ∈ S.goals, D.Goal x g.goal
  eraseGoal : ∀ {x S k g}, D.system x S → S.goals[k]? = some g →
    (∀ node idx, g.goal ≠ .premise node idx) → D.system x { S with goals := S.goals.eraseIdx k }
  premise : ∀ {x S k g node idx}, D.system x S → S.goals[k]? = some g → g.goal = .premise node idx →
    ∀ S' ∈ ({ S with goals := S.goals.eraseIdx k }.expandPremise m node idx).systems,
      ∃ y, D.system y S'
  merge : ∀ {x S a b}, D.system x S → S.coinciding? = some (a, b) →
    ∀ S' ∈ (S.merge m a b).systems, ∃ y, D.system y S'
  saturate : ∀ {x S}, D.system x S → D.system x S.dedupGoals.saturate

variable {D m}

namespace Grows

variable (h : D.Grows m) (hS : D.system x S) {i : TimeVar}
include h hS

theorem pushGoal {g : ProtocolProver.Goal} (hg : D.Goal x g) : D.system x (S.pushGoal g) :=
  h.pushGoals hS (List.forall_mem_singleton.2 hg)

theorem expandAction {f : Fact} (hf : f.Has (D.term x)) (hi : D.time x i) :
    ∀ S' ∈ (S.expandAction m f i).systems, ∃ y, D.system y S' := by
  intro S' hS'
  -- The action is one of a node that is there.
  have emitted : ∀ {S : System} {n : Node}, D.system x S → n.Has (D.term x) →
      S' ∈ (Branches.concat ((n.actions.filter (·.sameShape f)).map fun a =>
        S.unify m.theory (f.equations a))).systems → ∃ y, D.system y S' := by
    intro S n hS hn hS'
    obtain ⟨b, hb, hS'⟩ := Branches.mem_concat.1 hS'
    obtain ⟨a, ha, rfl⟩ := List.mem_map.1 hb
    exact h.unify hS (hf.equations (hn.actions a (List.mem_filter.1 ha).1)) S' hS'
  unfold System.expandAction at hS'
  extract_lets emittedBy at hS'
  split at hS'
  · rename_i id _
    cases hn : S.node? id with
    | none => rw [hn] at hS'; cases hS'
    | some n =>
      rw [hn] at hS'
      exact emitted hS (h.nodes hS hn).1 hS'
  · obtain ⟨b, hb, hS'⟩ := Branches.mem_concat.1 hS'
    rcases List.mem_append.1 hb with hb | hb
    · obtain ⟨⟨id, n⟩, hn, rfl⟩ := List.mem_map.1 hb
      obtain ⟨hn, htime⟩ := h.nodes hS (System.mem_liveNodes.1 hn)
      exact emitted (h.union hS hi htime) hn hS'
    · obtain ⟨⟨rule, a⟩, -, rfl⟩ := List.mem_map.1 hb
      obtain ⟨y, hle, hnew⟩ := h.addNode rule (some i) hS fun j hj => by cases hj; exact hi
      simp only at hS'
      split at hS'
      · rename_i emitted he
        obtain ⟨n, hn, ha⟩ := Option.bind_eq_some_iff.1 he
        split at hS'
        · exact h.unify hnew (Fact.Has.equations (fun t ht => hle.term t (hf t ht))
            ((h.nodes hnew hn).1.actions emitted (List.mem_of_getElem? ha))) S' hS'
        · cases hS'
      · cases hS'

theorem expandPremise (hedge : ∀ {x S} s t, D.system x S → D.system x (S.addEdge s t))
    (node idx : Nat) : ∀ S' ∈ (S.expandPremise m node idx).systems, ∃ y, D.system y S' := by
  intro S' hS'
  unfold System.expandPremise at hS'
  split at hS'
  · exact ⟨x, List.mem_singleton.1 hS' ▸ hS⟩
  · rename_i wanted hwanted
    obtain ⟨k, hk, hf⟩ := Option.bind_eq_some_iff.1 hwanted
    have hwanted := (h.nodes hS hk).1.premises wanted (List.mem_of_getElem? hf)
    have provided : ∀ {y : X} {S : System} {s : Endpoint} {c : Fact}, (D.term x).Le (D.term y) →
        D.system y S → c.Has (D.term y) → S' ∈ (if c.sameKind wanted then
          (S.addEdge s ⟨node, idx⟩).unify m.theory (wanted.equations c) else {}).systems →
        ∃ y, D.system y S' := by
      intro y S s c hle hS hc hS'
      split at hS'
      · exact h.unify (hedge s _ hS) (Fact.Has.equations (fun t ht => hle t (hwanted t ht)) hc) S' hS'
      · cases hS'
    extract_lets provide at hS'
    obtain ⟨b, hb, hS'⟩ := Branches.mem_concat.1 hS'
    rcases List.mem_append.1 hb with hb | hb
    · obtain ⟨⟨a, n⟩, hn, hb⟩ := List.mem_flatMap.1 hb
      obtain ⟨⟨c, j⟩, hc, rfl⟩ := List.mem_map.1 hb
      have hn := (h.nodes hS (System.mem_liveNodes.1 (List.mem_filter.1 hn).1)).1
      exact provided (fun _ => id) hS (hn.conclusions c (List.fst_mem_of_mem_zipIdx hc)) hS'
    · obtain ⟨⟨rule, j⟩, -, rfl⟩ := List.mem_map.1 hb
      obtain ⟨y, hle, hnew⟩ := h.addNode rule none hS (by rintro _ ⟨⟩)
      simp only at hS'
      split at hS'
      · rename_i c he
        obtain ⟨n, hn, hc⟩ := Option.bind_eq_some_iff.1 he
        exact provided hle.term hnew ((h.nodes hnew hn).1.conclusions c (List.mem_of_getElem? hc)) hS'
      · cases hS'

theorem expandKnows {t : Term} (ht : t.Has (D.term x)) (hi : D.time x i) :
    ∀ S' ∈ (S.expandKnows m t i).systems, ∃ y, D.system y S' := by
  intro S' hS'
  have taken : ∀ {y : X} {S : System} {id : Nat} {n : Node} {c : Fact} {u : Term}, D.Le x y →
      D.system y S → S.node? id = some n → c ∈ n.conclusions → u ∈ c.args →
      ∃ y, D.system y (S.chainFrom n.time u t i) := by
    intro y S id n c u hle hS hn hc hu
    obtain ⟨hn, htime⟩ := h.nodes hS hn
    exact ⟨y, h.pushGoal (h.addLess hS htime (hle.time i hi))
      ⟨hn.conclusions c hc u hu, hle.term t ht, hle.time i hi⟩⟩
  unfold System.expandKnows at hS'
  split at hS'
  · exact ⟨x, List.mem_singleton.1 hS' ▸ hS⟩
  · exact ⟨x, List.mem_singleton.1 hS' ▸ hS⟩
  · exact ⟨x, List.mem_singleton.1 hS' ▸ h.pushGoal hS ⟨ht, hi⟩⟩
  · rcases List.mem_append.1 hS' with hS' | hS'
    · rcases List.mem_append.1 hS' with hS' | hS'
      · unfold System.built at hS'
        split at hS'
        · obtain ⟨parts, hparts, rfl⟩ := List.mem_map.1 hS'
          exact ⟨x, h.pushGoals hS (List.forall_mem_map.2 fun u hu =>
            ⟨h.decompose hS ht parts hparts u hu, hi⟩)⟩
        · cases hS'
      · obtain ⟨⟨a, n⟩, hn, hS'⟩ := List.mem_flatMap.1 hS'
        obtain ⟨c, hc, hS'⟩ := List.mem_flatMap.1 hS'
        obtain ⟨u, hu, rfl⟩ := List.mem_map.1 hS'
        exact taken ⟨fun _ => id, fun _ => id⟩ hS (System.mem_liveNodes.1 hn) (List.mem_filter.1 hc).1 hu
    · obtain ⟨⟨rule, k⟩, -, hS'⟩ := List.mem_flatMap.1 hS'
      obtain ⟨y, hle, hnew⟩ := h.addNode rule none hS (by rintro _ ⟨⟩)
      simp only at hS'
      split at hS'
      · rename_i n hn
        obtain ⟨u, hu, rfl⟩ := List.mem_map.1 hS'
        cases hc : n.conclusions[k]? with
        | none => rw [hc] at hu; cases hu
        | some c =>
          rw [hc] at hu
          exact taken hle hnew hn (List.mem_of_getElem? hc) hu
      · cases hS'

theorem expandChain {source target : Term} (hs : source.Has (D.term x))
    (ht : target.Has (D.term x)) (hi : D.time x i) :
    ∀ S' ∈ (S.expandChain m source target i).systems, ∃ y, D.system y S' := by
  intro S' hS'
  have reached : S' ∈ (S.unify m.theory [(source, target)]).systems → ∃ y, D.system y S' :=
    h.unify hS (.cons hs ht .nil) S'
  unfold System.expandChain at hS'
  simp only at hS'
  split at hS'
  · refine (Branches.mem_append.1 hS').elim reached fun hS' => ?_
    cases hS'
  · refine (Branches.mem_append.1 hS').elim reached fun hS' => ?_
    obtain ⟨b, hb, hS'⟩ := Branches.mem_concat.1 hS'
    obtain ⟨e, he, rfl⟩ := List.mem_map.1 hb
    obtain ⟨y, hle, hnew, hextract⟩ := h.extract hS hs
    obtain ⟨heqs, houtput, hside⟩ := hextract e he
    have hsides : ∀ g ∈ e.side.map fun t => ProtocolProver.Goal.knows t i, D.Goal y g :=
      List.forall_mem_map.2 fun u hu => ⟨hside u hu, hle.time i hi⟩
    have hchain : D.Goal y (.chain e.output target i) := ⟨houtput, hle.term _ ht, hle.time i hi⟩
    exact h.unify (h.pushGoal (h.pushGoals hnew hsides) hchain) heqs S' hS'

theorem merge (habsorb : ∀ {x S} a b, D.system x S → D.system x (S.absorb a b)) (a b : Nat) :
    ∀ S' ∈ (S.merge m a b).systems, ∃ y, D.system y S' := by
  intro S' hS'
  unfold System.merge at hS'
  split at hS'
  · rename_i n k hn hk
    split at hS'
    · exact h.unify (habsorb a b hS) ((h.nodes hS hn).1.equations (h.nodes hS hk).1) S' hS'
    · cases hS'
  · cases hS'

end Grows

namespace Stays

variable (h : D.Stays m)
include h

theorem expandGoal (hS : D.system x S) {k : Nat} {g : OpenGoal} (hg : S.goals[k]? = some g) :
    ∀ S' ∈ ({ S with goals := S.goals.eraseIdx k }.expandGoal m g.goal).systems,
      ∃ y, D.system y S' := by
  have hgoal := h.goals hS g (List.mem_of_getElem? hg)
  have herase := h.eraseGoal hS hg
  have hpremise := fun node idx => @h.premise _ _ _ _ node idx hS hg
  revert hgoal herase hpremise
  cases g.goal with
  | split f => exact fun hf herase _ => h.split (herase nofun) hf
  | action f i => exact fun hf herase _ => h.expandAction (herase nofun) hf.1 hf.2
  | premise node idx => exact fun _ _ hpremise => hpremise node idx rfl
  | knows t i => exact fun ht herase _ => h.expandKnows (herase nofun) ht.1 ht.2
  | chain s t i => exact fun hs herase _ => h.expandChain (herase nofun) hs.1 hs.2.1 hs.2.2

theorem simplifyStep (hS : D.system x S) :
    (∃ b, S.simplifyStep m = .split b ∧ ∀ S' ∈ b.systems, ∃ y, D.system y S') ∨
      ∃ S', S.simplifyStep m = .stable S' ∧ D.system x S' ∧ S'.Settled := by
  rcases System.simplifyStep_cases (S := S) (m := m) with
    ⟨a, b, hab, he⟩ | ⟨i, j, a, b, hij, hab, he⟩ | ⟨hc, hf, he⟩
  · exact .inl ⟨_, he, h.merge hS hab⟩
  · obtain ⟨-, t, ⟨c, n, hn, rfl, -⟩, d, k, hk, rfl, -⟩ := System.freshClash?_eq_some hij
    exact .inl ⟨_, he, h.merge (h.union hS (h.nodes hS hn).2 (h.nodes hS hk).2) hab⟩
  · rcases S.settle_cases with hs | ⟨hs, hd, -, ho, ha⟩
    · exact .inl ⟨_, he.trans hs, nofun⟩
    · exact .inr ⟨_, he.trans hs, h.saturate hS, System.settled_saturate hc hf hd ho ha⟩

theorem simplifyWithin : ∀ (n : Nat) {x : X} {S : System}, D.system x S →
    ∀ S' ∈ (System.simplifyWithin m n S).systems, (∃ y, D.system y S') ∧ S'.Settled
  | 0, x, S, hS, S', hS' => by
    rcases h.simplifyStep hS with ⟨b, he, -⟩ | ⟨S₁, he, h₁, hsettled⟩ <;>
      simp only [System.simplifyWithin, he] at hS'
    · cases hS'
    · exact List.mem_singleton.1 hS' ▸ ⟨⟨x, h₁⟩, hsettled⟩
  | n + 1, x, S, hS, S', hS' => by
    rcases h.simplifyStep hS with ⟨b, he, hb⟩ | ⟨S₁, he, h₁, hsettled⟩ <;>
      simp only [System.simplifyWithin, he] at hS'
    · obtain ⟨S₁, hS₁, hS'⟩ := Branches.mem_bind.1 hS'
      exact simplifyWithin n (hb S₁ hS₁).choose_spec S' hS'
    · exact List.mem_singleton.1 hS' ▸ ⟨⟨x, h₁⟩, hsettled⟩

/-- Solving any goal gives systems that keep to the discipline and are settled. -/
theorem expand (hS : D.system x S) (k : Nat) :
    ∀ S' ∈ (S.expand m k).systems, (∃ y, D.system y S') ∧ S'.Settled := by
  intro S' hS'
  unfold System.expand at hS'
  split at hS'
  · cases hS'
  · rename_i g hg
    obtain ⟨S₁, hS₁, hS'⟩ := Branches.mem_bind.1 hS'
    obtain ⟨y, h₁⟩ := h.expandGoal hS hg S₁ hS₁
    exact h.simplifyWithin _ h₁ S' hS'

theorem reachable {target : Nnf} (h₀ : D.system x (.initial m target))
    (hS : S.Reachable m target) : (∃ y, D.system y S) ∧ S.Settled := by
  induction hS with
  | start hS => exact h.simplifyWithin _ h₀ _ hS
  | expand k _ hS ih =>
    obtain ⟨⟨y, hy⟩, -⟩ := ih
    exact h.expand hy k _ hS

end Stays

end Discipline

end ProtocolProver
