import ProtocolProver.Proofs.Origins
import ProtocolProver.Proofs.Providers
import ProtocolProver.Proofs.SolvedSystems

/-!
# Case splits

Solving a goal gives one system for each way to meet it. If an execution solves the system that is
split, then it also solves one of these, with values for the variables that are new.
-/

namespace ProtocolProver

namespace Branches

theorem lossy_append {b c : Branches} :
    (b ++ c).lossy = false ↔ b.lossy = false ∧ c.lossy = false := Bool.or_eq_false_iff

theorem lossy_concat {bs : List Branches} :
    (concat bs).lossy = false ↔ ∀ b ∈ bs, b.lossy = false := by
  induction bs with
  | nil => simp [concat]
  | cons b bs ih => rw [List.forall_mem_cons, ← ih]; exact lossy_append

theorem lossy_of_bind {b : Branches} {step : System → Branches} (h : (b.bind step).lossy = false) :
    b.lossy = false := (lossy_append.1 h).1

end Branches

theorem Model.mem_places {m : Model} {facts : Rule → List Fact} {i j : Nat} {r : Rule} {f : Fact}
    (hr : m.rules[i]? = some r) (hf : (facts r)[j]? = some f) : (i, j) ∈ m.places facts f.pred := by
  refine List.mem_flatMap.2 ⟨(r, i), List.mk_mem_zipIdx_iff_getElem?.2 hr, ?_⟩
  exact List.mem_filterMap.2 ⟨(f, j), List.mk_mem_zipIdx_iff_getElem?.2 hf, by simp⟩

theorem Execution.exists_places {m : Model} {R : Execution m} (hm : m.Plain)
    (hR : R.trace.RespectsSorts m) {n : Nat} {step : Step} (hn : R.trace[n]? = some step) :
    ∃ rule r, m.rules[rule]? = some r ∧ m.rule? step.rule = some r ∧
      (∀ a f, step.actions[a]? = some f → (rule, a) ∈ m.emitters f.pred) ∧
      ∀ c f, step.conclusions[c]? = some f → (rule, c) ∈ m.producers f.pred := by
  obtain ⟨r, w, hr, hinstance, -⟩ := R.exists_stepValues hm hR hn
  obtain ⟨rule, hrule⟩ := List.mem_iff_getElem?.1 (List.mem_of_find?_eq_some hr)
  refine ⟨rule, r, hrule, hr, fun a f ha => ?_, fun c f hc => ?_⟩
  · rw [hinstance.actions, List.getElem?_map] at ha
    obtain ⟨b, hb, rfl⟩ := Option.map_eq_some_iff.1 ha
    exact Model.mem_places (f := b) hrule hb
  · rw [hinstance.conclusions, List.getElem?_map] at hc
    obtain ⟨b, hb, rfl⟩ := Option.map_eq_some_iff.1 hc
    exact Model.mem_places (f := b) hrule hb

namespace Execution.Fulfils

variable {m : Model} {R : Execution m} {len : Nat} {S : System} {v : Valuation}

/-- A solution of one of the branches for the goal `g`, which was set aside. It keeps the values of
the system that is split, and it tracks where messages come from if these did. -/
def Extends (R : Execution m) (len : Nat) (S : System) (v : Valuation) (g : Goal) (b : Branches) :
    Prop :=
  ∃ S' ∈ b.systems, ∃ u : Valuation, u.Agrees (.below S.supply.next) v ∧ R.Fulfils len S' u ∧
    (R.Tracks S (g :: S.pending) v → R.Tracks S' S'.pending u)

theorem Extends.of_mem {g : Goal} {bs : List Branches} {b : Branches} (hb : b ∈ bs)
    (hl : (Branches.concat bs).lossy = false) (h : b.lossy = false → Extends R len S v g b) :
    Extends R len S v g (.concat bs) := by
  obtain ⟨S', hS', hu⟩ := h (Branches.lossy_concat.1 hl b hb)
  exact ⟨S', Branches.mem_concat.2 ⟨b, hb, hS'⟩, hu⟩

theorem extends_unify {s : Scope} {g : Goal} {k : Nat} {eqs : List Equation} (h : R.Fulfils len S v)
    (hS : S.In .indexed m.theory s) (hg : g.kind = .split ∨ g.kind = .action)
    (heqs : EquationsHave (m.theory.constructors (Scope.below k).var) eqs)
    (hsolves : Solves v.term eqs) (hl : (S.unify m.theory eqs).lossy = false) :
    Extends R len S v g (S.unify m.theory eqs) := by
  obtain ⟨σ, hσ, -, ha, hmem, h'⟩ := h.unify hS heqs hsolves hl
  exact ⟨_, hmem, v, .refl v, h', fun ht => Tracks.apply (l := []) hσ (fun _ hx => hx.1.ne') ha hS.has
    (List.forall_mem_nil _) (ht.tail hg)⟩

/-! ## Formulas -/

theorem pushed {g : Goal} (h : R.Tracks S S.pending v) (hg : g.kind = .split ∨ g.kind = .action) :
    R.Tracks (S.pushGoal g) (S.pushGoal g).pending v :=
  Tracks.pushGoals (l := []) h [g] (List.forall_mem_singleton.2 fun he => by
    rw [he] at hg
    rcases hg with hg | hg <;> cases hg)

section Formulas

variable (hm : m.Plain) (h : R.Fulfils len S v) (hS : S.WellFormed m.theory)
include hm h hS

omit hm h hS in
theorem agrees_after_reindex {bs : List Binder} (hbs : ∀ b ∈ bs, b.idx = 0) (v w : Valuation)
    (k : Nat) : ((v.extend k (v.rebind bs w)).after (.reindex bs k)).Agrees
      ((Scope.below k).bind bs) (v.rebind bs w) where
  term x hx := by
    change (if _ then _ else _ : Term).mapVars _ = _
    split
    · exact Valuation.term_extend v _ (hbs (.msg x) ‹_›)
    · exact ((v.agrees_extend k _).term x (hx.resolve_right ‹_›)).trans (if_neg ‹_›).symm
  time i hi := by
    change (v.extend _ _).time (if _ then _ else _) = _
    split
    · exact Valuation.time_extend v _ (hbs (.time i) ‹_›)
    · exact ((v.agrees_extend k _).time i (hi.resolve_right ‹_›)).trans (if_neg ‹_›).symm

/-- The new variables of an existential formula get its witnesses. -/
theorem expandEx {bs : List Binder} {f : Nnf}
    (hf : (Nnf.ex bs f).In .indexed m.theory (.below S.supply.next))
    (hsteps : (Nnf.ex bs f).In .any m.theory (v.within len))
    (hlen : R.trace.length ≤ len) (hsat : (Nnf.ex bs f).Sat R.interpretation v) :
    Extends R len S v (.split (.ex bs f)) (S.expandSplit m (.ex bs f)) := by
  obtain ⟨w, hw, hsat⟩ := hsat
  have hagrees := v.agrees_extend S.supply.next (v.rebind bs w)
  have hvalue : ∀ x, m.theory.Value ((v.rebind bs w).term x) ∧
      x.sort.admits ((v.rebind bs w).term x).sort = true := by
    intro x
    unfold Valuation.rebind
    simp only
    split
    · exact ⟨(R.grounded hm).values _ (hw.term x ‹_›).1, (hw.term x ‹_›).2⟩
    · exact ⟨h.values x, h.sorts x⟩
  have h' := h.congr hS.scope hagrees.symm (Valuation.extend_values h.values fun x => (hvalue x).1)
    (Valuation.extend_sorts h.sorts fun x => (hvalue x).2)
  have hidx : ∀ b ∈ bs, b.idx = 0 := by
    obtain ⟨hscope, -⟩ := hf
    cases hscope with
    | ex hbs => exact hbs
  have hin : (f.instantiate ((renameBinders bs).run S.supply).1.2).In .indexed m.theory
      ((v.extend S.supply.next (v.rebind bs w)).within len) := by
    refine System.in_of_ex (s := (Scope.below S.supply.next).inf (v.within len))
      ⟨hf.scope.inf hsteps.scope, hf.plain⟩ ⟨fun _ _ => trivial, fun i hi => ?_⟩
      (fun _ _ => trivial) fun i hi => ?_
    · exact (hagrees.time i hi.1).trans_lt hi.2
    · exact ((Valuation.time_extend v _ (hidx _ hi)).trans (if_pos hi)).trans_lt
        ((hw.time i hi).trans_le hlen)
  refine ⟨_, List.mem_singleton_self _, _, hagrees, (h'.withSupply _).pushGoal hin.any ?_, fun ht =>
    pushed (((ht.tail (.inl rfl)).congr (fun id n hn => (hS.scope.nodes id n hn).time)
      (List.forall_mem_map.2 hS.scope.goals) hagrees).frame rfl) (.inl rfl)⟩
  obtain ⟨hscope, -⟩ := hf
  cases hscope with
  | ex _ hscope =>
    have hafter := agrees_after_reindex hidx v w S.supply.next
    have hapart := Replacement.apart_reindex bs hS.pos
    rw [← replacement_renameBinders bs S.supply] at hapart hafter
    exact (hscope.sat_instantiate hapart).2 ((hscope.sat_congr hafter.term hafter.time).2 hsat)

theorem expandSplit {f : Nnf} (hf : f.In .indexed m.theory (.below S.supply.next))
    (hsteps : f.In .any m.theory (v.within len)) (hlen : R.trace.length ≤ len)
    (hsat : f.Sat R.interpretation v) (hl : (S.expandSplit m f).lossy = false) :
    Extends R len S v (.split f) (S.expandSplit m f) := by
  have stays : ∀ {S' : System}, R.Fulfils len S' v → (R.Tracks S S.pending v →
      R.Tracks S' S'.pending v) → Extends R len S v (.split f) (.one S') := fun hS' htracks =>
    ⟨_, List.mem_singleton_self _, v, .refl v, hS', fun ht => htracks (ht.tail (.inl rfl))⟩
  have hvalue : ∀ {t : Term}, t.Has m.theory.plainShape →
      v.value R.interpretation.theory t = t.mapVars v.term := Valuation.value_eq hm h.values
  match f with
  | .top => exact stays h id
  | .bot => exact hsat.elim
  | .conj fs =>
    exact stays (h.pushGoals (List.forall_mem_map.2 hsteps.conj)
      (List.forall_mem_map.2 (Nnf.sat_conj.1 hsat)))
      (Tracks.pushGoals (l := []) · _ (List.forall_mem_map.2 fun _ _ => by simp [Goal.kind]))
  | .disj fs =>
    obtain ⟨f, hmem, hsat⟩ := Nnf.sat_disj.1 hsat
    exact ⟨_, List.mem_map_of_mem hmem, v, .refl v, h.pushGoal (hsteps.disj f hmem) hsat, fun ht =>
      pushed (ht.tail (.inl rfl)) (.inl rfl)⟩
  | .ex bs f => exact h.expandEx hm hS hf hsteps hlen hsat
  | .guarded bs gs f => exact stays (h.addGuarded (g := ⟨bs, gs, f⟩) hsteps hsat) (·.frame rfl)
  | .neq t u =>
    obtain ⟨ht, hu⟩ := hsteps.neq
    refine stays (h.addDisequality ⟨ht, hu⟩ ?_) (·.frame rfl)
    rw [← hvalue ht, ← hvalue hu]
    exact hsat
  | .atom (.action f i) =>
    obtain ⟨hterms, htimes⟩ := hsteps.atom
    have hsat : R.trace.Emits (v.time i) f.pred (f.args.map (v.value R.interpretation.theory)) := hsat
    refine stays (h.pushGoal ⟨hterms, htimes i (by simp [Atom.times])⟩ ?_) (pushed · (.inr rfl))
    have hargs : f.args.map (v.value R.interpretation.theory) = f.args.map (Term.mapVars v.term) :=
      List.map_congr_left fun t ht => hvalue (hterms t ht)
    rwa [hargs] at hsat
  | .atom (.knows t i) =>
    obtain ⟨hterms, htimes⟩ := hsteps.atom
    have hsat : R.trace.Emits (v.time i) Pred.knows [v.value R.interpretation.theory t] := hsat
    refine stays (h.pushGoal ⟨hterms, htimes i (by simp [Atom.times])⟩ ?_) (pushed · (.inr rfl))
    rwa [hvalue (hterms t (by simp [Atom.terms]))] at hsat
  | .atom (.less i j) =>
    obtain ⟨-, htimes⟩ := hsteps.atom
    exact stays (h.addLess (htimes i (by simp [Atom.times])) (htimes j (by simp [Atom.times])) hsat)
      (·.frame rfl)
  | .atom (.timeEq i j) =>
    obtain ⟨-, htimes⟩ := hsteps.atom
    exact stays (h.union (htimes i (by simp [Atom.times])) hsat) (·.frame rfl)
  | .atom (.eq t u) =>
    have ht := hf.atom.1 t (by simp [Atom.terms])
    have hu := hf.atom.1 u (by simp [Atom.terms])
    have hsat : v.value R.interpretation.theory t = v.value R.interpretation.theory u := hsat
    rw [hvalue (Theory.constructors_mono ht fun _ _ => trivial),
      hvalue (Theory.constructors_mono hu fun _ _ => trivial)] at hsat
    exact extends_unify h hS.scope (.inl rfl) (.cons ht hu .nil) (List.forall_mem_singleton.2 hsat) hl

end Formulas

/-! ## Actions -/

omit R in
theorem sameShape_of_fact {u : Valuation} {a f : Fact} (hpred : a.pred = f.pred)
    (hargs : a.args.map (Term.mapVars u.term) = f.args.map (Term.mapVars u.term)) :
    a.sameShape f = true := by
  have hlen := congrArg List.length hargs
  rw [List.length_map, List.length_map] at hlen
  simp [Fact.sameShape, hpred, hlen]

section Actions

variable (hm : m.Plain) (hR : R.trace.RespectsSorts m) (h : R.Fulfils len S v)
  (hS : S.WellFormed m.theory) {f : Fact} {i : TimeVar}
  (hf : f.Has (m.theory.constructors (Scope.below S.supply.next).var))

include h hS hf in
theorem emittedBy {id : Nat} {n : Node} (hn : S.node? id = some n)
    (hemits : R.trace.Emits (v.time n.time) f.pred (f.args.map (Term.mapVars v.term)))
    (hl : (Branches.concat ((n.actions.filter (·.sameShape f)).map fun a =>
      S.unify m.theory (f.equations a))).lossy = false) :
    Extends R len S v (.action f i) (.concat ((n.actions.filter (·.sameShape f)).map fun a =>
      S.unify m.theory (f.equations a))) := by
  obtain ⟨step, hstep, action, haction, hpred, hargs⟩ := hemits
  obtain ⟨step', hstep', -, -, hactions, -⟩ := h.nodes id n hn
  cases hstep.symm.trans hstep'
  rw [hactions] at haction
  obtain ⟨a, ha, rfl⟩ := List.mem_map.1 haction
  have hshape : a.sameShape f = true := sameShape_of_fact (u := v) hpred hargs
  refine .of_mem (List.mem_map_of_mem (List.mem_filter.2 ⟨ha, hshape⟩)) hl fun hl => ?_
  have ha' := (hS.scope.nodes id n hn).has.actions a ha
  exact extends_unify h hS.scope (.inr rfl) (hf.equations ha') (.zip hargs.symm) hl

include hm hR h hS hf in
theorem expandAction (hlen : R.trace.length ≤ len) (hi : (Scope.below S.supply.next).time i)
    (hi' : v.time i < len)
    (hemits : R.trace.Emits (v.time i) f.pred (f.args.map (Term.mapVars v.term)))
    (hl : (S.expandAction m f i).lossy = false) :
    Extends R len S v (.action f i) (S.expandAction m f i) := by
  unfold System.expandAction at hl ⊢
  extract_lets at hl ⊢
  cases hid : S.nodeAt? i with
  | some id =>
    simp only [hid] at hl ⊢
    obtain ⟨⟨id, n⟩, hfind, rfl⟩ := Option.map_eq_some_iff.1 hid
    have hn := System.mem_liveNodes.1 (List.mem_of_find?_eq_some hfind)
    have hfind := List.find?_some hfind
    simp only [hn] at hl ⊢
    exact h.emittedBy hS hf hn (h.time_eq (of_decide_eq_true hfind) ▸ hemits) hl
  | none =>
    simp only [hid] at hl ⊢
    by_cases hnode : ∃ id n, S.node? id = some n ∧ v.time n.time = v.time i
    · -- The step of the action is that of a node, which is moved to the timepoint.
      obtain ⟨id, n, hn, htime⟩ := hnode
      refine .of_mem (List.mem_append_left _ (List.mem_map_of_mem (System.mem_liveNodes.2 hn))) hl
        fun hl => ?_
      obtain ⟨S', hS', u, hu, h', htracks⟩ := (h.union hi' htime.symm).emittedBy
        (hS.union hi (hS.scope.nodes id n hn).time) (i := i) hf hn (htime ▸ hemits) hl
      exact ⟨S', hS', u, hu, h', fun ht => htracks (ht.frame rfl)⟩
    · obtain ⟨step, hstep, action, haction, hpred, hargs⟩ := hemits
      obtain ⟨a, ha⟩ := List.mem_iff_getElem?.1 haction
      obtain ⟨rule, r, hrule, hr, hplaces, -⟩ := R.exists_places hm hR hstep
      have hplace := hpred ▸ hplaces a action ha
      refine .of_mem (List.mem_append_right _ (List.mem_map_of_mem hplace)) hl fun hl => ?_
      obtain ⟨u, hu, h', n, hn, -, hsits⟩ := h.addNode hm hR hlen hS hstep hrule hr
        (fun id k hk he => hnode ⟨id, k, hk, he⟩) (some i) fun j hj => by
          cases hj
          exact ⟨hi, rfl⟩
      obtain ⟨hnew, hle⟩ := hS.addNode hm.scope rule (some i) fun j hj => by cases hj; exact hi
      obtain ⟨-, -, -, hactions, -⟩ := hsits
      rw [hactions, List.getElem?_map] at ha
      obtain ⟨b, hb, rfl⟩ := Option.map_eq_some_iff.1 ha
      have hargs : b.args.map (Term.mapVars u.term) = f.args.map (Term.mapVars u.term) :=
        hargs.trans (List.map_congr_left fun t ht => hu.symm.mapVars (hf t ht))
      have hshape : b.sameShape f = true := sameShape_of_fact hpred hargs
      simp only [hn, Option.bind_some, hb, hshape, if_true] at hl ⊢
      have hf' := hf.mono fun t ht => Theory.constructors_mono ht (Scope.below_mono hle).var
      have hb' := (hnew.scope.nodes _ n hn).has.actions b (List.mem_of_getElem? hb)
      obtain ⟨S', hS', w, hw, h', htracks⟩ := extends_unify (g := .action f i) h' hnew.scope (.inr rfl)
        (hf'.equations hb') (.zip hargs.symm) hl
      exact ⟨S', hS', w, (hw.mono (Scope.below_mono hle)).trans hu, h', fun ht =>
        htracks (ht.addNode hm hS ⟨hf, hi⟩ hu hrule _)⟩

end Actions

/-! ## Premises -/

section Premises

variable {node idx : Nat} {k : Node} {f : Fact} (hk : S.node? node = some k)
  (hf : k.premises[idx]? = some f) (hstored : f.Stored)

include hk hf hstored in
/-- The conclusion that provides the premise in the execution, in a node of the system. -/
theorem provide (h : R.Fulfils len S v) (hS : S.WellFormed m.theory) {id c : Nat} {n : Node}
    (hn : S.node? id = some n)
    (hp : R.provider ⟨v.time k.time, idx⟩ = ⟨v.time n.time, c⟩) : ∃ g, n.conclusions[c]? = some g ∧
      g.sameKind f = true ∧
      (((S.addEdge ⟨id, c⟩ ⟨node, idx⟩).unify m.theory (f.equations g)).lossy = false →
        Extends R len S v (.premise node idx)
          ((S.addEdge ⟨id, c⟩ ⟨node, idx⟩).unify m.theory (f.equations g))) := by
  obtain ⟨step, hsits⟩ := h.nodes node k hk
  obtain ⟨step', hsits'⟩ := h.nodes id n hn
  obtain ⟨hlt, hc⟩ := R.provides _ _ (hsits.premise? hf) hstored
  rw [hp] at hlt hc
  rw [hsits'.conclusion?] at hc
  obtain ⟨g, hg, he⟩ := Option.map_eq_some_iff.1 hc
  have hargs : g.args.map (Term.mapVars v.term) = f.args.map (Term.mapVars v.term) :=
    (congrArg Fact.args he :)
  have hlen := congrArg List.length hargs
  rw [List.length_map, List.length_map] at hlen
  have hpred : g.pred = f.pred := (congrArg Fact.pred he :)
  have hmult : g.multiplicity = f.multiplicity := (congrArg Fact.multiplicity he :)
  have hkind : g.sameKind f = true := by simp [Fact.sameKind, hpred, hmult, hlen]
  refine ⟨g, hg, hkind, fun hl => ?_⟩
  have hf' := (hS.scope.nodes _ k hk).has.premises f (List.mem_of_getElem? hf)
  have hg' := (hS.scope.nodes _ n hn).has.conclusions g (List.mem_of_getElem? hg)
  obtain ⟨σ, hσ, hsolves, ha, hmem, h'⟩ := (h.addEdge ⟨id, c⟩ ⟨node, idx⟩ hn hk hf hstored hp hlt).unify
    (hS.scope.addEdge _ _) (hf'.equations hg') (.zip hargs.symm) hl
  refine ⟨_, hmem, v, .refl v, h', fun ht => ?_⟩
  have hV : ∀ x : Var, (Scope.below S.supply.next).var x → x.idx ≠ 0 := fun _ hx => hx.1.ne'
  have hhas := (hS.scope.addEdge ⟨id, c⟩ ⟨node, idx⟩).has
  have hnodes : (S.addEdge ⟨id, c⟩ ⟨node, idx⟩).node? = S.node? := by
    rw [System.addEdge, hn, hk]
    rfl
  have hpending : (S.addEdge ⟨id, c⟩ ⟨node, idx⟩).pending = S.pending := by
    rw [System.addEdge, hn, hk]
    rfl
  refine Tracks.drop (Tracks.apply (l := [.premise node idx]) hσ hV ha hhas
    (List.forall_mem_singleton.2 (List.forall_mem_nil _)) (hpending ▸ ht.frame hnodes)) ?_
  -- The variables of the premise are those of the conclusion, in an earlier node.
  rintro a k' hk' t ⟨rfl, f', hf', ht⟩ x hx -
  rw [Tracks.node?_apply hσ hV hhas, hnodes, hk] at hk'
  cases hk'
  have hf' : (k.premises.map _)[idx]? = some f' := hf'
  rw [List.getElem?_map, hf] at hf'
  cases hf'
  have hsame := System.sameUnder_of_solves hkind hsolves
  refine .inr ⟨id, n.mapTerms fun t => m.theory.normalize (σ.apply t), ?_, hlt, _,
    List.mem_map_of_mem (List.mem_of_getElem? hg), t, ?_, hx⟩
  · rw [Tracks.node?_apply hσ hV hhas, hnodes, hn]
    rfl
  · exact (congrArg (t ∈ Fact.args ·) hsame).mpr ht

theorem expandPremise (hm : m.Plain) (hR : R.trace.RespectsSorts m) (hlen : R.trace.length ≤ len)
    (h : R.Fulfils len S v) (hS : S.WellFormed m.theory)
    (hgoal : (Goal.premise node idx).Holds R S v) (hl : (S.expandPremise m node idx).lossy = false) :
    Extends R len S v (.premise node idx) (S.expandPremise m node idx) := by
  obtain ⟨k, f, hk, hf, hstored⟩ := hgoal
  unfold System.expandPremise at hl ⊢
  simp only [hk, Option.bind_some, hf] at hl ⊢
  obtain ⟨step, hsits⟩ := h.nodes node k hk
  obtain ⟨hlt, hc⟩ := R.provides _ _ (hsits.premise? hf) hstored
  obtain ⟨⟨j, c⟩, hp⟩ : ∃ p, R.provider ⟨v.time k.time, idx⟩ = p := ⟨_, rfl⟩
  rw [hp] at hlt hc
  by_cases hnode : ∃ id n, S.node? id = some n ∧ v.time n.time = j
  · obtain ⟨id, n, hn, rfl⟩ := hnode
    have hne : id ≠ node := by
      rintro rfl
      cases hn.symm.trans hk
      exact Nat.lt_irrefl _ hlt
    obtain ⟨g, hg, hkind, hprovide⟩ := h.provide hk hf hstored hS hn hp
    refine .of_mem (List.mem_append_left _ (List.mem_flatMap.2 ⟨(id, n), List.mem_filter.2
      ⟨System.mem_liveNodes.2 hn, decide_eq_true hne⟩,
        List.mem_map_of_mem (List.mk_mem_zipIdx_iff_getElem?.2 hg)⟩)) hl fun hl => ?_
    simp only [hkind, if_true] at hl ⊢
    exact hprovide hl
  · obtain ⟨step', hstep', hc⟩ := Option.bind_eq_some_iff.1 hc
    obtain ⟨rule, r, hrule, hr, -, hplaces⟩ := R.exists_places hm hR hstep'
    have hplace : (rule, c) ∈ m.producers f.pred := hplaces c (v.fact f) hc
    refine .of_mem (List.mem_append_right _ (List.mem_map_of_mem hplace)) hl fun hl => ?_
    obtain ⟨u, hu, h', n, hn, ht, -⟩ := h.addNode hm hR hlen hS hstep' hrule hr
      (fun id k hk he => hnode ⟨id, k, hk, he⟩) none fun _ h => by cases h
    obtain ⟨hnew, hle⟩ := hS.addNode hm.scope rule none fun _ h => by cases h
    have hp' : R.provider ⟨u.time k.time, idx⟩ = ⟨u.time n.time, c⟩ := by
      rw [ht, hu.time _ (hS.scope.nodes node k hk).time]
      exact hp
    obtain ⟨g, hg, hkind, hprovide⟩ := h'.provide (System.node?_addNode hk) hf hstored hnew hn hp'
    simp only [hn, Option.bind_some, hg, hkind, if_true] at hl ⊢
    obtain ⟨S', hS', w, hw, h', htracks⟩ := hprovide hl
    exact ⟨S', hS', w, (hw.mono (Scope.below_mono hle)).trans hu, h', fun ht =>
      htracks (ht.addNode hm hS trivial hu hrule _)⟩

end Premises

/-! ## All goals but those of knowledge -/

theorem Extends.simplify (hm : m.Plain) {g : Goal} {b : Branches}
    (hwf : ∀ S' ∈ b.systems, S'.WellFormed m.theory) (h : Extends R len S v g b) :
    Extends R len S v g (b.bind fun S => S.simplify m) := by
  obtain ⟨S', hS', u, hu, h', htracks⟩ := h
  obtain ⟨hS'', h''⟩ := h'.simplify hm (hwf S' hS')
  exact ⟨_, Branches.mem_bind.2 ⟨S', hS', hS''⟩, u, hu, h'', fun ht => (htracks ht).simplified⟩

/-- Solving a formula, an action or a premise keeps the solutions of a system. -/
theorem extends_expand (hm : m.Plain) (hR : R.trace.RespectsSorts m) (hlen : R.trace.length ≤ len)
    (h : R.Fulfils len S v) (hS : S.WellFormed m.theory) {k : Nat} {o : OpenGoal}
    (ho : S.goals[k]? = some o) (hkind : o.goal.kind ∈ [.split, .action, .premise])
    (hl : (S.expand m k).lossy = false) :
    Extends R len { S with goals := S.goals.eraseIdx k } v o.goal (S.expand m k) := by
  have hmem := List.mem_of_getElem? ho
  have hin := hS.scope.goals o hmem
  have hsteps := h.steps.goals o hmem
  have hholds := h.goals o hmem
  have hS₀ := hS.eraseGoal k
  have hwf := hS.expandGoal hm.standard hm.free hm.scope ho
  unfold System.expand at hl ⊢
  simp only [ho] at hl ⊢
  have hgoal : Extends R len { S with goals := S.goals.eraseIdx k } v o.goal
      (({ S with goals := S.goals.eraseIdx k } : System).expandGoal m o.goal) := by
    have hl := Branches.lossy_of_bind hl
    revert hkind hin hsteps hholds hl
    cases o.goal with
    | split f =>
      exact fun _ hin hsteps hsat => (h.eraseGoal k).expandSplit hm hS₀ hin hsteps hlen hsat
    | action f i =>
      exact fun _ hin hsteps hemits =>
        (h.eraseGoal k).expandAction hm hR hS₀ hin.1 hlen hin.2 hsteps.2 hemits
    | premise node idx =>
      exact fun _ _ _ hgoal =>
        (h.eraseGoal k).expandPremise hm hR hlen hS₀ (hgoal.of_nodes fun _ _ h => h)
    | knows | chain => exact fun hkind => absurd hkind (by simp [Goal.kind])
  exact hgoal.simplify hm hwf

theorem expand (hm : m.Plain) (hR : R.trace.RespectsSorts m) (hlen : R.trace.length ≤ len)
    (h : R.Fulfils len S v) (hS : S.WellFormed m.theory) {k : Nat} {o : OpenGoal}
    (ho : S.goals[k]? = some o) (hkind : o.goal.kind ∈ [.split, .action, .premise])
    (hl : (S.expand m k).lossy = false) : ∃ S' ∈ (S.expand m k).systems, ∃ u : Valuation,
      u.Agrees (.below S.supply.next) v ∧ R.Fulfils len S' u := by
  obtain ⟨S', hS', u, hu, h', -⟩ := h.extends_expand hm hR hlen hS ho hkind hl
  exact ⟨S', hS', u, hu, h'⟩

/-- An execution on which the target and the restrictions evaluate to true solves the initial
system. -/
theorem initial {L : Fragment} {target : Nnf} (hm : m.Plain) (hv : ∀ x, m.theory.Value (v.term x))
    (hsorts : RespectsSorts v.term) (ht : target.In L m.theory .closed)
    (hholds : target.holds m.theory R.trace = true)
    (hrestrictions : ∀ r ∈ m.restrictions, r.nnf.holds m.theory R.trace = true) :
    R.Fulfils len (System.initial m target) v := by
  have hgoal : ∀ {L : Fragment} {f : Nnf}, f.In L m.theory .closed → f.holds m.theory R.trace = true →
      (Goal.split f).In .any m.theory (v.within len) ∧ (Goal.split f).Holds R {} v := by
    intro L f hf hholds
    have hscope : f.Scoped m.theory.plainFragment .closed :=
      hf.scope.weaken hf.plain (fun _ _ => trivial) fun _ h => h
    exact ⟨hf.any.mono ⟨nofun, nofun⟩, (hscope.holds_iff hm.free (R.hasValues hm) v).1 hholds⟩
  have hempty : R.Fulfils len {} v := by
    refine ⟨hv, hsorts, ⟨fun id n h => ?_, nofun, nofun, nofun, nofun, fun _ => .inl rfl⟩,
      fun id n h => ?_, fun a _ n _ h => ?_, fun _ => rfl, nofun, nofun, nofun, nofun, nofun⟩ <;>
      simp [System.node?] at h
  have hgoals : ∀ r ∈ m.restrictions, (Goal.split r.nnf).In .any m.theory (v.within len) ∧
      (Goal.split r.nnf).Holds R {} v := fun r hr =>
    hgoal (hm.scope.restrictions r hr) (hrestrictions r hr)
  exact (hempty.pushGoals (List.forall_mem_map.2 fun r hr => (hgoals r hr).1)
    (List.forall_mem_map.2 fun r hr => (hgoals r hr).2)).pushGoal (hgoal ht hholds).1
      (hgoal ht hholds).2

end Execution.Fulfils

/-! ## Compiled models -/

/-- In a compiled model without algebraic operators and destructors, the systems that a search works on
are well-formed. If an execution solves such a system, then it also solves one of those that solving a
formula, an action or a premise gives, unless they are flagged to miss alternatives. -/
theorem expand_keeps_solutions {src : Surface.Model} {flags : SortedSet String} {c : Surface.Compiled}
    (hc : src.compile flags = .ok c) (hequations : src.equations = [])
    (halgebras : c.model.theory.algebras = {}) (hplain : c.model.Has c.model.theory.plainShape)
    (hconditions : ∀ r ∈ c.model.rules, ∀ f, r.restrict = some f → f.QuantifierFree) :
    (∀ (f : Formula) (target : Nnf), f.toNnf = .ok target → (∀ b ∈ f.binders, b.idx = 0) →
      target.Has c.model.theory.plainShape →
        (System.initial c.model target).WellFormed c.model.theory ∧
        ∀ S, System.Reachable c.model target S → S.WellFormed c.model.theory) ∧
    ∀ (S : System) (k : Nat) (g : OpenGoal), S.WellFormed c.model.theory → S.goals[k]? = some g →
      g.goal.kind ∈ [.split, .action, .premise] → (S.expand c.model k).lossy = false →
      ∀ (R : Execution c.model) (v : Valuation), R.trace.RespectsSorts c.model → R.Solution S v →
        ∃ S' ∈ (S.expand c.model k).systems, ∃ u : Valuation,
          u.Agrees (.below S.supply.next) v ∧ R.Solution S' u := by
  have hm := Surface.Model.plain_of_compile hc hequations halgebras hplain hconditions
  refine ⟨fun f target hf hbinders htarget => ?_, fun S k g hS hg hkind hl R v hR h => ?_⟩
  · have ht : target.In .indexed c.model.theory .closed :=
      ⟨(Formula.scoped_toNnf hbinders (fun _ _ => trivial) hf).2, htarget⟩
    exact ⟨System.wellFormed_initial hm.scope ht, fun S hS =>
      hS.wellFormed hm.standard hm.free hm.scope ht⟩
  · exact h.expand hm hR le_rfl hS hg hkind hl

theorem Model.has_of_head? {m : Model} {P : Shape} (hvar : ∀ x, P.var x) (hname : ∀ n, P.name n)
    (hrules : ∀ r ∈ m.rules, r.restrict = none ∧ ∀ f ∈ r.facts, ∀ t ∈ f.args, t.head? = none)
    (hrestrictions : m.restrictions = []) : m.Has P := by
  refine ⟨fun r hr => ?_, by rw [hrestrictions]; exact nofun⟩
  obtain ⟨hnone, hfacts⟩ := hrules r hr
  have hfact : ∀ f ∈ r.facts, f.Has P := by
    intro f hf t ht
    have := hfacts f hf t ht
    cases t with
    | var x => exact .var (hvar x)
    | name n => exact .name (hname n)
    | app => cases this
  simp only [Rule.facts, List.forall_mem_append] at hfact
  refine ⟨hfact.1.1, hfact.1.2, hfact.2, ?_⟩
  rw [hnone]
  exact nofun

/-- A key is made and sent. -/
def relayTrace : Trace :=
  let k : Term := .name (.fresh "k" 0)
  [⟨"Make", [(.fresh "k", k)], [.linear Pred.fresh [k]], [], [.linear "Key" [k]]⟩,
    ⟨"Send", [(.msg "k", k)], [.linear "Key" [k]], [.linear "Sent" [k]], [.linear Pred.output [k]]⟩]

def relayFormula : Formula :=
  .ex [.msg (.msg "x"), .time (.ofName "i")]
    (.atom (.action (.linear "Sent" [.var (.msg "x")]) (.ofName "i")))

/-- The execution in which a key is made and sent solves the system that the search starts from, and
it still does when the formula, the action and the premises are solved. -/
theorem expand_keeps_relay : relaySource.compile ∅ = .ok ⟨relayModel, []⟩ ∧
    relayFormula.toNnf = .ok relayTarget ∧
    ∃ R : Execution relayModel, R.trace = relayTrace ∧ R.trace.RespectsSorts relayModel ∧
      ∀ n ≤ 4, ∃ v,
        R.Solution ((System.advance relayModel)^[n] (System.start relayModel relayTarget)) v := by
  have hcompile : relaySource.compile ∅ = .ok ⟨relayModel, []⟩ := rfl
  have hplain : relayModel.Has relayModel.theory.plainShape :=
    Model.has_of_head? (fun _ => trivial) (fun _ => trivial) (by decide) rfl
  have hconditions : ∀ r ∈ relayModel.rules, ∀ f, r.restrict = some f → f.QuantifierFree := by
    simp [relayModel, Rule.learn]
  have hbinders : ∀ b ∈ relayFormula.binders, b.idx = 0 := by decide
  have htarget : relayTarget.In .indexed relayModel.theory .closed :=
    ⟨(Formula.scoped_toNnf hbinders (fun _ _ => trivial) rfl).2,
      List.forall_mem_singleton.2 (.var trivial)⟩
  have hm := Surface.Model.plain_of_compile hcompile rfl rfl hplain hconditions
  obtain ⟨R, hR⟩ : ∃ R : Execution relayModel, R.trace = relayTrace :=
    Execution.of_isOk hm.draws (by decide +kernel)
  have hsorts : R.trace.RespectsSorts relayModel := hR ▸ by decide +kernel
  have hsteps : ∀ n < 4,
      let S := (System.advance relayModel)^[n] (System.start relayModel relayTarget)
      (∃ g ∈ S.goals[0]?, g.goal.kind ∈ [.split, .action, .premise]) ∧
        (S.expand relayModel 0).lossy = false ∧ (S.expand relayModel 0).systems.length = 1 := by
    decide +kernel
  obtain ⟨hwf, hsplit⟩ := expand_keeps_solutions hcompile rfl rfl hplain hconditions
  obtain ⟨hinitial, hreachable⟩ := hwf relayFormula relayTarget rfl hbinders htarget.plain
  have honly : ∀ {l : List System} {S S₀ : System}, l.length = 1 → S ∈ l → S = l.headD S₀ := by
    intro l S S₀ hl hS
    obtain ⟨S', rfl⟩ := List.length_eq_one_iff.1 hl
    exact List.mem_singleton.1 hS
  refine ⟨hcompile, rfl, R, hR, hsorts, fun n hn => ?_⟩
  induction n with
  | zero =>
    have h : R.Solution (System.initial relayModel relayTarget) ⟨Var.someName, fun _ => 0⟩ :=
      .initial hm (fun x => .name _) Var.admits_someName htarget (hR ▸ by decide +kernel) nofun
    obtain ⟨hS, h⟩ := h.simplify hm hinitial
    have he : _ = System.start relayModel relayTarget := honly (by decide +kernel) hS
    exact ⟨_, he ▸ h⟩
  | succ n ih =>
    obtain ⟨v, hv⟩ := ih (by omega)
    obtain ⟨⟨g, hg, hkind⟩, hl, hlen⟩ := hsteps n (by omega)
    have hS : System.Reachable relayModel relayTarget _ :=
      System.reachable_advance (by decide +kernel) n fun i hi => by
        simp [List.isEmpty_eq_false_iff, ← List.length_eq_zero_iff, (hsteps i (by omega)).2.2]
    obtain ⟨S', hS', u, -, h⟩ := hsplit _ 0 g (hreachable _ hS) hg hkind hl R v hsorts hv
    have he : S' = System.advance relayModel _ := honly hlen hS'
    rw [Function.iterate_succ_apply', ← he]
    exact ⟨u, h⟩

/-! ## Values of other sorts and bound variables with an index -/

/-- One rule keeps a public value and another one uses what was kept. -/
def taggedSource : Surface.Model where
  name := "tagged"
  rules :=
    [{ name := "Tag", conclusions := [⟨"St", false, [⟨"$x", []⟩]⟩] },
     { name := "Use", premises := [⟨"St", false, [⟨"y", []⟩]⟩],
       actions := [⟨"Used", false, [⟨"y", []⟩]⟩] }]

def taggedModel : Model where
  theory := ⟨.builtin, {}, Reduction.projections⟩
  rules :=
    [⟨"Tag", .protocol, [], [], [.linear "St" [.var (.pub "x")]], none, [.pub "x"]⟩,
      ⟨"Use", .protocol, [.linear "St" [.var (.msg "y")]], [.linear "Used" [.var (.msg "y")]], [],
        none, [.msg "y"]⟩, .learn]
  restrictions := []
  lemmas := []
  tactics := []
  learnRule := 2

/-- A pair is used. -/
def usedPair : Formula :=
  .ex [.time (.ofName "i")]
    (.atom (.action (.linear "Used" [.pair (.pubName "a") (.pubName "b")]) (.ofName "i")))

def pairTarget : Nnf :=
  .ex [.time (.ofName "i")]
    (.atom (.action (.linear "Used" [.pair (.pubName "a") (.pubName "b")]) (.ofName "i")))

/-- A pair is kept in place of a public value, and used. -/
def taggedTrace : Trace :=
  let p : Term := .pair (.pubName "a") (.pubName "b")
  [⟨"Tag", [(.pub "x", p)], [], [], [.linear "St" [p]]⟩,
    ⟨"Use", [(.msg "y", p)], [.linear "St" [p]], [.linear "Used" [p]], []⟩]

/-- One rule has two actions. -/
def twinsSource : Surface.Model where
  name := "twins"
  rules :=
    [{ name := "Both"
       actions := [⟨"P", false, [⟨"\x27a\x27", []⟩]⟩, ⟨"P", false, [⟨"\x27b\x27", []⟩]⟩] }]

def twinsModel : Model where
  theory := ⟨.builtin, {}, Reduction.projections⟩
  rules := [⟨"Both", .protocol, [], [.linear "P" [.pubName "a"], .linear "P" [.pubName "b"]], [],
    none, []⟩, .learn]
  restrictions := []
  lemmas := []
  tactics := []
  learnRule := 1

/-- There are actions with two values, where the bound variables differ in their indices only. -/
def twoValues : Formula :=
  .ex [.msg ⟨"x", 0, .msg⟩, .msg ⟨"x", 1, .msg⟩, .time (.ofName "i")]
    (.conj [.atom (.action (.linear "P" [.var ⟨"x", 0, .msg⟩]) (.ofName "i")),
      .atom (.action (.linear "P" [.var ⟨"x", 1, .msg⟩]) (.ofName "i")),
      .neg (.atom (.eq (.var ⟨"x", 0, .msg⟩) (.var ⟨"x", 1, .msg⟩)))])

def twinsTarget : Nnf :=
  .ex [.msg ⟨"x", 0, .msg⟩, .msg ⟨"x", 1, .msg⟩, .time (.ofName "i")]
    (.conj [.atom (.action (.linear "P" [.var ⟨"x", 0, .msg⟩]) (.ofName "i")),
      .atom (.action (.linear "P" [.var ⟨"x", 1, .msg⟩]) (.ofName "i")),
      .neq (.var ⟨"x", 0, .msg⟩) (.var ⟨"x", 1, .msg⟩)])

def twinsTrace : Trace :=
  [⟨"Both", [], [], [.linear "P" [.pubName "a"], .linear "P" [.pubName "b"]], []⟩]

/-- Some execution solves a system that the search reaches, but none of those that solving the first
goal gives. -/
def LosesSolution (m : Model) (target : Nnf) : Prop :=
  ∃ (S : System) (g : OpenGoal) (R : Execution m) (v : Valuation), System.Reachable m target S ∧
    S.goals[0]? = some g ∧ g.goal.kind ∈ [.split, .action, .premise] ∧ R.Solution S v ∧
    (S.expand m 0).lossy = false ∧ ∀ S' ∈ (S.expand m 0).systems, ∀ u, ¬R.Solution S' u

/-- No public value is a pair, so nothing provides the pair that the second step uses. -/
theorem losesSolution_tagged : LosesSolution taggedModel pairTarget := by
  have hplain : taggedModel.Has taggedModel.theory.plainShape :=
    Model.has_of_head? (fun _ => trivial) (fun _ => trivial) (by decide) rfl
  have hm : taggedModel.Plain := Surface.Model.plain_of_compile (c := ⟨taggedModel, []⟩)
    (rfl : taggedSource.compile ∅ = _) rfl rfl hplain (by simp [taggedModel, Rule.learn])
  have ht : pairTarget.In .indexed taggedModel.theory .closed := by
    have hbinders : ∀ b ∈ usedPair.binders, b.idx = 0 := by decide
    have hpair : taggedModel.theory.IsConstructor .pair := ⟨rfl, by decide⟩
    refine ⟨(Formula.scoped_toNnf hbinders (fun _ _ => trivial) rfl).2,
      List.forall_mem_singleton.2 (.app hpair ?_)⟩
    exact List.forall_mem_cons.2 ⟨.name trivial, List.forall_mem_singleton.2 (.name trivial)⟩
  obtain ⟨R, hR⟩ : ∃ R : Execution taggedModel, R.trace = taggedTrace :=
    Execution.of_isOk hm.draws (by decide +kernel)
  let S := (System.advance taggedModel)^[3] (System.start taggedModel pairTarget)
  have hS : System.Reachable taggedModel pairTarget S :=
    System.reachable_advance (by decide +kernel) 3 (by decide +kernel)
  have hscope := (hS.wellFormed hm.standard hm.free hm.scope ht).scope
  let pair : Term := .pair (.pubName "a") (.pubName "b")
  have hnodes : S.nodes = [some ⟨1, ⟨"i", 1⟩, .ofList [(.msg "y", pair)], [.linear "St" [pair]],
      [.linear "Used" [pair]], []⟩] := by decide +kernel
  have hgoals : S.goals = [⟨.premise 0 0, 3⟩] := by decide +kernel
  have hempty : SortedSet.toList S.less = [] ∧ SortedSet.toList S.edges = [] ∧
      S.disequalities = [] ∧ S.guarded = [] := by decide +kernel
  have hnode : ∀ id n, S.node? id = some n → id = 0 ∧ S.nodes = [some n] := by
    intro id n h
    rw [System.node?, hnodes] at h
    cases id with
    | zero => cases h; exact ⟨rfl, hnodes⟩
    | succ id => simp at h
  have hnone : (S.expand taggedModel 0).systems.length = 0 := by decide +kernel
  refine ⟨S, ⟨.premise 0 0, 3⟩, R, ⟨Var.someName, fun _ => 1⟩, hS, by rw [hgoals]; rfl, by decide, ?_,
    by decide +kernel, by rw [List.length_eq_zero_iff.1 hnone]; exact List.forall_mem_nil _⟩
  obtain ⟨hless, hedges, hdisequalities, hguarded⟩ := hempty
  refine ⟨fun x => .name _, Var.admits_someName,
    (hscope.mono ⟨fun _ _ => trivial, fun _ _ => ?_⟩).any, fun id n hn => ?_,
    fun a b n k ha hb _ => ?_, fun _ => rfl, hless ▸ List.forall_mem_nil _,
    hedges ▸ List.forall_mem_nil _, hdisequalities ▸ List.forall_mem_nil _,
    hguarded ▸ List.forall_mem_nil _, ?_⟩
  · change 1 < R.trace.length
    rw [hR]
    decide
  · obtain ⟨-, he⟩ := hnode id n hn
    cases hnodes.symm.trans he
    exact ⟨_, by rw [hR]; rfl, ⟨_, rfl, rfl⟩, rfl, rfl, rfl⟩
  · rw [(hnode a n ha).1, (hnode b k hb).1]
  · rw [hgoals]
    have hused : S.node? 0 = some ⟨1, ⟨"i", 1⟩, .ofList [(.msg "y", pair)], [.linear "St" [pair]],
        [.linear "Used" [pair]], []⟩ := by rw [System.node?, hnodes]; rfl
    exact List.forall_mem_singleton.2 ⟨_, _, hused, rfl, by decide, by decide⟩

/-- The two values become one variable when the quantifier is taken away. -/
theorem losesSolution_twins : LosesSolution twinsModel twinsTarget := by
  have hplain : twinsModel.Has twinsModel.theory.plainShape :=
    Model.has_of_head? (fun _ => trivial) (fun _ => trivial) (by decide) rfl
  have hm : twinsModel.Plain := Surface.Model.plain_of_compile (c := ⟨twinsModel, []⟩)
    (rfl : twinsSource.compile ∅ = _) rfl rfl hplain (by simp [twinsModel, Rule.learn])
  have ht : twinsTarget.In .any twinsModel.theory .closed := by
    refine ⟨(Formula.scoped_toNnf (f := twoValues) (fun _ _ => trivial) (fun _ _ => trivial) rfl).2,
      fun t ht => ?_⟩
    have hterms : ∀ t ∈ twinsTarget.terms, t.isVar = true := by decide
    cases t with
    | var => exact .var trivial
    | name | app => exact absurd (hterms _ ht) (by simp [Term.isVar])
  obtain ⟨R, hR⟩ : ∃ R : Execution twinsModel, R.trace = twinsTrace :=
    Execution.of_isOk hm.draws (by decide +kernel)
  have hstart : System.start twinsModel twinsTarget = System.initial twinsModel twinsTarget := rfl
  have h : R.Solution (System.initial twinsModel twinsTarget) ⟨Var.someName, fun _ => 0⟩ :=
    .initial hm (fun x => .name _) Var.admits_someName ht (hR ▸ by decide +kernel) nofun
  have hgoals : ∀ S' ∈ ((System.start twinsModel twinsTarget).expand twinsModel 0).systems,
      S'.goals.map OpenGoal.goal = [.split (.conj
        [.atom (.action (.linear "P" [.var ⟨"x", 1, .msg⟩]) ⟨"i", 1⟩),
          .atom (.action (.linear "P" [.var ⟨"x", 1, .msg⟩]) ⟨"i", 1⟩),
          .neq (.var ⟨"x", 1, .msg⟩) (.var ⟨"x", 1, .msg⟩)])] := by decide +kernel
  refine ⟨_, _, R, ⟨Var.someName, fun _ => 0⟩, .start (System.headD_mem (by decide +kernel)), rfl,
    by decide +kernel, hstart ▸ h, by decide +kernel, fun S' hS' u hu => ?_⟩
  have hholds := (List.forall_mem_map (f := OpenGoal.goal) (P := fun g => g.Holds R S' u)).2 hu.goals
  rw [hgoals S' hS', List.forall_mem_singleton] at hholds
  exact Nnf.sat_conj.1 hholds _ (List.mem_cons_of_mem _ (List.mem_cons_of_mem _
    (List.mem_singleton_self _))) rfl

/-- A step with a value of another sort, and bound variables that differ in their indices only, are
lost. -/
theorem expand_loses_solutions :
    (taggedSource.compile ∅ = .ok ⟨taggedModel, []⟩ ∧ usedPair.toNnf = .ok pairTarget ∧
      LosesSolution taggedModel pairTarget) ∧
    twinsSource.compile ∅ = .ok ⟨twinsModel, []⟩ ∧ twoValues.toNnf = .ok twinsTarget ∧
      LosesSolution twinsModel twinsTarget :=
  ⟨⟨rfl, rfl, losesSolution_tagged⟩, rfl, rfl, losesSolution_twins⟩

end ProtocolProver
