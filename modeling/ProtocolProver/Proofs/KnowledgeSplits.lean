import ProtocolProver.Proofs.CaseSplits

/-!
# Case splits on knowledge

What the adversary has to know is public, is built, or is taken out of a message that was sent. Of the
messages that it can be taken out of, the first one is enough. Taking a message apart has reached the
term, or goes on by one of the deconstruction steps of the message. With the splits on all other goals,
a system that an execution solves leads to one that it solves too (`Execution.Tracks.expand`).
-/

namespace ProtocolProver

theorem Theory.value_mapVars {T : Theory} {t : Term} (ht : t.Has T.plainShape) {θ : Var → Term}
    (hθ : ∀ x, T.Value (θ x)) : T.Value (t.mapVars θ) := by
  induction ht with
  | var => exact hθ _
  | name => exact .name _
  | app hf _ ih =>
    rw [Term.mapVars_app]
    exact .app (List.forall_mem_map.2 ih) (hf.contractRoot? _)

variable {m : Model}

/-- A term that follows from messages is public, is built, or is taken out of a first message. -/
theorem Execution.exists_first (R : Execution m) {k : Nat} {t : Term}
    (h : m.theory.Derives (R.sent k) t) : m.theory.Arises (fun _ => False) (R.sent k) t ∨
    ∃ j < k, ∃ step, R.trace[j]? = some step ∧ ∃ f ∈ step.conclusions, f.pred = Pred.output ∧
      ∃ s ∈ f.args, m.theory.Reaches (R.sent k) s t ∧ ¬m.theory.Arises (R.sent j) (R.sent k) t := by
  classical
  have hex : ∃ j, m.theory.Arises (R.sent j) (R.sent k) t := ⟨k, h.arises fun _ => id⟩
  have hle : Nat.find hex ≤ k := Nat.find_min' hex (h.arises fun _ => id)
  cases Nat.find_spec hex with
  | pub name => exact .inl (.pub name)
  | build hf has => exact .inl (.build hf has)
  | taken hs hst =>
    obtain ⟨j, hj, step, hstep, f, hf, hout, hs⟩ := hs
    exact .inr ⟨j, hj.trans_le hle, step, hstep, f, hf, hout, _, hs, hst, Nat.find_min hex hj⟩

variable {R : Execution m} {len : Nat} {S : System} {v : Valuation}

theorem Goal.has_chain {s t : Term} {i : TimeVar} {P : Shape} (hs : s.Has P) (ht : t.Has P) :
    ∀ g ∈ [Goal.chain s t i], g.Has P :=
  List.forall_mem_singleton.2 (List.forall_mem_cons.2 ⟨hs, List.forall_mem_singleton.2 ht⟩)

/-- The variables of what a deconstruction step yields are those of the term that it takes apart. -/
theorem Execution.Tracks.extracted (hm : m.Plain) {c g : Symbol} {as bs ps : List Term}
    {r : Reduction} {j k : Nat} (hopens : m.theory.Opens r j g as c ps) {t : Term} {i : TimeVar}
    (hS : S.Has m.theory.plainShape) (hs : (Term.app c bs).Has m.theory.plainShape)
    (ht : t.Has m.theory.plainShape) {V : Var → Prop} {σ : Subst}
    (hσ : σ.Over (m.theory.constructors V)) (hV : ∀ x, V x → x.idx ≠ 0) (ha : σ.Absorbed v.term)
    (hsolves : m.theory.solves σ (Theory.extraction (.app c bs) r j as c ps k).eqs = true)
    (hreach : m.theory.Reaches (R.sent (v.time i)) ((Term.app c bs).mapVars v.term)
      ((r.rhs.reindex k).mapVars v.term)) (h : R.Tracks S (.chain (.app c bs) t i :: S.pending) v) :
    R.Tracks ((S.pushGoal (.chain (r.rhs.reindex k) t i)).apply m.theory σ)
      ((S.pushGoal (.chain (r.rhs.reindex k) t i)).apply m.theory σ).pending v := by
  obtain ⟨hargs, hrhs'⟩ := System.plain_of_opens hm.standard hopens
  have hoccurs : ∀ {t : Term}, t.Has m.theory.plainShape → ∀ {x}, x ∈
      (m.theory.normalize (σ.apply t)).occurrences ↔ ∃ y ∈ t.occurrences, x ∈ (σ.value y).occurrences := by
    intro t ht x
    rw [normalize_apply hσ hV ht]
    exact Term.mem_occurrences_mapVars
  have hplain : ∀ {p : Term}, p.Has m.theory.plainShape → (p.reindex k).Has m.theory.plainShape :=
    fun hp => hp.mapVars (fun _ _ => .var trivial) (fun _ h => h) fun _ _ h => h
  have happlied := Tracks.apply (l := [.chain (.app c bs) t i]) hσ hV ha hS (Goal.has_chain hs ht) h
  obtain ⟨a, n, hn, hbefore, hoffered, hderives, hfirst⟩ := happlied.chains _ _ i (List.mem_cons_self ..)
  have he : (S.pushGoal (.chain (r.rhs.reindex k) t i)).apply m.theory σ = (S.apply m.theory σ).pushGoal
      (.chain (m.theory.normalize (σ.apply (r.rhs.reindex k))) (m.theory.normalize (σ.apply t)) i) := by
    unfold System.apply
    split
    · rw [normalize_of_isEmpty hσ hV ‹_› (hplain hrhs'), normalize_of_isEmpty hσ hV ‹_› ht]
    · simp [System.pushGoal, System.mapTerms, Goal.map]
  rw [he]
  refine happlied.pushChain hn ⟨hbefore, fun y hy => hoffered y ?_, ?_, hfirst⟩ fun _ _ _ => id
  · have hsame : m.theory.normalize (σ.apply (.app c bs)) =
        m.theory.normalize (σ.apply ((Term.app c ps).reindex k)) :=
      beq_iff_eq.1 (List.all_eq_true.1 hsolves _ (List.mem_singleton_self _))
    obtain ⟨x, hrhs, hx⟩ := hm.shallow.output hopens
    rw [hrhs] at hy
    obtain ⟨z, hz, hy⟩ := (hoccurs (.var trivial)).1 hy
    cases List.mem_singleton.1 hz
    refine (congrArg (y ∈ Term.occurrences ·) hsame).mpr ((hoccurs (hplain
      (hargs _ (List.mem_of_getElem? hopens.arg)))).2 ⟨_, Term.mem_occurrences_mapVars.2 ⟨x, ?_,
        List.mem_singleton_self _⟩, hy⟩)
    exact Term.mem_occurrences_app.2 ⟨_, hx, List.mem_singleton_self _⟩
  · rw [Fulfils.mapVars_apply hσ hV ha (hplain hrhs')]
    have hderives := Fulfils.mapVars_apply hσ hV ha hs ▸ hderives
    exact (hm.shallow.arises_of_reaches (fun _ => id) hderives hreach).derives fun _ => id

namespace Execution.Fulfils

/-! ## Knowledge -/

/-- The adversary takes the term out of a message of a node. -/
theorem chainFrom (h : R.Fulfils len S v) {a : Nat} {n : Node} (hn : S.node? a = some n) {f : Fact}
    (hf : f ∈ n.conclusions) (hout : f.pred = Pred.output) {s t : Term} (hs : s ∈ f.args)
    (ht : t.Has m.theory.plainShape) {i : TimeVar} (hi : v.time i < len)
    (hlt : v.time n.time < v.time i)
    (hreach : m.theory.Reaches (R.sent (v.time i)) (s.mapVars v.term) (t.mapVars v.term))
    (hfirst : ¬m.theory.Arises (R.sent (v.time n.time)) (R.sent (v.time i)) (t.mapVars v.term)) :
    R.Fulfils len (S.chainFrom n.time s t i) v ∧ (R.Tracks S (.knows t i :: S.pending) v →
      R.Tracks (S.chainFrom n.time s t i) (S.chainFrom n.time s t i).pending v) := by
  have hin := h.steps.nodes a n hn
  obtain ⟨step, hstep, -, -, -, hc⟩ := h.nodes a n hn
  refine ⟨(h.addLess hin.time hi hlt).pushGoal ⟨hin.has.conclusions f hf s hs, ht, hi⟩ hreach,
    fun htracks => ?_⟩
  have hsent : R.sent (v.time i) (s.mapVars v.term) :=
    ⟨v.time n.time, hlt, step, hstep, v.fact f, hc ▸ List.mem_map_of_mem hf, hout,
      List.mem_map_of_mem hs⟩
  have htracks : R.Tracks (S.addLess n.time i) (.knows t i :: (S.addLess n.time i).pending) v :=
    htracks.frame rfl
  exact htracks.pushChain hn ⟨hlt, fun x hx => ⟨f, hf, s, hs, hx⟩, .taken hsent (.here _), hfirst⟩
    fun _ _ _ => id

section Knows

variable (hm : m.Plain) (h : R.Fulfils len S v) {t : Term} {i : TimeVar}

include h in
/-- The adversary knows the arguments of what it builds. -/
theorem pushArgs {f : Symbol} {as : List Term} (ht : (Term.app f as).Has m.theory.plainShape)
    (hi : v.time i < len)
    (has : ∀ a ∈ as, m.theory.Derives (R.sent (v.time i)) (a.mapVars v.term)) :
    let S' := S.pushGoals (as.map fun p => .knows p i)
    R.Fulfils len S' v ∧
      (R.Tracks S (.knows (.app f as) i :: S.pending) v → R.Tracks S' S'.pending v) := by
  refine ⟨h.pushGoals (List.forall_mem_map.2 fun p hp => ⟨ht.args p hp, hi⟩)
    (List.forall_mem_map.2 has), fun htracks => ?_⟩
  refine (Tracks.pushGoals (l := [_]) htracks _
    (List.forall_mem_map.2 fun _ _ => by simp [Goal.kind])).drop ?_
  rintro a n - u ⟨rfl, hi⟩ x hx -
  obtain ⟨p, hp, hx⟩ := Term.mem_occurrences_app.1 hx
  refine .inl ⟨.knows p i, ?_, p, ⟨rfl, hi⟩, hx⟩
  rw [System.pending_pushGoals]
  exact List.mem_append_right S.pending (List.mem_map_of_mem hp)

include hm h in
/-- What follows without any message, and is not public, is headed by a public symbol. -/
theorem extends_built (ht : t.Has m.theory.plainShape) (hi : v.time i < len)
    (hname : ∀ name, t ≠ .name (.pub name)) (hsort : ∀ x, t = .var x → x.sort = .fresh)
    (ha : m.theory.Arises (fun _ => False) (R.sent (v.time i)) (t.mapVars v.term)) :
    Extends R len S v (.knows t i) ⟨S.built m t i, false⟩ := by
  have hfresh : ∀ x, t = .var x → ∃ name idx, v.term x = .name (.fresh name idx) := by
    rintro x rfl
    obtain ⟨n, hn⟩ := Tracks.exists_name h.values h.sorts (x := x) (by simp [hsort x rfl])
    have hvalue := h.sorts x
    rw [hn, hsort x rfl] at hvalue
    cases n with
    | fresh name idx => exact ⟨name, idx, hn⟩
    | pub => cases hvalue
  generalize he : t.mapVars v.term = u at ha
  cases t with
  | var x =>
    obtain ⟨name, idx, hx⟩ := hfresh x rfl
    cases hx.symm.trans he
    cases ha with
    | taken hs => exact hs.elim
  | name n =>
    cases he
    cases ha with
    | taken hs => exact hs.elim
    | pub name => exact absurd rfl (hname name)
  | app f as =>
    rw [Term.mapVars_app] at he
    cases he
    cases ha with
    | taken hs => exact hs.elim
    | build hf has =>
      obtain ⟨h', htracks⟩ := h.pushArgs ht hi (List.forall_mem_map.1 has)
      have hdecompose : m.theory.decompose (.app f as) = [as] := by simp [Theory.decompose, hm.free f, hf]
      have hhead : (Term.app f as).head?.any m.signature.isPublic = true := hf
      refine ⟨_, ?_, v, .refl v, h', htracks⟩
      simp only [System.built, if_pos hhead, hdecompose]
      exact List.mem_singleton_self _

include h in
/-- A node sent the message from which the term is taken. -/
theorem extends_taken (ht : t.Has m.theory.plainShape) (hi : v.time i < len) {a : Nat} {n : Node}
    (hn : S.node? a = some n) (hlt : v.time n.time < v.time i) {step : Step}
    (hstep : R.trace[v.time n.time]? = some step) {f : Fact} (hf : f ∈ step.conclusions)
    (hout : f.pred = Pred.output) {s : Term} (hs : s ∈ f.args)
    (hreach : m.theory.Reaches (R.sent (v.time i)) s (t.mapVars v.term))
    (hfirst : ¬m.theory.Arises (R.sent (v.time n.time)) (R.sent (v.time i)) (t.mapVars v.term)) :
    Extends R len S v (.knows t i) ⟨S.taken t i, false⟩ := by
  obtain ⟨step', hstep', -, -, -, hc⟩ := h.nodes a n hn
  cases hstep.symm.trans hstep'
  rw [hc] at hf
  obtain ⟨c, hcn, rfl⟩ := List.mem_map.1 hf
  obtain ⟨s', hs', rfl⟩ := List.mem_map.1 hs
  obtain ⟨h', htracks⟩ := h.chainFrom hn hcn hout hs' ht hi hlt hreach hfirst
  exact ⟨_, List.mem_flatMap.2 ⟨(a, n), System.mem_liveNodes.2 hn, List.mem_flatMap.2
    ⟨c, List.mem_filter.2 ⟨hcn, decide_eq_true hout⟩, List.mem_map_of_mem hs'⟩⟩, v, .refl v, h', htracks⟩

include hm h in
/-- A step on which there is no node sent the message from which the term is taken. -/
theorem extends_takenNew (hR : R.trace.RespectsSorts m) (hlen : R.trace.length ≤ len)
    (hS : S.WellFormed m.theory)
    (ht : t.Has (m.theory.constructors (Scope.below S.supply.next).var))
    (hi : (Scope.below S.supply.next).time i) (hi' : v.time i < len) {j : Nat}
    (hj : j < v.time i) (hnode : ∀ a n, S.node? a = some n → v.time n.time ≠ j) {step : Step}
    (hstep : R.trace[j]? = some step) {f : Fact} (hf : f ∈ step.conclusions)
    (hout : f.pred = Pred.output) {s : Term} (hs : s ∈ f.args)
    (hreach : m.theory.Reaches (R.sent (v.time i)) s (t.mapVars v.term))
    (hfirst : ¬m.theory.Arises (R.sent j) (R.sent (v.time i)) (t.mapVars v.term)) :
    Extends R len S v (.knows t i) ⟨S.takenNew m t i, false⟩ := by
  obtain ⟨k, hk⟩ := List.mem_iff_getElem?.1 hf
  obtain ⟨rule, r, hrule, hr, -, hplaces⟩ := R.exists_places hm hR hstep
  have hplace : (rule, k) ∈ m.producers Pred.output := hout ▸ hplaces k f hk
  obtain ⟨u, hu, h', n, hn, htime, -, -, -, -, hc⟩ := h.addNode hm hR hlen hS hstep hrule hr hnode none
    fun _ h => by cases h
  have htime' : u.time i = v.time i := hu.time i hi
  have hterm : t.mapVars u.term = t.mapVars v.term := hu.mapVars ht
  rw [hc, List.getElem?_map] at hk
  obtain ⟨c, hkn, rfl⟩ := Option.map_eq_some_iff.1 hk
  obtain ⟨s', hs', rfl⟩ := List.mem_map.1 hs
  rw [← htime, ← htime', ← hterm] at hfirst
  rw [← htime', ← hterm] at hreach
  rw [← htime, ← htime'] at hj
  obtain ⟨h', htracks⟩ := h'.chainFrom hn (List.mem_of_getElem? hkn) hout hs'
    (Theory.constructors_mono ht fun _ _ => trivial) (htime' ▸ hi') hj hreach hfirst
  refine ⟨_, List.mem_flatMap.2 ⟨_, hplace, ?_⟩, u, hu, h',
    fun ht' => htracks (ht'.addNode hm hS ⟨ht, hi⟩ hu hrule _)⟩
  simp only [hn, hkn]
  exact List.mem_map_of_mem hs'

include hm h in
theorem expandKnows (hR : R.trace.RespectsSorts m) (hlen : R.trace.length ≤ len)
    (hS : S.WellFormed m.theory)
    (ht : t.Has (m.theory.constructors (Scope.below S.supply.next).var))
    (hi : (Scope.below S.supply.next).time i) (hi' : v.time i < len)
    (hd : m.theory.Derives (R.sent (v.time i)) (t.mapVars v.term)) :
    Extends R len S v (.knows t i) (S.expandKnows m t i) := by
  have hplain : t.Has m.theory.plainShape := Theory.constructors_mono ht fun _ _ => trivial
  unfold System.expandKnows
  split
  · refine ⟨S, List.mem_singleton_self _, v, .refl v, h, fun htracks => htracks.drop ?_⟩
    rintro a n - u ⟨rfl, -⟩ x hx -
    cases hx
  · refine ⟨S, List.mem_singleton_self _, v, .refl v, h, fun htracks => htracks.drop ?_⟩
    rintro a n - u ⟨rfl, -⟩ x hx hsort
    cases List.mem_singleton.1 hx
    cases hsort
  · refine ⟨_, List.mem_singleton_self _, v, .refl v, h.pushGoal ⟨hplain, hi'⟩ hd, fun htracks => ?_⟩
    refine htracks.mono (S.node?_pushGoals [_]) (fun g hg => .inl ?_) fun g hg _ => ?_
    all_goals
      rw [show ∀ g, S.pushGoal g = S.pushGoals [g] from fun _ => rfl, S.pending_pushGoals] at *
      simpa [or_comm] using hg
  · rename_i hname hpub hmsg
    have hsort : ∀ x, t = .var x → x.sort = .fresh := by
      rintro ⟨name, idx, sort⟩ rfl
      cases sort with
      | msg => exact absurd rfl (hmsg name idx)
      | pub => exact absurd rfl (hpub name idx)
      | fresh => rfl
    rcases R.exists_first hd with ha | ⟨j, hj, step, hstep, f, hf, hout, s, hs, hreach, hfirst⟩
    · obtain ⟨S', hS', hu⟩ := h.extends_built hm hplain hi' hname hsort ha
      exact ⟨S', List.mem_append_left _ (List.mem_append_left _ hS'), hu⟩
    · by_cases hnode : ∃ a n, S.node? a = some n ∧ v.time n.time = j
      · obtain ⟨a, n, hn, rfl⟩ := hnode
        obtain ⟨S', hS', hu⟩ := h.extends_taken hplain hi' hn hj hstep hf hout hs hreach hfirst
        exact ⟨S', List.mem_append_left _ (List.mem_append_right _ hS'), hu⟩
      · obtain ⟨S', hS', hu⟩ := h.extends_takenNew hm hR hlen hS ht hi hi' hj
          (fun a n hn he => hnode ⟨a, n, hn, he⟩) hstep hf hout hs hreach hfirst
        exact ⟨S', List.mem_append_right _ hS', hu⟩

end Knows

/-! ## Taking a message apart -/

/-- The term is the one that was looked for. Its variables are those of the node that sent it. -/
theorem extends_reached (h : R.Fulfils len S v) (hS : S.WellFormed m.theory) {s t : Term} {i : TimeVar}
    (hs : s.Has (m.theory.constructors (Scope.below S.supply.next).var))
    (ht : t.Has (m.theory.constructors (Scope.below S.supply.next).var))
    (he : s.mapVars v.term = t.mapVars v.term) (hl : (S.unify m.theory [(s, t)]).lossy = false) :
    Extends R len S v (.chain s t i) (S.unify m.theory [(s, t)]) := by
  obtain ⟨σ, hσ, hsolves, ha, hmem, h'⟩ := h.unify hS.scope (.cons hs ht .nil)
    (List.forall_mem_singleton.2 he) hl
  refine ⟨_, hmem, v, .refl v, h', fun htracks => ?_⟩
  have happlied := Tracks.apply (l := [.chain s t i]) hσ (fun _ hx => hx.1.ne') ha hS.scope.has
    (Goal.has_chain (Theory.constructors_mono hs fun _ _ => trivial)
      (Theory.constructors_mono ht fun _ _ => trivial)) htracks
  obtain ⟨a, n, hn, hunfolds⟩ := happlied.chains _ _ i (List.mem_cons_self ..)
  refine Tracks.drop happlied ?_
  rintro b k - u ⟨rfl, hi⟩ x hx -
  have hsame : m.theory.normalize (σ.apply s) = m.theory.normalize (σ.apply t) :=
    beq_iff_eq.1 (List.all_eq_true.1 hsolves _ (List.mem_singleton_self _))
  exact .inr ⟨a, n, hn, hi ▸ hunfolds.before, hunfolds.offered x
    ((congrArg (x ∈ Term.occurrences ·) hsame).mpr hx)⟩

/-- The valuation with the values of a deconstruction step for the variables of its rule. -/
def opened (v : Valuation) (r : Reduction) (k : Nat) (θ : Var → Term) : Valuation :=
  v.extend k ⟨fun x => if x ∈ r.lhs.occurrences then θ x else x.someName, v.time⟩

section Opened

variable (hm : m.Plain) (h : R.Fulfils len S v) {f : Symbol} {as bs ps : List Term} {r : Reduction}
  {i k : Nat} {g : Symbol} (hopens : m.theory.Opens r i g as f ps) {θ : Var → Term}
include hm hopens

omit h in
theorem mapVars_opened {p : Term} (hp : ∀ x ∈ p.occurrences, x ∈ r.lhs.occurrences) :
    (p.reindex k).mapVars (opened v r k θ).term = p.mapVars θ := by
  rw [Term.reindex, Term.mapVars_mapVars]
  exact Term.mapVars_congr fun x hx =>
    (v.term_extend _ (hm.shallow.idx r hopens.mem x (hp x hx))).trans (if_pos (hp x hx))

include h in
theorem fulfils_opened (hS : S.WellFormed m.theory) (hk : S.supply.next ≤ k)
    (hb : (Term.app f bs).Has m.theory.plainShape)
    (he : (Term.app f ps).mapVars θ = (Term.app f bs).mapVars v.term) :
    (opened v r k θ).Agrees (.below S.supply.next) v ∧ R.Fulfils len S (opened v r k θ) := by
  have hagrees := (v.agrees_extend k
    ⟨fun x => if x ∈ r.lhs.occurrences then θ x else x.someName, v.time⟩).mono (Scope.below_mono hk)
  have hvalue : ∀ x ∈ r.lhs.occurrences, m.theory.Value (θ x) := fun x hx =>
    Theory.Value.of_mapVars (he ▸ Theory.value_mapVars hb h.values) x (hm.shallow.bound hopens x hx)
  refine ⟨hagrees, h.congr hS.scope hagrees.symm (Valuation.extend_values h.values fun x => ?_)
    (Valuation.extend_sorts h.sorts fun x => ?_)⟩ <;> simp only <;> split
  · exact hvalue x ‹_›
  · exact .name _
  · rw [hm.standard.sort_of_mem_occurrences hopens.mem ‹_›]
    rfl
  · exact x.admits_someName

end Opened

/-- A deconstruction step of the term yields one that goes on to what was looked for. -/
theorem extends_extracted (hm : m.Plain) (h : R.Fulfils len S v) (hS : S.WellFormed m.theory)
    {f : Symbol} {bs : List Term} {t : Term} {i : TimeVar}
    (hs : (Term.app f bs).Has (m.theory.constructors (Scope.below S.supply.next).var))
    (ht : t.Has (m.theory.constructors (Scope.below S.supply.next).var))
    (hi : (Scope.below S.supply.next).time i) (hi' : v.time i < len) {side : List Term} {u : Term}
    (hd : m.theory.Destructs ((Term.app f bs).mapVars v.term) side u)
    (hside : ∀ a ∈ side, m.theory.Derives (R.sent (v.time i)) a)
    (hreach : m.theory.Reaches (R.sent (v.time i)) u (t.mapVars v.term)) :
    ∃ e ∈ (S.drawing (m.theory.extract (.app f bs))).1,
      ∀ S', S' = ((S.drawing (m.theory.extract (.app f bs))).2.pushGoals
        (e.side.map fun t => .knows t i)).pushGoal (.chain e.output t i) →
      (S'.unify m.theory e.eqs).lossy = false →
        Extends R len S v (.chain (.app f bs) t i) (S'.unify m.theory e.eqs) := by
  obtain ⟨r, j, g, as, c, ps, θ, hopens, he, rfl, rfl⟩ := hd
  obtain rfl : c = f := by
    rw [Term.mapVars_app, Term.mapVars_app] at he
    injection he
  obtain ⟨-, -, hall⟩ := Theory.mem_extract (hm.free c) bs S.supply
  obtain ⟨k, hk, hlt, hmem⟩ := hall r j g as ps hopens
  refine ⟨_, hmem, fun S' hS' hl => ?_⟩
  have hwf := hS.extraction hm.standard hs ht hi hopens hk hlt
  obtain ⟨heqs, -⟩ := hS.have_extraction hm.standard hs hopens hk hlt
  have hs' : (Term.app c bs).Has m.theory.plainShape := Theory.constructors_mono hs fun _ _ => trivial
  have ht' : t.Has m.theory.plainShape := Theory.constructors_mono ht fun _ _ => trivial
  obtain ⟨hu, h₀⟩ := h.fulfils_opened hm hopens hS hk hs' he
  obtain ⟨x, hrhs, hx⟩ := hm.shallow.output hopens
  have hargs : ∀ p ∈ as, ∀ x ∈ p.occurrences, x ∈ r.lhs.occurrences := fun p hp x hx => by
    rw [hopens.lhs]
    exact Term.mem_occurrences_app.2 ⟨p, hp, hx⟩
  have hopened : ∀ p ∈ as, (p.reindex k).mapVars (opened v r k θ).term = p.mapVars θ := fun p hp =>
    mapVars_opened hm hopens (hargs p hp)
  have hpattern := List.mem_of_getElem? hopens.arg
  have hx' : x ∈ (Term.app c ps).occurrences :=
    Term.mem_occurrences_app.2 ⟨_, hx, List.mem_singleton_self _⟩
  have houtput : (r.rhs.reindex k).mapVars (opened v r k θ).term = r.rhs.mapVars θ := by
    refine mapVars_opened hm hopens fun y hy => ?_
    rw [hrhs] at hy
    cases List.mem_singleton.1 hy
    exact hargs _ hpattern x hx'
  have htime : (opened v r k θ).time i = v.time i := hu.time i hi
  have hterm : t.mapVars (opened v r k θ).term = t.mapVars v.term := hu.mapVars ht
  generalize opened v r k θ = u at hu h₀ hopened houtput htime hterm
  have hsource : (Term.app c bs).mapVars u.term = ((Term.app c ps).reindex k).mapVars u.term := by
    rw [hu.mapVars hs, hopened _ hpattern, he]
  obtain ⟨hplain, hplain'⟩ := System.plain_of_opens hm.standard hopens
  have h₁ := @Execution.Fulfils.pushGoals _ _ _ _ _
    (h₀.withSupply ((m.theory.extract (.app c bs)).run S.supply).2)
    (((as.eraseIdx j).map (Term.reindex k)).map fun t => .knows t i)
    (List.forall_mem_map.2 (List.forall_mem_map.2 fun p hp =>
      ⟨(hplain p (List.mem_of_mem_eraseIdx hp)).reindex fun _ _ => trivial, htime.trans_lt hi'⟩))
    (List.forall_mem_map.2 (List.forall_mem_map.2 fun p hp => by
      rw [Goal.Holds, htime, hopened p (List.mem_of_mem_eraseIdx hp)]
      exact hside _ (List.mem_map_of_mem hp)))
  have h₂ := h₁.pushGoal (g := .chain (r.rhs.reindex k) t i)
    ⟨hplain'.reindex fun _ _ => trivial, ht', htime.trans_lt hi'⟩
    (by rw [Goal.Holds, htime, houtput, hterm]; exact hreach)
  subst hS'
  obtain ⟨σ, hσ, hsolves, ha, hmem, h'⟩ := h₂.unify hwf.scope heqs
    (List.forall_mem_singleton.2 hsource) hl
  refine ⟨_, hmem, u, hu, h', fun htracks => ?_⟩
  have hV : ∀ x : Var, (Scope.below ((m.theory.extract (.app c bs)).run S.supply).2.next).var x →
    x.idx ≠ 0 := fun _ hx => hx.1.ne'
  have htracks := htracks.congr (fun a n hn => (hS.scope.nodes a n hn).time)
    (List.forall_mem_cons.2 ⟨⟨hs, ht, hi⟩, List.forall_mem_map.2 hS.scope.goals⟩) hu
  have htracks := @Tracks.pushGoals _ _ [_] _ _
    (htracks.frame rfl : R.Tracks (S.drawing (m.theory.extract (.app c bs))).2 _ u)
    (((as.eraseIdx j).map (Term.reindex k)).map fun t => .knows t i)
      (List.forall_mem_map.2 fun _ _ => by simp [Goal.kind])
  refine htracks.extracted hm hopens h₁.steps.has hs' ht' hσ hV ha hsolves ?_
  rw [houtput]
  refine .step ⟨r, j, g, as, c, ps, θ, hopens, he.trans (hu.mapVars hs).symm, rfl, rfl⟩ (fun a ha => ?_)
    (.here _)
  rw [htime]
  exact hside a ha

/-- A chain that has come to a variable has reached the term, if only variables are looked for. -/
theorem expandChain (hm : m.Plain) (h : R.Fulfils len S v) (hS : S.WellFormed m.theory) {s t : Term}
    {i : TimeVar} (hs : s.Has (m.theory.constructors (Scope.below S.supply.next).var))
    (ht : t.Has (m.theory.constructors (Scope.below S.supply.next).var))
    (hi : (Scope.below S.supply.next).time i) (hi' : v.time i < len)
    (hreach : m.theory.Reaches (R.sent (v.time i)) (s.mapVars v.term) (t.mapVars v.term))
    (htracks : R.Tracks S (.chain s t i :: S.pending) v) (hl : (S.expandChain m s t i).lossy = false) :
    Extends R len S v (.chain s t i) (S.expandChain m s t i) := by
  have reached : ∀ b : Branches, (S.unify m.theory [(s, t)] ++ b).lossy = false →
      s.mapVars v.term = t.mapVars v.term →
      Extends R len S v (.chain s t i) (S.unify m.theory [(s, t)] ++ b) := by
    intro b hl he
    obtain ⟨S', hS', hu⟩ := h.extends_reached hS hs ht (i := i) he (Branches.lossy_append.1 hl).1
    exact ⟨S', Branches.mem_append.2 (.inl hS'), hu⟩
  unfold System.expandChain at hl ⊢
  simp only at hl ⊢
  cases s with
  | var y =>
    simp only [Term.isVar, if_true] at hl ⊢
    have hdeferred : ∀ g ∈ S.goals, g.goal.isDeferred = true := by
      simpa using (Branches.lossy_append.1 hl).2
    exact reached _ hl (htracks.value_eq_of_chain hm h.values h.sorts
      (List.forall_mem_cons.2 ⟨hreach, List.forall_mem_map.2 h.goals⟩)
      (List.forall_mem_cons.2 ⟨rfl, List.forall_mem_map.2 hdeferred⟩) (List.mem_cons_self ..))
  | name n => exact reached _ hl hreach.eq_of_name.symm
  | app f bs =>
    simp only [Term.isVar, Bool.false_eq_true, if_false] at hl ⊢
    generalize hsource : (Term.app f bs).mapVars v.term = source at hreach
    cases hreach with
    | here => exact reached _ hl hsource
    | step hd hside hreach =>
      obtain ⟨e, he, hextends⟩ :=
        h.extends_extracted hm hS hs ht hi hi' (hsource ▸ hd) hside hreach
      obtain ⟨S', hS', hu⟩ := Extends.of_mem (List.mem_map_of_mem he) (Branches.lossy_append.1 hl).2
        (hextends _ rfl)
      exact ⟨S', Branches.mem_append.2 (.inr hS'), hu⟩

end Execution.Fulfils

/-! ## All goals -/

/-- Solving a goal keeps the solutions of a system that track where messages come from. -/
theorem Execution.Tracks.expand (hm : m.Plain) (hR : R.trace.RespectsSorts m)
    (hlen : R.trace.length ≤ len) (h : R.Fulfils len S v) (htracks : R.Tracks S S.pending v)
    (hS : S.WellFormed m.theory) {k : Nat} {o : OpenGoal} (ho : S.goals[k]? = some o)
    (hl : (S.expand m k).lossy = false) :
    ∃ S' ∈ (S.expand m k).systems, ∃ u : Valuation, R.Fulfils len S' u ∧ R.Tracks S' S'.pending u := by
  have htracks := htracks.eraseGoal ho
  suffices hextends : Fulfils.Extends R len { S with goals := S.goals.eraseIdx k } v o.goal
      (S.expand m k) by
    obtain ⟨S', hS', u, -, h', htracks'⟩ := hextends
    exact ⟨S', hS', u, h', htracks' htracks⟩
  by_cases hkind : o.goal.kind ∈ [.split, .action, .premise]
  · exact h.extends_expand hm hR hlen hS ho hkind hl
  have hmem := List.mem_of_getElem? ho
  have hin := hS.scope.goals o hmem
  have hsteps := h.steps.goals o hmem
  have hholds := h.goals o hmem
  have hS₀ := hS.eraseGoal k
  have h₀ := h.eraseGoal k
  have hwf := hS.expandGoal hm.standard hm.free hm.scope ho
  unfold System.expand at hl ⊢
  simp only [ho] at hl ⊢
  refine Fulfils.Extends.simplify hm hwf ?_
  have hl := Branches.lossy_of_bind hl
  revert hkind hin hsteps hholds htracks hl
  cases o.goal with
  | split | action | premise => exact fun _ hkind => absurd (by simp [Goal.kind]) hkind
  | knows t i =>
    exact fun _ _ hin hsteps hd _ => h₀.expandKnows hm hR hlen hS₀ hin.1 hin.2 hsteps.2 hd
  | chain s t i =>
    exact fun htracks _ hin hsteps hreach hl =>
      h₀.expandChain hm hS₀ hin.1 hin.2.1 hin.2.2 hsteps.2.2 hreach htracks hl

end ProtocolProver
