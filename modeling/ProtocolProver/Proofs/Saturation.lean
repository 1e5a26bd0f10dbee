import ProtocolProver.Proofs.ClassicalTruth
import ProtocolProver.Proofs.ScopedSystems

/-!
# Instances of guarded formulas

A match of the actions of a guard gives a value to everything that the formula binds
(`GuardMatch.Fits`). What the formula then requires is in scope, and it is true wherever the formula
and the nodes of the system are (`sat_requirement`).
-/

namespace ProtocolProver

namespace System

/-- What is known of a match once the actions `done` of the guard have been found. -/
structure GuardMatch.Fits (S : System) (g : Guarded) (done : List (Fact × TimeVar))
    (p : GuardMatch) : Prop where
  binds : ∀ c ∈ done, ∀ t ∈ c.1.args, p.subst.Binds t
  found : ∀ c ∈ done, ∃ id n, S.node? id = some n ∧
    (∃ a ∈ n.actions, a.pred = c.1.pred ∧ c.1.args.map (Term.mapVars p.subst.value) = a.args) ∧
      ∃ j, p.times.get? c.2 = some j ∧ S.find j = S.find n.time
  free : ∀ c ∈ g.actions, ∀ t ∈ c.1.args, ∀ x ∈ t.occurrences, .msg x ∉ g.binders →
    p.subst.get? x = some (.var x)
  times : ∀ i j, p.times.get? i = some j →
    (∃ id n, S.node? id = some n ∧ j = n.time) ∧ (.time i ∉ g.binders → S.find i = S.find j)
  sorts : ∀ x u, p.subst.get? x = some u → x.sort.admits u.sort = true

variable {S : System} {g : Guarded} {p : GuardMatch}

theorem fits_start : GuardMatch.Fits S g [] ⟨SortedMap.ofList
    (((factOccurrences (g.actions.map (·.1))).filter fun v => !g.binders.contains (.msg v)).map
      fun v => (v, .var v)), ∅, []⟩ where
  binds := nofun
  found := nofun
  free c hc t ht x hx hb := by
    rw [SortedMap.get?_ofList_map, if_pos]
    rw [List.mem_filter, factOccurrences, List.mem_flatMap]
    refine ⟨⟨c.1, List.mem_map_of_mem hc, ?_⟩, by simpa using hb⟩
    rw [Term.occurrencesList_eq]
    exact List.mem_flatMap.2 ⟨t, ht, hx⟩
  times i j h := by cases h
  sorts x u h := by
    obtain ⟨y, -, he⟩ := List.mem_map.1 (SortedMap.mem_of_get?_ofList h)
    cases he
    exact TermSort.admits_self _

theorem GuardMatch.Fits.matchAction {done : List (Fact × TimeVar)} (h : p.Fits S g done)
    {pattern : Fact} {i : TimeVar} {q : GuardMatch}
    (hq : q ∈ S.matchAction g.binders p pattern i) : q.Fits S g (done ++ [(pattern, i)]) := by
  obtain ⟨⟨id, n⟩, hn, hq⟩ := List.mem_flatMap.1 hq
  have hn := mem_liveNodes.1 hn
  simp only at hq
  split at hq
  · rename_i hfits
    obtain ⟨⟨a, k⟩, ha, hq⟩ := List.mem_filterMap.1 hq
    have ha := List.fst_mem_of_mem_zipIdx ha
    simp only at hq
    split at hq
    · rename_i hshape
      simp only [Fact.sameShape, Bool.and_eq_true, beq_iff_eq] at hshape
      obtain ⟨σ, hσ, rfl⟩ := Option.map_eq_some_iff.1 hq
      cases hm : matchTerms pattern.args a.args p.subst with
      | error e => rw [matchTerms?, hm] at hσ; cases hσ
      | ok τ =>
        rw [matchTerms?, hm] at hσ
        cases hσ
        obtain ⟨hle, hbinds, hmap⟩ := matchTerms_sound hshape.2.symm hm
        -- A timepoint that was matched before stays in its class.
        have htime : ∀ j l, p.times.get? j = some l → ∃ l',
            (p.times.insert i n.time).get? j = some l' ∧ S.find l' = S.find l := by
          intro j l hl
          rw [SortedMap.get?_insert]
          split
          · rename_i hj
            refine ⟨n.time, rfl, ?_⟩
            unfold timeFits at hfits
            split at hfits
            · rw [← hj, hl] at hfits
              exact Eq.symm (by simpa using hfits)
            · rename_i hb
              have hi := (h.times i l (hj ▸ hl)).2 (by simpa using hb)
              rw [← hi]
              exact Eq.symm (by simpa using hfits)
          · exact ⟨l, hl, rfl⟩
        refine ⟨?_, ?_, fun c hc t ht x hx hb => hle x _ (h.free c hc t ht x hx hb), ?_, ?_⟩
        · refine List.forall_mem_append.2 ⟨fun c hc t ht => hle.binds (h.binds c hc t ht), ?_⟩
          exact List.forall_mem_singleton.2 hbinds
        · refine List.forall_mem_append.2 ⟨fun c hc => ?_, List.forall_mem_singleton.2 ?_⟩
          · obtain ⟨id', n', hn', ⟨b, hb, hpred, hargs⟩, j, hj, hfind⟩ := h.found c hc
            obtain ⟨l, hl, he⟩ := htime c.2 j hj
            refine ⟨id', n', hn', ⟨b, hb, hpred, ?_⟩, l, hl, he.trans hfind⟩
            rw [← hargs]
            exact List.map_congr_left fun t ht => hle.mapVars_eq (h.binds c hc t ht)
          · exact ⟨id, n, hn, ⟨a, ha, hshape.1, hmap⟩, n.time, by simp [SortedMap.get?_insert], rfl⟩
        · intro j l hl
          simp only [SortedMap.get?_insert] at hl
          split at hl
          · rename_i hj
            cases hl
            refine ⟨⟨id, n, hn, rfl⟩, fun hb => ?_⟩
            unfold timeFits at hfits
            rw [if_neg (by simpa [hj] using hb)] at hfits
            simpa [hj] using hfits
          · exact h.times j l hl
        · exact matchTerms_bindings (Q := fun _ => True) (fun _ _ _ _ _ => trivial) hm
            (fun _ _ => trivial) (fun _ _ _ _ _ _ hs => hs) h.sorts
    · cases hq
  · cases hq

theorem fits_guardMatches (hp : p ∈ S.guardMatches g) : p.Fits S g g.actions := by
  have fold : ∀ (rest done : List (Fact × TimeVar)) (found : List GuardMatch),
      (∀ q ∈ found, q.Fits S g done) → ∀ q ∈ rest.foldl (fun found a =>
        found.flatMap fun q => S.matchAction g.binders q a.1 a.2) found,
        q.Fits S g (done ++ rest) := by
    intro rest
    induction rest with
    | nil => simp
    | cons c rest ih =>
      intro done found hfound
      rw [← List.singleton_append, ← List.append_assoc]
      refine ih _ _ fun q hq => ?_
      obtain ⟨q', hq', hq⟩ := List.mem_flatMap.1 hq
      exact (hfound q' hq').matchAction hq
  exact fold g.actions [] _ (List.forall_mem_singleton.2 fits_start) p hp

/-- The values of a match for what the formula binds. -/
def GuardMatch.binding (p : GuardMatch) (g : Guarded) : Binding :=
  ⟨p.subst.filterKeys fun v => g.binders.contains (.msg v), p.times⟩

theorem GuardMatch.term_binding (p : GuardMatch) (g : Guarded) (x : Var) :
    (p.binding g).replacement.term x = if .msg x ∈ g.binders then p.subst.value x else .var x := by
  by_cases hx : .msg x ∈ g.binders <;>
    simp [GuardMatch.binding, Binding.replacement, Subst.value, SortedMap.get?_filterKeys, hx]

theorem mem_actions {c : Fact × TimeVar} :
    c ∈ g.actions ↔ ∃ a ∈ g.guard, a.action? = some c := List.mem_filterMap

section Scope

variable {T : Theory} {s : Scope} (h : S.In .indexed T s) (hg : g.toNnf.In .indexed T s)
  (hp : p ∈ S.guardMatches g)
include h hg hp

theorem leads_binding : (p.binding g).replacement.Leads (s.bind g.binders) s := by
  have hfits := fits_guardMatches hp
  obtain ⟨hscope, -⟩ := hg
  cases hscope with
  | guarded _ hguarded =>
    refine ⟨fun x hx => ?_, fun i hi => ?_⟩
    · rw [p.term_binding]
      split
      · rename_i hb
        obtain ⟨f, i, hf, t, ht, hxt⟩ := hguarded _ hb
        obtain ⟨id, n, hn, ⟨a, ha, -, hargs⟩, -⟩ := hfits.found (f, i) (mem_actions.2 ⟨_, hf, rfl⟩)
        have hmem : t.mapVars p.subst.value ∈ a.args := hargs ▸ List.mem_map_of_mem ht
        have hvalue := Term.of_mapVars (Q := Term.Has (T.constructors s.var))
          (fun _ _ h => h.args) ((h.nodes id n hn).has.actions a ha _ hmem) x hxt
        exact fun y hy => hvalue.var_of_mem hy
      · rename_i hb
        exact List.forall_mem_singleton.2 (hx.resolve_right hb)
    · change s.time ((p.times.get? i).getD i)
      cases hj : p.times.get? i with
      | some j =>
        obtain ⟨⟨id, n, hn, rfl⟩, -⟩ := hfits.times i j hj
        exact (h.nodes id n hn).time
      | none =>
        refine hi.resolve_right fun hb => ?_
        obtain ⟨f, hf⟩ := hguarded _ hb
        obtain ⟨-, -, -, -, j, hj', -⟩ := hfits.found (f, i) (mem_actions.2 ⟨_, hf, rfl⟩)
        cases hj.symm.trans hj'

theorem in_requirement : (g.requirement (p.binding g)).In .indexed T s := by
  have hleads := leads_binding h hg hp
  have hhas : S.Has T.plainShape := h.has
  refine ⟨?_, Guarded.has_requirement hg.plain (fun _ => trivial)
    ((within_guardMatches hhas (fun _ => trivial) p hp).filterKeys _)⟩
  obtain ⟨hscope, -⟩ := hg
  cases hscope with
  | guarded _ _ _ _ hgs hbody =>
    have hbody := hbody.instantiate hleads
    unfold Guarded.requirement
    simp only
    split
    · exact hbody
    · refine .disj (List.forall_mem_append.2 ⟨fun f hf => ?_, List.forall_mem_singleton.2 hbody⟩)
      obtain ⟨a, ha, hn⟩ := List.mem_filterMap.1 hf
      cases hneg : (a.instantiate (p.binding g)).negate with
      | error e => rw [hneg] at hn; cases hn
      | ok f' =>
        rw [hneg] at hn
        cases hn
        exact ((hgs a (List.mem_filter.1 ha).1).map hleads).negate (fun _ _ => trivial) hneg

omit hg hp in
theorem In.saturate : S.saturate.In .indexed T s := by
  obtain ⟨goals, next, applied, he, hgoals⟩ := @saturate_eq S
  rw [he]
  refine { h with goals := List.forall_mem_append.2 ⟨h.goals, ?_⟩ }
  rw [← List.forall_mem_map (f := OpenGoal.goal) (P := fun g => g.In .indexed T s)]
  intro goal hgoal
  obtain ⟨g, hg, p, hp, rfl⟩ := hgoals goal hgoal
  exact in_requirement h (h.guarded g hg) hp

end Scope

/-! ## Truth -/

section Truth

variable {I : Interpretation} {v : Valuation} {k : Nat} (hI : I.Grounded)
  (h : S.In .indexed I.theory (.below k)) (hg : g.toNnf.In .indexed I.theory (.below k))
  (hsorts : RespectsSorts v.term) (hclasses : ∀ i, v.time (S.find i) = v.time i)
  (hnodes : ∀ id n, S.node? id = some n → ∀ a ∈ n.actions,
    I.trace.Emits (v.time n.time) a.pred (a.args.map (Term.mapVars v.term)))
  (hp : p ∈ S.guardMatches g)

include hclasses in
theorem time_eq_of_find {i j : TimeVar} (he : S.find i = S.find j) : v.time i = v.time j := by
  rw [← hclasses i, ← hclasses j, he]

include h hg hp in
theorem apart_binding : (p.binding g).replacement.Apart := by
  refine ⟨fun x => ?_, fun i => ?_⟩
  · by_cases hb : .msg x ∈ g.binders
    · exact .inr fun y hy => ((leads_binding h hg hp).term x (.inr hb) y hy).1.ne'
    · exact .inl (by rw [p.term_binding, if_neg hb])
  · change (p.times.get? i).getD i = i ∨ ((p.times.get? i).getD i).idx ≠ 0
    cases hj : p.times.get? i with
    | some j =>
      obtain ⟨⟨id, n, hn, rfl⟩, -⟩ := (fits_guardMatches hp).times i j hj
      exact .inr (h.nodes id n hn).time.1.ne'
    | none => exact .inl rfl

include hclasses hp in
theorem rebind_binding : v.rebind g.binders (v.after (p.binding g).replacement) =
    v.after (p.binding g).replacement := by
  refine congrArg₂ Valuation.mk (funext fun x => ?_) (funext fun x => ?_)
  · split
    · rfl
    · rename_i hb
      simp [p.term_binding, hb, Term.mapVars]
  · split
    · rfl
    · rename_i hb
      change v.time x = v.time ((p.times.get? x).getD x)
      cases hj : p.times.get? x with
      | some j => exact time_eq_of_find hclasses (((fits_guardMatches hp).times x j hj).2 hb)
      | none => rfl

include hp in
theorem args_found {c : Fact × TimeVar} (hc : c ∈ g.actions) :
    c.1.args.map (Term.mapVars (v.after (p.binding g).replacement).term) =
      c.1.args.map fun t => (t.mapVars p.subst.value).mapVars v.term := by
  refine List.map_congr_left fun t ht => ?_
  rw [Term.mapVars_mapVars]
  refine Term.mapVars_congr fun x hx => ?_
  simp only [Valuation.after, p.term_binding]
  split
  · rfl
  · rename_i hb
    rw [Subst.value_of_get? ((fits_guardMatches hp).free c hc t ht x hx hb)]

include hclasses hnodes hp in
theorem emits_found {c : Fact × TimeVar} (hc : c ∈ g.actions) :
    I.trace.Emits ((v.after (p.binding g).replacement).time c.2) c.1.pred
      (c.1.args.map (Term.mapVars (v.after (p.binding g).replacement).term)) := by
  obtain ⟨id, n, hn, ⟨a, ha, hpred, hargs⟩, j, hj, hfind⟩ := (fits_guardMatches hp).found c hc
  have htime : (v.after (p.binding g).replacement).time c.2 = v.time n.time := by
    change v.time ((p.times.get? c.2).getD c.2) = _
    rw [hj]
    exact time_eq_of_find hclasses hfind
  have hmap : a.args.map (Term.mapVars v.term) =
      c.1.args.map fun t => (t.mapVars p.subst.value).mapVars v.term := by
    rw [← hargs, List.map_map]
    rfl
  rw [args_found hp hc, htime, ← hmap, ← hpred]
  exact hnodes id n hn a ha

include hI in
theorem mem_domain_of_emits {n : Nat} {pred : String} {args : List Term}
    (he : I.trace.Emits n pred args) : ∀ t ∈ args, t ∈ I.domain := by
  obtain ⟨step, hstep, f, hf, -, rfl⟩ := he
  exact hI.actions step (List.mem_of_getElem? hstep) f hf

include hI hg hsorts hclasses hnodes hp in
theorem ranges_binding : Valuation.Ranges I g.binders (v.after (p.binding g).replacement) := by
  have hfits := fits_guardMatches hp
  have hfound := fun {c} => emits_found hclasses hnodes hp (c := c)
  obtain ⟨hscope, -⟩ := hg
  cases hscope with
  | guarded _ hguarded =>
    refine ⟨fun x hx => ?_, fun i hi => ?_⟩
    · obtain ⟨f, i, hf, t, ht, hxt⟩ := hguarded _ hx
      have hc : (f, i) ∈ g.actions := mem_actions.2 ⟨_, hf, rfl⟩
      constructor
      · exact Term.of_mapVars (Q := (· ∈ I.domain)) hI.args
          (mem_domain_of_emits hI (hfound hc) _ (List.mem_map_of_mem ht)) x hxt
      · obtain ⟨u, hu⟩ := hfits.binds _ hc t ht x hxt
        simp only [Valuation.after, p.term_binding, if_pos hx, Subst.value_of_get? hu]
        exact Term.admits_mapVars hsorts (hfits.sorts x u hu)
    · obtain ⟨f, hf⟩ := hguarded _ hi
      obtain ⟨step, hstep, -⟩ := hfound (c := (f, i)) (mem_actions.2 ⟨_, hf, rfl⟩)
      exact (List.getElem?_eq_some_iff.1 hstep).1

include hI hclasses hnodes hp in
theorem sat_action_of_found {a : Atom} {c : Fact × TimeVar} (ha : a ∈ g.guard)
    (hac : a.action? = some c) : a.Sat I (v.after (p.binding g).replacement) := by
  have hfound := emits_found hclasses hnodes hp (mem_actions.2 ⟨a, ha, hac⟩)
  have hvalues : ∀ t ∈ c.1.args, (v.after (p.binding g).replacement).value I.theory t =
      t.mapVars (v.after (p.binding g).replacement).term := fun t ht =>
    (hI.values _ (mem_domain_of_emits hI hfound _ (List.mem_map_of_mem ht))).normalize hI.free
  rw [Atom.sat_action? hac, List.map_congr_left hvalues]
  exact hfound

include hI h hg hsorts hclasses hnodes hp in
/-- Where a guarded formula is true and the actions of its guard are found, what it requires is. -/
theorem sat_requirement (hsat : g.toNnf.Sat I v) : (g.requirement (p.binding g)).Sat I v := by
  obtain ⟨hscope, -⟩ := id hg
  cases hscope with
  | guarded _ _ hknows _ _ hbody =>
  have hbody' := hbody.sat_instantiate (I := I) (apart_binding h hg hp) (v := v)
  unfold Guarded.requirement
  simp only
  by_cases hall : ∀ a ∈ g.conditions, a.Sat I (v.after (p.binding g).replacement)
  · have hguard : ∀ a ∈ g.guard, a.Sat I (v.after (p.binding g).replacement) := by
      intro a ha
      cases hac : a.action? with
      | some c => exact sat_action_of_found hI hclasses hnodes hp ha hac
      | none => exact hall a (List.mem_filter.2 ⟨ha, by simp [hac]⟩)
    have hsat := hsat _ (ranges_binding hI hg hsorts hclasses hnodes hp)
    rw [rebind_binding hclasses hp] at hsat
    have hbody' := hbody'.2 (hsat hguard)
    split
    · exact hbody'
    · exact Nnf.sat_disj.2 ⟨_, List.mem_append_right _ (List.mem_singleton.2 rfl), hbody'⟩
  · obtain ⟨a, ha, hfalse⟩ : ∃ a ∈ g.conditions, ¬a.Sat I (v.after (p.binding g).replacement) := by
      simpa using hall
    -- A condition that fails has a negation, which is among the failures.
    have hneg : ∃ f, (a.instantiate (p.binding g)).negate = .ok f := by
      have hnone := (List.mem_filter.1 ha).2
      cases a <;> first | exact ⟨_, rfl⟩ | cases hnone
    obtain ⟨f, hf⟩ := hneg
    have hmem : f ∈ g.conditions.filterMap fun a => (a.instantiate (p.binding g)).negate.toOption :=
      List.mem_filterMap.2 ⟨a, ha, by rw [hf]; rfl⟩
    rw [if_neg fun he => by simp [List.isEmpty_iff.1 he] at hmem]
    refine Nnf.sat_disj.2 ⟨f, List.mem_append_left _ hmem, (Formula.sat_negate hf).2 fun hsat => ?_⟩
    exact hfalse ((Atom.sat_map I v (p.binding g).replacement a).1 hsat)

end Truth

end System

end ProtocolProver
