import ProtocolProver.Proofs.Isomorphism
import ProtocolProver.Proofs.Origins

/-!
# Solutions of systems with one fingerprint

Parts of two systems that correspond have the same values, if corresponding variables and timepoints
have (`Correspondence.Joins`). Systems with the same fingerprint correspond by its numbers, and so an
execution that solves one of them solves the other (`Execution.Tracks.of_fingerprint`).
-/

namespace ProtocolProver

section Lists

variable {α β γ : Type} {R : α → β → Prop} {as : List α} {bs : List β} {a : α}

theorem exists_getElem?_of_forall₂ (h : List.Forall₂ R as bs) {k : Nat} (ha : as[k]? = some a) :
    ∃ b, bs[k]? = some b ∧ R a b := by
  induction h generalizing k with
  | nil => cases ha
  | cons hab _ ih =>
    cases k with
    | zero => cases ha; exact ⟨_, rfl, hab⟩
    | succ k => exact ih ha

theorem exists_mem_of_forall₂ (h : List.Forall₂ R as bs) (ha : a ∈ as) : ∃ b ∈ bs, R a b := by
  obtain ⟨k, hk⟩ := List.mem_iff_getElem?.1 ha
  obtain ⟨b, hb, hab⟩ := exists_getElem?_of_forall₂ h hk
  exact ⟨b, List.mem_of_getElem? hb, hab⟩

theorem map_eq_of_forall₂ {f : α → γ} {g : β → γ} (h : List.Forall₂ R as bs)
    (hfg : ∀ a ∈ as, ∀ b, R a b → f a = g b) : as.map f = bs.map g := by
  induction h with
  | nil => rfl
  | cons hab _ ih =>
    obtain ⟨ha, has⟩ := List.forall_mem_cons.1 hfg
    rw [List.map_cons, List.map_cons, ha _ hab, ih has]

end Lists

/-! ## Values -/

/-- The valuations give the same values to what corresponds. -/
structure Correspondence.Joins (C : Correspondence) (v w : Valuation) : Prop where
  term : ∀ x y, C (.msg x) (.msg y) → v.term x = w.term y
  time : ∀ i j, C (.time i) (.time j) → v.time i = w.time j

section Values

variable {C : Correspondence} {v w : Valuation}

theorem Correspondence.Joins.under (h : C.Joins v w) (bs : List Binder) (u : Valuation) :
    (C.under bs).Joins (v.rebind bs u) (w.rebind bs u) where
  term x y hxy := by
    unfold Correspondence.under at hxy
    split at hxy
    · cases hxy
      simp_all [Valuation.rebind]
    · simp_all [Valuation.rebind, h.term x y]
  time i j hij := by
    unfold Correspondence.under at hij
    split at hij
    · cases hij
      simp_all [Valuation.rebind]
    · simp_all [Valuation.rebind, h.time i j]

theorem Term.Corresponds.mapVars (hC : C.Joins v w) {t t' : Term} (h : t.Corresponds C t') :
    t.mapVars v.term = t'.mapVars w.term := by
  induction t using Term.induction_args generalizing t' with
  | var x => cases h with | var hx => exact hC.term _ _ hx
  | name n => cases h; rfl
  | app f as ih =>
    cases h with
    | app _ has =>
      rw [Term.mapVars_app, Term.mapVars_app, map_eq_of_forall₂ has fun a ha _ h => ih a ha h]

theorem Fact.Corresponds.fact (hC : C.Joins v w) {f f' : Fact} (h : f.Corresponds C f') :
    v.fact f = w.fact f' := by
  have hargs := map_eq_of_forall₂ h.args fun _ _ _ ht => ht.mapVars hC
  simp only [Valuation.fact, Fact.mapTerms, h.pred, h.multiplicity, hargs]

theorem Atom.Corresponds.sat (hC : C.Joins v w) {I : Interpretation} {a a' : Atom}
    (h : a.Corresponds C a') : a'.Sat I w ↔ a.Sat I v := by
  have hvalue : ∀ {t t' : Term}, t.Corresponds C t' → v.value I.theory t = w.value I.theory t' :=
    fun ht => congrArg I.theory.normalize (ht.mapVars hC)
  cases h with
  | action hf hi =>
    rw [Sat, Sat, hf.pred, hC.time _ _ hi, map_eq_of_forall₂ hf.args fun _ _ _ ht => hvalue ht]
  | knows ht hi => rw [Sat, Sat, hvalue ht, hC.time _ _ hi]
  | less hi hj => rw [Sat, Sat, hC.time _ _ hi, hC.time _ _ hj]
  | timeEq hi hj => rw [Sat, Sat, hC.time _ _ hi, hC.time _ _ hj]
  | eq hs ht => rw [Sat, Sat, hvalue hs, hvalue ht]

theorem Nnf.CorrespondsList.forall₂ {fs fs' : List Nnf} (h : Nnf.CorrespondsList C fs fs') :
    List.Forall₂ (Nnf.Corresponds C) fs fs' := by
  induction fs generalizing fs' with
  | nil => cases h; exact .nil
  | cons f fs ih => cases h with | cons hf hfs => exact .cons hf (ih hfs)

theorem Nnf.Corresponds.sat (hC : C.Joins v w) {I : Interpretation} {f f' : Nnf}
    (h : f.Corresponds C f') : f'.Sat I w ↔ f.Sat I v := by
  induction f using Nnf.induction_parts generalizing C v w f' with
  | top | bot => cases h; rfl
  | atom a => cases h with | atom ha => exact ha.sat hC
  | neq s t =>
    cases h with
    | neq hs ht =>
      have hvalue : ∀ {t t' : Term}, t.Corresponds C t' → v.value I.theory t = w.value I.theory t' :=
        fun ht => congrArg I.theory.normalize (ht.mapVars hC)
      rw [Sat, Sat, hvalue hs, hvalue ht]
  | conj fs ih =>
    cases h with
    | conj hfs =>
      rw [sat_conj, sat_conj]
      exact forall_mem_iff_of_forall₂ hfs.forall₂ fun f hf _ h => ih f hf hC h
  | disj fs ih =>
    cases h with
    | disj hfs =>
      rw [sat_disj, sat_disj]
      exact exists_mem_iff_of_forall₂ hfs.forall₂ fun f hf _ h => ih f hf hC h
  | ex bs f ih =>
    cases h with
    | ex hf => exact exists_congr fun u => and_congr_right fun _ => ih (hC.under bs u) hf
  | guarded bs gs f ih =>
    cases h with
    | guarded hgs hf =>
      exact forall₂_congr fun u _ => imp_congr
        (forall_mem_iff_of_forall₂ hgs fun _ _ _ ha => ha.sat (hC.under bs u)) (ih (hC.under bs u) hf)

theorem Term.Corresponds.mem_occurrences {x x' : Var}
    (hx : ∀ y y', C (.msg y) (.msg y') → (y' = x' ↔ y = x)) {t t' : Term} (h : t.Corresponds C t') :
    x' ∈ t'.occurrences ↔ x ∈ t.occurrences := by
  induction t using Term.induction_args generalizing t' with
  | var y =>
    cases h with
    | var hy =>
      rw [occurrences, occurrences, List.mem_singleton, List.mem_singleton, eq_comm, hx _ _ hy, eq_comm]
  | name n => cases h; simp [occurrences]
  | app f as ih =>
    cases h with
    | app _ has =>
      rw [mem_occurrences_app, mem_occurrences_app]
      exact exists_mem_iff_of_forall₂ has fun a ha _ h => ih a ha h

end Values

/-! ## Systems that correspond -/

section Systems

variable {m : Model} {R : Execution m} {len : Nat} {C : Correspondence} {S S' : System}
  {v w : Valuation} {n n' : Node} {id : Nat}

theorem System.Corresponds.node (h : S.Corresponds C S') (hn : S.node? id = some n) :
    ∃ n', S'.node? id = some n' ∧ n.Corresponds C n' := by
  obtain ⟨⟨_, n'⟩, hmem, rfl, hn'⟩ := exists_mem_of_forall₂ h.nodes (mem_liveNodes.2 hn)
  exact ⟨n', mem_liveNodes.1 hmem, hn'⟩

theorem System.Corresponds.exists_node (h : S.Corresponds C S') (hn : S'.node? id = some n') :
    ∃ n, S.node? id = some n ∧ n.Corresponds C n' := by
  obtain ⟨⟨_, n⟩, hmem, hid, hn⟩ := exists_mem_of_forall₂ h.nodes.flip (mem_liveNodes.2 hn)
  cases hid
  exact ⟨n, mem_liveNodes.1 hmem, hn⟩

theorem System.Corresponds.goal (h : S.Corresponds C S') {g : Goal} (hg : g ∈ S.pending) :
    ∃ g' ∈ S'.pending, g.Corresponds C g' := by
  obtain ⟨goals, hperm, hgoals⟩ := h.goals
  obtain ⟨o, ho, rfl⟩ := List.mem_map.1 hg
  obtain ⟨o', ho', hg'⟩ := exists_mem_of_forall₂ hgoals ho
  exact ⟨o'.goal, List.mem_map_of_mem (hperm.mem_iff.1 ho'), hg'⟩

theorem System.Corresponds.exists_goal (h : S.Corresponds C S') {g' : Goal} (hg : g' ∈ S'.pending) :
    ∃ g ∈ S.pending, g.Corresponds C g' := by
  obtain ⟨goals, hperm, hgoals⟩ := h.goals
  obtain ⟨o', ho', rfl⟩ := List.mem_map.1 hg
  obtain ⟨o, ho, hg⟩ := exists_mem_of_forall₂ hgoals.flip (hperm.mem_iff.2 ho')
  exact ⟨o.goal, List.mem_map_of_mem ho, hg⟩

theorem Node.Corresponds.premise (h : n.Corresponds C n') {idx : Nat} {f : Fact}
    (hf : n.premises[idx]? = some f) (hstored : f.Stored) :
    ∃ f', n'.premises[idx]? = some f' ∧ f'.Stored := by
  obtain ⟨f', hf', hcorresponds⟩ := exists_getElem?_of_forall₂ h.premises hf
  exact ⟨f', hf', hcorresponds.pred.trans_ne hstored.1, hcorresponds.pred.trans_ne hstored.2⟩

theorem Node.Corresponds.sitsOn (h : n.Corresponds C n') (hC : C.Joins v w) {step : Step}
    (hsits : n.SitsOn R v step) : n'.SitsOn R w step := by
  have hfacts : ∀ {fs fs' : List Fact}, List.Forall₂ (Fact.Corresponds C) fs fs' →
      fs.map v.fact = fs'.map w.fact := fun h => map_eq_of_forall₂ h fun _ _ _ hf => hf.fact hC
  obtain ⟨hstep, hrule, hp, ha, hc⟩ := hsits
  rw [hC.time _ _ h.time] at hstep
  rw [← h.rule] at hrule
  exact ⟨hstep, hrule, hp.trans (hfacts h.premises), ha.trans (hfacts h.actions),
    hc.trans (hfacts h.conclusions)⟩

theorem Goal.Corresponds.holds (hC : C.Joins v w) (h : S.Corresponds C S') {g g' : Goal}
    (hg : g.Corresponds C g') (hholds : g.Holds R S v) : g'.Holds R S' w := by
  cases hg with
  | action hf hi =>
    rw [Goal.Holds, hf.pred, ← hC.time _ _ hi,
      ← map_eq_of_forall₂ hf.args fun _ _ _ ht => ht.mapVars hC]
    exact hholds
  | premise node idx =>
    obtain ⟨n, f, hn, hf, hstored⟩ := hholds
    obtain ⟨n', hn', hcorresponds⟩ := h.node hn
    obtain ⟨f', hf', hstored'⟩ := hcorresponds.premise hf hstored
    exact ⟨n', f', hn', hf', hstored'⟩
  | knows ht hi =>
    rw [Goal.Holds, ← hC.time _ _ hi, ← ht.mapVars hC]
    exact hholds
  | chain hs ht hi =>
    rw [Goal.Holds, ← hC.time _ _ hi, ← hs.mapVars hC, ← ht.mapVars hC]
    exact hholds
  | split hf => exact (hf.sat hC).2 hholds

/-- A solution solves every system that corresponds. -/
theorem Execution.Fulfils.corresponds (hv : R.Fulfils len S v) (hC : C.Joins v w)
    (h : S.Corresponds C S') (hw : ∀ x, m.theory.Value (w.term x)) (hsorts : RespectsSorts w.term)
    (hsteps : S'.In .any m.theory (w.within len)) (hclasses : ∀ i, w.time (S'.find i) = w.time i) :
    R.Fulfils len S' w where
  values := hw
  sorts := hsorts
  steps := hsteps
  nodes id n' hn' := by
    obtain ⟨n, hn, hcorresponds⟩ := h.exists_node hn'
    obtain ⟨step, hstep⟩ := hv.nodes id n hn
    exact ⟨step, hcorresponds.sitsOn hC hstep⟩
  distinct a b n' k' hn' hk' he := by
    obtain ⟨n, hn, hcorresponds⟩ := h.exists_node hn'
    obtain ⟨k, hk, hcorresponds'⟩ := h.exists_node hk'
    rw [← hC.time _ _ hcorresponds.time, ← hC.time _ _ hcorresponds'.time] at he
    exact hv.distinct a b n k hn hk he
  classes := hclasses
  less p' hp' := by
    obtain ⟨less, hperm, hless⟩ := h.less
    obtain ⟨p, hp, hearlier, hlater⟩ := exists_mem_of_forall₂ hless.flip (hperm.mem_iff.2 hp')
    rw [← hC.time _ _ hearlier, ← hC.time _ _ hlater]
    exact hv.less p hp
  edges e he := by
    obtain ⟨n, k, f, hn, hk, hf, hstored, hp⟩ := hv.edges e (h.edges ▸ he)
    obtain ⟨n', hn', hcorresponds⟩ := h.node hn
    obtain ⟨k', hk', hcorresponds'⟩ := h.node hk
    obtain ⟨f', hf', hstored'⟩ := hcorresponds'.premise hf hstored
    rw [hC.time _ _ hcorresponds.time, hC.time _ _ hcorresponds'.time] at hp
    exact ⟨n', k', f', hn', hk', hf', hstored', hp⟩
  disequalities e' he' := by
    obtain ⟨e, he, hleft, hright⟩ := exists_mem_of_forall₂ h.disequalities.flip he'
    rw [← hleft.mapVars hC, ← hright.mapVars hC]
    exact hv.disequalities e he
  guarded g' hg' := by
    obtain ⟨g, hg, hcorresponds⟩ := exists_mem_of_forall₂ h.guarded.flip hg'
    exact (hcorresponds.sat hC).2 (hv.guarded g hg)
  goals o' ho' := by
    obtain ⟨g, hg, hcorresponds⟩ := h.exists_goal (List.mem_map_of_mem ho')
    obtain ⟨o, ho, rfl⟩ := List.mem_map.1 hg
    exact hcorresponds.holds hC h (hv.goals o ho)

theorem Node.Corresponds.offers {x x' : Var}
    (hx : ∀ y y', C (.msg y) (.msg y') → (y' = x' ↔ y = x)) (h : n.Corresponds C n') :
    n'.Offers x' ↔ n.Offers x :=
  exists_mem_iff_of_forall₂ h.conclusions fun _ _ _ hf =>
    exists_mem_iff_of_forall₂ hf.args fun _ _ _ ht => ht.mem_occurrences hx

theorem Goal.Corresponds.seeks (hC : C.Joins v w) (hn : n.Corresponds C n') {g g' : Goal}
    (hg : g.Corresponds C g') {t : Term} (h : g.Seeks v id n t) :
    ∃ t', g'.Seeks w id n' t' ∧ t.Corresponds C t' := by
  cases hg with
  | action | split => exact h.elim
  | knows ht hi =>
    obtain ⟨rfl, htime⟩ := h
    rw [hC.time _ _ hi, hC.time _ _ hn.time] at htime
    exact ⟨_, ⟨rfl, htime⟩, ht⟩
  | chain _ ht hi =>
    obtain ⟨rfl, htime⟩ := h
    rw [hC.time _ _ hi, hC.time _ _ hn.time] at htime
    exact ⟨_, ⟨rfl, htime⟩, ht⟩
  | premise node idx =>
    obtain ⟨rfl, f, hf, ht⟩ := h
    obtain ⟨f', hf', hfact⟩ := exists_getElem?_of_forall₂ hn.premises hf
    obtain ⟨t', ht', hterm⟩ := exists_mem_of_forall₂ hfact.args ht
    exact ⟨t', ⟨rfl, f', hf', ht'⟩, hterm⟩

/-- Messages come from the same nodes in a system that corresponds, if its variables correspond one to
one. -/
theorem Execution.Tracks.corresponds (ht : R.Tracks S S.pending v) (hC : C.Joins v w)
    (h : S.Corresponds C S') (htwin : ∀ x', S'.Mentions (.msg x') → ∃ x : Var, x.sort = x'.sort ∧
      ∀ y y', C (.msg y) (.msg y') → (y' = x' ↔ y = x)) : R.Tracks S' S'.pending w := by
  refine ⟨fun id n' hn' x' hx' hsort => ?_, fun s' t' i' hg' => ?_⟩
  · obtain ⟨n, hn, hnode⟩ := h.exists_node hn'
    have hmentions : S'.Mentions (.msg x') := by
      obtain ⟨f, hf, t, ht, hx'⟩ := hx'
      exact System.displays_fact (System.mem_liveNodes.2 hn') (List.mem_append_right _ hf) t ht x' hx'
    obtain ⟨x, hsame, hx⟩ := htwin x' hmentions
    rcases ht.origins id n hn x ((hnode.offers hx).1 hx') (hsame.trans hsort) with
      ⟨g, hg, t, hseeks, hmem⟩ | ⟨id', k, hk, hlt, hoffers⟩
    · obtain ⟨g', hg', hgoal⟩ := h.goal hg
      obtain ⟨t', hseeks', hterm⟩ := hgoal.seeks hC hnode hseeks
      exact .inl ⟨g', hg', t', hseeks', (hterm.mem_occurrences hx).2 hmem⟩
    · obtain ⟨k', hk', hnode'⟩ := h.node hk
      rw [hC.time _ _ hnode.time, hC.time _ _ hnode'.time] at hlt
      exact .inr ⟨id', k', hk', hlt, (hnode'.offers hx).2 hoffers⟩
  · obtain ⟨g, hg, hgoal⟩ := h.exists_goal hg'
    cases hgoal with
    | chain hs ht' hi =>
      obtain ⟨id, n, hn, hbefore, hoffered, hderives, hfirst⟩ := ht.chains _ _ _ hg
      obtain ⟨n', hn', hnode⟩ := h.node hn
      rw [hC.time _ _ hi] at hbefore hderives hfirst
      rw [hC.time _ _ hnode.time] at hbefore hfirst
      rw [hs.mapVars hC] at hderives
      rw [ht'.mapVars hC] at hfirst
      refine ⟨id, n', hn', hbefore, fun x' hx' => ?_, hderives, hfirst⟩
      obtain ⟨o', ho', hgoal⟩ := List.mem_map.1 hg'
      obtain ⟨x, -, hx⟩ := htwin x'
        ((System.displays_goal ho').terms s' (by rw [hgoal]; simp [Goal.terms]) x' hx')
      exact (hnode.offers hx).2 (hoffered x ((hs.mem_occurrences hx).1 hx'))

end Systems

/-! ## Systems with one fingerprint -/

theorem Nnf.Scoped.idx_binders {s : Scope} {f : Nnf} (h : f.Scoped .indexed s) :
    ∀ b ∈ f.binders, b.idx = 0 := by
  induction h with
  | top | bot | atom | neq => simp [binders]
  | conj _ ih | disj _ ih =>
    rw [binders, bindersList_eq]
    intro b hb
    obtain ⟨f, hf, hb⟩ := List.mem_flatMap.1 hb
    exact ih f hf b hb
  | ex hbs _ ih => exact List.forall_mem_append.2 ⟨hbs, ih⟩
  | guarded hbs _ _ _ _ _ ih => exact List.forall_mem_append.2 ⟨hbs, ih⟩

namespace System

variable {S S' : System}

theorem WellFormed.bindsApart {T : Theory} (h : S.WellFormed T) : S.BindsApart := by
  have hindex : ∀ b ∈ S.binders, b.idx = 0 := by
    intro b hb
    rcases List.mem_append.1 hb with hb | hb <;> obtain ⟨g, hg, hb⟩ := List.mem_flatMap.1 hb
    · have hgoal := h.scope.goals g hg
      revert hgoal hb
      cases g.goal with
      | split f => exact fun hb hf => hf.scope.idx_binders b hb
      | action | premise | knows | chain => exact fun hb => by cases hb
    · exact (h.scope.guarded g hg).scope.idx_binders b hb
  refine ⟨hindex, fun i hi j => ?_⟩
  have hi : i.idx = 0 := hindex _ hi
  rcases h.scope.classes j with he | ⟨hj, hf⟩
  · rw [he]
  · refine iff_of_false (fun he => ?_) fun he => ?_
    · exact absurd (he ▸ hi) hf.1.ne'
    · exact absurd (he ▸ hi) hj.1.ne'

/-- What occurs with the same number. -/
def Twins (S S' : System) : Correspondence := fun b b' =>
  S.Mentions b ∧ S'.Mentions b' ∧ S.SameNumber S' b b'

theorem eq_of_sameNumber {x x' y' : Var} (hx' : S'.Mentions (.msg x')) (hy' : S'.Mentions (.msg y'))
    (h : S.SameNumber S' (.msg x) (.msg x')) (h' : S.SameNumber S' (.msg x) (.msg y')) : y' = x' := by
  have hsame : S'.SameNumber S' (.msg x') (.msg y') := Eq.trans h' (Eq.symm h)
  rcases sameNumber_msg.1 hsame with ⟨-, he⟩ | ⟨hx, hy, -⟩
  · exact he
  · exact eq_of_numbering (mem_shownVars.2 ⟨hy', hy⟩) (mem_shownVars.2 ⟨hx', hx⟩) hsame

end System

/-- The values that a system with the same fingerprint gives to what has the same number. -/
def Valuation.along (v : Valuation) (S S' : System) : Valuation where
  term x := if x ∈ S.shownVars then v.term (S.renameVar S' x) else v.term x
  time i := v.time (S.renameClass S' (S.find i))

namespace Execution

variable {m : Model} {R : Execution m} {len : Nat} {S S' : System} {v : Valuation}

/-- Values of timepoints that do not matter can be chosen below `len`. -/
theorem Tracks.exists_within (hS : S.WellFormed m.theory) (hlen : 0 < len) (h : R.Fulfils len S v)
    (ht : R.Tracks S S.pending v) :
    ∃ u : Valuation, R.Fulfils len S u ∧ R.Tracks S S.pending u ∧ ∀ i, u.time i < len := by
  let u : Valuation := ⟨v.term, fun i => if v.time i < len then v.time i else 0⟩
  have hvu : v.Agrees (v.within len) u := ⟨fun _ _ => rfl, fun i hi => (if_pos hi).symm⟩
  have hscope := h.scope hS.scope
  refine ⟨u, h.congr hscope hvu h.values h.sorts, ht.congr (fun id n hn => (hscope.nodes id n hn).time)
    (List.forall_mem_map.2 hscope.goals) hvu.symm, fun i => ?_⟩
  simp only [u]
  split
  · assumption
  · exact hlen

theorem joins_along (hclasses : ∀ i, v.time (S.find i) = v.time i) :
    (S.Twins S').Joins v (v.along S' S) where
  term x x' h := by
    obtain ⟨hx, hx', hsame⟩ := h
    simp only [Valuation.along]
    split
    · rw [System.renameVar_eq hx hsame.symm]
    · rename_i hshown
      rcases System.sameNumber_msg.1 hsame with ⟨-, rfl⟩ | ⟨-, hidx, -⟩
      · rfl
      · exact absurd (System.mem_shownVars.2 ⟨hx', hidx⟩) hshown
  time i i' h := by
    obtain ⟨hi, hi', hsame⟩ := h
    exact (hclasses i).symm.trans
      (congrArg v.time (System.renameClass_eq hi hsame.symm).symm)

/-- An execution that solves a system solves every one with the same fingerprint. -/
theorem Tracks.of_fingerprint (hS : S.WellFormed m.theory) (hS' : S'.WellFormed m.theory)
    (hfingerprint : (S.fingerprint == S'.fingerprint) = true) (hlen : 0 < len)
    (h : R.Fulfils len S v) (ht : R.Tracks S S.pending v) :
    ∃ u : Valuation, R.Fulfils len S' u ∧ R.Tracks S' S'.pending u := by
  obtain ⟨u, h, ht, hu⟩ := ht.exists_within hS hlen h
  have hfingerprint' := Fingerprint.beq_symm hfingerprint
  have hC : (S.Twins S').Joins u (u.along S' S) := joins_along h.classes
  have hcorresponds : S.Corresponds (S.Twins S') S' :=
    System.Numbers.system (fun b b' hb hb' hsame => ⟨hb, hb', hsame⟩)
      (fun b hb => hS.bindsApart.isolates hfingerprint hS'.bindsApart hb) hfingerprint
  refine ⟨u.along S' S, h.corresponds hC hcorresponds (fun x => ?_) (fun x => ?_)
    (hS'.scope.mono ⟨fun _ _ => trivial, fun _ _ => hu _⟩).any (fun i => ?_),
    ht.corresponds hC hcorresponds fun x' hx' => ?_⟩
  · simp only [Valuation.along]
    split <;> exact h.values _
  · simp only [Valuation.along]
    split
    · rename_i hx
      obtain ⟨y, -, hsame, he⟩ := System.exists_twin_var hfingerprint' (System.mem_shownVars.1 hx)
      have hsort : y.sort = x.sort := by
        rcases System.sameNumber_msg.1 hsame with ⟨-, rfl⟩ | ⟨-, -, -, hsort⟩
        · rfl
        · exact hsort
      rw [he, ← hsort]
      exact h.sorts y
    · exact h.sorts x
  · exact congrArg (fun c => u.time (S'.renameClass S c)) (S'.classes.find_find i)
  · obtain ⟨b, hb, hsame⟩ := System.exists_twin hfingerprint' hx'
    cases b with
    | time => exact hsame.elim
    | msg x =>
      refine ⟨x, ?_, fun y y' hy => ⟨?_, ?_⟩⟩
      · rcases System.sameNumber_msg.1 hsame with ⟨-, rfl⟩ | ⟨-, -, -, hsort⟩
        · rfl
        · exact hsort
      · rintro rfl
        exact System.eq_of_sameNumber hb hy.1 hsame hy.2.2.symm
      · rintro rfl
        exact System.eq_of_sameNumber hx' hy.2.1 hsame.symm hy.2.2

end Execution

end ProtocolProver
