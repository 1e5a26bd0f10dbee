import ProtocolProver.Proofs.Timeline

/-!
# Cycles of timepoints

The search for a cycle goes depth first. A timepoint is active as long as it is to be left, and every
visit is to a timepoint right after the active one below it (`Precedence.Walk.Chained`), so a
precedence that leads to an active timepoint closes a cycle. A timepoint is done after all timepoints
right after it, so no cycle goes through it. Every step keeps this up (`Precedence.Walk.Sound.step`)
and leaves less to do, so the search ends (`Precedence.Walk.ends_answer`) with the answer whether the
ordering constraints have no cycle (`System.isAcyclic_exact`).
-/

namespace ProtocolProver

open Relation (TransGen)

namespace Precedence

variable {ps : List Precedence} {i j : TimeVar}

/-- One timepoint is right before another. -/
def Before (ps : List Precedence) (i j : TimeVar) : Prop := ⟨i, j⟩ ∈ ps

theorem mem_next : j ∈ next ps i ↔ Before ps i j := by
  simp only [next, Before, List.mem_map, List.mem_filter, decide_eq_true_eq]
  constructor
  · rintro ⟨p, ⟨hp, rfl⟩, rfl⟩
    exact hp
  · exact fun h => ⟨_, ⟨h, rfl⟩, rfl⟩

theorem not_transGen_of_acc (h : Acc (fun j i => Before ps i j) i) : ¬TransGen (Before ps) i i := by
  induction h with
  | intro i _ ih =>
    intro hcycle
    obtain ⟨j, hij, hji⟩ := TransGen.head'_iff.1 hcycle
    exact ih j hij (TransGen.tail' hji hij)

/-- The timepoint of a visit. -/
def Visit.time : Visit → TimeVar
  | .enter i => i
  | .leave i => i

/-- The number of steps that a visit takes. What is entered is left too. -/
def Visit.steps : Visit → Nat
  | .enter _ => 2
  | .leave _ => 1

theorem contains_insert {marks : SortedMap TimeVar Mark} {m : Mark} :
    (marks.insert i m).contains j = (j == i || marks.contains j) := by
  simp only [SortedMap.contains, SortedMap.get?_insert]
  by_cases h : j = i <;> simp [h]

namespace Walk

variable {vs : List Visit} {v : Visit} {w w' : Walk}

/-- The timepoint that is left first. -/
def innermost? : List Visit → Option TimeVar
  | [] => none
  | .leave i :: _ => some i
  | .enter _ :: vs => innermost? vs

/-- Every visit is to a timepoint right after the innermost one below it. -/
def Chained (ps : List Precedence) : List Visit → Prop
  | [] => True
  | v :: vs => (∀ i, innermost? vs = some i → Before ps i v.time) ∧ Chained ps vs

theorem Chained.transGen (h : Chained ps (v :: vs)) (hi : .leave i ∈ vs) :
    TransGen (Before ps) i v.time := by
  induction vs generalizing v with
  | nil => cases hi
  | cons u vs ih =>
    obtain ⟨hv, hu⟩ := h
    cases u with
    | enter j => exact ih ⟨hv, hu.2⟩ (by simpa using hi)
    | leave j =>
      have hj : Before ps j v.time := hv j rfl
      rcases List.mem_cons.1 hi with hi | hi
      · cases hi
        exact .single hj
      · exact (ih hu hi).tail hj

theorem Chained.enter (h : Chained ps (.leave i :: vs)) :
    ∀ {js : List TimeVar}, (∀ j ∈ js, Before ps i j) →
      Chained ps (js.map .enter ++ .leave i :: vs) ∧
        innermost? (js.map .enter ++ .leave i :: vs) = some i
  | [], _ => ⟨h, rfl⟩
  | j :: js, hjs => by
    obtain ⟨hj, hjs⟩ := List.forall_mem_cons.1 hjs
    obtain ⟨hchained, hinner⟩ := h.enter hjs
    refine ⟨⟨fun k hk => ?_, hchained⟩, hinner⟩
    cases hinner.symm.trans hk
    exact hj

theorem chained_map_enter : ∀ is : List TimeVar,
    Chained ps (is.map .enter) ∧ innermost? (is.map .enter) = none
  | [] => ⟨trivial, rfl⟩
  | _ :: is => by
    obtain ⟨hchained, hinner⟩ := chained_map_enter is
    refine ⟨⟨fun k hk => ?_, hchained⟩, hinner⟩
    cases hinner.symm.trans hk

theorem map_enter_append_eq : ∀ {js : List TimeVar} {above below : List Visit},
    js.map .enter ++ .leave i :: vs = above ++ .leave j :: below →
      (above = js.map .enter ∧ j = i ∧ below = vs) ∨
        ∃ above', above = js.map .enter ++ .leave i :: above' ∧ vs = above' ++ .leave j :: below
  | [], [], below, h => by
    cases h
    exact .inl ⟨rfl, rfl, rfl⟩
  | [], _ :: above, below, h => by
    cases h
    exact .inr ⟨above, rfl, rfl⟩
  | _ :: _, [], _, h => by cases h
  | k :: js, u :: above, below, h => by
    rw [List.map_cons, List.cons_append, List.cons_append, List.cons_eq_cons] at h
    obtain ⟨rfl, h⟩ := h
    rcases map_enter_append_eq h with ⟨rfl, rfl, rfl⟩ | ⟨above', rfl, rfl⟩
    · exact .inl ⟨rfl, rfl, rfl⟩
    · exact .inr ⟨above', rfl, rfl⟩

/-- What is known of an active timepoint, with what is to be done before and after it is left: it is
active once, no precedence leads from it to a timepoint that was active before it, and all that is
right after it is done or will be before it is left. -/
structure Pending (ps : List Precedence) (marks : SortedMap TimeVar Mark) (above : List Visit)
    (i : TimeVar) (below : List Visit) : Prop where
  once : .leave i ∉ below
  forward : ∀ j, Before ps i j → .leave j ∉ .leave i :: below
  ahead : ∀ j, Before ps i j → marks.get? j = some .done ∨ .enter j ∈ above ∨ .leave j ∈ above

/-- What holds of a search all the time. -/
structure Sound (ps : List Precedence) (w : Walk) : Prop where
  chained : Chained ps w.visits
  active : ∀ i, w.marks.get? i = some .active ↔ .leave i ∈ w.visits
  done : ∀ i, w.marks.get? i = some .done → Acc (fun j i => Before ps i j) i
  pending : ∀ above i below, w.visits = above ++ .leave i :: below →
    Pending ps w.marks above i below
  reached : ∀ i j, Before ps i j → w.marks.contains i = true ∨ .enter i ∈ w.visits

theorem sound_start (ps : List Precedence) : Sound ps (start ps) := by
  have hleave : ∀ i, Visit.leave i ∉ (start ps).visits := by simp [start]
  have hchained : Chained ps ((ps.map earlier).map .enter) := (chained_map_enter _).1
  rw [List.map_map] at hchained
  refine ⟨hchained, fun i => ?_, fun i hi => ?_, fun above i below h => ?_, fun i j h => ?_⟩
  · rw [iff_false_right (hleave i)]
    simp [start]
  · simp [start] at hi
  · exact absurd (by rw [h]; simp) (hleave i)
  · exact .inr (List.mem_map.2 ⟨_, h, rfl⟩)

namespace Sound

variable {marks : SortedMap TimeVar Mark}

theorem leave (h : Sound ps ⟨marks, .leave i :: vs⟩) : Sound ps ⟨marks.insert i .done, vs⟩ := by
  have hi := h.pending [] i vs rfl
  refine ⟨h.chained.2, fun j => ?_, fun j hj => ?_, fun above j below hvs => ?_, fun j k hjk => ?_⟩
  · have hj := h.active j
    rw [SortedMap.get?_insert]
    split
    · rename_i hji
      subst hji
      simp [hi.once]
    · rename_i hji
      simpa [hji] using hj
  · rw [SortedMap.get?_insert] at hj
    split at hj
    · rename_i hji
      subst hji
      refine .intro _ fun k hk => h.done k ?_
      simpa using hi.ahead k hk
    · exact h.done j hj
  · have hj := h.pending (.leave i :: above) j below (congrArg _ hvs)
    refine ⟨hj.once, hj.forward, fun k hk => ?_⟩
    have hahead := hj.ahead k hk
    rw [SortedMap.get?_insert]
    by_cases hki : k = i
    · exact .inl (if_pos hki)
    · simpa [hki] using hahead
  · rw [contains_insert, Bool.or_eq_true]
    exact (h.reached j k hjk).imp .inr (by simp)

theorem skip (h : Sound ps ⟨marks, .enter i :: vs⟩) (hi : marks.contains i = true) :
    Sound ps ⟨marks, vs⟩ := by
  refine ⟨h.chained.2, fun j => ?_, h.done, fun above j below hvs => ?_, fun j k hjk => ?_⟩
  · simpa using h.active j
  · have hj := h.pending (.enter i :: above) j below (congrArg _ hvs)
    refine ⟨hj.once, hj.forward, fun k hk => ?_⟩
    rcases hj.ahead k hk with hdone | hmem | hmem
    · exact .inl hdone
    · rcases List.mem_cons.1 hmem with he | hmem
      · cases he
        -- It is done, or it is active and became so after `j`.
        obtain ⟨mark, hmark⟩ := Option.isSome_iff_exists.1 hi
        cases mark with
        | done => exact .inl hmark
        | active =>
          have hleave : .leave i ∈ vs := by simpa using (h.active i).1 hmark
          rw [show vs = _ from hvs, List.mem_append] at hleave
          exact .inr (.inr (hleave.resolve_right (hj.forward i hk)))
      · exact .inr (.inl hmem)
    · exact .inr (.inr (by simpa using hmem))
  · rcases h.reached j k hjk with hmark | hmem
    · exact .inl hmark
    · rcases List.mem_cons.1 hmem with he | hmem
      · cases he
        exact .inl hi
      · exact .inr hmem

theorem enter (h : Sound ps ⟨marks, .enter i :: vs⟩) (hi : marks.get? i = none)
    (hnext : ∀ j, Before ps i j → (marks.insert i .active).get? j ≠ some .active) {new : List TimeVar}
    (hnew : ∀ j, j ∈ new ↔ Before ps i j ∧ (marks.insert i .active).contains j = false) :
    Sound ps ⟨marks.insert i .active, new.map .enter ++ .leave i :: vs⟩ := by
  have hleave : ∀ j, Visit.leave j ∈ vs ↔ marks.get? j = some .active := fun j => by
    simpa using (h.active j).symm
  have hself : Pending ps (marks.insert i .active) (new.map .enter) i vs := by
    refine ⟨fun hmem => ?_, fun j hj hmem => ?_, fun j hj => ?_⟩
    · rw [hleave, hi] at hmem
      cases hmem
    · have hactive := hnext j hj
      rw [SortedMap.get?_insert] at hactive
      split at hactive
      · exact hactive rfl
      · rename_i hji
        rw [List.mem_cons, Visit.leave.injEq, hleave] at hmem
        exact hmem.elim hji hactive
    · have hactive := hnext j hj
      cases hmark : (marks.insert i .active).get? j with
      | none =>
        have hmem : j ∈ new := (hnew j).2 ⟨hj, by simp [SortedMap.contains, hmark]⟩
        exact .inr (.inl (List.mem_map_of_mem hmem))
      | some mark =>
        cases mark with
        | active => exact absurd hmark hactive
        | done => exact .inl rfl
  refine ⟨?_, fun j => ?_, fun j hj => ?_, fun above j below hvs => ?_, fun j k hjk => ?_⟩
  · have hchained : Chained ps (.leave i :: vs) := h.chained
    exact (hchained.enter fun j hj => ((hnew j).1 hj).1).1
  · have hj := h.active j
    rw [SortedMap.get?_insert]
    split
    · rename_i hji
      simp [hji]
    · rename_i hji
      simpa [hji] using hj
  · rw [SortedMap.get?_insert] at hj
    split at hj
    · cases hj
    · exact h.done j hj
  · rcases map_enter_append_eq hvs with ⟨rfl, rfl, rfl⟩ | ⟨above', rfl, rfl⟩
    · exact hself
    · have hj := h.pending (.enter i :: above') j below rfl
      refine ⟨hj.once, hj.forward, fun k hk => ?_⟩
      rcases hj.ahead k hk with hdone | hmem | hmem
      · refine .inl ?_
        rw [SortedMap.get?_insert, if_neg, hdone]
        rintro rfl
        cases hi.symm.trans hdone
      · rcases List.mem_cons.1 hmem with he | hmem
        · cases he
          exact .inr (.inr (by simp))
        · exact .inr (.inl (by simp [hmem]))
      · exact .inr (.inr (by simp_all))
  · rw [contains_insert, Bool.or_eq_true, beq_iff_eq]
    rcases h.reached j k hjk with hmark | hmem
    · exact .inl (.inr hmark)
    · rcases List.mem_cons.1 hmem with he | hmem
      · cases he
        exact .inl (.inl rfl)
      · exact .inr (by simp [hmem])

end Sound

/-! ## Steps -/

/-- A step leaves a timepoint, skips one with a mark, or enters one that no cycle is closed at. -/
theorem step_eq_inr (h : w.step ps = .inr w') :
    (∃ i, w.visits = .leave i :: w'.visits ∧ w'.marks = w.marks.insert i .done) ∨
    (∃ i, w.visits = .enter i :: w'.visits ∧ w.marks.contains i = true ∧ w'.marks = w.marks) ∨
    ∃ i rest new, w.visits = .enter i :: rest ∧ w.marks.get? i = none ∧
      (∀ j, Before ps i j → (w.marks.insert i .active).get? j ≠ some .active) ∧
      new = ((next ps i).filter fun j => !(w.marks.insert i .active).contains j).reverse ∧
      w' = ⟨w.marks.insert i .active, new.map .enter ++ .leave i :: rest⟩ := by
  unfold step at h
  split at h
  · cases h
  · rename_i i rest hvs
    cases h
    exact .inl ⟨i, hvs, rfl⟩
  · rename_i i rest hvs
    simp only at h
    split_ifs at h with hi hactive
    · cases h
      exact .inr (.inl ⟨i, hvs, hi, rfl⟩)
    · cases h
      refine .inr (.inr ⟨i, rest, _, hvs, ?_, fun j hj => ?_, rfl, by rw [List.map_reverse]⟩)
      · simpa [SortedMap.contains] using hi
      · simp only [List.any_eq_true, decide_eq_true_eq, not_exists, not_and] at hactive
        exact hactive j (mem_next.2 hj)

/-- A search ends when there is nothing left to do, or where a cycle is closed. -/
theorem step_eq_inl {b : Bool} (h : w.step ps = .inl b) :
    (b = true ∧ w.visits = []) ∨
    (b = false ∧ ∃ i rest j, w.visits = .enter i :: rest ∧ Before ps i j ∧
      (w.marks.insert i .active).get? j = some .active) := by
  unfold step at h
  split at h
  · rename_i hvs
    cases h
    exact .inl ⟨rfl, hvs⟩
  · cases h
  · rename_i i rest hvs
    simp only at h
    split_ifs at h with hi hactive
    cases h
    obtain ⟨j, hj, hmark⟩ := List.any_eq_true.1 hactive
    exact .inr ⟨rfl, i, rest, j, hvs, mem_next.1 hj, of_decide_eq_true hmark⟩

theorem Sound.step (h : Sound ps w) (hw : w.step ps = .inr w') : Sound ps w' := by
  obtain ⟨marks, visits⟩ := w
  obtain ⟨marks', visits'⟩ := w'
  rcases step_eq_inr hw with ⟨i, hvs, hm⟩ | ⟨i, hvs, hi, hm⟩ | ⟨i, rest, new, hvs, hi, hnext, hnew, hw'⟩
  · simp only at hvs hm
    subst hvs hm
    exact h.leave
  · simp only at hvs hm
    subst hvs hm
    exact h.skip hi
  · simp only at hvs
    subst hvs
    rw [hw']
    refine h.enter hi hnext fun j => ?_
    rw [hnew, List.mem_reverse, List.mem_filter, mem_next, Bool.not_eq_true']

/-- A sound search that ends knows whether there is a cycle. -/
theorem Sound.answer (h : Sound ps w) {b : Bool} (hw : w.step ps = .inl b) :
    b = true ↔ ∀ i, ¬TransGen (Before ps) i i := by
  rcases step_eq_inl hw with ⟨rfl, hvs⟩ | ⟨rfl, i, rest, j, hvs, hij, hmark⟩
  · refine iff_of_true rfl fun i hcycle => ?_
    obtain ⟨j, hij, -⟩ := TransGen.head'_iff.1 hcycle
    -- Everything has a mark by now, and nothing is active.
    have hi : w.marks.contains i = true := (h.reached i j hij).resolve_right (by simp [hvs])
    obtain ⟨mark, hmark⟩ := Option.isSome_iff_exists.1 hi
    cases mark with
    | active =>
      have hleave := (h.active i).1 hmark
      simp [hvs] at hleave
    | done => exact not_transGen_of_acc (h.done i hmark) hcycle
  · simp only [Bool.false_eq_true, false_iff, not_forall, not_not]
    rw [SortedMap.get?_insert] at hmark
    split at hmark
    · rename_i hji
      subst hji
      exact ⟨j, .single hij⟩
    · have hleave := (h.active j).1 hmark
      have hchained := h.chained
      rw [hvs] at hleave hchained
      have hji : TransGen (Before ps) j i := hchained.transGen (by simpa using hleave)
      exact ⟨j, hji.tail hij⟩

/-! ## The end of a search -/

/-- The search, with no bound on its steps, ends with the given answer. -/
inductive Ends (ps : List Precedence) : Walk → Bool → Prop
  | stop {w : Walk} {b : Bool} (last : w.step ps = .inl b) : Ends ps w b
  | go {w w' : Walk} {b : Bool} (first : w.step ps = .inr w') (rest : Ends ps w' b) : Ends ps w b

theorem Ends.iff {b : Bool} (h : Ends ps w b) (hw : Sound ps w) :
    b = true ↔ ∀ i, ¬TransGen (Before ps) i i := by
  induction h with
  | stop last => exact hw.answer last
  | go first _ ih => exact ih (hw.step first)

/-- The steps that are left at most: those of the visits, and two for each precedence from a timepoint
that is still to be entered. -/
def work (ps : List Precedence) (w : Walk) : Nat :=
  2 * ps.countP (fun p => !w.marks.contains p.earlier) + (w.visits.map Visit.steps).sum

theorem sum_steps_enter (is : List TimeVar) :
    ((is.map Visit.enter).map Visit.steps).sum = 2 * is.length := by
  induction is with
  | nil => rfl
  | cons i is ih =>
    simp only [List.map_cons, List.sum_cons, List.length_cons, ih, Visit.steps]
    omega

theorem countP_insert {marks : SortedMap TimeVar Mark} {m : Mark} (hi : marks.contains i = false)
    (ps : List Precedence) :
    ps.countP (fun p => !(marks.insert i m).contains p.earlier) + (next ps i).length =
      ps.countP fun p => !marks.contains p.earlier := by
  induction ps with
  | nil => rfl
  | cons p ps ih =>
    unfold next at ih ⊢
    simp only [List.countP_cons, contains_insert, List.filter_cons, List.length_map] at ih ⊢
    by_cases hp : p.earlier = i
    · simp [hp, hi] at ih ⊢
      omega
    · simp [hp] at ih ⊢
      omega

theorem work_step (h : w.step ps = .inr w') : w'.work ps < w.work ps := by
  unfold work
  rcases step_eq_inr h with ⟨i, hvs, hm⟩ | ⟨i, hvs, hi, hm⟩ | ⟨i, rest, new, hvs, hi, -, hnew, rfl⟩
  · have hle : ps.countP (fun p => !w'.marks.contains p.earlier) ≤
        ps.countP (fun p => !w.marks.contains p.earlier) := by
      refine List.countP_mono_left fun p _ hp => ?_
      rw [hm, contains_insert] at hp
      simp_all
    rw [hvs, List.map_cons, List.sum_cons, Visit.steps]
    omega
  · rw [hvs, hm, List.map_cons, List.sum_cons, Visit.steps]
    omega
  · have hcount := countP_insert (m := .active) (by simpa [SortedMap.contains] using hi) ps (i := i)
    have hlen : new.length ≤ (next ps i).length := by
      rw [hnew, List.length_reverse]
      exact List.length_filter_le _ _
    rw [hvs, List.map_cons, List.sum_cons, Visit.steps, List.map_append, List.sum_append,
      sum_steps_enter, List.map_cons, List.sum_cons, Visit.steps]
    simp only at hcount ⊢
    omega

/-- A search with enough steps ends by itself. -/
theorem ends_answer : ∀ {n : Nat} {w : Walk}, w.work ps ≤ n → Ends ps w (answer ps n w)
  | 0, w, h => by
    unfold answer
    split
    · exact .stop ‹_›
    · rename_i w' hstep
      have := work_step hstep
      omega
  | n + 1, w, h => by
    unfold answer
    split
    · exact .stop ‹_›
    · rename_i w' hstep
      have := work_step hstep
      exact .go hstep (ends_answer (by omega))

theorem work_start (ps : List Precedence) : (start ps).work ps ≤ 4 * ps.length := by
  have hcount := List.countP_le_length (l := ps)
    (p := fun p => !(start ps).marks.contains p.earlier)
  have hsum := sum_steps_enter (ps.map earlier)
  rw [List.map_map (g := Visit.enter), List.length_map] at hsum
  have hvisits : ((start ps).visits.map Visit.steps).sum = 2 * ps.length := hsum
  unfold work
  omega

theorem ends_start (ps : List Precedence) :
    Ends ps (start ps) (answer ps (4 * ps.length) (start ps)) := ends_answer (work_start ps)

end Walk

theorem acyclic_iff : acyclic ps = true ↔ ∀ i, ¬TransGen (Before ps) i i := by
  unfold acyclic
  rw [Bool.and_eq_true, (Walk.ends_start ps).iff (Walk.sound_start ps), and_iff_right_iff_imp]
  intro h
  simp only [List.all_eq_true, decide_eq_true_eq]
  rintro ⟨i, j⟩ hp (rfl : i = j)
  exact h i (.single hp)

theorem acyclic_of_rank (rank : TimeVar → Nat) (h : ∀ p ∈ ps, rank p.earlier < rank p.later) :
    acyclic ps = true := by
  have hlt : ∀ {i j}, TransGen (Before ps) i j → rank i < rank j := by
    intro i j hij
    induction hij with
    | single hp => exact h _ hp
    | tail _ hp ih => exact ih.trans (h _ hp)
  exact acyclic_iff.2 fun i hi => absurd (hlt hi) (Nat.lt_irrefl _)

end Precedence

namespace System

/-- An ordering constraint leads from one class of timepoints to another. -/
def Precedes (S : System) (c d : TimeVar) : Prop :=
  ∃ p ∈ SortedSet.toList S.less, S.find p.earlier = c ∧ S.find p.later = d

theorem before_precedences (S : System) : Precedence.Before S.precedences = S.Precedes := by
  funext c d
  unfold Precedence.Before Precedes precedences
  rw [SortedSet.mem_toList_map]
  simp only [Precedence.map, Precedence.mk.injEq]

theorem isAcyclic_iff (S : System) : S.isAcyclic = true ↔ ∀ c, ¬TransGen S.Precedes c c := by
  rw [isAcyclic, Precedence.acyclic_iff, before_precedences]

/-- The check of the ordering constraints succeeds exactly if they lead from no class of timepoints
back to it, and the search for a cycle that makes it ends whatever the constraints are. -/
theorem isAcyclic_exact (S : System) :
    (S.isAcyclic = true ↔ ∀ c, ¬TransGen S.Precedes c c) ∧
      (Precedence.Walk.start S.precedences).Ends S.precedences S.isAcyclic := by
  have hends := Precedence.Walk.ends_start S.precedences
  have hanswer : Precedence.Walk.answer S.precedences (4 * S.precedences.length)
      (Precedence.Walk.start S.precedences) = S.isAcyclic := by
    rw [Bool.eq_iff_iff, hends.iff (Precedence.Walk.sound_start _), isAcyclic_iff,
      before_precedences]
  rw [hanswer] at hends
  exact ⟨S.isAcyclic_iff, hends⟩

end System

end ProtocolProver
