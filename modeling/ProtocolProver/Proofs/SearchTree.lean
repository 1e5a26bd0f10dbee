import Mathlib.Tactic.Tauto
import ProtocolProver.Proofs.Threads
import ProtocolProver.Search.Prover

/-!
# The search tree

The visits of a search share its progress and take turns that are not theirs to choose. Each of them
keeps to the same rules (`Search.rules`): an expansion is paid for by a step that the budget allows,
a way that counts as the best one leads to a trace that somebody holds, and the systems that are kept
as refuted are unsolvable. What a visit finds out about its system (`Search.Subtree.Accounts`) is
carried through visits one after the other and side by side, and through the rounds up to the end of
the search (`Search.within?_accounts`).
-/

namespace ProtocolProver

/-! ## Counted expansions -/

namespace Statistics

/-- How many goals were solved. -/
def expansions (s : Statistics) : Nat :=
  (GoalKind.all.map fun kind => (s.get kind).expansions).foldr (· + ·) 0

theorem lookup_update (kind kind' : GoalKind) (f : GoalStats → GoalStats) :
    ∀ l : List (GoalKind × GoalStats),
      (l.map fun e => if e.1 = kind then (kind, f e.2) else e).lookup kind' =
        if kind' = kind then (l.lookup kind).map f else l.lookup kind'
  | [] => by simp
  | e :: l => by
    have ih := lookup_update kind kind' f l
    by_cases he : e.1 = kind <;> by_cases hk : kind' = kind <;>
      simp_all [List.lookup_cons] <;> grind

theorem get_record (s : Statistics) (kind kind' : GoalKind) (branches : Nat) :
    (s.record kind branches).get kind' =
      if kind' = kind then (s.get kind).add (.once branches) else s.get kind' := by
  unfold record get
  split
  · rename_i hany
    simp only [lookup_update kind kind' (·.add (.once branches))]
    split
    · cases hs : s.entries.lookup kind with
      | some g => rfl
      | none => grind
    · rfl
  · rename_i hnew
    have hnone : s.entries.lookup kind = none := by grind
    simp only [List.lookup_append]
    split
    · rename_i hk
      simp [hk, hnone, GoalStats.add, GoalStats.once]
    · rename_i hk
      simp [List.lookup_cons, beq_eq_false_iff_ne.2 hk]

theorem expansions_record (s : Statistics) (kind : GoalKind) (branches : Nat) :
    (s.record kind branches).expansions = s.expansions + 1 := by
  have hadd : ∀ g : GoalStats, (g.add (.once branches)).expansions = g.expansions + 1 := fun _ => rfl
  cases kind <;> simp [expansions, get_record, GoalKind.all, hadd] <;> omega

end Statistics

theorem mem_of_foldl {α : Type} {f : Option α → α → Option α}
    (hf : ∀ b a, f b a = some a ∨ f b a = b) : ∀ {l : List α} {b : Option α} {a : α},
      l.foldl f b = some a → b = some a ∨ a ∈ l
  | [], _, _, h => .inl h
  | x :: l, b, a, h => by
    rw [List.foldl_cons] at h
    rcases mem_of_foldl hf h with h | h
    · rcases hf b x with he | he <;> rw [he] at h
      · cases h
        exact .inr (List.mem_cons_self ..)
      · exact .inl h
    · exact .inr (List.mem_cons_of_mem _ h)

theorem System.exists_of_selectGoal? {S : System} {tactic : Option Tactic} {k : Nat}
    (h : S.selectGoal? tactic = some k) : ∃ g, S.goals[k]? = some g := by
  obtain ⟨⟨r, i⟩, hbest, rfl⟩ := Option.map_eq_some_iff.1 h
  have hmem := (mem_of_foldl (fun b a => ?_) hbest).resolve_left nofun
  · obtain ⟨⟨g, j⟩, hg, he⟩ := List.mem_filterMap.1 hmem
    obtain ⟨r', -, he⟩ := Option.map_eq_some_iff.1 he
    cases he
    exact ⟨g, List.mk_mem_zipIdx_iff_getElem?.1 hg⟩
  · cases b with
    | none => exact .inl rfl
    | some b =>
      dsimp only
      split
      · exact .inl rfl
      · exact .inr rfl

namespace Search

variable {t : Task} {check : Trace → Option Bool} {bound n k : Nat} {path : Path} {S : System}
  {p p' : Progress} {r s : Subtree}

theorem Progress.record_selected (p : Progress) (h : S.selectGoal? t.tactic = some k)
    (branches : Nat) : ∃ statistics : Statistics, p.record S k branches = { p with statistics } ∧
      statistics.expansions = p.statistics.expansions + 1 := by
  obtain ⟨g, hg⟩ := System.exists_of_selectGoal? h
  exact ⟨_, by rw [record, hg], p.statistics.expansions_record _ _⟩

theorem Progress.isRefuted_addRefuted {f g : Fingerprint} (h : (p.addRefuted f).isRefuted g = true) :
    (g == f) = true ∨ p.isRefuted g = true := by
  simp only [isRefuted, addRefuted, SortedMap.get?_insert] at h
  split at h
  · rename_i hsize
    rwa [Option.getD_some, List.contains_cons, Bool.or_eq_true, ← hsize] at h
  · exact .inr h

theorem Progress.isSome_best_of_isSuperseded (h : p.isSuperseded path = true) :
    p.best.isSome = true := by
  unfold isSuperseded at h
  cases hb : p.best with
  | none => simp [hb] at h
  | some b => rfl

/-! ## The rules of a search -/

/-- What a search is to show: `P` holds of all its systems, `U` of those that are refuted, and `V` of
the traces that are found. -/
structure Explains (t : Task) (check : Trace → Option Bool) (P U : System → Prop)
    (V : Trace → Prop) : Prop where
  start : ∀ S ∈ ((System.initial t.model t.target).simplify t.model).systems, P S
  expand : ∀ {S : System} {k : Nat}, P S → ∀ S' ∈ (S.expand t.model k).systems, P S'
  ends : ∀ {S : System}, P S → S.selectGoal? t.tactic = none →
    (check (S.realize t.model)).isSome = true
  found : ∀ {S : System}, P S → check (S.realize t.model) = some true → V (S.realize t.model)
  /-- A system is refuted if all ways to solve one of its goals are. -/
  split : ∀ {S : System} {k : Nat}, P S → S.selectGoal? t.tactic = some k →
    (S.expand t.model k).lossy = false → (∀ S' ∈ (S.expand t.model k).systems, U S') → U S
  alike : ∀ {S S' : System}, P S → P S' → (S'.fingerprint == S.fingerprint) = true → U S → U S'

/-- What visits hold: steps of the budget that were counted and led to no expansion yet, and traces
that were found and not reported. -/
@[ext]
structure Held where
  steps : Nat
  traces : Nat

namespace Held

instance : Zero Held := ⟨⟨0, 0⟩⟩

instance : Add Held := ⟨fun c d => ⟨c.steps + d.steps, c.traces + d.traces⟩⟩

@[simp] theorem steps_zero : (0 : Held).steps = 0 := rfl

@[simp] theorem traces_zero : (0 : Held).traces = 0 := rfl

@[simp] theorem steps_add (c d : Held) : (c + d).steps = c.steps + d.steps := rfl

@[simp] theorem traces_add (c d : Held) : (c + d).traces = c.traces + d.traces := rfl

instance : AddCommMonoid Held where
  add_assoc c d e := Held.ext (Nat.add_assoc ..) (Nat.add_assoc ..)
  zero_add c := Held.ext (Nat.zero_add _) (Nat.zero_add _)
  add_zero c := Held.ext (Nat.add_zero _) (Nat.add_zero _)
  add_comm c d := Held.ext (Nat.add_comm ..) (Nat.add_comm ..)
  nsmul := nsmulRec

end Held

/-- The progress of a search while its visits hold steps and traces. -/
structure Progress.Sound (t : Task) (P U : System → Prop) (held : Held) (p : Progress) : Prop where
  paid : p.statistics.expansions + held.steps ≤ min p.steps t.budget.maxSteps
  best : p.best.isSome = true → 0 < held.traces
  stepLimit : p.halted = some .stepLimit → t.budget.maxSteps < p.steps
  nodeLimit : p.halted ≠ some .nodeLimit
  refuted : ∀ S, P S → p.isRefuted S.fingerprint = true → U S

/-- Steps are only added, and a search that has a reason to stop or a trace keeps it. -/
structure Progress.Later (p p' : Progress) : Prop where
  steps : p.steps ≤ p'.steps
  halted : p.halted.isSome = true → p'.halted.isSome = true
  best : p.best.isSome = true → p'.best.isSome = true

/-- The rules that all visits of a search keep to. -/
def rules (t : Task) (P U : System → Prop) : Process.Rules Progress Held where
  inv := Progress.Sound t P U
  later := Progress.Later
  refl _ := ⟨Nat.le_refl _, id, id⟩
  trans h h' := ⟨Nat.le_trans h.steps h'.steps, h'.halted ∘ h.halted, h'.best ∘ h.best⟩

/-- What the result for a part of the search tree says, and what it holds: `C` if the part was
refuted. -/
structure Subtree.Accounts (V : Trace → Prop) (C : Prop) (r : Subtree) (held : Held) (p : Progress) :
    Prop where
  reports : 0 < held.traces → r.witness.isSome = true
  interrupted : r.interrupted = true → p.halted.isSome = true
  cancelled : r.cancelled ≠ 0 → p.best.isSome = true
  witness : ∀ w, r.witness = some w → V w.2
  refuted : r.isRefuted = true → C

variable {P U : System → Prop} {V : Trace → Prop} {C D : Prop} {c d : Held}

namespace Subtree

theorem isRefuted_add (r s : Subtree) :
    (r.add s).isRefuted = true ↔ r.isRefuted = true ∧ s.isRefuted = true := by
  have hwitness : (r.add s).witness = none ↔ r.witness = none ∧ s.witness = none := by
    unfold add
    grind
  simp only [isRefuted, Bool.and_eq_true, Option.isNone_iff_eq_none, hwitness]
  simp only [add, beq_iff_eq, Nat.add_eq_zero_iff, Bool.not_eq_true', Bool.or_eq_false_iff]
  tauto

theorem witness_add (r s : Subtree) :
    (r.add s).witness = r.witness ∨ (r.add s).witness = s.witness := by
  unfold add
  grind

theorem isSome_witness_add (r s : Subtree) :
    (r.add s).witness.isSome = (r.witness.isSome || s.witness.isSome) := by
  unfold add
  cases r.witness <;> cases s.witness <;> grind

namespace Accounts

theorem later (h : r.Accounts V C c p) (hp : p.Later p') : r.Accounts V C c p' :=
  ⟨h.reports, hp.halted ∘ h.interrupted, hp.best ∘ h.cancelled, h.witness, h.refuted⟩

theorem imp (h : r.Accounts V C c p) (hC : C → D) : r.Accounts V D c p :=
  ⟨h.reports, h.interrupted, h.cancelled, h.witness, hC ∘ h.refuted⟩

/-- A part with a trace was not refuted. -/
theorem of_witness (h : r.Accounts V C c p) (hw : r.witness.isSome = true) : r.Accounts V D c p := by
  refine { h with refuted := fun hrefuted => ?_ }
  rw [isRefuted, ← Option.not_isSome, hw] at hrefuted
  simp at hrefuted

theorem branches {steps : Nat} (b : Branches) :
    ({ steps, lossy := b.lossy.toNat } : Subtree).Accounts V (b.lossy = false) 0 p := by
  refine ⟨nofun, nofun, fun h => absurd rfl h, nofun, fun h => ?_⟩
  cases hlossy : b.lossy <;> simp [isRefuted, hlossy] at h ⊢

theorem add (hr : r.Accounts V C c p) (hs : s.Accounts V D d p) :
    (r.add s).Accounts V (C ∧ D) (c + d) p where
  reports h := by
    have : 0 < c.traces ∨ 0 < d.traces := Nat.add_pos_iff_pos_or_pos.1 h
    rw [isSome_witness_add, Bool.or_eq_true]
    exact this.imp hr.reports hs.reports
  interrupted h := (Bool.or_eq_true _ _ ▸ h).elim hr.interrupted hs.interrupted
  cancelled h := by
    have : r.cancelled ≠ 0 ∨ s.cancelled ≠ 0 := by
      have : r.cancelled + s.cancelled ≠ 0 := h
      omega
    exact this.elim hr.cancelled hs.cancelled
  witness w h := by
    rcases witness_add r s with he | he
    · exact hr.witness w (he ▸ h)
    · exact hs.witness w (he ▸ h)
  refuted h := ((isRefuted_add r s).1 h).imp hr.refuted hs.refuted

end Accounts

end Subtree

/-! ## Visits -/

namespace Progress

theorem later_jobs (p : Progress) (jobs : Nat) : p.Later { p with jobs } := ⟨Nat.le_refl _, id, id⟩

theorem later_record (p : Progress) (S : System) (k branches : Nat) :
    p.Later (p.record S k branches) := by
  unfold record
  split <;> exact ⟨Nat.le_refl _, id, id⟩

theorem later_halt (p : Progress) (reason : InconclusiveReason) : p.Later (p.halt reason) :=
  ⟨Nat.le_refl _, fun _ => by simp [halt], id⟩

theorem later_improve (p : Progress) (path : Path) : p.Later (p.improve path) := by
  unfold improve
  split
  · exact ⟨Nat.le_refl _, id, fun _ => rfl⟩
  · exact ⟨Nat.le_refl _, id, id⟩

namespace Sound

theorem setJobs (h : p.Sound t P U c) (jobs : Nat) : { p with jobs }.Sound t P U c :=
  ⟨h.paid, h.best, h.stepLimit, h.nodeLimit, h.refuted⟩

theorem count (h : p.Sound t P U c) : { p with steps := p.steps + 1 }.Sound t P U
    ((if p.steps < t.budget.maxSteps then (⟨1, 0⟩ : Held) else 0) + c) := by
  have hpaid := h.paid
  refine ⟨?_, fun hb => ?_, fun hs => Nat.lt_succ_of_lt (h.stepLimit hs), h.nodeLimit, h.refuted⟩
  · split <;> simp only [Held.steps_add, Held.steps_zero] <;> omega
  · have := h.best hb
    split <;> simp only [Held.traces_add, Held.traces_zero] <;> omega

/-- The step of a visit pays for its expansion. -/
theorem record {branches : Nat} (h : p.Sound t P U (⟨1, 0⟩ + c))
    (hgoal : S.selectGoal? t.tactic = some k) : (p.record S k branches).Sound t P U (0 + c) := by
  obtain ⟨statistics, he, hexpansions⟩ := p.record_selected hgoal branches
  have hpaid := h.paid
  have hbest := h.best
  simp only [Held.steps_add, Held.traces_add, Nat.zero_add] at hpaid hbest
  rw [he, zero_add]
  refine ⟨?_, hbest, h.stepLimit, h.nodeLimit, h.refuted⟩
  simp only [hexpansions]
  omega

theorem addRefuted (h : p.Sound t P U c) (hE : Explains t check P U V) (hS : P S) (hU : U S) :
    (p.addRefuted S.fingerprint).Sound t P U c := by
  refine ⟨h.paid, h.best, h.stepLimit, h.nodeLimit, fun S' hS' hrefuted => ?_⟩
  rcases isRefuted_addRefuted hrefuted with halike | hrefuted
  · exact hE.alike hS hS' halike hU
  · exact h.refuted S' hS' hrefuted

/-- The budget is spent only for the steps that were made, or for the time. -/
theorem halt {reason : InconclusiveReason} (h : p.Sound t P U c) (hspent : t.spent? n = some reason)
    (hn : n ≤ p.steps) : (p.halt reason).Sound t P U c := by
  unfold Task.spent? at hspent
  refine ⟨h.paid, h.best, fun hs => ?_, fun hs => ?_, h.refuted⟩
  all_goals simp only [Progress.halt] at hs
  · cases hp : p.halted with
    | some given => exact h.stepLimit (hp.trans (by simpa [hp] using hs))
    | none =>
      obtain rfl : reason = .stepLimit := by simpa [hp] using hs
      split_ifs at hspent with hlt
      · exact Nat.lt_of_lt_of_le hlt hn
      · cases hspent
  · cases hp : p.halted with
    | some given => exact h.nodeLimit (hp.trans (by simpa [hp] using hs))
    | none =>
      obtain rfl : reason = .nodeLimit := by simpa [hp] using hs
      split_ifs at hspent <;> cases hspent

end Sound

end Progress

/-- After a step was counted the search stops, or the step is within the budget. -/
structure Ticked (t : Task) (p : Progress) (stops : Bool) (held : Held) (p' : Progress) : Prop where
  found : held.traces = 0
  halted : stops = true → p'.halted.isSome = true
  paid : stops = false → held = ⟨1, 0⟩ ∧ p.steps < t.budget.maxSteps ∧ p.steps < p'.steps

theorem tick_meets : (tick t).Meets (rules t P U) (Ticked t p) 0 p := by
  unfold tick
  refine .access (fun p => if p.steps < t.budget.maxSteps then ⟨1, 0⟩ else 0) (fun p => ?_)
    (fun p₁ d _ h => ?_) fun p₁ hp₁ => ?_
  · exact ⟨Nat.le_succ _, id, id⟩
  · rw [zero_add] at h
    exact h.count
  have hfound : (if p₁.steps < t.budget.maxSteps then (⟨1, 0⟩ : Held) else 0).traces = 0 := by
    split <;> rfl
  have hsteps : p.steps ≤ p₁.steps := hp₁.steps
  cases hspent : t.spent? (p₁.steps + 1) with
  | none =>
    have hlt : p₁.steps < t.budget.maxSteps := by
      unfold Task.spent? at hspent
      split_ifs at hspent
      omega
    refine .read fun p₂ d hp₂ _ => .pure fun p₃ hp₃ => ⟨hfound, hp₃.halted, fun _ => ?_⟩
    have hle : p₁.steps + 1 ≤ p₂.steps := hp₂.steps
    have hle' : p₂.steps ≤ p₃.steps := hp₃.steps
    exact ⟨if_pos hlt, by omega, by omega⟩
  | some reason =>
    refine .modify _ (fun p => p.later_halt reason)
      (fun p₂ d hp₂ h => h.halt hspent hp₂.steps) fun p₂ _ => .read fun p₃ d hp₃ _ => ?_
    have hhalted : p₃.halted.isSome = true := hp₃.halted (by simp [Progress.halt])
    refine .pure fun p₄ hp₄ => ⟨hfound, hp₄.halted, fun h => ?_⟩
    rw [hhalted] at h
    cases h

theorem solved_meets (hE : Explains t check P U V) (hS : P S) (hsolved : S.selectGoal? t.tactic = none)
    (hc : c.traces = 0) :
    (solved t check path S).Meets (rules t P U) (Subtree.Accounts V (U S)) c p := by
  unfold solved
  simp only
  cases hcheck : check (S.realize t.model) with
  | none =>
    have := hE.ends hS hsolved
    simp [hcheck] at this
  | some b =>
    cases b with
    | false => exact .pure fun p' _ => ⟨by omega, nofun, nofun, nofun, nofun⟩
    | true =>
      refine .modify ⟨0, 1⟩ (fun p => p.later_improve path) (fun p' d _ h => ?_) fun p' _ => ?_
      · have hpaid := h.paid
        simp only [Held.steps_add] at hpaid
        unfold Progress.improve
        split <;> refine ⟨?_, fun _ => ?_, h.stepLimit, h.nodeLimit, h.refuted⟩ <;>
          simp only [Held.steps_add, Held.traces_add] <;> omega
      · refine .pure fun p'' _ => ⟨fun _ => rfl, nofun, fun h => absurd rfl h, fun w hw => ?_, nofun⟩
        cases hw
        exact hE.found hS hcheck

section Visits

variable {visit : Path → System → Thread Progress Subtree}

/-- Systems that are visited one after the other are accounted for, up to the first trace. -/
theorem visitInTurn_meets {jobs : Nat} : ∀ {systems : List (Path × System)} {r : Subtree} {C : Prop}
    {c : Held} {p : Progress},
    (∀ x ∈ systems, ∀ p', p.Later p' →
      (visit x.1 x.2).Meets (rules t P U) (Subtree.Accounts V (U x.2)) 0 p') →
    r.Accounts V C c p → (visitInTurn visit jobs r systems).Meets (rules t P U)
      (fun a held p' => ∃ first, systems = first ++ a.2 ∧
        a.1.Accounts V (C ∧ ∀ x ∈ first, U x.2) held p' ∧
        (a.2 = [] ∨ a.1.witness.isSome = true ∨ jobs < maxJobs)) c p
  | [], r, C, c, p, _, hr => .pure fun p' hp' =>
    ⟨[], rfl, (hr.later hp').imp fun h => ⟨h, List.forall_mem_nil _⟩, .inl rfl⟩
  | (path, S) :: rest, r, C, c, p, hvisit, hr => by
    obtain ⟨hS, hrest⟩ := List.forall_mem_cons.1 hvisit
    unfold visitInTurn
    rw [← zero_add c]
    refine (hS p ⟨Nat.le_refl _, id, id⟩).bind_frame fun s d p' hp' hs => ?_
    have hadd : ∀ p'', p'.Later p'' → (r.add s).Accounts V (C ∧ U S) (d + c) p'' := by
      intro p'' hp''
      rw [add_comm]
      exact (hr.later ((rules t P U).trans hp' hp'')).add (hs p'' hp'')
    split
    · rename_i hstop
      refine .pure fun p'' hp'' => ⟨[(path, S)], rfl, (hadd p'' hp'').imp ?_, .inr ?_⟩
      · exact fun h => ⟨h.1, List.forall_mem_singleton.2 h.2⟩
      · simp only [Subtree.isSome_witness_add, Bool.or_eq_true, Bool.and_eq_true,
          decide_eq_true_eq] at hstop ⊢
        exact hstop.imp .inr And.right
    · refine (visitInTurn_meets (fun x hx p'' hp'' => hrest x hx p'' ((rules t P U).trans hp' hp''))
        (hadd p' ((rules t P U).refl p'))).imp ?_
      rintro ⟨r', others⟩ e p'' ⟨first, rfl, haccounts, hstop⟩
      refine ⟨(path, S) :: first, rfl, haccounts.imp ?_, hstop⟩
      exact fun h => ⟨h.1.1, List.forall_mem_cons.2 ⟨h.1.2, h.2⟩⟩

/-- Threads side by side account for their systems, in addition to what is accounted for already. -/
theorem all_meets (turns : Path → List Bool) {job : Path × System → Thread Progress Subtree} :
    ∀ {systems : List (Path × System)},
    (∀ x ∈ systems, (job x).Meets (rules t P U) (Subtree.Accounts V (U x.2)) 0 p) →
    (Thread.all turns (systems.map fun x => (x.1, job x))).Meets (rules t P U)
      (fun more held p' => ∀ {r : Subtree} {C : Prop} {c : Held}, r.Accounts V C c p' →
        (more.foldl .add r).Accounts V (C ∧ ∀ x ∈ systems, U x.2) (c + held) p') 0 p
  | [], _ => .pure fun p' _ r C c hr => by
    rw [add_zero]
    exact hr.imp fun h => ⟨h, List.forall_mem_nil _⟩
  | x :: rest, hjobs => by
    obtain ⟨hx, hrest⟩ := List.forall_mem_cons.1 hjobs
    have hboth := hx.both (turns x.1) (all_meets turns hrest)
    rw [add_zero] at hboth
    refine hboth.bind ?_
    rintro ⟨s, more⟩ e p' - hresult
    refine .pure fun p'' hp'' r C c hr => ?_
    obtain ⟨c', d', rfl, hs, hmore⟩ := hresult p'' hp''
    rw [← add_assoc]
    exact (hmore (hr.add hs)).imp fun h => ⟨h.1.1, List.forall_mem_cons.2 ⟨h.1.2, h.2⟩⟩

theorem visitTogether_meets {turns : Path → List Bool} {systems : List (Path × System)}
    (hvisit : ∀ x ∈ systems, ∀ p', p.Later p' →
      (visit x.1 x.2).Meets (rules t P U) (Subtree.Accounts V (U x.2)) 0 p')
    (hr : r.Accounts V C c p) : (visitTogether visit turns r systems).Meets (rules t P U)
      (Subtree.Accounts V (C ∧ ∀ x ∈ systems, U x.2)) c p := by
  have htrans := @(rules t P U).trans
  unfold visitTogether
  refine .modify c (fun p => p.later_jobs _) (fun _ _ _ h => h.setJobs _) fun p₁ hp₁ => ?_
  have hlater := htrans hp₁ (p₁.later_jobs (p₁.jobs + systems.length))
  rw [← zero_add c]
  refine (all_meets (V := V) turns fun x hx => ?_).bind_frame fun more d p₂ hp₂ hmore => ?_
  · -- The job of a system ends after the visit, which makes no difference to the account.
    exact (hvisit x hx _ hlater).bind fun s c p' _ hs =>
      .modify c (fun p => p.later_jobs _) (fun _ _ _ h => h.setJobs _) fun p₂ hp₂ =>
        .pure fun p₃ hp₃ => hs p₃ (htrans hp₂ (htrans (p₂.later_jobs _) hp₃))
  · refine .pure fun p₃ hp₃ => ?_
    rw [add_comm]
    exact hmore p₃ hp₃ (hr.later (htrans hlater (htrans hp₂ hp₃)))

/-- Systems of which each is accounted for when it is visited are so together. -/
theorem visitAll_meets {turns : Path → List Bool} {systems : List (Path × System)}
    (hvisit : ∀ x ∈ systems, ∀ p', p.Later p' →
      (visit x.1 x.2).Meets (rules t P U) (Subtree.Accounts V (U x.2)) 0 p')
    (hr : r.Accounts V C 0 p) : (visitAll visit turns r systems).Meets (rules t P U)
      (Subtree.Accounts V (C ∧ ∀ x ∈ systems, U x.2)) 0 p := by
  have htrans := @(rules t P U).trans
  unfold visitAll
  refine .read fun p₁ _ hp₁ _ => ?_
  refine Thread.Meets.bind (Q := fun (a : Subtree × List (Path × System)) held p' =>
    ∃ first, systems = first ++ a.2 ∧ a.1.Accounts V (C ∧ ∀ x ∈ first, U x.2) held p') ?_ ?_
  · split
    · refine (visitInTurn_meets (fun x hx p' hp' => hvisit x hx p' (htrans hp₁ hp'))
        (hr.later hp₁)).imp ?_
      rintro a held p' ⟨first, hsystems, haccounts, -⟩
      exact ⟨first, hsystems, haccounts⟩
    · refine .pure fun p' hp' => ⟨[], rfl, (hr.later (htrans hp₁ hp')).imp ?_⟩
      exact fun h => ⟨h, List.forall_mem_nil _⟩
  rintro ⟨r', rest⟩ c p₂ hp₂ hfirst
  obtain ⟨first, rfl, haccounts⟩ := hfirst p₂ ((rules t P U).refl p₂)
  dsimp only at haccounts ⊢
  split
  · rename_i hfound
    exact .pure fun p₃ hp₃ => (haccounts.later hp₃).of_witness hfound
  · refine (visitTogether_meets (fun x hx p₃ hp₃ => hvisit x (List.mem_append_right _ hx) _
      (htrans hp₁ (htrans hp₂ hp₃))) haccounts).imp fun haccounts => haccounts.imp fun h => ?_
    exact ⟨h.1.1, List.forall_mem_append.2 ⟨h.1.2, h.2⟩⟩

end Visits

theorem forall_mem_branchesOf {systems : List System} {Q : System → Prop} :
    (∀ x ∈ branchesOf path systems, Q x.2) ↔ ∀ S ∈ systems, Q S := by
  have hsnd : (branchesOf path systems).map Prod.snd = systems := by
    simp [branchesOf, Function.comp_def]
  constructor
  · intro h
    rw [← hsnd]
    exact List.forall_mem_map.2 h
  · intro h
    rw [← hsnd] at h
    exact List.forall_mem_map.1 h

/-- A visit accounts for its system if there are as many levels left as the budget has steps. -/
theorem visit_meets (hE : Explains t check P U V) : ∀ {n : Nat} {path : Path} {S : System}
    {p : Progress}, P S → 0 < n → t.budget.maxSteps < p.steps + n →
      (visit t check bound n path S).Meets (rules t P U) (Subtree.Accounts V (U S)) 0 p
  | n + 1, path, S, p, hS, _, hn => by
    have htrans := @(rules t P U).trans
    unfold visit
    refine .read fun p₁ _ hp₁ _ => ?_
    split
    · rename_i hsuperseded
      refine .pure fun p₂ hp₂ => ⟨nofun, nofun, fun _ => hp₂.best ?_, nofun, nofun⟩
      exact Progress.isSome_best_of_isSuperseded hsuperseded
    refine tick_meets.bind fun stops c p₂ hp₂ hticked => ?_
    have hc : c.traces = 0 := (hticked p₂ ((rules t P U).refl p₂)).found
    split
    · rename_i hstops
      refine .pure fun p₃ hp₃ => ⟨by omega, fun _ => ?_, nofun, nofun, nofun⟩
      exact (hticked p₃ hp₃).halted hstops
    rename_i hstops
    obtain ⟨rfl, hlt, hsteps⟩ :=
      (hticked p₂ ((rules t P U).refl p₂)).paid (by simpa using hstops)
    have hle : p.steps ≤ p₁.steps := hp₁.steps
    split
    · exact .pure fun p₃ hp₃ => ⟨nofun, nofun, nofun, nofun, nofun⟩
    refine .read fun p₃ _ hp₃ hsound => ?_
    split
    · rename_i hknown
      exact .pure fun p₄ _ => ⟨nofun, nofun, nofun, nofun, fun _ => hsound.refuted S hS hknown⟩
    cases hgoal : S.selectGoal? t.tactic with
    | none => exact solved_meets hE hS hgoal rfl
    | some k =>
      refine .modify 0 (fun p => p.later_record S k _) (fun _ _ _ h => h.record hgoal) fun p₄ hp₄ => ?_
      have hlater := htrans hp₃ (htrans hp₄ (p₄.later_record S k (S.expand t.model k).systems.length))
      have hnew : t.budget.maxSteps < (p₄.record S k (S.expand t.model k).systems.length).steps + n := by
        have := hlater.steps
        omega
      refine (visitAll_meets (V := V) (fun x hx p' hp' => ?_) (.branches _)).bind
        fun result d p₅ _ hresult => ?_
      · have := hp'.steps
        exact visit_meets hE (forall_mem_branchesOf.2 (hE.expand hS) x hx) (by omega) (by omega)
      have haccounts : ∀ p', p₅.Later p' → result.Accounts V (U S) d p' := fun p' hp' =>
        (hresult p' hp').imp fun h => hE.split hS hgoal h.1 (forall_mem_branchesOf.1 h.2)
      dsimp only
      split
      · rename_i hrefuted
        refine .modify d (fun _ => ⟨Nat.le_refl _, id, id⟩) (fun p' _ hp' h => ?_) fun p' hp' => ?_
        · exact h.addRefuted hE hS ((haccounts p' hp').refuted hrefuted)
        · exact .pure fun p'' hp'' => haccounts p'' (htrans hp' ⟨hp''.steps, hp''.halted, hp''.best⟩)
      · exact .pure haccounts

/-! ## Rounds -/

/-- Rounds with larger and larger bounds end with a result. The list holds the bounds on nodes. -/
inductive Deepens (t : Task) (check : Trace → Option Bool) (depth : Nat) (roots : Branches) :
    Nat → Progress → List Nat → SearchResult → Prop
  | last {bound : Nat} {p p' : Progress} {r : Subtree} {outcome : Outcome}
      (ends : (round t check depth roots bound).process.run p = some (r, p'))
      (concludes : conclude? t bound p' r = some outcome) :
      Deepens t check depth roots bound p [bound] ⟨outcome, p'.steps, r.openGoals, p'.statistics⟩
  | deeper {bound : Nat} {p p' : Progress} {r : Subtree} {bounds : List Nat} {result : SearchResult}
      (ends : (round t check depth roots bound).process.run p = some (r, p'))
      (undecided : conclude? t bound p' r = none)
      (rest : Deepens t check depth roots (min (bound * 2) t.budget.maxNodes) p' bounds result) :
      Deepens t check depth roots bound p (bound :: bounds) result

/-- What the end of a search says after rounds with the given bounds: `C` if it was exhausted. -/
structure Justifies (t : Task) (V : Trace → Prop) (C : Prop) (bounds : List Nat)
    (result : SearchResult) : Prop where
  witness : ∀ {trace}, result.outcome = .witness trace → V trace
  exhausted : result.outcome = .exhausted → C
  paid : result.statistics.expansions ≤ t.budget.maxSteps
  stepLimit : result.outcome = .inconclusive .stepLimit → t.budget.maxSteps < result.steps
  nodeLimit : result.outcome = .inconclusive .nodeLimit →
    bounds.getLast? = some (max 1 t.budget.maxNodes)

variable {depth : Nat} {roots : Branches}

theorem round_run (bound : Nat) (hE : Explains t check P U V) (hroots : ∀ S ∈ roots.systems, P S)
    (hdepth : t.budget.maxSteps < depth) (hp : p.Sound t P U 0) :
    ∃ r c p', (round t check depth roots bound).process.run p = some (r, p') ∧ p'.Sound t P U c ∧
      r.Accounts V (roots.lossy = false ∧ ∀ S ∈ roots.systems, U S) c p' := by
  have hmeets : (round t check depth roots bound).Meets (rules t P U)
      (Subtree.Accounts V (roots.lossy = false ∧ ∀ S ∈ roots.systems, U S)) 0 p := by
    refine (visitInTurn_meets (V := V) (fun x hx p' hp' => ?_) (.branches roots)).bind ?_
    · exact visit_meets hE (forall_mem_branchesOf.2 hroots x hx) (by omega) (by omega)
    · rintro ⟨r, rest⟩ c p' - hr
      refine .pure fun p'' hp'' => ?_
      obtain ⟨first, hsystems, haccounts, rfl | hwitness | hjobs⟩ := hr p'' hp''
      · rw [List.append_nil] at hsystems
        exact haccounts.imp fun h => ⟨h.1, forall_mem_branchesOf.1 (hsystems ▸ h.2)⟩
      · exact haccounts.of_witness hwitness
      · exact absurd hjobs (Nat.lt_irrefl _)
  obtain ⟨r, c, p', hrun, -, hsound, haccounts⟩ := Process.Meets.run hmeets hp
  exact ⟨r, c, p', hrun, hsound, haccounts⟩

theorem Subtree.Accounts.conclude {outcome : Outcome} (hr : r.Accounts V C c p)
    (hp : p.Sound t P U c) (h : conclude? t bound p r = some outcome) (hpositive : 1 ≤ bound)
    (hbound : bound ≤ max 1 t.budget.maxNodes) :
    Justifies t V C [bound] ⟨outcome, p.steps, r.openGoals, p.statistics⟩ := by
  have hpaid : p.statistics.expansions ≤ t.budget.maxSteps := by
    have := hp.paid
    omega
  unfold conclude? at h
  split at h
  · rename_i path trace hw
    cases h
    exact ⟨fun ho => Outcome.witness.inj ho ▸ hr.witness _ hw, nofun, hpaid, nofun, nofun⟩
  rename_i hw
  split_ifs at h with hi htruncated hlossy hnodes
  · -- The visit that was interrupted saw why the search stops.
    obtain ⟨reason, hreason⟩ := Option.isSome_iff_exists.1 (hr.interrupted hi)
    rw [hreason, Option.getD_some] at h
    cases h
    refine ⟨nofun, nofun, hpaid, fun ho => ?_, fun ho => ?_⟩
    all_goals
      cases ho
    · exact hp.stepLimit hreason
    · exact absurd hreason hp.nodeLimit
  · cases h
    -- A way that counts as the best one leads to a trace that was reported, and there is none.
    have hcancelled : r.cancelled = 0 := by
      by_contra hne
      have := hr.reports (hp.best (hr.cancelled hne))
      simp [hw] at this
    exact ⟨nofun, fun _ => hr.refuted (by simp [isRefuted, hw, hi, htruncated, hlossy, hcancelled]),
      hpaid, nofun, nofun⟩
  · cases h
    exact ⟨nofun, nofun, hpaid, nofun, nofun⟩
  · cases h
    refine ⟨nofun, nofun, hpaid, nofun, fun _ => ?_⟩
    rw [List.getLast?_singleton, show bound = max 1 t.budget.maxNodes by omega]

theorem Subtree.Accounts.undecided (hr : r.Accounts V C c p) (hp : p.Sound t P U c)
    (h : conclude? t bound p r = none) : bound < t.budget.maxNodes ∧ p.Sound t P U 0 := by
  unfold conclude? at h
  split at h
  · cases h
  rename_i hw
  split_ifs at h
  have hpaid := hp.paid
  refine ⟨by omega, ?_, fun hb => ?_, hp.stepLimit, hp.nodeLimit, hp.refuted⟩
  · simp only [Held.steps_zero]
    omega
  · have := hr.reports (hp.best hb)
    simp [hw] at this

theorem exists_deepens (hE : Explains t check P U V) (hroots : ∀ S ∈ roots.systems, P S)
    (hdepth : t.budget.maxSteps < depth) : ∀ (n bound : Nat) {p : Progress}, p.Sound t P U 0 →
      1 ≤ bound → bound ≤ max 1 t.budget.maxNodes → 0 < n → t.budget.maxNodes < n + bound →
      ∃ bounds result, deepen? t check depth roots n bound p = some result ∧
        Deepens t check depth roots bound p bounds result ∧
        Justifies t V (roots.lossy = false ∧ ∀ S ∈ roots.systems, U S) bounds result
  | n + 1, bound, p, hp, hpositive, hbound, _, hn => by
    obtain ⟨r, c, p', hrun, hp', hr⟩ := round_run bound hE hroots hdepth hp
    rw [deepen?, hrun]
    dsimp only
    cases hconclude : conclude? t bound p' r with
    | some outcome =>
      exact ⟨[bound], _, rfl, .last hrun hconclude, hr.conclude hp' hconclude hpositive hbound⟩
    | none =>
      obtain ⟨hlt, hp'⟩ := hr.undecided hp' hconclude
      obtain ⟨bounds, result, hresult, hdeepens, hjustifies⟩ := exists_deepens hE hroots hdepth n
        (min (bound * 2) t.budget.maxNodes) hp' (by omega) (by omega) (by omega) (by omega)
      refine ⟨bound :: bounds, result, hresult, .deeper hrun hconclude hdeepens,
        { hjustifies with nodeLimit := fun h => ?_ }⟩
      rw [List.getLast?_cons, hjustifies.nodeLimit h]
      rfl

/-- A search with enough levels and rounds ends, and its end is justified. -/
theorem exists_within (hE : Explains t check P U V) {rounds : Nat}
    (hdepth : t.budget.maxSteps < depth) (hrounds : t.budget.maxNodes < rounds) :
    let roots := (System.initial t.model t.target).simplify t.model
    ∃ bounds result, within? t check depth rounds = some result ∧
      Deepens t check depth roots (max 1 (min t.budget.maxNodes 4)) {} bounds result ∧
      Justifies t V (roots.lossy = false ∧ ∀ S ∈ roots.systems, U S) bounds result := by
  refine exists_deepens hE hE.start hdepth rounds _ ⟨Nat.zero_le _, nofun, nofun, nofun, ?_⟩
    (by omega) (by omega) (by omega) (by omega)
  intro S _ h
  cases h

theorem exists_justifies (hE : Explains t (fun trace => some (verifies t trace)) P U V) :
    let roots := (System.initial t.model t.target).simplify t.model
    ∃ bounds, Justifies t V (roots.lossy = false ∧ ∀ S ∈ roots.systems, U S) bounds (search t) := by
  obtain ⟨bounds, result, hresult, -, hjustifies⟩ := exists_within hE (Nat.lt_succ_self _)
    (Nat.lt_succ_self _)
  refine ⟨bounds, ?_⟩
  rw [search, hresult]
  exact hjustifies

end Search

end ProtocolProver
