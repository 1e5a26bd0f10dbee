import ProtocolProver.Proofs.Messages
import ProtocolProver.Trace.Explore

/-!
# The enumeration of enabled instances

Stored premises are matched by unification with the facts of the state, which finds the values of a
ground instance unless the work that one call may do runs out. So the enumeration follows a rule through
its premises to every ground instance that fires, and what it lists does fire
(`enabledInstances_exact`).
-/

namespace ProtocolProver

/-! ## Following an instance through the premises -/

theorem mem_dropRepeats {α : Type} [DecidableEq α] {a : α} {l : List α} :
    a ∈ dropRepeats l ↔ a ∈ l := by
  have rest : ∀ (l : List α) (last : α), a ∈ last :: dropRepeats.go last l ↔ a ∈ last :: l := by
    intro l
    induction l with
    | nil => exact fun _ => Iff.rfl
    | cons b l ih =>
      intro last
      rw [dropRepeats.go]
      split
      · rename_i hb
        rw [ih, hb]
        simp
      · rw [List.mem_cons, ih, ← List.mem_cons]
  cases l with
  | nil => exact Iff.rfl
  | cons b l => exact rest l b

theorem exists_run_mem_mapM {α β : Type} {f : α → StateM VarSupply β} : ∀ {as : List α} {a : α},
    a ∈ as → ∀ s : VarSupply, ∃ s' : VarSupply, ((f a).run s').1 ∈ ((as.mapM f).run s).1
  | b :: as, a, ha, s => by
    have hrun : ((b :: as).mapM f).run s =
        (((f b).run s).1 :: ((as.mapM f).run ((f b).run s).2).1,
          ((as.mapM f).run ((f b).run s).2).2) := by
      rw [List.mapM_cons]
      rfl
    rw [hrun]
    rcases List.mem_cons.1 ha with rfl | ha
    · exact ⟨s, List.mem_cons_self ..⟩
    · obtain ⟨s', hs'⟩ := exists_run_mem_mapM ha ((f b).run s).2
      exact ⟨s', List.mem_cons_of_mem _ hs'⟩

/-- No fresh value is drawn, stored premises are of constructors, and their variables are all that
inputs have. -/
structure Rule.Direct (T : Theory) (r : Rule) : Prop where
  drawn : ∀ f ∈ r.premises, f.pred ≠ Pred.fresh
  stored : ∀ f ∈ r.premises, f.pred ≠ Pred.input → ∀ t ∈ f.args, t.Has T.plainShape
  inputs : ∀ f ∈ r.premises, f.pred = Pred.input → ∀ x ∈ factOccurrences [f],
    x ∈ factOccurrences (r.premises.filter (·.pred ≠ Pred.input))

theorem Rule.Direct.orderPremises_eq {T : Theory} {r : Rule} (hr : r.Direct T) :
    orderPremises r.premises =
      r.premises.filter (·.pred ≠ Pred.input) ++ r.premises.filter (·.pred = Pred.input) := by
  have horder : ∀ f ∈ r.premises, f.matchOrder = if f.pred = Pred.input then 2 else 0 := fun f hf => by
    rw [Fact.matchOrder, if_neg (hr.drawn f hf)]
  have hdrawn : r.premises.filter (·.matchOrder = 1) = [] := List.filter_eq_nil_iff.2 fun f hf => by
    rw [horder f hf]
    split <;> decide
  rw [orderPremises, hdrawn, List.append_nil]
  congr 1
  · refine List.filter_congr fun f hf => ?_
    by_cases hinput : f.pred = Pred.input <;> simp [horder f hf, hinput]
  · refine List.filter_congr fun f hf => ?_
    by_cases hinput : f.pred = Pred.input <;> simp [horder f hf, hinput]

theorem Rule.Direct.mem_stored {T : Theory} {r : Rule} (hr : r.Direct T) {x : Var}
    (hx : x ∈ factOccurrences r.premises) :
    x ∈ factOccurrences (r.premises.filter (·.pred ≠ Pred.input)) := by
  obtain ⟨f, hf, t, ht, hxt⟩ := Surface.mem_factOccurrences.1 hx
  by_cases hinput : f.pred = Pred.input
  · exact hr.inputs f hf hinput x (Surface.mem_factOccurrences.2 ⟨f, List.mem_singleton.2 rfl, t, ht, hxt⟩)
  · exact Surface.mem_factOccurrences.2 ⟨f, List.mem_filter.2 ⟨hf, by simpa using hinput⟩, t, ht, hxt⟩

/-- The matching of a stored premise with its fact under `θ` is given up: from a partial instance that
the premises before it led to, unification stops at a bound. The arguments of the premise have at least
as many symbols as one call may do work. -/
def Rule.CutShort (T : Theory) (s : State) (r : Rule) (θ : Subst) : Prop :=
  ∃ done f rest, orderPremises r.premises = done ++ f :: rest ∧ f.pred ≠ Pred.input ∧
    Theory.maxWork ≤ Term.sizeList f.args ∧ f.instantiate T θ ∈ s.facts.candidates f ∧
      ∃ σ ∈ ((done.foldlM (Matches.premise T s) ⟨[∅], s.nextFresh⟩).run {}).1.substs,
        ∀ supply, T.givesUp Theory.maxWork [⟨σ, f.equations (f.instantiate T θ), 0⟩]
          ⟨[], true, supply⟩ = true

variable {T : Theory} {s s' : State} {θ σ τ : Subst} {f g : Fact}

theorem State.Uses.mem_candidates {ps : List Fact} (h : s.Uses T ps s') (hmem : f ∈ ps)
    (hfresh : f.pred ≠ Pred.fresh) (hinput : f.pred ≠ Pred.input) (hkind : f.sameKind g = true) :
    f ∈ s.facts.candidates g := by
  refine List.mem_filter.2 ⟨?_, hkind⟩
  simp only [Fact.sameKind, Bool.and_eq_true, beq_iff_eq] at hkind
  rw [← hkind.1.2]
  cases hm : f.multiplicity with
  | linear =>
    have hcount := h.count f hm hfresh hinput
    have hpos : 0 < ps.count f := List.count_pos_iff.2 hmem
    simp only [FactStore.count] at hcount
    cases hget : s.facts.linear.get? f with
    | none =>
      rw [hget, Option.getD_none] at hcount
      omega
    | some n => exact List.mem_map_of_mem (SortedMap.get?_eq_some_iff.1 hget)
  | persistent => exact h.stored f hmem hm hfresh hinput

namespace Matches

variable {p : Matches}

theorem premise_stored (hfresh : f.pred ≠ Pred.fresh) (hinput : f.pred ≠ Pred.input)
    (hσ : σ ∈ p.substs) (hg : g ∈ s.facts.candidates f)
    (hτ : ∀ supply, τ ∈ ((T.unify (f.equations g) σ).run supply).1.substs) :
    Yields (p.premise T s f) fun q => q.nextFresh = p.nextFresh ∧ τ ∈ q.substs := by
  intro supply
  unfold premise
  rw [if_neg hfresh, if_neg hinput]
  refine ⟨rfl, mem_dropRepeats.2 (List.mem_map.2 ⟨(τ, g), List.mem_flatten.2 ?_, rfl⟩)⟩
  obtain ⟨supply₁, hmem⟩ := exists_run_mem_mapM (f := s.facts.matchPattern T f) hσ supply
  refine ⟨_, hmem, List.mem_flatten.2 ?_⟩
  obtain ⟨supply₂, hmem⟩ := exists_run_mem_mapM (f := fun g => do
    let unifiers ← T.unify (f.equations g) σ
    return unifiers.substs.map fun τ => (τ, g)) hg supply₁
  exact ⟨_, hmem, List.mem_map_of_mem (hτ supply₂)⟩

theorem premise_input (hinput : f.pred = Pred.input) (hσ : σ ∈ p.substs)
    (hargs : ∀ t ∈ f.args, (T.normalize (σ.apply t)).isGround = true ∧
      s.knowledge.derives T (T.normalize (σ.apply t)) = true) :
    Yields (p.premise T s f) fun q => q.nextFresh = p.nextFresh ∧ σ ∈ q.substs := by
  intro supply
  unfold premise
  rw [if_neg (by rw [hinput]; decide), if_pos hinput]
  refine ⟨rfl, mem_dropRepeats.2 (List.mem_flatten.2 ?_)⟩
  obtain ⟨supply₁, hmem⟩ := exists_run_mem_mapM (f := fun σ => f.args.foldlM (fun τs t => do
    return (← τs.mapM fun τ => matchKnown T s.knowledge maxInputDepth t τ).flatten) [σ]) hσ supply
  refine ⟨_, hmem, ?_⟩
  refine Yields.foldlM (R := (σ ∈ ·)) (fun t ht τs hτs supply => ?_) (List.mem_singleton.2 rfl) supply₁
  obtain ⟨hground, hderives⟩ := hargs t ht
  obtain ⟨supply₂, hmem⟩ :=
    exists_run_mem_mapM (f := matchKnown T s.knowledge maxInputDepth t) hτs supply
  refine List.mem_flatten.2 ⟨_, hmem, ?_⟩
  have hknown : matchKnown T s.knowledge maxInputDepth t σ = pure [σ] := by
    rw [maxInputDepth, matchKnown]
    simp [hground, hderives]
  rw [hknown]
  exact List.mem_singleton.2 rfl

end Matches

section Follow

variable {r : Rule} (hr : r.Direct T) (hθ : θ.Assigns T)
  (hdom : ∀ x, θ.contains x = true ↔ x ∈ factOccurrences r.premises)
  (huses : s.Uses T (r.premises.map (·.instantiate T θ)) s')

include hr hθ hdom huses

/-- Stored premises lead to their part of the instance. -/
theorem follow_stored (hcut : ¬r.CutShort T s θ) : ∀ {done rest : List Fact},
    orderPremises r.premises = done ++ rest →
      (∀ f ∈ done, f ∈ r.premises ∧ f.pred ≠ Pred.input) →
        ((done.foldlM (Matches.premise T s) ⟨[∅], s.nextFresh⟩).run {}).1.nextFresh = s.nextFresh ∧
          ∃ σ ∈ ((done.foldlM (Matches.premise T s) ⟨[∅], s.nextFresh⟩).run {}).1.substs,
            σ.Le θ ∧ ∀ x, σ.contains x = true ↔ x ∈ factOccurrences done := by
  intro done
  induction done using List.reverseRecOn with
  | nil =>
    exact fun _ _ => ⟨rfl, ∅, List.mem_singleton.2 rfl, nofun, fun x => by
      simp [SortedMap.contains, factOccurrences]⟩
  | append_singleton done f ih =>
    intro rest hpremises hdone
    obtain ⟨hbefore, hf⟩ := List.forall_mem_append.1 hdone
    obtain ⟨hmem, hinput⟩ := hf f (List.mem_singleton.2 rfl)
    rw [List.append_assoc, List.singleton_append] at hpremises
    obtain ⟨hnext, σ, hσ, hpart, hcontains⟩ := ih hpremises hbefore
    have hplain := hr.stored f hmem hinput
    have hvars : ∀ x ∈ f.args.flatMap Term.occurrences, θ.contains x = true := fun x hx => by
      refine (hdom x).2 (List.mem_flatMap.2 ⟨f, hmem, ?_⟩)
      rwa [Term.occurrencesList_eq]
    have hinstance : (f.instantiate T θ).args = f.args.map (Term.mapVars θ.value) := by
      refine List.map_congr_left fun t ht => ?_
      rw [Subst.apply, Theory.normalize_mapVars_constructors (hplain t ht)]
      exact Term.mapVars_congr fun x _ => hθ.normalize_value (.refl θ) x
    have hcandidate : f.instantiate T θ ∈ s.facts.candidates f :=
      huses.mem_candidates (List.mem_map_of_mem hmem) (hr.drawn f hmem) hinput
        (by simp [Fact.sameKind, Fact.instantiate, Fact.mapTerms])
    have hequations : f.equations (f.instantiate T θ) =
        f.args.map fun q => Theory.facing true q (q.mapVars θ.value) := by
      rw [Fact.equations, hinstance]
      simpa [Theory.facing] using List.zip_map' (f := id) (g := Term.mapVars θ.value) (l := f.args)
    rcases Theory.exists_mem_unify_reads hθ true hpart hplain hvars hequations with
      ⟨hgives, hsize⟩ | ⟨τ, hτ, hτpart, hτcontains⟩
    · exact absurd ⟨done, f, rest, hpremises, hinput, hsize, hcandidate, σ, hσ, hgives⟩ hcut
    · have hstep := Matches.premise_stored (hr.drawn f hmem) hinput hσ hcandidate hτ
        ((done.foldlM (Matches.premise T s) ⟨[∅], s.nextFresh⟩).run {}).2
      rw [List.foldlM_append]
      refine ⟨hstep.1.trans hnext, τ, hstep.2, hτpart, fun x => ?_⟩
      rw [hτcontains, hcontains]
      simp [factOccurrences, Term.occurrencesList_eq]

theorem follow_premises (hground : ∀ f ∈ r.premises, (f.instantiate T θ).isGround = true)
    (hcut : ¬r.CutShort T s θ) :
    let found := ((orderPremises r.premises).foldlM (Matches.premise T s) ⟨[∅], s.nextFresh⟩).run {}
    found.1.nextFresh = s.nextFresh ∧ θ ∈ found.1.substs := by
  obtain ⟨hnext, σ, hσ, hpart, hcontains⟩ := follow_stored hr hθ hdom huses hcut hr.orderPremises_eq
    fun f hf => by simpa using List.mem_filter.1 hf
  have hsame : σ = θ := hpart.eq fun x hx => (hcontains x).2 (hr.mem_stored ((hdom x).1 hx))
  rw [hsame] at hσ
  simp only [hr.orderPremises_eq, List.foldlM_append]
  refine Yields.foldlM (R := fun q : Matches => q.nextFresh = s.nextFresh ∧ θ ∈ q.substs)
    (fun f hf q hq supply => ?_) ⟨hnext, hσ⟩ _
  obtain ⟨hmem, hinput⟩ : f ∈ r.premises ∧ f.pred = Pred.input := by simpa using List.mem_filter.1 hf
  refine (Matches.premise_input hinput hq.2 fun t ht => ?_) supply |>.imp_left fun h => h.trans hq.1
  exact ⟨List.all_eq_true.1 (hground f hmem) _ (List.mem_map_of_mem ht),
    huses.received _ (List.mem_map_of_mem hmem) hinput _ (List.mem_map_of_mem ht)⟩

end Follow

/-! ## What is listed -/

theorem get?_bindPublic {vars : List Var} {σ : Subst} {x : Var} {t : Term} (h : σ.get? x = some t) :
    (bindPublic vars σ).get? x = some t := by
  induction vars generalizing σ with
  | nil => exact h
  | cons v vars ih =>
    rw [bindPublic, List.foldl_cons]
    refine ih ?_
    split
    · rename_i hv
      rw [SortedMap.get?_insert, if_neg, h]
      rintro rfl
      simp [SortedMap.contains, h] at hv
    · exact h

theorem Fact.instantiate_bindPublic {vars : List Var} {g : Fact}
    (hg : ∀ t ∈ g.args, ∀ x ∈ t.occurrences, θ.contains x = true) :
    g.instantiate T (bindPublic vars θ) = g.instantiate T θ := by
  refine congrArg (Fact.mk g.pred g.multiplicity) (List.map_congr_left fun t ht => congrArg _ ?_)
  refine Term.mapVars_congr fun x hx => ?_
  exact Subst.value_of_get? (get?_bindPublic (Subst.value_of_contains (hg t ht x hx)))

theorem nextFresh_usePremise {i : Nat} (h : s.usePremise T i f = .ok s') :
    s'.nextFresh = s.nextFresh := by
  rcases State.usePremise_eq_ok h with ⟨-, -, -, -, -, rfl⟩ | ⟨-, -, -, rfl⟩ | ⟨-, -, -, -, rfl⟩
  all_goals rfl

theorem nextFresh_usePremises : ∀ {ps : List Fact} {s : State} {i : Nat},
    s.usePremises T i ps = .ok s' → s'.nextFresh = s.nextFresh
  | [], _, _, h => by cases h; rfl
  | f :: ps, s, i, h => by
    rw [State.usePremises] at h
    split at h
    · rename_i s₁ hs₁
      rw [nextFresh_usePremises h, nextFresh_usePremise hs₁]
    · cases h

theorem nextFresh_addConclusions : ∀ (cs : List Fact) (s : State),
    (cs.foldl (·.addConclusion T) s).nextFresh = s.nextFresh
  | [], _ => rfl
  | c :: cs, s => by
    rw [List.foldl_cons, nextFresh_addConclusions, State.addConclusion]
    split <;> rfl

theorem fire_eq_ok {r : Rule} {f : Firing} (h : fire T s r σ = .ok f) :
    f.rule = r ∧ f.subst = σ ∧ f.state.nextFresh = s.nextFresh ∧
      ∃ s', s.usePremises T 0 (r.premises.map (·.instantiate T σ)) = .ok s' := by
  rw [fire_of_ground (ground_of_fire h)] at h
  obtain ⟨s', hs', h⟩ := bind_eq_ok h
  split at h
  · cases h
    exact ⟨rfl, rfl, (nextFresh_addConclusions ..).trans (nextFresh_usePremises hs'), s', hs'⟩
  · cases h

/-- In every state, the instances that are listed are those of protocol and channel rules that fire:
any ground instance that fires of a rule that reads stored facts of constructors and inputs over their
variables, unless matching is cut short, and no others. -/
theorem enabledInstances_exact (m : Model) (s : State) :
    (∀ r ∈ m.rules, r.kind ≠ .adversary → r.Direct m.theory → ∀ θ : Subst, θ.Assigns m.theory →
      (∀ x, θ.contains x = true ↔ x ∈ factOccurrences r.premises) → ∀ f : Firing,
        fire m.theory s r (bindPublic r.vars θ) = .ok f →
          f ∈ enabledInstances m s ∨ r.CutShort m.theory s θ) ∧
    ∀ f ∈ enabledInstances m s, f.rule ∈ m.rules ∧ f.rule.kind ≠ .adversary ∧
      ∃ f' : Firing, fire m.theory s f.rule f.subst = .ok f' ∧
        f = { f' with state := { f'.state with nextFresh := f.state.nextFresh } } := by
  refine ⟨fun r hr hkind hdirect θ hθ hdom f hf => ?_, fun f hf => ?_⟩
  · by_cases hcut : r.CutShort m.theory s θ
    · exact .inr hcut
    left
    have hinstance : ∀ g ∈ r.premises, g.instantiate m.theory (bindPublic r.vars θ) =
        g.instantiate m.theory θ := fun g hg =>
      Fact.instantiate_bindPublic fun t ht x hx =>
        (hdom x).2 (Surface.mem_factOccurrences.2 ⟨g, hg, t, ht, hx⟩)
    have hground : ∀ g ∈ r.premises, (g.instantiate m.theory θ).isGround = true := fun g hg => by
      rw [← hinstance g hg]
      exact ground_of_fire hf g (List.mem_append_left _ (List.mem_append_left _ hg))
    obtain ⟨-, -, hnext, s', hs'⟩ := fire_eq_ok hf
    rw [List.map_congr_left hinstance] at hs'
    have huses := State.usePremises_uses (fun g hg hfresh => by
      obtain ⟨g₀, hg₀, rfl⟩ := List.mem_map.1 hg
      exact absurd hfresh (hdirect.drawn g₀ hg₀)) hs'
    obtain ⟨hfound, hmem⟩ := follow_premises hdirect hθ hdom huses hground hcut
    refine List.mem_flatMap.2 ⟨r, List.mem_filter.2 ⟨hr, by simpa using hkind⟩, ?_⟩
    refine List.mem_filterMap.2 ⟨θ, hmem, ?_⟩
    rw [hf]
    exact congrArg (fun n => some { f with state := { f.state with nextFresh := n } })
      (hfound.trans hnext.symm)
  · obtain ⟨r, hr, hf⟩ := List.mem_flatMap.1 hf
    obtain ⟨hr, hkind⟩ := List.mem_filter.1 hr
    obtain ⟨σ, -, hf⟩ := List.mem_filterMap.1 hf
    split at hf
    · rename_i f' hfire
      obtain ⟨hrule, hsubst, -⟩ := fire_eq_ok hfire
      cases hf
      exact ⟨hrule ▸ hr, by simpa [hrule] using hkind, f', by rw [hrule, hsubst, hfire], rfl⟩
    · cases hf

/-- Who names the label of a box gets what is in it. -/
def openBox : Rule :=
  ⟨"Open", .protocol, [.linear Pred.input [.var (.msg "x")],
    .linear "Box" [.app .pair [.var (.msg "x"), .var (.msg "y")]],
    .persistent "Label" [.var (.msg "x")]], [.linear "Opened" [.var (.msg "x"), .var (.pub "b")]],
    [.linear Pred.output [.var (.msg "y")]], none, [.msg "x", .msg "y", .pub "b"]⟩

/-- A box is closed with a label on it, and opened. -/
def boxModel : Model where
  theory := ⟨.builtin, {}, Reduction.projections⟩
  rules :=
    [⟨"Close", .protocol, [], [], [.linear "Box" [.app .pair [.pubName "a", .pubName "c"]],
      .persistent "Label" [.pubName "a"]], none, []⟩, openBox, .learn]
  restrictions := []
  lemmas := []
  tactics := []
  learnRule := 2

def boxValues : Subst := .ofList [(.msg "x", .pubName "a"), (.msg "y", .pubName "c")]

/-- A box that was closed can be opened. -/
theorem enabledInstances_exact_box : ∃ s ∈ (explore boxModel 1 2).map Run.last, ∃ f,
    fire boxModel.theory s openBox (bindPublic openBox.vars boxValues) = .ok f ∧
      f ∈ enabledInstances boxModel s := by
  have hpair : boxModel.theory.IsConstructor .pair := ⟨rfl, by decide⟩
  have hdirect : openBox.Direct boxModel.theory := by
    refine ⟨by decide, ?_, by decide⟩
    simp only [openBox, List.forall_mem_cons]
    refine ⟨fun h => absurd rfl h, fun _ => List.forall_mem_singleton.2 (.app hpair ?_),
      fun _ => List.forall_mem_singleton.2 (.var trivial), List.forall_mem_nil _⟩
    simp only [List.forall_mem_cons]
    exact ⟨.var trivial, .var trivial, List.forall_mem_nil _⟩
  have hvalues : boxValues.Assigns boxModel.theory := by
    intro x t h
    have hmem := SortedMap.mem_of_get?_ofList h
    simp only [List.mem_cons, Prod.mk.injEq, List.not_mem_nil, or_false] at hmem
    rcases hmem with ⟨rfl, rfl⟩ | ⟨rfl, rfl⟩ <;> exact ⟨rfl, rfl, rfl⟩
  have hsmall : ∀ g ∈ orderPremises openBox.premises, Term.sizeList g.args < Theory.maxWork := by decide
  refine ⟨((explore boxModel 1 2).map Run.last).getLastD {}, by decide +kernel, ?_⟩
  have hrun : (fire boxModel.theory (((explore boxModel 1 2).map Run.last).getLastD {}) openBox
      (bindPublic openBox.vars boxValues)).isOk = true := by decide +kernel
  cases hf : fire boxModel.theory (((explore boxModel 1 2).map Run.last).getLastD {}) openBox
      (bindPublic openBox.vars boxValues) with
  | error e => rw [hf] at hrun; cases hrun
  | ok f =>
    have hlisted := (enabledInstances_exact boxModel _).1 openBox (by simp [boxModel]) (by decide)
      hdirect _ hvalues (fun x => ?_) f hf
    · refine ⟨f, rfl, hlisted.resolve_right ?_⟩
      rintro ⟨done, g, rest, hpremises, -, hsize, -⟩
      exact absurd hsize (Nat.not_le.2 (hsmall g (by simp [hpremises])))
    · have hvars : factOccurrences openBox.premises =
          [.msg "x", .msg "x", .msg "y", .msg "x"] := by decide
      rw [hvars]
      by_cases hx : x = .msg "x"
      · rw [hx]
        decide
      · by_cases hy : x = .msg "y" <;>
          simp [hx, hy, boxValues, SortedMap.ofList, SortedMap.contains]

end ProtocolProver
