import ProtocolProver.Proofs.DrawnVariables

/-!
# Variables of quantifiers

An existential quantifier draws copies of its variables together. A universal one gets values for its
variables from the actions that match its guard, all but those that no longer occur there: normalization
may drop a variable, unless it stands below constructors only (`Theory.anchored`). A variable that is
dropped stays free with the index 0. `Nnf.Apart` says that the existential blocks of a formula are
unmixed and that variables may stay free only if they are in `L`; substitutions and instances keep
it.
-/

namespace ProtocolProver

namespace Theory

mutual

/-- The variables of a term that stand below constructors only. -/
def anchored (T : Theory) : Term → List Var
  | .var v => [v]
  | .name _ => []
  | .app f as => if T.isAlgebraic f || T.isDestructor f then [] else T.anchoredList as

def anchoredList (T : Theory) : List Term → List Var
  | [] => []
  | a :: as => T.anchored a ++ T.anchoredList as

end

variable {T : Theory} {v : Var}

theorem anchoredList_eq (as : List Term) : T.anchoredList as = as.flatMap T.anchored := by
  induction as with
  | nil => rfl
  | cons a as ih => rw [anchoredList, ih, List.flatMap_cons]

theorem mem_anchored_app {f : Symbol} {as : List Term} :
    v ∈ T.anchored (.app f as) ↔ T.IsConstructor f ∧ ∃ a ∈ as, v ∈ T.anchored a := by
  rw [anchored, anchoredList_eq, isConstructor_iff]
  cases T.isAlgebraic f || T.isDestructor f <;> simp

theorem mem_occurrences_of_anchored {t : Term} (h : v ∈ T.anchored t) : v ∈ t.occurrences := by
  induction t using Term.induction_args with
  | var w => exact h
  | name n => cases h
  | app f as ih =>
    obtain ⟨-, a, ha, hv⟩ := mem_anchored_app.1 h
    exact Term.mem_occurrences_app.2 ⟨a, ha, ih a ha hv⟩

theorem mem_anchored_mapVars {ρ : Var → Term} (hρ : ρ v = .var v) {t : Term}
    (h : v ∈ T.anchored t) : v ∈ T.anchored (t.mapVars ρ) := by
  induction t using Term.induction_args with
  | var w =>
    cases List.mem_singleton.1 h
    rw [Term.mapVars, hρ]
    exact h
  | name n => cases h
  | app f as ih =>
    obtain ⟨hf, a, ha, hv⟩ := mem_anchored_app.1 h
    rw [Term.mapVars_app]
    exact mem_anchored_app.2 ⟨hf, _, List.mem_map_of_mem ha, ih a ha hv⟩

/-- Below constructors nothing is rewritten away. -/
theorem mem_anchored_normalize {t : Term} (h : v ∈ T.anchored t) : v ∈ T.anchored (T.normalize t) := by
  induction t using Term.induction_args with
  | var w => exact h
  | name n => exact h
  | app f as ih =>
    obtain ⟨hf, a, ha, hv⟩ := mem_anchored_app.1 h
    rw [normalize_app, hf.reduce]
    exact mem_anchored_app.2 ⟨hf, _, List.mem_map_of_mem ha, ih a ha hv⟩

end Theory

/-! ## Formulas -/

/-- The variables that an action holds below constructors only. -/
def Atom.anchored (T : Theory) (a : Atom) : List Var :=
  (a.action?.map fun c => c.1.args.flatMap T.anchored).getD []

theorem Atom.mem_anchored {T : Theory} {a : Atom} {v : Var} :
    v ∈ a.anchored T ↔ ∃ c, a.action? = some c ∧ ∃ t ∈ c.1.args, v ∈ T.anchored t := by
  unfold anchored
  cases a.action? <;> simp

theorem Atom.mem_anchored_map {T : Theory} {a : Atom} {v : Var} {g : Term → Term}
    (hg : ∀ t, v ∈ T.anchored t → v ∈ T.anchored (g t)) (times : TimeVar → TimeVar)
    (h : v ∈ a.anchored T) : v ∈ (a.map g times).anchored T := by
  obtain ⟨c, hc, t, ht, hv⟩ := mem_anchored.1 h
  refine mem_anchored.2 ⟨(c.1.mapTerms g, times c.2), ?_, g t, List.mem_map_of_mem ht, hg t hv⟩
  cases a <;> cases hc <;> rfl

/-- The term variables of a quantifier. -/
def bound (bs : List Binder) : Set Var := {v | .msg v ∈ bs}

theorem mem_filterMap_var? {bs : List Binder} {v : Var} :
    v ∈ bs.filterMap Binder.var? ↔ .msg v ∈ bs := by
  rw [List.mem_filterMap]
  constructor
  · rintro ⟨b, hb, he⟩
    cases b <;> cases he
    exact hb
  · exact fun h => ⟨_, h, rfl⟩

namespace Nnf

mutual

/-- The blocks of existential quantifiers. -/
def blocks : Nnf → List (List Binder)
  | .top | .bot | .atom _ | .neq .. => []
  | .conj fs => blocksList fs
  | .disj fs => blocksList fs
  | .ex bs f => bs :: blocks f
  | .guarded _ _ f => blocks f

def blocksList : List Nnf → List (List Binder)
  | [] => []
  | f :: fs => blocks f ++ blocksList fs

end

mutual

/-- The universal variables that no action of their guard holds below constructors only. -/
def loose (T : Theory) : Nnf → List Var
  | .top | .bot | .atom _ | .neq .. => []
  | .conj fs => looseList T fs
  | .disj fs => looseList T fs
  | .ex _ f => loose T f
  | .guarded bs gs f =>
    (bs.filterMap Binder.var?).filter (fun v => !(gs.flatMap (Atom.anchored T)).contains v) ++ loose T f

def looseList (T : Theory) : List Nnf → List Var
  | [] => []
  | f :: fs => loose T f ++ looseList T fs

end

theorem blocksList_eq (fs : List Nnf) : blocksList fs = fs.flatMap blocks := by
  induction fs with
  | nil => rfl
  | cons f fs ih => rw [blocksList, ih, List.flatMap_cons]

theorem freeOccurrencesList_eq (fs : List Nnf) :
    freeOccurrencesList fs = fs.flatMap freeOccurrences := by
  induction fs with
  | nil => rfl
  | cons f fs ih => rw [freeOccurrencesList, ih, List.flatMap_cons]

theorem exists_mem_terms {x : Var} {f : Nnf} (hx : x ∈ f.freeOccurrences) :
    ∃ t ∈ f.terms, x ∈ t.occurrences := by
  induction f using induction_parts with
  | top => cases hx
  | bot => cases hx
  | atom a =>
    rw [freeOccurrences, Term.occurrencesList_eq] at hx
    exact List.mem_flatMap.1 hx
  | neq s t =>
    rw [freeOccurrences, Term.occurrencesList_eq] at hx
    exact List.mem_flatMap.1 hx
  | conj fs ih | disj fs ih =>
    rw [freeOccurrences, freeOccurrencesList_eq] at hx
    obtain ⟨f, hf, hx⟩ := List.mem_flatMap.1 hx
    obtain ⟨t, ht, hx⟩ := ih f hf hx
    rw [terms, termsList_eq]
    exact ⟨t, List.mem_flatMap.2 ⟨f, hf, ht⟩, hx⟩
  | ex bs f ih => exact ih (List.mem_filter.1 hx).1
  | guarded bs gs f ih =>
    rcases List.mem_append.1 (List.mem_filter.1 hx).1 with hx | hx
    · obtain ⟨a, ha, hx⟩ := List.mem_flatMap.1 hx
      rw [Term.occurrencesList_eq] at hx
      obtain ⟨t, ht, hx⟩ := List.mem_flatMap.1 hx
      exact ⟨t, List.mem_append_left _ (List.mem_flatMap.2 ⟨a, ha, ht⟩), hx⟩
    · obtain ⟨t, ht, hx⟩ := ih hx
      exact ⟨t, List.mem_append_right _ ht, hx⟩

theorem looseList_eq (T : Theory) (fs : List Nnf) : looseList T fs = fs.flatMap (loose T) := by
  induction fs with
  | nil => rfl
  | cons f fs ih => rw [looseList, ih, List.flatMap_cons]

/-- What is free in the formula is in `A`, its existential blocks are unmixed, and its universal
variables are in `L` or held by an action of their guard. -/
inductive Apart (T : Theory) (L : Set Var) : Set Var → Nnf → Prop
  | top {A : Set Var} : Apart T L A .top
  | bot {A : Set Var} : Apart T L A .bot
  | atom {A : Set Var} {a : Atom} : (∀ t ∈ a.terms, t.Has (.over A)) → Apart T L A (.atom a)
  | neq {A : Set Var} {s t : Term} : s.Has (.over A) → t.Has (.over A) → Apart T L A (.neq s t)
  | conj {A : Set Var} {fs : List Nnf} : (∀ f ∈ fs, Apart T L A f) → Apart T L A (.conj fs)
  | disj {A : Set Var} {fs : List Nnf} : (∀ f ∈ fs, Apart T L A f) → Apart T L A (.disj fs)
  | ex {A : Set Var} {bs : List Binder} {f : Nnf} : Unmixed (bs.filterMap Binder.var?) →
      Apart T L (A ∪ bound bs) f → Apart T L A (.ex bs f)
  | guarded {A : Set Var} {bs : List Binder} {gs : List Atom} {f : Nnf} :
      (∀ v ∈ bound bs, v.idx = 0 ∧ (v ∈ L ∨ v ∈ gs.flatMap (Atom.anchored T))) →
      (∀ a ∈ gs, ∀ t ∈ a.terms, t.Has (.over (A ∪ bound bs))) → Apart T L (A ∪ bound bs) f →
      Apart T L A (.guarded bs gs f)

end Nnf

/-- A closed formula, or one with free variables in a scope, is as its blocks and loose variables. -/
theorem Nnf.Scoped.apart {T : Theory} {L : Set Var} {s : Scope} {f : Nnf} (h : f.Scoped .indexed s)
    (hblocks : ∀ bs ∈ f.blocks, Unmixed (bs.filterMap Binder.var?))
    (hloose : ∀ v ∈ f.loose T, v.idx = 0 → v ∈ L) : f.Apart T L {x | s.var x} := by
  induction h with
  | top => exact .top
  | bot => exact .bot
  | atom _ ha => exact .atom fun t ht => Term.has_over.2 (ha.terms t ht)
  | neq ht hu => exact .neq (Term.has_over.2 ht) (Term.has_over.2 hu)
  | conj _ ih =>
    rw [blocks, blocksList_eq, List.forall_mem_flatMap] at hblocks
    rw [loose, looseList_eq, List.forall_mem_flatMap] at hloose
    exact .conj fun f hf => ih f hf (hblocks f hf) (hloose f hf)
  | disj _ ih =>
    rw [blocks, blocksList_eq, List.forall_mem_flatMap] at hblocks
    rw [loose, looseList_eq, List.forall_mem_flatMap] at hloose
    exact .disj fun f hf => ih f hf (hblocks f hf) (hloose f hf)
  | ex hbs _ ih =>
    rw [blocks, List.forall_mem_cons] at hblocks
    exact .ex hblocks.1 (ih hblocks.2 hloose)
  | @guarded _ bs gs f hbs hg hk hl hgs _ ih =>
    rw [loose, List.forall_mem_append] at hloose
    refine .guarded (fun v hv => ⟨hbs _ hv, ?_⟩) (fun a ha t ht => Term.has_over.2 ((hgs a ha).terms t ht))
      (ih hblocks hloose.2)
    by_cases hanchored : v ∈ gs.flatMap (Atom.anchored T)
    · exact .inr hanchored
    · refine .inl (hloose.1 v (List.mem_filter.2 ⟨mem_filterMap_var?.2 hv, ?_⟩) (hbs _ hv))
      simpa using hanchored

namespace Nnf.Apart

variable {T : Theory} {L A B : Set Var} {f : Nnf}

theorem mono (h : f.Apart T L A) (hB : A ⊆ B) : f.Apart T L B := by
  induction h generalizing B with
  | top => exact .top
  | bot => exact .bot
  | atom h => exact .atom fun t ht => (h t ht).over_mono hB
  | neq hs ht => exact .neq (hs.over_mono hB) (ht.over_mono hB)
  | conj _ ih => exact .conj fun f hf => ih f hf hB
  | disj _ ih => exact .disj fun f hf => ih f hf hB
  | ex hbs _ ih => exact .ex hbs (ih (Set.union_subset_union_left _ hB))
  | @guarded _ bs _ _ hbs hgs _ ih =>
    have hB := Set.union_subset_union_left (bound bs) hB
    exact .guarded hbs (fun a ha t ht => (hgs a ha t ht).over_mono hB) (ih hB)

theorem of_free (h : f.Apart T L A) (hB : ∀ x ∈ f.freeOccurrences, x ∈ B) : f.Apart T L B := by
  have hterms : ∀ {B : Set Var} {ts : List Term}, (∀ x ∈ Term.occurrencesList ts, x ∈ B) →
      ∀ t ∈ ts, t.Has (.over B) := by
    intro B ts hB t ht
    rw [Term.occurrencesList_eq] at hB
    exact Term.has_over.2 fun x hx => hB x (List.mem_flatMap.2 ⟨t, ht, hx⟩)
  have hunder : ∀ {B : Set Var} {bs : List Binder} {vs : List Var},
      (∀ x ∈ vs.filter fun v => !bs.contains (.msg v), x ∈ B) → ∀ x ∈ vs, x ∈ B ∪ bound bs := by
    intro B bs vs hB x hx
    by_cases hb : .msg x ∈ bs
    · exact .inr hb
    · exact .inl (hB x (List.mem_filter.2 ⟨hx, by simpa using hb⟩))
  induction h generalizing B with
  | top => exact .top
  | bot => exact .bot
  | atom => exact .atom (hterms hB)
  | @neq _ s t =>
    have hB := hterms hB
    exact .neq (hB s (by simp)) (hB t (by simp))
  | conj _ ih =>
    rw [freeOccurrences, freeOccurrencesList_eq, List.forall_mem_flatMap] at hB
    exact .conj fun f hf => ih f hf (hB f hf)
  | disj _ ih =>
    rw [freeOccurrences, freeOccurrencesList_eq, List.forall_mem_flatMap] at hB
    exact .disj fun f hf => ih f hf (hB f hf)
  | ex hbs _ ih => exact .ex hbs (ih (hunder hB))
  | guarded hbs _ _ ih =>
    have hB := hunder hB
    rw [List.forall_mem_append, List.forall_mem_flatMap] at hB
    exact .guarded hbs (fun a ha => hterms (hB.1 a ha)) (ih hB.2)

/-- Applying a substitution keeps a formula apart. What it replaces of the variables of a quantifier are
variables of index 0, and these are in `L`. -/
theorem apply (hT : T.Apart) {σ : Subst} (hσ : σ.Over (.over A))
    (hA : ∀ x ∈ A, x.idx = 0 → x ∈ L) (h : f.Apart T L B) (hB : A ⊆ B) (times : TimeVar → TimeVar) :
    (f.map (fun t => T.normalize (σ.apply t)) times).Apart T L B := by
  have hterm : ∀ {B : Set Var}, A ⊆ B → ∀ {t : Term}, t.Has (.over B) →
      (T.normalize (σ.apply t)).Has (.over B) := fun hB t ht =>
    (hT.keeps _).has_normalize ((hσ.mono (Shape.over_le.2 hB)).apply ht)
  have hatom : ∀ {B : Set Var}, A ⊆ B → ∀ {a : Atom}, (∀ t ∈ a.terms, t.Has (.over B)) →
      ∀ t ∈ (a.map (fun t => T.normalize (σ.apply t)) times).terms, t.Has (.over B) := by
    intro B hB a ha
    rw [Atom.terms_map]
    exact List.forall_mem_map.2 fun t ht => hterm hB (ha t ht)
  induction h with
  | top => exact .top
  | bot => exact .bot
  | atom h => exact .atom (hatom hB h)
  | neq hs ht => exact .neq (hterm hB hs) (hterm hB ht)
  | conj _ ih =>
    rw [Nnf.map, mapList_eq]
    exact .conj (List.forall_mem_map.2 fun f hf => ih f hf hB)
  | disj _ ih =>
    rw [Nnf.map, mapList_eq]
    exact .disj (List.forall_mem_map.2 fun f hf => ih f hf hB)
  | ex hbs _ ih => exact .ex hbs (ih (hB.trans Set.subset_union_left))
  | @guarded _ bs _ _ hbs hgs _ ih =>
    have hB := hB.trans (Set.subset_union_left (t := bound bs))
    refine .guarded (fun v hv => ?_) (List.forall_mem_map.2 fun a ha => hatom hB (hgs a ha)) (ih hB)
    obtain ⟨hidx, hv⟩ := hbs v hv
    refine ⟨hidx, ?_⟩
    by_cases hmem : v ∈ A
    · exact .inl (hA v hmem hidx)
    · refine hv.imp id fun hv => ?_
      obtain ⟨a, ha, hv⟩ := List.mem_flatMap.1 hv
      refine List.mem_flatMap.2 ⟨_, List.mem_map_of_mem ha, Atom.mem_anchored_map (fun t ht => ?_) _ hv⟩
      exact Theory.mem_anchored_normalize (Theory.mem_anchored_mapVars (hσ.value_of_not hmem) ht)

theorem over_instantiate {a : Atom} (ha : ∀ t ∈ a.terms, t.Has (.over B)) {b : Binding}
    (hb : ∀ x ∈ B, (b.terms.value x).Has (.over A)) : ∀ t ∈ (a.instantiate b).terms, t.Has (.over A) := by
  rw [Atom.instantiate, Atom.terms_map]
  exact List.forall_mem_map.2 fun t ht => (ha t ht).over_mapVars hb

theorem instantiate (h : f.Apart T L B) {b : Binding} (hb : ∀ x ∈ B, (b.terms.value x).Has (.over A)) :
    (f.instantiate b).Apart T L A := by
  -- Under a quantifier, its variables stand for themselves.
  have hself : ∀ {b : Binding} {bs : List Binder} {x : Var}, x ∈ bound bs →
      (b.without bs).terms.value x = .var x := by
    intro b bs x hx
    have hx : .msg x ∈ bs := hx
    simp [Binding.without, Subst.value, SortedMap.get?_filterKeys, hx]
  have hwithout : ∀ {A B : Set Var} {b : Binding} (bs : List Binder),
      (∀ x ∈ B, (b.terms.value x).Has (.over A)) →
        ∀ x ∈ B ∪ bound bs, ((b.without bs).terms.value x).Has (.over (A ∪ bound bs)) := by
    intro A B b bs hb x hx
    by_cases hbs : x ∈ bound bs
    · rw [hself hbs]
      exact .var (.inr hbs)
    · have hvalue : (b.without bs).terms.value x = b.terms.value x := by
        have hbs : .msg x ∉ bs := hbs
        simp [Binding.without, Subst.value, SortedMap.get?_filterKeys, hbs]
      rw [hvalue]
      exact (hb x (hx.resolve_right hbs)).over_mono Set.subset_union_left
  induction h generalizing A b with
  | top => exact .top
  | bot => exact .bot
  | atom h => exact .atom (over_instantiate h hb)
  | neq hs ht => exact .neq (hs.over_mapVars hb) (ht.over_mapVars hb)
  | conj _ ih =>
    rw [Nnf.instantiate, instantiateList_eq]
    exact .conj (List.forall_mem_map.2 fun f hf => ih f hf hb)
  | disj _ ih =>
    rw [Nnf.instantiate, instantiateList_eq]
    exact .disj (List.forall_mem_map.2 fun f hf => ih f hf hb)
  | @ex _ bs _ hbs _ ih => exact .ex hbs (ih (hwithout bs hb))
  | @guarded _ bs _ _ hbs hgs _ ih =>
    refine .guarded (fun v hv => ⟨(hbs v hv).1, (hbs v hv).2.imp id fun hanchored => ?_⟩)
      (List.forall_mem_map.2 fun a ha => over_instantiate (hgs a ha) (hwithout bs hb))
      (ih (hwithout bs hb))
    obtain ⟨a, ha, hanchored⟩ := List.mem_flatMap.1 hanchored
    refine List.mem_flatMap.2 ⟨_, List.mem_map_of_mem ha, Atom.mem_anchored_map (fun t ht => ?_) _ hanchored⟩
    exact Theory.mem_anchored_mapVars (hself hv) ht

theorem negate {a : Atom} (h : ∀ t ∈ a.terms, t.Has (.over A)) {n : Nnf} (hn : a.negate = .ok n) :
    n.Apart T L A := by
  cases a with
  | action f i =>
    cases hn
    exact .guarded (fun v hv => absurd hv List.not_mem_nil)
      (List.forall_mem_singleton.2 fun t ht => (h t ht).over_mono Set.subset_union_left) .bot
  | knows t i => cases hn
  | less i j | timeEq i j =>
    cases hn
    refine .disj (List.forall_mem_cons.2 ⟨.atom ?_, List.forall_mem_singleton.2 (.atom ?_)⟩) <;>
      exact List.forall_mem_nil _
  | eq s t =>
    cases hn
    exact .neq (h s (by simp [Atom.terms])) (h t (by simp [Atom.terms]))

/-- What a guarded formula requires of values over `A` for its variables. -/
theorem requirement {g : Guarded} (h : g.toNnf.Apart T L A) {b : Binding}
    (hb : ∀ x ∈ A ∪ bound g.binders, (b.terms.value x).Has (.over A)) :
    (g.requirement b).Apart T L A := by
  cases h with
  | guarded _ hgs hbody =>
    have hbody := hbody.instantiate hb
    unfold Guarded.requirement
    simp only
    split
    · exact hbody
    · refine .disj (List.forall_mem_append.2 ⟨fun f hf => ?_, List.forall_mem_singleton.2 hbody⟩)
      obtain ⟨a, ha, hn⟩ := List.mem_filterMap.1 hf
      cases hneg : (a.instantiate b).negate with
      | error e => rw [hneg] at hn; cases hn
      | ok f' =>
        rw [hneg] at hn
        cases hn
        exact negate (over_instantiate (hgs a (List.mem_filter.1 ha).1) hb) hneg

end Nnf.Apart

end ProtocolProver
