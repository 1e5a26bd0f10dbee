import ProtocolProver.Proofs.Satisfaction
import ProtocolProver.Proofs.Timeline
import ProtocolProver.Proofs.Values

/-!
# Evaluation on a trace and truth under a valuation

A formula whose actions hold no destructors evaluates to true on a trace of values exactly if it is
true under the valuations that agree with the assignment (`Nnf.Scoped.eval_iff`). At a quantifier this
rests on the enumeration of matches: the actions happen under every assignment that it gives
(`Interpretation.of_mem_extensions`), and it gives one for all values under which they happen
(`Interpretation.exists_extension`).
-/

namespace ProtocolProver

/-- All arguments of facts are values. -/
def Trace.HasValues (T : Theory) (tr : Trace) : Prop :=
  ∀ s ∈ tr, ∀ f ∈ s.facts, ∀ t ∈ f.args, T.Value t

/-- The domain holds values only, and all parts of the actions. -/
structure Interpretation.Grounded (I : Interpretation) : Prop where
  free : I.theory.Free
  values : ∀ t ∈ I.domain, I.theory.Value t
  args : ∀ f as, .app f as ∈ I.domain → ∀ a ∈ as, a ∈ I.domain
  actions : ∀ s ∈ I.trace, ∀ f ∈ s.actions, ∀ t ∈ f.args, t ∈ I.domain

/-- The domain holds all parts of its terms and of the actions. -/
structure Interpretation.Whole (I : Interpretation) : Prop where
  args : ∀ f as, .app f as ∈ I.domain → ∀ a ∈ as, a ∈ I.domain
  actions : ∀ s ∈ I.trace, ∀ f ∈ s.actions, ∀ t ∈ f.args, t ∈ I.domain

theorem Interpretation.Grounded.whole {I : Interpretation} (h : I.Grounded) : I.Whole :=
  ⟨h.args, h.actions⟩

namespace Assignment

/-- Variables have values in the domain of their sorts, timepoints are steps. -/
structure Proper (I : Interpretation) (a : Assignment) : Prop where
  terms : ∀ x t, a.terms.get? x = some t → t ∈ I.domain ∧ x.sort.admits t.sort = true
  times : ∀ i n, a.times.get? i = some n → n < I.trace.length

/-- What has a value keeps it. -/
structure Le (a b : Assignment) : Prop where
  terms : a.terms.Le b.terms
  times : ∀ i n, a.times.get? i = some n → b.times.get? i = some n

/-- The values are those of a valuation. -/
structure Below (a : Assignment) (v : Valuation) : Prop where
  terms : ∀ x t, a.terms.get? x = some t → t = v.term x
  times : ∀ i n, a.times.get? i = some n → n = v.time i

def Binds (a : Assignment) : Binder → Prop
  | .msg x => ∃ t, a.terms.get? x = some t
  | .time i => ∃ n, a.times.get? i = some n

/-- What is in scope has a value. -/
structure Covers (a : Assignment) (s : Scope) : Prop where
  terms : ∀ x, s.var x → a.Binds (.msg x)
  times : ∀ i, s.time i → a.Binds (.time i)

theorem Le.refl (a : Assignment) : a.Le a := ⟨.refl _, fun _ _ h => h⟩

theorem Le.trans {a b c : Assignment} (h : a.Le b) (h' : b.Le c) : a.Le c :=
  ⟨h.terms.trans h'.terms, fun i n hi => h'.times i n (h.times i n hi)⟩

theorem Binds.mono {a b : Assignment} {c : Binder} (h : a.Binds c) (hle : a.Le b) : b.Binds c := by
  cases c with
  | msg x =>
    obtain ⟨t, ht⟩ := h
    exact ⟨t, hle.terms x t ht⟩
  | time i =>
    obtain ⟨n, hn⟩ := h
    exact ⟨n, hle.times i n hn⟩

/-- The variables of an action have values. -/
structure BindsAction (a : Assignment) (f : Fact) (i : TimeVar) : Prop where
  terms : ∀ t ∈ f.args, a.terms.Binds t
  time : a.Binds (.time i)

theorem BindsAction.mono {a b : Assignment} {f : Fact} {i : TimeVar} (h : a.BindsAction f i)
    (hle : a.Le b) : b.BindsAction f i :=
  ⟨fun t ht => hle.terms.binds (h.terms t ht), h.time.mono hle⟩

/-- The variables of an action have values under which it happens. -/
structure Meets (I : Interpretation) (a : Assignment) (f : Fact) (i : TimeVar) : Prop where
  binds : a.BindsAction f i
  emits : ∀ n, a.times.get? i = some n →
    I.trace.Emits n f.pred (f.args.map (Term.mapVars a.terms.value))

theorem Meets.mono {I : Interpretation} {a b : Assignment} {f : Fact} {i : TimeVar}
    (h : a.Meets I f i) (hle : a.Le b) : b.Meets I f i := by
  refine ⟨h.binds.mono hle, fun n hn => ?_⟩
  obtain ⟨m, hm⟩ := h.binds.time
  cases hn.symm.trans (hle.times i m hm)
  have hargs : f.args.map (Term.mapVars b.terms.value) = f.args.map (Term.mapVars a.terms.value) :=
    List.map_congr_left fun t ht => hle.terms.mapVars_eq (h.binds.terms t ht)
  rw [hargs]
  exact h.emits n hm

/-- The assignment without the variables of a quantifier. -/
def without (a : Assignment) (bs : List Binder) : Assignment where
  terms := a.terms.filterKeys fun x => !bs.contains (.msg x)
  times := a.times.filterKeys fun i => !bs.contains (.time i)

section Without

variable {I : Interpretation} {a : Assignment} {bs : List Binder}

theorem terms_without (x : Var) :
    (a.without bs).terms.get? x = if .msg x ∈ bs then none else a.terms.get? x := by
  by_cases hx : .msg x ∈ bs <;> simp [without, hx]

theorem times_without (i : TimeVar) :
    (a.without bs).times.get? i = if .time i ∈ bs then none else a.times.get? i := by
  by_cases hi : .time i ∈ bs <;> simp [without, hi]

theorem Proper.without (h : a.Proper I) (bs : List Binder) : (a.without bs).Proper I where
  terms x t hx := by
    rw [terms_without] at hx
    split at hx
    · cases hx
    · exact h.terms x t hx
  times i n hi := by
    rw [times_without] at hi
    split at hi
    · cases hi
    · exact h.times i n hi

theorem Below.without {v : Valuation} (h : a.Below v) (w : Valuation) :
    (a.without bs).Below (v.rebind bs w) where
  terms x t hx := by
    rw [terms_without] at hx
    split at hx
    · cases hx
    · rename_i hxb
      simpa [Valuation.rebind, hxb] using h.terms x t hx
  times i n hi := by
    rw [times_without] at hi
    split at hi
    · cases hi
    · rename_i hib
      simpa [Valuation.rebind, hib] using h.times i n hi

/-- The values of an assignment, and of `v` where it has none. -/
def valuation (a : Assignment) (v : Valuation) : Valuation where
  term x := (a.terms.get? x).getD (v.term x)
  time i := (a.times.get? i).getD (v.time i)

theorem below_valuation (a : Assignment) (v : Valuation) : a.Below (a.valuation v) :=
  ⟨fun x t hx => by simp [valuation, hx], fun i n hi => by simp [valuation, hi]⟩

variable {b : Assignment} {s : Scope} {v : Valuation}

theorem Covers.extend (hc : a.Covers s) (hle : (a.without bs).Le b) (hbs : ∀ c ∈ bs, b.Binds c) :
    b.Covers (s.bind bs) where
  terms x hx := by
    by_cases hxb : .msg x ∈ bs
    · exact hbs _ hxb
    · obtain ⟨t, ht⟩ := hc.terms x (hx.resolve_right hxb)
      exact ⟨t, hle.terms x t (by rw [terms_without, if_neg hxb, ht])⟩
  times i hi := by
    by_cases hib : .time i ∈ bs
    · exact hbs _ hib
    · obtain ⟨n, hn⟩ := hc.times i (hi.resolve_right hib)
      exact ⟨n, hle.times i n (by rw [times_without, if_neg hib, hn])⟩

theorem valuation_rebind (hc : a.Covers s) (hb : a.Below v) (hle : (a.without bs).Le b) :
    (∀ x, (s.bind bs).var x → (b.valuation v).term x = (v.rebind bs (b.valuation v)).term x) ∧
      ∀ i, (s.bind bs).time i → (b.valuation v).time i = (v.rebind bs (b.valuation v)).time i := by
  refine ⟨fun x hx => ?_, fun i hi => ?_⟩
  · by_cases hxb : .msg x ∈ bs
    · simp [Valuation.rebind, hxb]
    · obtain ⟨t, ht⟩ := hc.terms x (hx.resolve_right hxb)
      have hbt := hle.terms x t (by rw [terms_without, if_neg hxb, ht])
      simp [Valuation.rebind, hxb, valuation, hbt, ← hb.terms x t ht]
  · by_cases hib : .time i ∈ bs
    · simp [Valuation.rebind, hib]
    · obtain ⟨n, hn⟩ := hc.times i (hi.resolve_right hib)
      have hbn := hle.times i n (by rw [times_without, if_neg hib, hn])
      simp [Valuation.rebind, hib, valuation, hbn, ← hb.times i n hn]

theorem Proper.ranges (h : b.Proper I) (hbs : ∀ c ∈ bs, b.Binds c) :
    (b.valuation v).Ranges I bs where
  term x hx := by
    obtain ⟨t, ht⟩ : b.Binds (.msg x) := hbs _ hx
    simpa [valuation, ht] using h.terms x t ht
  time i hi := by
    obtain ⟨n, hn⟩ : b.Binds (.time i) := hbs _ hi
    simpa [valuation, hn] using h.times i n hn

end Without

end Assignment

section Choices

variable {α γ : Type} {F : γ → α → List α} {P : α → Prop}

/-- What every step keeps holds at the end of a search through all choices. -/
theorem of_mem_foldl_flatMap : ∀ (cs : List γ) (as : List α),
    (∀ c ∈ cs, ∀ a b, P a → b ∈ F c a → P b) → (∀ a ∈ as, P a) →
      ∀ b ∈ cs.foldl (fun as c => as.flatMap (F c)) as, P b
  | [], _, _, h => h
  | c :: cs, as, hF, h => by
    obtain ⟨hc, hcs⟩ := List.forall_mem_cons.1 hF
    refine of_mem_foldl_flatMap cs _ hcs fun b hb => ?_
    obtain ⟨a, ha, hb⟩ := List.mem_flatMap.1 hb
    exact hc a b (h a ha) hb

/-- What one step of a search gives, and all later ones keep, is there at the end. -/
theorem of_mem_foldl_steps {R : γ → α → Prop} : ∀ (cs : List γ) (as : List α),
    (∀ c ∈ cs, ∀ a b, P a → b ∈ F c a → P b ∧ R c b ∧ ∀ d, R d a → R d b) → (∀ a ∈ as, P a) →
      ∀ b ∈ cs.foldl (fun as c => as.flatMap (F c)) as, P b ∧ ∀ c ∈ cs, R c b
  | [], _, _, h, b, hb => ⟨h b hb, nofun⟩
  | c :: cs, as, hF, h, b, hb => by
    obtain ⟨hc, hcs⟩ := List.forall_mem_cons.1 hF
    have hstep : ∀ a ∈ as.flatMap (F c), P a ∧ R c a := fun a ha => by
      obtain ⟨a', ha', ha⟩ := List.mem_flatMap.1 ha
      obtain ⟨hP, hR, -⟩ := hc a' a (h a' ha') ha
      exact ⟨hP, hR⟩
    obtain ⟨hP, hR⟩ := of_mem_foldl_steps cs _ hcs (fun a ha => (hstep a ha).1) b hb
    have hkeep : ∀ d ∈ cs, ∀ a b, P a ∧ R c a → b ∈ F d a → P b ∧ R c b := fun d hd a b ha hb => by
      obtain ⟨hP, -, hkeep⟩ := hcs d hd a b ha.1 hb
      exact ⟨hP, hkeep c ha.2⟩
    exact ⟨hP, List.forall_mem_cons.2
      ⟨(of_mem_foldl_flatMap (P := fun a => P a ∧ R c a) cs _ hkeep hstep b hb).2, hR⟩⟩

/-- If every step can be taken so that something is kept, then so can the whole search. -/
theorem exists_mem_foldl_flatMap : ∀ (cs : List γ) (as : List α) {a : α},
    (∀ c ∈ cs, ∀ a, P a → ∃ b ∈ F c a, P b) → a ∈ as → P a →
      ∃ b ∈ cs.foldl (fun as c => as.flatMap (F c)) as, P b
  | [], _, a, _, hmem, ha => ⟨a, hmem, ha⟩
  | c :: cs, as, a, hF, hmem, ha => by
    obtain ⟨hc, hcs⟩ := List.forall_mem_cons.1 hF
    obtain ⟨b, hb, hP⟩ := hc a ha
    exact exists_mem_foldl_flatMap cs _ hcs (List.mem_flatMap.2 ⟨a, hmem, hb⟩) hP

end Choices

namespace Interpretation

variable {I : Interpretation} {a b : Assignment} {bs : List Binder}

/-- The value of a term without destructors under an assignment that may leave variables open. -/
theorem value_plain (hI : I.Grounded) (ha : a.Proper I) {t : Term} (ht : t.Has I.theory.plainShape) :
    I.value a t = t.mapVars a.terms.value := by
  rw [value, Subst.apply, Theory.normalize_mapVars_constructors ht]
  refine Term.mapVars_congr fun x _ => ?_
  rw [Subst.value]
  cases hx : a.terms.get? x with
  | none => rfl
  | some u => exact (hI.values u (ha.terms x u hx).1).normalize hI.free

/-! ## What an extension gives -/

theorem matchTerms_of_mem_matchStep {f : Fact} {i : TimeVar} {n : Nat}
    (h : b ∈ I.matchStep a f i n) : ∃ s, I.trace[n]? = some s ∧ ∃ action ∈ s.actions,
      action.pred = f.pred ∧ (f.args.map (I.value a)).length = action.args.length ∧
      matchTerms (f.args.map (I.value a)) action.args a.terms = .ok b.terms ∧
      b.times = a.times.insert i n := by
  obtain ⟨action, haction, hb⟩ := List.mem_filterMap.1 h
  obtain ⟨haction, hshape⟩ := List.mem_filter.1 haction
  obtain ⟨σ, hσ, rfl⟩ := Option.map_eq_some_iff.1 hb
  simp only [Fact.sameShape, Bool.and_eq_true, beq_iff_eq] at hshape
  cases hs : I.trace[n]? with
  | none => simp [hs] at haction
  | some s =>
    refine ⟨s, rfl, action, by simpa [hs] using haction, hshape.1, ?_, ?_, rfl⟩
    · rw [List.length_map, hshape.2]
    · revert hσ
      rw [matchTerms?]
      cases matchTerms (f.args.map (I.value a)) action.args a.terms with
      | error => exact nofun
      | ok τ => exact fun h => congrArg Except.ok (Option.some.inj h)

/-- Matching an action extends an assignment so that the values of its arguments, as far as they were
known before, become those of an action that happens. -/
theorem value_of_mem_matchAction (hI : I.Whole) (ha : a.Proper I) {f : Fact} {i : TimeVar}
    (h : b ∈ I.matchAction bs f i a) : a.Le b ∧ b.Proper I ∧
      (∀ t ∈ f.args, b.terms.Binds (I.value a t)) ∧ ∃ n, b.times.get? i = some n ∧
        I.trace.Emits n f.pred (f.args.map fun t => (I.value a t).mapVars b.terms.value) := by
  obtain ⟨n, hn, hb⟩ := List.mem_flatMap.1 h
  obtain ⟨s, hs, action, haction, hpred, hlen, hmatch, htimes⟩ := matchTerms_of_mem_matchStep hb
  obtain ⟨hle, hbinds, hmap⟩ := matchTerms_sound hlen hmatch
  have hget : ∀ j, b.times.get? j = if j = i then some n else a.times.get? j := fun j => by
    rw [htimes, SortedMap.get?_insert]
  refine ⟨⟨hle, fun j m hj => ?_⟩, ⟨matchTerms_bindings hI.args hmatch
    (hI.actions s (List.mem_of_getElem? hs) action haction) (fun _ _ _ _ _ hu hs => ⟨hu, hs⟩)
    ha.terms, fun j m hj => ?_⟩,
    List.forall_mem_map.1 hbinds, n, by rw [hget, if_pos rfl], s, hs, action, haction, hpred, ?_⟩
  · rw [hget]
    split
    · subst j
      rw [hj] at hn
      rw [List.mem_singleton.1 hn]
    · exact hj
  · rw [hget] at hj
    split at hj
    · cases hj
      exact (List.getElem?_eq_some_iff.1 hs).1
    · exact ha.times j m hj
  · rw [← hmap, List.map_map]
    rfl

section Extensions

variable (hI : I.Grounded)
include hI

theorem mem_occurrences_value (ha : a.Proper I) {t : Term} (ht : t.Has I.theory.plainShape) {x : Var} :
    x ∈ (I.value a t).occurrences ↔ x ∈ t.occurrences ∧ a.terms.get? x = none := by
  rw [value_plain hI ha ht, Term.mem_occurrences_mapVars]
  constructor
  · rintro ⟨y, hy, hx⟩
    rw [Subst.value] at hx
    cases hget : a.terms.get? y with
    | none =>
      rw [hget] at hx
      cases List.mem_singleton.1 hx
      exact ⟨hy, hget⟩
    | some u =>
      rw [hget, Option.getD_some, (hI.values u (ha.terms y u hget).1).occurrences] at hx
      cases hx
  · rintro ⟨hx, hget⟩
    refine ⟨x, hx, ?_⟩
    rw [Subst.value, hget]
    exact List.mem_singleton.2 rfl

/-- Matching an action extends an assignment so that the action happens. -/
theorem of_mem_matchAction (ha : a.Proper I) {f : Fact} (hf : f.Has I.theory.plainShape) {i : TimeVar}
    (h : b ∈ I.matchAction bs f i a) : a.Le b ∧ b.Proper I ∧ b.Meets I f i := by
  obtain ⟨hle, hproper, hbinds, n, hn, hemits⟩ := value_of_mem_matchAction hI.whole ha h
  have hbound : ∀ t ∈ f.args, b.terms.Binds t := fun t ht x hx => by
    cases hx' : a.terms.get? x with
    | some u => exact ⟨u, hle.terms x u hx'⟩
    | none => exact hbinds t ht x ((mem_occurrences_value hI ha (hf t ht)).2 ⟨hx, hx'⟩)
  have hargs : f.args.map (Term.mapVars b.terms.value) =
      f.args.map fun t => (I.value a t).mapVars b.terms.value := by
    refine List.map_congr_left fun t ht => ?_
    rw [value_plain hI ha (hf t ht), Term.mapVars_mapVars]
    refine Term.mapVars_congr fun x hx => ?_
    cases hx' : a.terms.get? x with
    | none => simp [Subst.value, hx', Term.mapVars]
    | some u =>
      rw [Subst.value_of_get? hx', (hI.values u (ha.terms x u hx').1).mapVars,
        Subst.value_of_get? (hle.terms x u hx')]
  refine ⟨hle, hproper, ⟨hbound, n, hn⟩, fun m hm => ?_⟩
  cases hn.symm.trans hm
  rw [hargs]
  exact hemits

omit hI in
theorem of_mem_range {c : Binder} (ha : a.Proper I) (h : b ∈ I.range c a) :
    a.Le b ∧ b.Proper I ∧ b.Binds c := by
  cases c with
  | msg x =>
    simp only [range] at h
    split at h
    · rename_i hx
      cases List.mem_singleton.1 h
      exact ⟨.refl a, ha, Option.isSome_iff_exists.1 hx⟩
    · rename_i hx
      obtain ⟨t, ht, rfl⟩ := List.mem_map.1 h
      obtain ⟨ht, hs⟩ := List.mem_filter.1 ht
      have hget : ∀ y, (a.terms.insert x t).get? y = if y = x then some t else a.terms.get? y :=
        fun y => SortedMap.get?_insert ..
      refine ⟨⟨fun y u hy => ?_, fun _ _ h => h⟩, ⟨fun y u hy => ?_, ha.times⟩, t, by simp [hget]⟩
      · rw [hget, if_neg, hy]
        rintro rfl
        exact hx (Option.isSome_iff_exists.2 ⟨u, hy⟩)
      · rw [hget] at hy
        split at hy
        · subst y
          cases hy
          exact ⟨ht, hs⟩
        · exact ha.terms y u hy
  | time i =>
    simp only [range] at h
    split at h
    · rename_i hi
      cases List.mem_singleton.1 h
      exact ⟨.refl a, ha, Option.isSome_iff_exists.1 hi⟩
    · rename_i hi
      obtain ⟨n, hn, rfl⟩ := List.mem_map.1 h
      have hget : ∀ j, (a.times.insert i n).get? j = if j = i then some n else a.times.get? j :=
        fun j => SortedMap.get?_insert ..
      refine ⟨⟨.refl _, fun j m hj => ?_⟩, ⟨ha.terms, fun j m hj => ?_⟩, n, by simp [hget]⟩
      · rw [hget, if_neg, hj]
        rintro rfl
        exact hi (Option.isSome_iff_exists.2 ⟨m, hj⟩)
      · rw [hget] at hj
        split at hj
        · cases hj
          exact List.mem_range.1 hn
        · exact ha.times j m hj

omit hI in
/-- An extension keeps the values of other variables, gives values to all variables of the quantifier,
and has what a match has for each of the actions. -/
theorem matches_of_mem_extensions {actions : List (Fact × TimeVar)}
    {Q : Fact × TimeVar → Assignment → Prop} (ha : a.Proper I)
    (hmatch : ∀ c ∈ actions, ∀ p q, p.Proper I → q ∈ I.matchAction bs c.1 c.2 p →
      p.Le q ∧ q.Proper I ∧ Q c q)
    (hmono : ∀ {c p q}, Q c p → p.Le q → Q c q) (h : b ∈ I.extensions bs actions a) :
    (a.without bs).Le b ∧ b.Proper I ∧ (∀ c ∈ bs, b.Binds c) ∧ ∀ c ∈ actions, Q c b := by
  have hmatched := of_mem_foldl_steps (P := fun p => (a.without bs).Le p ∧ p.Proper I) (R := Q)
    (F := fun c : Fact × TimeVar => I.matchAction bs c.1 c.2) actions [a.without bs]
    (fun c hc p q hp hq => by
      obtain ⟨hle, hproper, hq⟩ := hmatch c hc p q hp.2 hq
      exact ⟨⟨hp.1.trans hle, hproper⟩, hq, fun d hd => hmono hd hle⟩)
    (List.forall_mem_singleton.2 ⟨.refl _, ha.without bs⟩)
  obtain ⟨⟨⟨hle, hproper⟩, hQ⟩, hbinds⟩ := of_mem_foldl_steps (R := fun c p => p.Binds c)
    (P := fun p => ((a.without bs).Le p ∧ p.Proper I) ∧ ∀ c ∈ actions, Q c p)
    (F := I.range) bs _ (fun c _ p q hp hq => by
      obtain ⟨hle, hproper, hbinds⟩ := of_mem_range hp.1.2 hq
      exact ⟨⟨⟨hp.1.1.trans hle, hproper⟩, fun c hc => hmono (hp.2 c hc) hle⟩, hbinds,
        fun d hd => hd.mono hle⟩) hmatched b h
  exact ⟨hle, hproper, hbinds, hQ⟩

/-- The actions happen under an extension. -/
theorem of_mem_extensions (ha : a.Proper I) {actions : List (Fact × TimeVar)}
    (hf : ∀ c ∈ actions, c.1.Has I.theory.plainShape) (h : b ∈ I.extensions bs actions a) :
    (a.without bs).Le b ∧ b.Proper I ∧ (∀ c ∈ bs, b.Binds c) ∧
      ∀ c ∈ actions, b.Meets I c.1 c.2 :=
  matches_of_mem_extensions ha (fun c hc _ _ hp => of_mem_matchAction hI hp (hf c hc)) (fun h => h.mono) h

end Extensions

/-! ## Every match is found -/

/-- What is asked of an action so that matching finds it. -/
structure Happens (I : Interpretation) (s : Scope) (v : Valuation) (f : Fact) (i : TimeVar) :
    Prop where
  plain : f.Has I.theory.plainShape
  inScope : ∀ t ∈ f.args, t.Scoped s
  time : s.time i
  emits : I.trace.Emits (v.time i) f.pred (f.args.map (v.value I.theory))

section Matching

variable {s : Scope} {v w : Valuation} (hI : I.Grounded)
include hI

omit hI in
/-- Where an action happens, matching finds the values of a valuation under which the arguments, as far
as they are known, become those of the action. -/
theorem exists_mem_matchAction_of_value {f : Fact} {i : TimeVar} (hb : a.Below v)
    (hemits : I.trace.Emits (v.time i) f.pred (f.args.map (v.value I.theory)))
    (hvalue : ∀ t ∈ f.args, (I.value a t).mapVars v.term = v.value I.theory t)
    (hsorts : ∀ t ∈ f.args, ∀ x ∈ (I.value a t).occurrences,
      x.sort.admits (v.term x).sort = true)
    (htime : a.times.get? i = none → .time i ∈ bs) : ∃ b ∈ I.matchAction bs f i a, b.Below v := by
  obtain ⟨step, hstep, action, haction, hpred, hargs⟩ := hemits
  have hmap : action.args = (f.args.map (I.value a)).map (Term.mapVars v.term) := by
    rw [hargs, List.map_map]
    exact List.map_congr_left fun t ht => (hvalue t ht).symm
  obtain ⟨τ, hτ, hbelow⟩ := matchTerms_complete
    (List.forall_mem_map.2 fun t ht x hx _ => hsorts t ht x hx) hb.terms
  rw [← hmap] at hτ
  refine ⟨⟨τ, a.times.insert i (v.time i)⟩, List.mem_flatMap.2 ⟨v.time i, ?_, ?_⟩,
    hbelow, fun j n hj => ?_⟩
  · cases hi : a.times.get? i with
    | some n => exact List.mem_singleton.2 (hb.times i n hi).symm
    | none =>
      rw [if_pos (List.contains_iff_mem.2 (htime hi))]
      exact List.mem_range.2 (List.getElem?_eq_some_iff.1 hstep).1
  · refine List.mem_filterMap.2 ⟨action, List.mem_filter.2 ⟨?_, ?_⟩, ?_⟩
    · simpa [hstep] using haction
    · simp [Fact.sameShape, hpred, hargs]
    · rw [matchTerms?, hτ]
      rfl
  · rw [SortedMap.get?_insert] at hj
    split at hj
    · subst j
      exact (Option.some.inj hj).symm
    · exact hb.times j n hj

theorem exists_mem_matchAction {f : Fact} {i : TimeVar} (ha : a.Proper I) (hb : a.Below v)
    (h : I.Happens s v f i) (hs : ∀ x, s.var x → v.term x ∈ I.domain ∧
      x.sort.admits (v.term x).sort = true)
    (htime : a.times.get? i = none → .time i ∈ bs) : ∃ b ∈ I.matchAction bs f i a, b.Below v := by
  have hvalue : ∀ x, (a.terms.value x).mapVars v.term = v.term x := fun x => by
    rw [Subst.value]
    cases hx : a.terms.get? x with
    | none => rfl
    | some t => exact ((hI.values t (ha.terms x t hx).1).mapVars _).trans (hb.terms x t hx)
  refine exists_mem_matchAction_of_value hb h.emits (fun t ht => ?_) (fun t ht x hx => ?_) htime
  · -- Under the valuation the patterns are the arguments of the action.
    rw [value_plain hI ha (h.plain t ht), Term.mapVars_mapVars, Valuation.value,
      Theory.normalize_mapVars_constructors (h.plain t ht)]
    refine Term.mapVars_congr fun x hx => ?_
    rw [hvalue, (hI.values _ (hs x (h.inScope t ht x hx)).1).normalize hI.free]
  · exact (hs x (h.inScope t ht x ((mem_occurrences_value hI ha (h.plain t ht)).1 hx).1)).2

omit hI in
theorem exists_mem_range {c : Binder} (hb : a.Below v) (hv : v.Ranges I [c]) :
    ∃ b ∈ I.range c a, b.Below v := by
  cases c with
  | msg x =>
    simp only [range]
    split
    · exact ⟨a, List.mem_singleton.2 rfl, hb⟩
    · obtain ⟨hdomain, hsort⟩ := hv.term x (List.mem_singleton.2 rfl)
      refine ⟨_, List.mem_map_of_mem (List.mem_filter.2 ⟨hdomain, hsort⟩), fun y t hy => ?_, hb.times⟩
      rw [SortedMap.get?_insert] at hy
      split at hy
      · subst y
        exact (Option.some.inj hy).symm
      · exact hb.terms y t hy
  | time i =>
    simp only [range]
    split
    · exact ⟨a, List.mem_singleton.2 rfl, hb⟩
    · refine ⟨_, List.mem_map_of_mem (List.mem_range.2 (hv.time i (List.mem_singleton.2 rfl))),
        hb.terms, fun j n hj => ?_⟩
      rw [SortedMap.get?_insert] at hj
      split at hj
      · subst j
        exact (Option.some.inj hj).symm
      · exact hb.times j n hj

/-- Where actions happen, there is an extension with the values under which they do. -/
theorem exists_extension (ha : a.Proper I) (hc : a.Covers s) (hb : a.Below v)
    (hw : w.Ranges I bs) {actions : List (Fact × TimeVar)}
    (h : ∀ c ∈ actions, I.Happens (s.bind bs) (v.rebind bs w) c.1 c.2) :
    ∃ b ∈ I.extensions bs actions a, b.Below (v.rebind bs w) := by
  have hs : ∀ x, (s.bind bs).var x → (v.rebind bs w).term x ∈ I.domain ∧
      x.sort.admits ((v.rebind bs w).term x).sort = true := by
    intro x hx
    by_cases hxb : .msg x ∈ bs
    · simpa [Valuation.rebind, hxb] using hw.term x hxb
    · obtain ⟨t, ht⟩ := hc.terms x (hx.resolve_right hxb)
      simpa [Valuation.rebind, hxb, ← hb.terms x t ht] using ha.terms x t ht
  -- A timepoint that is open belongs to the quantifier.
  have htime : ∀ c ∈ actions, ∀ p, (a.without bs).Le p → p.times.get? c.2 = none →
      .time c.2 ∈ bs := by
    intro c hca p hle hnone
    by_contra hib
    obtain ⟨n, hn⟩ := hc.times c.2 ((h c hca).time.resolve_right hib)
    rw [hle.times c.2 n (by rw [Assignment.times_without, if_neg hib, hn])] at hnone
    cases hnone
  obtain ⟨p, hp, hle, hproper, hbelow⟩ := exists_mem_foldl_flatMap
    (P := fun p => (a.without bs).Le p ∧ p.Proper I ∧ p.Below (v.rebind bs w))
    (F := fun c : Fact × TimeVar => I.matchAction bs c.1 c.2) actions [a.without bs]
    (fun c hca p hp => by
      obtain ⟨q, hq, hbelow⟩ :=
        exists_mem_matchAction hI hp.2.1 hp.2.2 (h c hca) hs (htime c hca p hp.1)
      obtain ⟨hle, hproper, -⟩ := of_mem_matchAction hI hp.2.1 (h c hca).plain hq
      exact ⟨q, hq, hp.1.trans hle, hproper, hbelow⟩)
    (List.mem_singleton.2 rfl) ⟨.refl _, ha.without bs, hb.without w⟩
  have hrange : ∀ c ∈ bs, (v.rebind bs w).Ranges I [c] := by
    intro c hcb
    constructor
    · intro x hx
      cases List.mem_singleton.1 hx
      simpa [Valuation.rebind, hcb] using hw.term x hcb
    · intro i hi
      cases List.mem_singleton.1 hi
      simpa [Valuation.rebind, hcb] using hw.time i hcb
  exact exists_mem_foldl_flatMap (P := fun p : Assignment => p.Below (v.rebind bs w))
    (F := I.range) bs _ (fun c hcb p hp => exists_mem_range hp (hrange c hcb)) hp hbelow

end Matching

/-! ## Atoms -/

section Atoms

variable {s : Scope} {v : Valuation}

theorem value_eq (hc : a.Covers s) (hb : a.Below v) {t : Term} (ht : t.Scoped s) :
    I.value a t = v.value I.theory t := by
  refine congrArg I.theory.normalize (Term.mapVars_congr fun x hx => ?_)
  obtain ⟨u, hu⟩ := hc.terms x (ht x hx)
  rw [Subst.value_of_get? hu, hb.terms x u hu]

theorem time_eq (hc : a.Covers s) (hb : a.Below v) {i : TimeVar} (hi : s.time i) :
    a.times.get? i = some (v.time i) := by
  obtain ⟨n, hn⟩ := hc.times i hi
  rw [hn, hb.times i n hn]

theorem atomHolds_iff (hc : a.Covers s) (hb : a.Below v) {p : Atom} (hp : p.Scoped s) :
    I.atomHolds a p = true ↔ p.Sat I v := by
  have hvalue : ∀ t ∈ p.terms, I.value a t = v.value I.theory t := fun t ht =>
    value_eq hc hb (hp.terms t ht)
  have htime : ∀ i ∈ p.times, a.times.get? i = some (v.time i) := fun i hi =>
    time_eq hc hb (hp.times i hi)
  have hemits : ∀ (n : Nat) (pred : String) (args : List Term),
      (I.trace[n]?.any fun s => s.actions.any fun f => f.pred == pred && f.args == args) = true ↔
        I.trace.Emits n pred args := by
    intro n pred args
    simp [Trace.Emits, Option.any_eq_true]
  cases p with
  | action f i =>
    have hargs : f.args.map (I.value a) = f.args.map (v.value I.theory) :=
      List.map_congr_left hvalue
    simp only [atomHolds, Atom.action?, htime i (by simp [Atom.times]), hargs, hemits, Atom.Sat]
  | knows t i =>
    simp only [atomHolds, Atom.action?, htime i (by simp [Atom.times]), Fact.linear, List.map_cons,
      List.map_nil, hvalue t (by simp [Atom.terms]), hemits, Atom.Sat]
  | less i j =>
    simp [atomHolds, Atom.action?, htime i (by simp [Atom.times]), htime j (by simp [Atom.times]),
      Atom.Sat]
  | timeEq i j =>
    simp [atomHolds, Atom.action?, htime i (by simp [Atom.times]), htime j (by simp [Atom.times]),
      Atom.Sat]
  | eq t u =>
    simp [atomHolds, Atom.action?, hvalue t (by simp [Atom.terms]), hvalue u (by simp [Atom.terms]),
      Atom.Sat]

theorem mem_domain_ofTrace {T : Theory} {tr : Trace} {t : Term} : t ∈ (ofTrace T tr).domain ↔
    ∃ s ∈ tr, ∃ f ∈ s.facts, ∃ u ∈ f.args, t ∈ u.subterms := by
  change t ∈ tr.subterms ↔ _
  rw [Trace.subterms, SortedSet.mem_toList_ofList]
  simp only [List.mem_flatMap]

theorem whole_ofTrace (T : Theory) (tr : Trace) : (ofTrace T tr).Whole := by
  refine ⟨fun f as hf a ha => ?_, fun s hs f hf t ht => ?_⟩
  · obtain ⟨s, hs, g, hg, u, hu, hfu⟩ := mem_domain_ofTrace.1 hf
    exact mem_domain_ofTrace.2 ⟨s, hs, g, hg, u, hu, Term.args_mem_subterms hfu a ha⟩
  · have hfacts : f ∈ s.facts := List.mem_append_left _ (List.mem_append_right _ hf)
    exact mem_domain_ofTrace.2 ⟨s, hs, f, hfacts, t, ht, t.mem_subterms_self⟩

theorem grounded_ofTrace {T : Theory} (hfree : T.Free) {tr : Trace} (htr : tr.HasValues T) :
    (ofTrace T tr).Grounded := by
  have hwhole := whole_ofTrace T tr
  refine ⟨hfree, fun t ht => ?_, hwhole.args, hwhole.actions⟩
  obtain ⟨s, hs, f, hf, u, hu, ht⟩ := mem_domain_ofTrace.1 ht
  exact (htr s hs f hf u hu).subterms t ht

end Atoms

end Interpretation

/-! ## Formulas -/

theorem Assignment.Meets.sat {I : Interpretation} (hI : I.Grounded) {b : Assignment} {p : Atom}
    {c : Fact × TimeVar} (h : b.Meets I c.1 c.2) (hproper : b.Proper I)
    (hplain : c.1.Has I.theory.plainShape) (hpc : p.action? = some c) (v : Valuation) :
    p.Sat I (b.valuation v) := by
  obtain ⟨n, hn⟩ := h.binds.time
  have hargs : c.1.args.map ((b.valuation v).value I.theory) =
      c.1.args.map (Term.mapVars b.terms.value) := List.map_congr_left fun t ht => by
    rw [← Interpretation.value_plain hI hproper (hplain t ht)]
    refine congrArg I.theory.normalize (Term.mapVars_congr fun x hx => ?_)
    obtain ⟨u, hu⟩ := h.binds.terms t ht x hx
    rw [Subst.value_of_get? hu, ← (b.below_valuation v).terms x u hu]
  rw [Atom.sat_action? hpc, hargs, ← (b.below_valuation v).times c.2 n hn]
  exact h.emits n hn

/-- Actions and knowledge without destructors. -/
def Theory.plainFragment (T : Theory) : Fragment := ⟨fun _ => True, fun f => f.Has T.plainShape⟩

theorem Atom.mem_of_action? {a : Atom} {c : Fact × TimeVar} (h : a.action? = some c) :
    (∀ t ∈ c.1.args, t ∈ a.terms) ∧ c.2 ∈ a.times := by
  constructor
  · intro t ht
    cases a <;> cases h <;> simpa [terms, Fact.linear] using ht
  · cases a <;> cases h <;> simp [times]

theorem Atom.Scoped.happens {I : Interpretation} {s : Scope} {L : Fragment}
    (hL : ∀ c, L.action c → c.Has I.theory.plainShape)
    {a : Atom} (hl : a.Within L) (h : a.Scoped s) {c : Fact × TimeVar} (hc : a.action? = some c)
    {v : Valuation} (hsat : a.Sat I v) : I.Happens s v c.1 c.2 := by
  obtain ⟨hterms, htime⟩ := Atom.mem_of_action? hc
  exact ⟨hL _ (hl c hc), fun t ht => h.terms t (hterms t ht), h.times c.2 htime,
    (Atom.sat_action? hc).1 hsat⟩

namespace Nnf

theorem evalAll_iff {I : Interpretation} {fs : List Nnf} {a : Assignment} :
    evalAll I fs a = true ↔ ∀ f ∈ fs, f.eval I a = true := by
  induction fs with
  | nil => simp [evalAll]
  | cons f fs ih => simp [evalAll, ih]

theorem evalAny_iff {I : Interpretation} {fs : List Nnf} {a : Assignment} :
    evalAny I fs a = true ↔ ∃ f ∈ fs, f.eval I a = true := by
  induction fs with
  | nil => simp [evalAny]
  | cons f fs ih => simp [evalAny, ih]

theorem requiredActionsList_eq (fs : List Nnf) :
    requiredActionsList fs = fs.flatMap requiredActions := by
  induction fs with
  | nil => rfl
  | cons f fs ih => simp [requiredActionsList, ih]

variable {I : Interpretation} {s : Scope} {f : Nnf}

/-- The actions that a formula requires happen where it is true. -/
theorem Scoped.happens_of_required (h : f.Scoped I.theory.plainFragment s) {v : Valuation}
    (hsat : f.Sat I v) : ∀ c ∈ f.requiredActions, I.Happens s v c.1 c.2 := by
  induction h with
  | atom hl ha => exact fun c hc => ha.happens (fun _ h => h) hl (Option.mem_toList.1 hc) hsat
  | conj _ ih =>
    intro c hc
    rw [requiredActions, requiredActionsList_eq] at hc
    obtain ⟨f, hf, hc⟩ := List.mem_flatMap.1 hc
    exact ih f hf (sat_conj.1 hsat f hf) c hc
  | _ => exact nofun

theorem Scoped.plain_of_required (h : f.Scoped I.theory.plainFragment s) :
    ∀ c ∈ f.requiredActions, c.1.Has I.theory.plainShape := by
  induction h with
  | atom hl ha => exact fun c hc => hl c (Option.mem_toList.1 hc)
  | conj _ ih =>
    intro c hc
    rw [requiredActions, requiredActionsList_eq] at hc
    obtain ⟨f, hf, hc⟩ := List.mem_flatMap.1 hc
    exact ih f hf c hc
  | _ => exact nofun

/-- A formula evaluates to true exactly if it is true under the valuations that the assignment is a
part of. -/
theorem Scoped.eval_iff (hI : I.Grounded) (h : f.Scoped I.theory.plainFragment s) {a : Assignment}
    {v : Valuation} (ha : a.Proper I) (hc : a.Covers s) (hb : a.Below v) :
    f.eval I a = true ↔ f.Sat I v := by
  induction h generalizing a v with
  | top => exact iff_of_true rfl trivial
  | bot => exact iff_of_false nofun nofun
  | atom _ hp => exact Interpretation.atomHolds_iff hc hb hp
  | @neq _ t u ht hu =>
    rw [eval, bne_iff_ne, Interpretation.value_eq hc hb ht, Interpretation.value_eq hc hb hu]
    rfl
  | conj _ ih =>
    rw [eval, evalAll_iff, sat_conj]
    exact forall₂_congr fun f hf => ih f hf ha hc hb
  | disj _ ih =>
    rw [eval, evalAny_iff, sat_disj]
    exact exists_congr fun f => and_congr_right fun hf => ih f hf ha hc hb
  | @ex s bs f _ hf ih =>
    rw [eval, List.any_eq_true, Sat]
    constructor
    · rintro ⟨b, hmem, he⟩
      obtain ⟨hle, hproper, hbinds, -⟩ :=
        Interpretation.of_mem_extensions hI ha hf.plain_of_required hmem
      obtain ⟨hterm, htime⟩ := Assignment.valuation_rebind hc hb hle
      refine ⟨b.valuation v, hproper.ranges hbinds, (hf.sat_congr hterm htime).1 ?_⟩
      exact (ih hproper (hc.extend hle hbinds) (b.below_valuation v)).1 he
    · rintro ⟨w, hw, hsat⟩
      obtain ⟨b, hmem, hbelow⟩ :=
        Interpretation.exists_extension hI ha hc hb hw (hf.happens_of_required hsat)
      obtain ⟨hle, hproper, hbinds, -⟩ :=
        Interpretation.of_mem_extensions hI ha hf.plain_of_required hmem
      exact ⟨b, hmem, (ih hproper (hc.extend hle hbinds) hbelow).2 hsat⟩
  | @guarded s bs gs f _ _ _ hl hgs hf ih =>
    have hplain : ∀ c ∈ gs.filterMap Atom.action?, c.1.Has I.theory.plainShape := fun c hcg => by
      obtain ⟨p, hp, hpc⟩ := List.mem_filterMap.1 hcg
      exact hl p hp c hpc
    rw [eval, List.all_eq_true, Sat]
    constructor
    · intro he w hw hsat
      have hhappens : ∀ c ∈ gs.filterMap Atom.action?,
          I.Happens (s.bind bs) (v.rebind bs w) c.1 c.2 := fun c hcg => by
        obtain ⟨p, hp, hpc⟩ := List.mem_filterMap.1 hcg
        exact (hgs p hp).happens (fun _ h => h) (hl p hp) hpc (hsat p hp)
      obtain ⟨b, hmem, hbelow⟩ := Interpretation.exists_extension hI ha hc hb hw hhappens
      obtain ⟨hle, hproper, hbinds, -⟩ := Interpretation.of_mem_extensions hI ha hplain hmem
      have hcovers := hc.extend hle hbinds
      have hconditions : (gs.filter fun g => g.action?.isNone).all (I.atomHolds b) = true :=
        List.all_eq_true.2 fun p hp => by
          have hp := (List.mem_filter.1 hp).1
          exact (Interpretation.atomHolds_iff hcovers hbelow (hgs p hp)).2 (hsat p hp)
      have hbody := he b hmem
      rw [hconditions] at hbody
      exact (ih hproper hcovers hbelow).1 hbody
    · intro hsat b hmem
      obtain ⟨hle, hproper, hbinds, hmeets⟩ := Interpretation.of_mem_extensions hI ha hplain hmem
      have hcovers := hc.extend hle hbinds
      have hbelow := b.below_valuation v
      obtain ⟨hterm, htime⟩ := Assignment.valuation_rebind hc hb hle
      rw [Bool.or_eq_true, Bool.not_eq_true', or_iff_not_imp_left, Bool.not_eq_false, List.all_eq_true]
      intro hconditions
      refine (ih hproper hcovers hbelow).2 ((hf.sat_congr hterm htime).2
        (hsat _ (hproper.ranges hbinds) fun p hp => ?_))
      refine (Atom.sat_congr (fun t ht x hx => hterm x ((hgs p hp).terms t ht x hx))
        fun i hi => htime i ((hgs p hp).times i hi)).1 ?_
      cases hpc : p.action? with
      | none =>
        exact (Interpretation.atomHolds_iff hcovers hbelow (hgs p hp)).1
          (hconditions p (List.mem_filter.2 ⟨hp, by rw [hpc]; rfl⟩))
      | some c => exact (hmeets c (List.mem_filterMap.2 ⟨p, hp, hpc⟩)).sat hI hproper (hl p hp c hpc) hpc v

end Nnf

end ProtocolProver
