import ProtocolProver.Proofs.NormalInstances
import ProtocolProver.Proofs.SaturatedKnowledge

/-!
# Matching the guard of a universal formula

The instances of a guard are found by matching its actions with those of a trace one after the other,
by structure. What is found is an instance of the guard (`Nnf.eval_guarded_of_sat`), but a symbol of an
algebra has its arguments in one order and can lose them, so a variable below it may have values that
matching does not find (`guard_instance_missed`). If every variable below such a symbol or a destructor
has got its value from an earlier action (`Theory.readsActions`), all instances are found
(`Nnf.sat_of_eval_guarded`). Such a formula evaluates to true on a replayed trace exactly if its body is
true of all values under which the guard is (`guarded_holds_iff`).
-/

namespace ProtocolProver

namespace Theory

mutual

/-- Whether the variables of a pattern that are not known stand below constructors only. -/
def reads (T : Theory) (known : List Var) : Term → Bool
  | .var _ => true
  | .name _ => true
  | .app f as =>
    !T.isAlgebraic f && !T.isDestructor f && T.readsList known as ||
      (Term.app f as).occurrences.all known.contains

def readsList (T : Theory) (known : List Var) : List Term → Bool
  | [] => true
  | a :: as => T.reads known a && T.readsList known as

end

/-- Whether actions can be matched one after the other, where a match makes the variables known. -/
def readsActions (T : Theory) : (known : List Var) → List (Fact × TimeVar) → Bool
  | _, [] => true
  | known, c :: cs => c.1.args.all (T.reads known) &&
      T.readsActions (known ++ c.1.args.flatMap Term.occurrences) cs

variable {T : Theory} {known : List Var} {f : Symbol} {as : List Term}

theorem readsList_eq (as : List Term) : T.readsList known as = as.all (T.reads known) := by
  induction as with
  | nil => rfl
  | cons a as ih => rw [readsList, ih, List.all_cons]

theorem reads_app (h : T.reads known (.app f as) = true) :
    (T.IsConstructor f ∧ ∀ a ∈ as, T.reads known a = true) ∨
      ∀ x ∈ (Term.app f as).occurrences, x ∈ known := by
  rw [reads, readsList_eq, Bool.or_eq_true, Bool.and_eq_true, Bool.and_eq_true] at h
  rcases h with ⟨⟨ha, hd⟩, has⟩ | h
  · exact .inl ⟨isConstructor_of_isDestructor (by simpa [isAlgebraic] using ha)
      (by simpa using hd), List.all_eq_true.1 has⟩
  · exact .inr fun x hx => List.contains_iff_mem.1 (List.all_eq_true.1 h x hx)

theorem IsConstructor.normalize_app (hf : T.IsConstructor f) (as : List Term) :
    T.normalize (.app f as) = .app f (as.map T.normalize) := by
  rw [normalize, Term.eval_app, hf.reduce]
  rfl

end Theory

namespace Assignment

theorem Proper.empty (I : Interpretation) : ({} : Assignment).Proper I := ⟨nofun, nofun⟩

theorem covers_of_binds {b : Assignment} {bs : List Binder} (h : ∀ c ∈ bs, b.Binds c) :
    b.Covers (Scope.closed.bind bs) :=
  ⟨fun x hx => h (.msg x) (hx.resolve_left id), fun i hi => h (.time i) (hi.resolve_left id)⟩

end Assignment

namespace Interpretation

variable {I : Interpretation} {a b : Assignment} {v : Valuation} {known : List Var} {t : Term}
  {bs : List Binder}

section Values

variable (hT : I.theory.Standard) (hI : ∀ t ∈ I.domain, I.theory.Message t) (ha : a.Proper I)

include hT hI ha

/-- A term whose variables all have values becomes a message, that of the valuation. -/
theorem value_of_binds (hb : a.Below v) (h : ∀ x ∈ t.occurrences, a.Binds (.msg x)) :
    I.value a t = v.value I.theory t ∧ (I.value a t).isGround = true := by
  constructor
  · refine congrArg I.theory.normalize (Term.mapVars_congr fun x hx => ?_)
    obtain ⟨u, hu⟩ := h x hx
    rw [Subst.value_of_get? hu, hb.terms x u hu]
  · refine hT.isGround_normalize (Term.isGround_mapVars fun x hx => ?_)
    obtain ⟨u, hu⟩ := h x hx
    rw [Subst.value_of_get? hu]
    exact (hI u (ha.terms x u hu).1).ground

/-- If all variables of a pattern that do not have a value stand below constructors, it becomes the
value of the term when the others are put in. -/
theorem mapVars_value (hb : a.Below v) (hknown : ∀ x ∈ known, a.Binds (.msg x))
    (hv : ∀ x ∈ t.occurrences, v.term x ∈ I.domain) (h : I.theory.reads known t = true) :
    (I.value a t).mapVars v.term = v.value I.theory t := by
  have bound : ∀ {t : Term}, (∀ x ∈ t.occurrences, a.Binds (.msg x)) →
      (I.value a t).mapVars v.term = v.value I.theory t := by
    intro t ht
    obtain ⟨he, hg⟩ := value_of_binds hT hI ha hb ht
    rw [Term.mapVars_of_isGround hg, he]
  induction t using Term.induction_args with
  | var x =>
    cases hx : a.terms.get? x with
    | some u => exact bound (List.forall_mem_singleton.2 ⟨u, hx⟩)
    | none =>
      have hvalue : I.value a (.var x) = .var x := by
        simp [value, Subst.apply, Term.mapVars, Subst.value_of_get?_eq_none hx, Theory.normalize,
          Term.eval]
      rw [hvalue]
      exact (hI _ (hv x (List.mem_singleton.2 rfl))).normal.normalize.symm
  | name n => rfl
  | app f as ih =>
    rcases Theory.reads_app h with ⟨hf, has⟩ | hall
    · rw [value, Subst.apply, Valuation.value, Term.mapVars_app, Term.mapVars_app, hf.normalize_app,
        hf.normalize_app, Term.mapVars_app, List.map_map, List.map_map, List.map_map]
      refine congrArg (Term.app f) (List.map_congr_left fun c hc => ?_)
      exact ih c hc (fun x hx => hv x (Term.mem_occurrences_app.2 ⟨c, hc, hx⟩)) (has c hc)
    · exact bound fun x hx => hknown x (hall x hx)

theorem mem_occurrences_of_value {x : Var} (hx : x ∈ (I.value a t).occurrences) :
    x ∈ t.occurrences := by
  obtain ⟨y, hy, hx⟩ := Term.mem_occurrences_mapVars.1 (hT.mem_of_mem_normalize hx)
  cases hget : a.terms.get? y with
  | none =>
    rw [Subst.value_of_get?_eq_none hget] at hx
    cases List.mem_singleton.1 hx
    exact hy
  | some u =>
    rw [Subst.value_of_get? hget,
      Term.occurrences_of_isGround (hI u (ha.terms y u hget).1).ground] at hx
    cases hx

omit hT hI ha in
theorem mem_occurrences_value_of_reads (hknown : ∀ x ∈ known, a.Binds (.msg x))
    (h : I.theory.reads known t = true) {x : Var} (hx : x ∈ t.occurrences)
    (hnone : a.terms.get? x = none) : x ∈ (I.value a t).occurrences := by
  induction t using Term.induction_args with
  | var y =>
    cases List.mem_singleton.1 hx
    simp [value, Subst.apply, Term.mapVars, Subst.value_of_get?_eq_none hnone, Theory.normalize,
      Term.eval, Term.occurrences]
  | name n => cases hx
  | app f as ih =>
    rcases Theory.reads_app h with ⟨hf, has⟩ | hall
    · obtain ⟨c, hc, hx⟩ := Term.mem_occurrences_app.1 hx
      rw [value, Subst.apply, Term.mapVars_app, hf.normalize_app, List.map_map]
      exact Term.mem_occurrences_app.2 ⟨_, List.mem_map_of_mem hc, ih c hc (has c hc) hx⟩
    · obtain ⟨u, hu⟩ := hknown x (hall x hx)
      rw [hnone] at hu
      cases hu

end Values

/-! ## Every instance of the guard is found -/

section Guards

variable (hT : I.theory.Standard) (hI : ∀ t ∈ I.domain, I.theory.Message t) (hwhole : I.Whole)

include hT hI hwhole

/-- Matching one action that can be read finds the values of a valuation, and makes its variables
known. -/
theorem exists_mem_matchAction_of_reads {f : Fact} {i : TimeVar} (ha : a.Proper I) (hb : a.Below v)
    (hknown : ∀ x ∈ known, a.Binds (.msg x)) (hreads : f.args.all (I.theory.reads known) = true)
    (hv : ∀ t ∈ f.args, ∀ x ∈ t.occurrences, v.term x ∈ I.domain ∧
      x.sort.admits (v.term x).sort = true)
    (hemits : I.trace.Emits (v.time i) f.pred (f.args.map (v.value I.theory)))
    (htime : .time i ∈ bs) : ∃ b ∈ I.matchAction bs f i a, b.Proper I ∧ b.Below v ∧
      ∀ x ∈ known ++ f.args.flatMap Term.occurrences, b.Binds (.msg x) := by
  rw [List.all_eq_true] at hreads
  obtain ⟨b, hmem, hbelow⟩ := exists_mem_matchAction_of_value hb hemits
    (fun t ht => mapVars_value hT hI ha hb hknown (fun x hx => (hv t ht x hx).1) (hreads t ht))
    (fun t ht x hx => (hv t ht x (mem_occurrences_of_value hT hI ha hx)).2) fun _ => htime
  obtain ⟨hle, hproper, hbinds, -⟩ := value_of_mem_matchAction hwhole ha hmem
  refine ⟨b, hmem, hproper, hbelow, List.forall_mem_append.2 ⟨fun x hx => (hknown x hx).mono hle,
    fun x hx => ?_⟩⟩
  obtain ⟨t, ht, hx⟩ := List.mem_flatMap.1 hx
  cases hget : a.terms.get? x with
  | some u => exact ⟨u, hle.terms x u hget⟩
  | none => exact hbinds t ht x (mem_occurrences_value_of_reads hknown (hreads t ht) hx hget)

/-- Matching actions that can be read one after the other finds the values of a valuation under which
they all happen. -/
theorem exists_mem_foldl_matchAction : ∀ (actions : List (Fact × TimeVar)) {known : List Var}
    {as : List Assignment} {a : Assignment}, a ∈ as → a.Proper I → a.Below v →
    (∀ x ∈ known, a.Binds (.msg x)) → I.theory.readsActions known actions = true →
    (∀ c ∈ actions, ∀ t ∈ c.1.args, ∀ x ∈ t.occurrences, v.term x ∈ I.domain ∧
      x.sort.admits (v.term x).sort = true) →
    (∀ c ∈ actions, I.trace.Emits (v.time c.2) c.1.pred (c.1.args.map (v.value I.theory))) →
    (∀ c ∈ actions, .time c.2 ∈ bs) →
      ∃ b ∈ actions.foldl (fun as (c : Fact × TimeVar) => as.flatMap (I.matchAction bs c.1 c.2)) as,
        b.Proper I ∧ b.Below v
  | [], _, _, a, hmem, ha, hb, _, _, _, _, _ => ⟨a, hmem, ha, hb⟩
  | c :: actions, known, as, a, hmem, ha, hb, hknown, hreads, hv, hemits, htime => by
    obtain ⟨hc, hactions⟩ := Bool.and_eq_true_iff.1 hreads
    obtain ⟨hvc, hv⟩ := List.forall_mem_cons.1 hv
    obtain ⟨hemitsc, hemits⟩ := List.forall_mem_cons.1 hemits
    obtain ⟨htimec, htime⟩ := List.forall_mem_cons.1 htime
    obtain ⟨b, hbmem, hproper, hbelow, hbinds⟩ := exists_mem_matchAction_of_reads hT hI hwhole ha hb
      hknown hc hvc hemitsc htimec
    exact exists_mem_foldl_matchAction actions (List.mem_flatMap.2 ⟨a, hmem, hbmem⟩) hproper hbelow
      hbinds hactions hv hemits htime

end Guards

/-- Where the actions of a closed quantifier can be read and happen, there is an extension with the
values under which they do. -/
theorem exists_extension_of_reads (hT : I.theory.Standard)
    (hI : ∀ t ∈ I.domain, I.theory.Message t) (hwhole : I.Whole) (hv : v.Ranges I bs)
    {actions : List (Fact × TimeVar)} (hreads : I.theory.readsActions [] actions = true)
    (hscope : ∀ c ∈ actions, ∀ t ∈ c.1.args, t.Scoped (Scope.closed.bind bs))
    (htime : ∀ c ∈ actions, .time c.2 ∈ bs)
    (hemits : ∀ c ∈ actions,
      I.trace.Emits (v.time c.2) c.1.pred (c.1.args.map (v.value I.theory))) :
    ∃ b ∈ I.extensions bs actions {}, b.Below v := by
  have hbelow : (({} : Assignment).without bs).Below v := by
    refine ⟨fun x t hx => ?_, fun i n hi => ?_⟩
    · rw [Assignment.terms_without] at hx
      split at hx <;> cases hx
    · rw [Assignment.times_without] at hi
      split at hi <;> cases hi
  obtain ⟨p, hp, -, hbelow⟩ := exists_mem_foldl_matchAction hT hI hwhole actions
    (List.mem_singleton.2 rfl) (.without (.empty I) bs) hbelow (List.forall_mem_nil _) hreads
    (fun c hc t ht x hx => hv.term x ((hscope c hc t ht x hx).resolve_left id)) hemits htime
  refine exists_mem_foldl_flatMap (P := fun b : Assignment => b.Below v) (F := I.range) bs _
    (fun c hc b hb => exists_mem_range hb ⟨fun x hx => hv.term x ?_, fun i hi => hv.time i ?_⟩) hp hbelow
  · exact List.mem_singleton.1 hx ▸ hc
  · exact List.mem_singleton.1 hi ▸ hc

/-! ## Every instance that is found is one of the guard -/

/-- An assignment extends a match of an action. -/
def Matched (I : Interpretation) (bs : List Binder) (c : Fact × TimeVar) (b : Assignment) : Prop :=
  ∃ p q, p.Proper I ∧ q ∈ I.matchAction bs c.1 c.2 p ∧ q.Le b

theorem Matched.mono {c : Fact × TimeVar} (h : I.Matched bs c a) (hle : a.Le b) :
    I.Matched bs c b := by
  obtain ⟨p, q, hp, hq, hqa⟩ := h
  exact ⟨p, q, hp, hq, hqa.trans hle⟩

/-- An extension binds what the quantifier does, and it extends a match of each action. -/
theorem matched_of_mem_extensions (hwhole : I.Whole) (ha : a.Proper I)
    {actions : List (Fact × TimeVar)} (h : b ∈ I.extensions bs actions a) :
    b.Proper I ∧ (∀ c ∈ bs, b.Binds c) ∧ ∀ c ∈ actions, I.Matched bs c b := by
  refine (matches_of_mem_extensions ha (fun c _ p q hp hq => ?_) (fun h => h.mono) h).2
  obtain ⟨hle, hproper, -⟩ := value_of_mem_matchAction hwhole hp hq
  exact ⟨hle, hproper, p, q, hp, hq, .refl q⟩

theorem Matched.emits (hT : I.theory.Standard) (hI : ∀ t ∈ I.domain, I.theory.Message t)
    (hwhole : I.Whole) {c : Fact × TimeVar} (h : I.Matched bs c b) (hb : b.Proper I)
    (hflat : ∀ t ∈ c.1.args, I.theory.Flat t) :
    ∃ n, b.times.get? c.2 = some n ∧ I.trace.Emits n c.1.pred (c.1.args.map (I.value b)) := by
  obtain ⟨p, q, hp, hq, hle⟩ := h
  obtain ⟨hpq, -, hbinds, n, hn, s, hs, action, haction, hpred, hargs⟩ :=
    value_of_mem_matchAction hwhole hp hq
  refine ⟨n, hle.times c.2 n hn, s, hs, action, haction, hpred, hargs.trans ?_⟩
  refine List.map_congr_left fun t ht => ?_
  have hmessage := hI _ (hwhole.actions s (List.mem_of_getElem? hs) action haction
    ((I.value p t).mapVars q.terms.value) (hargs ▸ List.mem_map_of_mem ht))
  have hinside : ∀ {a : Assignment}, a.Proper I → a.terms.Inside I.theory.flatShape := fun ha x u hx =>
    ⟨trivial, hT.flat_of_normal (hI u (ha.terms x u hx).1).normal⟩
  calc (I.value p t).mapVars q.terms.value
      = I.theory.normalize ((I.value p t).mapVars q.terms.value) := hmessage.normal.normalize.symm
    _ = I.theory.normalize ((I.value p t).mapVars b.terms.value) := by
        refine congrArg I.theory.normalize (Term.mapVars_congr fun x hx => ?_)
        obtain ⟨u, hu⟩ := hbinds t ht x hx
        rw [Subst.value_of_get? hu, Subst.value_of_get? (hle.terms x u hu)]
    _ = I.theory.normalize ((t.mapVars p.terms.value).mapVars b.terms.value) :=
        hT.normalize_mapVars ((hinside hp).apply (hflat t ht)) fun _ => (hinside hb).value trivial
    _ = I.value b t := by
        rw [value, Subst.apply, Term.mapVars_mapVars]
        refine congrArg I.theory.normalize (Term.mapVars_congr fun x _ => ?_)
        cases hx : p.terms.get? x with
        | none => rw [Subst.value_of_get?_eq_none hx, Term.mapVars]
        | some u =>
          rw [Subst.value_of_get? hx, Subst.value_of_get? (hle.terms x u (hpq.terms x u hx)),
            Term.mapVars_of_isGround (hI u (hp.terms x u hx).1).ground]

end Interpretation

namespace Nnf

variable {I : Interpretation} {a : Assignment} {v : Valuation} {s : Scope} {L : Fragment} {f : Nnf}

theorem QuantifierFree.eval_iff (h : f.QuantifierFree) (hs : f.Scoped L s) (hc : a.Covers s)
    (hb : a.Below v) : f.eval I a = true ↔ f.Sat I v := by
  induction h with
  | top => exact iff_of_true rfl trivial
  | bot => exact iff_of_false nofun nofun
  | atom =>
    cases hs with
    | atom _ hp => exact Interpretation.atomHolds_iff hc hb hp
  | neq =>
    cases hs with
    | neq ht hu =>
      rw [eval, bne_iff_ne, Interpretation.value_eq hc hb ht, Interpretation.value_eq hc hb hu]
      rfl
  | conj _ ih =>
    cases hs with
    | conj hs =>
      rw [eval, evalAll_iff, sat_conj]
      exact forall₂_congr fun f hf => ih f hf (hs f hf)
  | disj _ ih =>
    cases hs with
    | disj hs =>
      rw [eval, evalAny_iff, sat_disj]
      exact exists_congr fun f => and_congr_right fun hf => ih f hf (hs f hf)

section Guarded

variable (hT : I.theory.Standard) (hI : ∀ t ∈ I.domain, I.theory.Message t) (hwhole : I.Whole)
  {bs : List Binder} {gs : List Atom} (hgs : ∀ g ∈ gs, g.Scoped (Scope.closed.bind bs))
  (hf : f.QuantifierFree) (hscoped : f.Scoped L (Scope.closed.bind bs))

include hT hI hwhole hgs hf hscoped

/-- A guarded formula that evaluates to true has no counterexample, if its guard can be read. -/
theorem sat_of_eval_guarded (hreads : I.theory.readsActions [] (gs.filterMap Atom.action?) = true)
    (h : (guarded bs gs f).eval I {} = true) (hv : v.Ranges I bs) (hsat : ∀ g ∈ gs, g.Sat I v) :
    f.Sat I v := by
  have haction : ∀ c ∈ gs.filterMap Atom.action?, (∀ t ∈ c.1.args, t.Scoped (Scope.closed.bind bs)) ∧
      .time c.2 ∈ bs ∧ I.trace.Emits (v.time c.2) c.1.pred (c.1.args.map (v.value I.theory)) := by
    intro c hc
    obtain ⟨g, hg, hgc⟩ := List.mem_filterMap.1 hc
    obtain ⟨hterms, htime⟩ := Atom.mem_of_action? hgc
    exact ⟨fun t ht => (hgs g hg).terms t (hterms t ht),
      ((hgs g hg).times c.2 htime).resolve_left id, (Atom.sat_action? hgc).1 (hsat g hg)⟩
  obtain ⟨b, hmem, hbelow⟩ := Interpretation.exists_extension_of_reads hT hI hwhole hv hreads
    (fun c hc => (haction c hc).1) (fun c hc => (haction c hc).2.1) fun c hc => (haction c hc).2.2
  obtain ⟨-, hbinds, -⟩ := Interpretation.matched_of_mem_extensions hwhole (.empty I) hmem
  have hcovers := Assignment.covers_of_binds hbinds
  have hconditions : (gs.filter fun g => g.action?.isNone).all (I.atomHolds b) = true :=
    List.all_eq_true.2 fun g hg => by
      have hg := (List.mem_filter.1 hg).1
      exact (Interpretation.atomHolds_iff hcovers hbelow (hgs g hg)).2 (hsat g hg)
  have hbody := List.all_eq_true.1 h b hmem
  rw [hconditions] at hbody
  exact (hf.eval_iff hscoped hcovers hbelow).1 hbody

/-- A guarded formula without counterexample evaluates to true, whatever its guard. -/
theorem eval_guarded_of_sat (hflat : ∀ g ∈ gs, ∀ t ∈ g.terms, I.theory.Flat t)
    (h : ∀ v : Valuation, v.Ranges I bs → (∀ g ∈ gs, g.Sat I v) → f.Sat I v) :
    (guarded bs gs f).eval I {} = true := by
  rw [eval, List.all_eq_true]
  intro b hmem
  obtain ⟨hproper, hbinds, hmatched⟩ :=
    Interpretation.matched_of_mem_extensions hwhole (.empty I) hmem
  have hcovers := Assignment.covers_of_binds hbinds
  have hbelow := b.below_valuation ⟨.var, fun _ => 0⟩
  rw [Bool.or_eq_true, Bool.not_eq_true', or_iff_not_imp_left, Bool.not_eq_false, List.all_eq_true]
  intro hconditions
  refine (hf.eval_iff hscoped hcovers hbelow).2 (h _ (hproper.ranges hbinds) fun g hg => ?_)
  cases hgc : g.action? with
  | none =>
    exact (Interpretation.atomHolds_iff hcovers hbelow (hgs g hg)).1
      (hconditions g (List.mem_filter.2 ⟨hg, by rw [hgc]; rfl⟩))
  | some c =>
    have hterms := (Atom.mem_of_action? hgc).1
    obtain ⟨n, hn, hemits⟩ := (hmatched c (List.mem_filterMap.2 ⟨g, hg, hgc⟩)).emits hT hI hwhole hproper
      fun t ht => hflat g hg t (hterms t ht)
    rw [Atom.sat_action? hgc, ← hbelow.times c.2 n hn, ← List.map_congr_left fun t ht =>
      Interpretation.value_eq hcovers hbelow ((hgs g hg).terms t (hterms t ht))]
    exact hemits

end Guarded

end Nnf

/-! ## Replayed traces -/

theorem message_of_replay {m : Model} (hT : m.theory.Standard) {tr : Trace} {states : List State}
    (hrules : ∀ r ∈ m.rules, ∀ f ∈ r.facts, ∀ t ∈ f.args, m.theory.Flat t)
    (hsubst : ∀ step ∈ tr, ∀ b ∈ step.subst, m.theory.Flat b.2) (h : replay m tr = .ok states) :
    ∀ t ∈ (Interpretation.ofTrace m.theory tr).domain, m.theory.Message t := by
  intro t ht
  obtain ⟨step, hstep, f, hf, u, hu, htu⟩ := Interpretation.mem_domain_ofTrace.1 ht
  obtain ⟨k, hk⟩ := List.mem_iff_getElem?.1 hstep
  obtain ⟨s, s', -, -, hs⟩ := replayFrom_step h hk
  obtain ⟨r, hr⟩ := fires_of_replayStep hs
  rw [hr.facts] at hf
  obtain ⟨g, hg, rfl⟩ := List.mem_map.1 hf
  have hground := List.all_eq_true.1 (hr.ground g hg) u hu
  obtain ⟨w, hw, rfl⟩ := List.mem_map.1 hu
  let σ : Subst := .ofList step.subst
  have hinside : σ.Inside m.theory.flatShape := fun x t hx =>
    ⟨trivial, hsubst step hstep (x, t) (SortedMap.mem_of_get?_ofList hx)⟩
  have hflat : m.theory.Flat (σ.apply w) := hinside.apply (hrules r hr.mem_rules g hg w hw)
  exact Theory.Message.subterms ⟨hT.normal_normalize hflat, hground⟩ t htu

/-- A guarded formula whose guard can be read evaluates to true on a trace that replays exactly if its
body is true of all values from the trace under which the guard is. -/
theorem guarded_holds_iff {pack : Pack} {sig : Signature} {T : Theory} (hp : Assembled pack sig)
    (hT : Theory.ofRules sig pack.equations pack.algebras = .ok T) {m : Model} (hm : m.theory = T)
    (hrules : ∀ r ∈ m.rules, ∀ f ∈ r.facts, ∀ t ∈ f.args, T.Flat t) {tr : Trace}
    (hsubst : ∀ step ∈ tr, ∀ b ∈ step.subst, T.Flat b.2) {states : List State}
    (hr : replay m tr = .ok states) {bs : List Binder} {gs : List Atom} {f : Nnf} {L : Fragment}
    (hgs : ∀ g ∈ gs, g.Scoped (Scope.closed.bind bs)) (hflat : ∀ g ∈ gs, ∀ t ∈ g.terms, T.Flat t)
    (hreads : T.readsActions [] (gs.filterMap Atom.action?) = true) (hf : f.QuantifierFree)
    (hscoped : f.Scoped L (Scope.closed.bind bs)) :
    (Nnf.guarded bs gs f).holds T tr = true ↔ ∀ v : Valuation, v.Ranges (.ofTrace T tr) bs →
      (∀ g ∈ gs, g.Sat (.ofTrace T tr) v) → f.Sat (.ofTrace T tr) v := by
  have hstandard : T.Standard := (hp.ofPacks hT).standard
  subst hm
  have hmessage := message_of_replay hstandard hrules hsubst hr
  have hwhole := Interpretation.whole_ofTrace m.theory tr
  constructor
  · intro h v hv hsat
    exact Nnf.sat_of_eval_guarded hstandard hmessage hwhole hgs hf hscoped hreads h hv hsat
  · exact Nnf.eval_guarded_of_sat hstandard hmessage hwhole hgs hf hscoped hflat

/-- A message is sent, and masked with a public key in the same step. -/
def maskModel : Model :=
  ⟨mixedTheory, [⟨"Mask", .protocol, [], [.linear "Sent" [.var (.pub "x")],
      .linear "Masked" [.app .xor [.var (.pub "x"), .pubName "k"]]], [], none, [.pub "x"]⟩, .learn],
    [], [], [], 1⟩

def maskTrace : Trace :=
  ["a", "b"].map fun name => ⟨"Mask", [(.pub "x", .pubName name)], [],
    [.linear "Sent" [.pubName name], .linear "Masked" [.app .xor [.pubName name, .pubName "k"]]], []⟩

theorem guarded_holds_iff_mask :
    let x : Term := .var (.msg "x")
    let i : TimeVar := .ofName "i"
    let j : TimeVar := .ofName "j"
    let bs : List Binder := [.msg (.msg "x"), .time i, .time j]
    let gs : List Atom := [.action (.linear "Sent" [x]) i,
      .action (.linear "Masked" [.app .xor [x, .pubName "k"]]) j]
    (Nnf.guarded bs gs (.atom (.timeEq i j))).holds mixedTheory maskTrace = true ∧
      ∀ v : Valuation, v.Ranges (.ofTrace mixedTheory maskTrace) bs →
        (∀ g ∈ gs, g.Sat (.ofTrace mixedTheory maskTrace) v) → v.time i = v.time j := by
  intro x i j bs gs
  have hrun : (replay maskModel maskTrace).isOk = true := by decide +kernel
  have hholds : (Nnf.guarded bs gs (.atom (.timeEq i j))).holds mixedTheory maskTrace = true := by
    decide +kernel
  have hrules : ∀ r ∈ maskModel.rules, ∀ f ∈ r.facts, ∀ t ∈ f.args, mixedTheory.Flat t := by decide
  have hsubst : ∀ step ∈ maskTrace, ∀ b ∈ step.subst, mixedTheory.Flat b.2 := by decide
  have hgs : ∀ g ∈ gs, g.Scoped (Scope.closed.bind bs) := by
    refine List.forall_mem_cons.2 ⟨⟨?_, ?_⟩, List.forall_mem_singleton.2 ⟨?_, ?_⟩⟩ <;>
      simp [Atom.terms, Atom.times, Term.Scoped, Term.occurrences, Term.occurrencesList, Scope.bind,
        Fact.linear, Term.pubName, x, i, j, bs]
  have hbody : (Nnf.atom (.timeEq i j)).Scoped mixedTheory.plainFragment (Scope.closed.bind bs) :=
    .atom (by simp [Atom.Within, Atom.action?])
      ⟨List.forall_mem_nil _, by simp [Atom.times, Scope.bind, bs]⟩
  cases hr : replay maskModel maskTrace with
  | error e => rw [hr] at hrun; cases hrun
  | ok states =>
    exact ⟨hholds, (guarded_holds_iff assembled_mixed rfl rfl hrules hsubst hr hgs (by decide) (by decide)
      .atom hbody).1 hholds⟩

/-- One step with an action of a term that consists of two names. -/
def combineModel (f : Symbol) : Model :=
  ⟨mixedTheory, [⟨"Combine", .protocol, [],
      [.linear "Combined" [.app f [.pubName "a", .pubName "b"]]], [], none, []⟩, .learn],
    [], [], [], 1⟩

def combineTrace (f : Symbol) : Trace :=
  [⟨"Combine", [], [], [.linear "Combined" [.app f [.pubName "a", .pubName "b"]]], []⟩]

/-- Products, sums and unions have their arguments in any order, but only one order is tried. -/
theorem guard_instance_missed :
    let x : Term := .var (.msg "x")
    let i : TimeVar := .ofName "i"
    let bs : List Binder := [.msg (.msg "x"), .msg (.msg "y"), .time i]
    let v : Valuation := ⟨fun x => if x = .msg "x" then .pubName "b" else .pubName "a", fun _ => 0⟩
    ∀ f ∈ [Symbol.mult, .xor, .union],
      let guard : Atom := .action (.linear "Combined" [.app f [x, .var (.msg "y")]]) i
      (replay (combineModel f) (combineTrace f)).isOk = true ∧
        (Nnf.guarded bs [guard] (.atom (.eq x (.pubName "a")))).holds mixedTheory (combineTrace f) =
          true ∧
        v.Ranges (.ofTrace mixedTheory (combineTrace f)) bs ∧
        guard.Sat (.ofTrace mixedTheory (combineTrace f)) v ∧
        ¬ (Nnf.atom (.eq x (.pubName "a"))).Sat (.ofTrace mixedTheory (combineTrace f)) v := by
  intro x i bs v f hf guard
  have hrun : (replay (combineModel f) (combineTrace f)).isOk = true := by
    fin_cases hf <;> decide +kernel
  have hholds : (Nnf.guarded bs [guard] (.atom (.eq x (.pubName "a")))).holds mixedTheory
      (combineTrace f) = true := by
    fin_cases hf <;> decide +kernel
  have hdomain : ∀ name ∈ ["a", "b"], .pubName name ∈ (combineTrace f).subterms := by
    fin_cases hf <;> decide +kernel
  have hvalue : v.value mixedTheory (.app f [x, .var (.msg "y")]) =
      .app f [.pubName "a", .pubName "b"] := by
    fin_cases hf <;> decide +kernel
  have hranges : v.Ranges (.ofTrace mixedTheory (combineTrace f)) bs := by
    refine ⟨fun z hz => ?_, fun _ _ => Nat.one_pos⟩
    have hz : z = .msg "x" ∨ z = .msg "y" := by simpa [bs] using hz
    rcases hz with rfl | rfl
    · exact ⟨hdomain "b" (by simp), rfl⟩
    · exact ⟨hdomain "a" (by simp), rfl⟩
  have hguard : guard.Sat (.ofTrace mixedTheory (combineTrace f)) v :=
    ⟨_, rfl, _, List.mem_singleton.2 rfl, rfl, (congrArg (fun t => [t]) hvalue).symm⟩
  have hbody : v.value mixedTheory x ≠ v.value mixedTheory (.pubName "a") := by decide +kernel
  exact ⟨hrun, hholds, hranges, hguard, hbody⟩

end ProtocolProver
