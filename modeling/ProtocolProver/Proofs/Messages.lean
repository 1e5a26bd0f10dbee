import ProtocolProver.Proofs.PlainModels

/-!
# Messages, and patterns that they match

A message is a ground term in which nothing can be reduced, whatever algebras the theory has. It is
its own normal form (`Normal.normalize`). Unification of a term of constructors with a ground instance
of it is matching: it goes on with one problem all the time, and its answer has the values of the
instance (`Problem.Reads.solveAll`), unless the work that one call may do runs out. So the pattern that
a rule opens is unified with every message that is an instance of it (`exists_mem_unify`).
-/

namespace ProtocolProver

namespace Term

variable {t : Term}

theorem isGround_app {f : Symbol} {as : List Term} :
    (Term.app f as).isGround = true ↔ ∀ a ∈ as, a.isGround = true := by
  rw [isGround, isGroundList_eq, List.all_eq_true]

theorem mapVars_of_isGround (h : t.isGround = true) (θ : Var → Term) : t.mapVars θ = t := by
  induction t using induction_args with
  | var v => simp [isGround] at h
  | name n => rfl
  | app f as ih =>
    rw [mapVars_app, List.map_congr_left fun a ha => ih a ha (isGround_app.1 h a ha), List.map_id']

theorem occurrences_of_isGround (h : t.isGround = true) : t.occurrences = [] := by
  refine List.eq_nil_iff_forall_not_mem.2 fun x hx => ?_
  simpa using (isGround_iff.1 h).var_of_mem hx

theorem occurs_of_isGround (h : t.isGround = true) (x : Var) : t.occurs x = false := by
  simp [Bool.eq_false_iff, occurs_iff, occurrences_of_isGround h]

theorem occurrences_app (f : Symbol) (as : List Term) :
    (Term.app f as).occurrences = as.flatMap occurrences := by
  rw [occurrences, occurrencesList_eq]

theorem sizeList_eq_sum (as : List Term) : sizeList as = (as.map size).sum := by
  induction as with
  | nil => rfl
  | cons a as ih => simp [sizeList, ih]

theorem size_reindex (k : Nat) (t : Term) : (t.reindex k).size = t.size := by
  induction t using induction_args with
  | var v => rfl
  | name n => rfl
  | app f as ih =>
    rw [reindex, mapVars_app, size, size, sizeList_eq_sum, sizeList_eq_sum, List.map_map]
    exact congrArg (1 + List.sum ·) (List.map_congr_left ih)

end Term

namespace Theory

variable {T : Theory} {t : Term}

/-! ## Flat terms can be checked -/

mutual

/-- Whether the numbers of arguments are those of a flat term. -/
def isFlat (T : Theory) : Term → Bool
  | .app f as =>
    (if T.isAssoc f then f != .union || 0 < as.length else as.length == T.signature.arity f) &&
      T.isFlatList as
  | _ => true

def isFlatList (T : Theory) : List Term → Bool
  | [] => true
  | a :: as => T.isFlat a && T.isFlatList as

end

theorem isFlatList_eq (as : List Term) : T.isFlatList as = as.all T.isFlat := by
  induction as with
  | nil => rfl
  | cons a as ih => simp [isFlatList, ih]

theorem isFlat_iff : T.isFlat t = true ↔ T.Flat t := by
  induction t using Term.induction_args with
  | var v => simp [isFlat, Flat, flatShape]
  | name n => simp [isFlat, Flat, flatShape]
  | app f as ih =>
    rw [isFlat, isFlatList_eq, Bool.and_eq_true, List.all_eq_true, Flat, Term.has_app]
    refine and_congr ?_ (forall₂_congr ih)
    by_cases hf : T.isAssoc f = true
    · simp [flatShape, hf, imp_iff_not_or]
    · simp [flatShape, hf]

instance : DecidablePred T.Flat := fun _ => decidable_of_iff _ isFlat_iff

/-! ## Normal terms are their own normal forms -/

theorem Normal.reduce_eq {f : Symbol} {as : List Term} (h : T.Normal (.app f as)) (n : Nat) :
    T.reduce n f as = .app f as := by
  rcases T.algebras.owner?_cases f with ⟨ho, he, hown⟩ | ⟨ho, hx, hown⟩ | ⟨ho, hm, rfl⟩ | ho
  · rw [reduce_exponents ho]
    have hroot := h.exponent_root he hown
    simp only [Exponent.owns, Bool.or_eq_true, beq_iff_eq] at hown
    rcases hown with ((rfl | rfl) | rfl) | rfl
    · obtain ⟨b, e, rfl, hb, he⟩ := hroot.exp rfl
      exact (Exponent.power_of_base hb).trans (if_neg he)
    · obtain ⟨-, -, hr⟩ := hroot.mult rfl
      have hel : ∀ a ∈ as, Exponent.Element a := fun a ha => (h.args a ha).exponent he
      refine (Exponent.element_reduce_mult hel).eq_of_net_eq (h.exponent he) ?_
      rw [Exponent.joins_mult.value_join hel, List.flatMap_congr fun a ha => (hr.factor a ha).factors_eq,
        List.flatMap_singleton']
      rfl
    · obtain ⟨a, rfl, ha⟩ := hroot.inv rfl
      exact ha.inverse_eq
    · rw [hroot.one rfl]
      rfl
  · rw [reduce_xor ho]
    have hroot := h.xor_root hx hown
    simp only [ExclusiveOr.owns, Bool.or_eq_true, beq_iff_eq] at hown
    rcases hown with rfl | rfl
    · obtain ⟨-, -, hr⟩ := hroot.xor rfl
      have hel : ∀ a ∈ as, ExclusiveOr.Element a := fun a ha => (h.args a ha).sum hx
      refine ExclusiveOr.joins_xor.ext (ExclusiveOr.joins_xor.element hel) (h.sum hx) ?_
      rw [ExclusiveOr.joins_xor.value_join hel,
        List.flatMap_congr fun a ha => (hr.summand a ha).summands_eq, List.flatMap_singleton']
      rfl
    · rw [hroot.zero rfl]
      rfl
  · rw [reduce_multisets ho, Multiset.reduce_union,
      List.flatMap_congr fun a ha => Multiset.elements_eq ((h.union_root hm).flat a ha),
      List.flatMap_singleton']
    exact (h.union hm).flatForm_elements
  · have hroot := h.root
    rw [RootNormal, ho] at hroot
    cases n <;> simp [reduce, ho, hroot.2]

theorem normalize_app (f : Symbol) (as : List Term) :
    T.normalize (.app f as) = T.reduce reductionLimit f (as.map T.normalize) :=
  Term.eval_app ..

theorem Normal.normalize (h : T.Normal t) : T.normalize t = t := by
  induction h with
  | var | name => rfl
  | @app f as has hroot ih =>
    rw [normalize_app, List.map_congr_left ih, List.map_id']
    exact (Normal.app has hroot).reduce_eq _

theorem normalize_app_of_normal {f : Symbol} {as : List Term} (h : ∀ a ∈ as, T.Normal a) :
    T.normalize (.app f as) = T.reduce reductionLimit f as := by
  rw [normalize_app, List.map_congr_left fun a ha => (h a ha).normalize, List.map_id']

/-! ## Messages -/

/-- A ground term in which nothing can be reduced. -/
structure Message (T : Theory) (t : Term) : Prop where
  normal : T.Normal t
  ground : t.isGround = true

namespace Message

theorem args {f : Symbol} {as : List Term} (h : T.Message (.app f as)) : ∀ a ∈ as, T.Message a :=
  fun a ha => ⟨h.normal.args a ha, Term.isGround_app.1 h.ground a ha⟩

theorem of_mapVars {θ : Var → Term} (h : T.Message (t.mapVars θ)) :
    ∀ x ∈ t.occurrences, T.Message (θ x) := Term.of_mapVars (fun _ _ => args) h

theorem pattern {p : Term} (hp : p.Has T.patternShape) {θ : Var → Term}
    (h : ∀ x ∈ p.occurrences, T.Message (θ x)) : T.Message (p.mapVars θ) := by
  induction hp with
  | var => exact h _ (by simp [Term.occurrences])
  | name hn => exact hn.elim
  | @app f ps hf _ ih =>
    have hargs : ∀ a ∈ ps.map (Term.mapVars θ), T.Message a :=
      List.forall_mem_map.2 fun q hq =>
        ih q hq fun x hx => h x (Term.mem_occurrences_app.2 ⟨q, hq, hx⟩)
    rw [Term.mapVars_app]
    refine ⟨.app (fun a ha => (hargs a ha).normal) ?_, Term.isGround_app.2 fun a ha =>
      (hargs a ha).ground⟩
    rw [RootNormal, hf.1.free, List.length_map]
    exact ⟨hf.2, hf.1.contractRoot? _⟩

theorem factors (h : T.Message t) : ∀ u ∈ Exponent.factors t, T.Message u := fun u hu =>
  ⟨h.normal.of_part (.inl hu),
    Term.isGround_iff.2 (Closes.has_factors (Term.isGround_iff.1 h.ground) u hu)⟩

theorem summands (h : T.Message t) : ∀ u ∈ ExclusiveOr.summands t, T.Message u := fun u hu =>
  ⟨h.normal.of_part (.inr (.inl hu)),
    Term.isGround_iff.2 (Closes.has_summands (Term.isGround_iff.1 h.ground) u hu)⟩

section Exponents

variable (hT : T.algebras.exponents = true)

include hT

theorem product {ts : List Term} (hr : Exponent.Reduced ts) (h : ∀ t ∈ ts, T.Message t) :
    T.Message (Exponent.product ts) :=
  ⟨.product hT hr fun t ht => (h t ht).normal, Term.isGround_iff.2
    (Closes.has_product (by simp) fun t ht => Term.isGround_iff.1 (h t ht).ground)⟩

theorem raise {b e : Term} (hb : b.head? ≠ some .exp) (h : T.Message b) (he : T.Message e) :
    T.Message (Exponent.raise b e) := by
  refine ⟨.raise hT hb h.normal he.normal, ?_⟩
  unfold Exponent.raise
  split
  · exact h.ground
  · simp [Term.isGround_app, h.ground, he.ground]

end Exponents

section Sums

variable (hT : T.algebras.xor = true)

include hT

theorem sum {ts : List Term} (hs : ∀ t ∈ ts, ExclusiveOr.Summand t) (h : ∀ t ∈ ts, T.Message t) :
    T.Message (ExclusiveOr.sum ts) := by
  refine ⟨?_, Term.isGround_iff.2 (Closes.has_sum (by simp) fun t ht =>
    Term.isGround_iff.1 (h t ht).ground)⟩
  rw [ExclusiveOr.sum_eq]
  refine .flatForm_xor hT (ExclusiveOr.reduced_cancel hs) fun t ht => ?_
  rw [ExclusiveOr.cancel_eq] at ht
  exact (h t ((mem_of_mem_cancelFrom ht).resolve_left List.not_mem_nil)).normal

end Sums

end Message

theorem Standard.message_normalize (hT : T.Standard) (hflat : T.Flat t) (h : t.isGround = true) :
    T.Message (T.normalize t) := ⟨hT.normal_normalize hflat, hT.isGround_normalize h⟩

end Theory

/-! ## Reading a ground instance -/

namespace Subst

/-- Ground values in normal form and of the right sorts. -/
def Assigns (T : Theory) (θ : Subst) : Prop :=
  ∀ x t, θ.get? x = some t → t.isGround = true ∧ T.normalize t = t ∧ x.sort.admits t.sort = true

variable {σ θ : Subst} {x : Var}

theorem contains_iff : σ.contains x = true ↔ ∃ t, σ.get? x = some t := Option.isSome_iff_exists

theorem value_of_contains (h : θ.contains x = true) : θ.get? x = some (θ.value x) := by
  obtain ⟨t, ht⟩ := contains_iff.1 h
  rw [ht, value_of_get? ht]

theorem Le.value_eq (h : σ.Le θ) (hx : σ.contains x = true) : σ.value x = θ.value x := by
  obtain ⟨t, ht⟩ := contains_iff.1 hx
  rw [value_of_get? ht, value_of_get? (h x t ht)]

theorem Le.eq (h : σ.Le θ) (hall : ∀ x, θ.contains x = true → σ.contains x = true) : σ = θ := by
  refine SortedMap.ext_get? fun x => ?_
  cases hx : θ.get? x with
  | none => exact Option.eq_none_iff_forall_ne_some.2 fun t ht => by cases hx.symm.trans (h x t ht)
  | some t =>
    obtain ⟨u, hu⟩ := contains_iff.1 (hall x (contains_iff.2 ⟨t, hx⟩))
    rw [hu, ← h x u hu, hx]

section Assigns

variable {T : Theory} (hθ : θ.Assigns T)

include hθ

theorem Assigns.isGround_mapVars {q : Term} (hq : ∀ x ∈ q.occurrences, θ.contains x = true) :
    (q.mapVars θ.value).isGround = true :=
  Term.isGround_mapVars fun x hx => (hθ x _ (value_of_contains (hq x hx))).1

theorem Assigns.normalize_value (hσ : σ.Le θ) (x : Var) : T.normalize (σ.value x) = σ.value x := by
  cases hx : σ.get? x with
  | none => rw [value_of_get?_eq_none hx]; rfl
  | some t => rw [value_of_get? hx]; exact (hθ x t (hσ x t hx)).2.1

/-- Bindings that were put in before make no difference to a later instance. -/
theorem Assigns.normalize_apply (hσ : σ.Le θ) {q : Term} (hq : q.Has T.plainShape)
    {ρ : Var → Term} (hρ : ∀ x, ρ x = .var x ∨ σ.get? x = some (ρ x)) :
    T.normalize (σ.apply (q.mapVars ρ)) = q.mapVars σ.value := by
  rw [Subst.apply, Term.mapVars_mapVars, Theory.normalize_mapVars_constructors hq]
  refine Term.mapVars_congr fun x _ => ?_
  rcases hρ x with hx | hx
  · rw [hx]
    exact hθ.normalize_value hσ x
  · obtain ⟨hground, hnormal, -⟩ := hθ x _ (hσ x _ hx)
    rw [Term.mapVars_of_isGround hground, hnormal, value_of_get? hx]

theorem Assigns.get?_bind (hσ : σ.Le θ) (hx : θ.contains x = true) (y : Var) :
    (σ.bind T.normalize x (θ.value x)).get? y = if y = x then some (θ.value x) else σ.get? y := by
  obtain ⟨hground, hnormal, -⟩ := hθ x _ (value_of_contains hx)
  have happly : T.normalize (σ.apply (θ.value x)) = θ.value x := by
    rw [Subst.apply, Term.mapVars_of_isGround hground, hnormal]
  unfold Subst.bind
  simp only [happly, SortedMap.get?_insert, SortedMap.get?_mapValues]
  split
  · rfl
  · cases hy : σ.get? y with
    | none => rfl
    | some u => simp [Term.occurs_of_isGround (hθ y u (hσ y u hy)).1]

theorem Assigns.bind_le (hσ : σ.Le θ) (hx : θ.contains x = true) :
    (σ.bind T.normalize x (θ.value x)).Le θ := by
  intro y t ht
  rw [hθ.get?_bind hσ hx] at ht
  split at ht
  · rename_i hy
    cases ht
    rw [hy, value_of_contains hx]
  · exact hσ y t ht

theorem Assigns.le_bind (hσ : σ.Le θ) (hx : θ.contains x = true) (hget : σ.get? x = none) :
    σ.Le (σ.bind T.normalize x (θ.value x)) := by
  intro y t ht
  rw [hθ.get?_bind hσ hx, if_neg, ht]
  rintro rfl
  cases hget.symm.trans ht

theorem Assigns.contains_bind (hσ : σ.Le θ) (hx : θ.contains x = true) (y : Var) :
    (σ.bind T.normalize x (θ.value x)).contains y = true ↔ y = x ∨ σ.contains y = true := by
  rw [SortedMap.contains, hθ.get?_bind hσ hx]
  by_cases hy : y = x
  · simp [hy]
  · simp [hy, SortedMap.contains]

end Assigns

end Subst

namespace Theory

variable {T : Theory} {t : Term} {θ : Subst}

theorem solve_of_isConstructor {f : Symbol} (hf : T.IsConstructor f) {as bs : List Term}
    (hlen : as.length = bs.length) (s : VarSupply) :
    (T.solve (.app f as) (.app f bs)).run s = (⟨[⟨as.zip bs, false⟩], true⟩, s) := by
  have hsolver : T.solver? (.app f as) (.app f bs) = none := by simp [solver?, Term.head?, hf.free]
  unfold solve
  simp only [hsolver, Free.solve, hlen, and_self, if_true, StateT.run_bind,
    narrow_of_isConstructor hf]
  rfl

/-- The equation between two terms, in either order. -/
def facing (b : Bool) (l r : Term) : Equation := if b then (l, r) else (r, l)

/-- An equation between a term of constructors, in which `σ` has been put in for some variables, and the
instance of the term under `θ`. -/
def ReadsEquation (T : Theory) (θ σ : Subst) (q : Term) (e : Equation) : Prop :=
  q.Has T.plainShape ∧ (∀ x ∈ q.occurrences, θ.contains x = true) ∧
    ∃ (b : Bool) (ρ : Var → Term), (∀ x, ρ x = .var x ∨ σ.get? x = some (ρ x)) ∧
      e = facing b (q.mapVars ρ) (q.mapVars θ.value)

/-- A problem that reads the instances of the terms `qs` under `θ`. In the end the variables `V` have
their values. -/
structure Problem.Reads (T : Theory) (θ : Subst) (V : Var → Prop) (qs : List Term) (p : Problem) :
    Prop where
  part : p.subst.Le θ
  eqs : List.Forall₂ (T.ReadsEquation θ p.subst) qs p.eqs
  covers : ∀ x, V x ↔ p.subst.contains x = true ∨ x ∈ qs.flatMap Term.occurrences

theorem ReadsEquation.mono {σ τ : Subst} {q : Term} {e : Equation} (h : T.ReadsEquation θ σ q e)
    (hτ : σ.Le τ) : T.ReadsEquation θ τ q e := by
  obtain ⟨hq, hvars, b, ρ, hρ, he⟩ := h
  exact ⟨hq, hvars, b, ρ, fun x => (hρ x).imp_right (hτ x _), he⟩

theorem forall₂_readsEquation {σ : Subst} {qs : List Term} (hqs : ∀ q ∈ qs, q.Has T.plainShape)
    (hvars : ∀ x ∈ qs.flatMap Term.occurrences, θ.contains x = true) (b : Bool) {ρ : Var → Term}
    (hρ : ∀ x, ρ x = .var x ∨ σ.get? x = some (ρ x)) : List.Forall₂ (T.ReadsEquation θ σ) qs
      (qs.map fun q => facing b (q.mapVars ρ) (q.mapVars θ.value)) := by
  rw [List.forall₂_map_right_iff, List.forall₂_same]
  exact fun q hq => ⟨hqs q hq, fun x hx => hvars x (List.mem_flatMap.2 ⟨q, hq, hx⟩), b, ρ, hρ, rfl⟩

theorem orient_of_isGround {x : Var} (ht : t.isGround = true) (hs : x.sort.admits t.sort = true)
    (b : Bool) : orient (facing b (.var x) t).1 (facing b (.var x) t).2 = some (x, t) := by
  have hcond : (x.sort.admits t.sort && !t.occurs x) = true := by
    simp [hs, Term.occurs_of_isGround ht]
  cases t with
  | var v => simp [Term.isGround] at ht
  | name | app => cases b <;> exact if_pos hcond

theorem zip_facing (b : Bool) (as : List Term) (ρ τ : Term → Term) :
    (as.map (if b then ρ else τ)).zip (as.map (if b then τ else ρ)) =
      as.map fun a => facing b (ρ a) (τ a) := by
  cases b <;> exact List.zip_map' ..

variable {V : Var → Prop} {qs : List Term} {p : Problem} (hθ : θ.Assigns T)

include hθ

/-- A step goes on with one problem, which has fewer symbols to read. -/
theorem Problem.Reads.step (h : p.Reads T θ V qs) {e : Equation} {rest : List Equation}
    (he : p.eqs = e :: rest) : ∃ (p' : Problem) (qs' : List Term),
      (∀ acc, p.step T e rest acc = ([p'], acc)) ∧ p'.Reads T θ V qs' ∧
        Term.sizeList qs' < Term.sizeList qs := by
  obtain ⟨hpart, heqs, hcovers⟩ := h
  rw [he] at heqs
  obtain ⟨q, qs, ⟨hq, hvars, b, ρ, hρ, rfl⟩, hrest, rfl⟩ := List.forall₂_cons_right_iff.1 heqs
  have hground := hθ.isGround_mapVars hvars
  have hright : T.normalize (p.subst.apply (q.mapVars θ.value)) = q.mapVars θ.value := by
    rw [Subst.apply, Term.mapVars_of_isGround hground, normalize_mapVars_constructors hq]
    exact Term.mapVars_congr fun x _ => hθ.normalize_value (.refl θ) x
  have hsides : ∀ i : Equation → Term, i = Prod.fst ∨ i = Prod.snd →
      T.normalize (p.subst.apply (i (facing b (q.mapVars ρ) (q.mapVars θ.value)))) =
        i (facing b (q.mapVars p.subst.value) (q.mapVars θ.value)) := by
    rintro _ (rfl | rfl) <;> cases b <;> simp [facing, hright, hθ.normalize_apply hpart hq hρ]
  have hsize : Term.sizeList qs < Term.sizeList (q :: qs) := by
    have := q.size_pos
    rw [Term.sizeList]
    omega
  simp only [List.flatMap_cons, List.mem_append] at hcovers
  unfold Problem.step
  simp only [hsides _ (.inl rfl), hsides _ (.inr rfl)]
  by_cases hsame : q.mapVars p.subst.value = q.mapVars θ.value
  · -- All variables of the term have their values.
    refine ⟨{ p with eqs := rest }, qs, fun acc => if_pos (by rw [hsame]; cases b <;> rfl),
      ⟨hpart, hrest, fun x => (hcovers x).trans ⟨?_, ?_⟩⟩, hsize⟩
    · rintro (hx | hx | hx)
      · exact .inl hx
      · left
        have hvalue : p.subst.value x = θ.value x := Term.eq_of_mapVars_eq hsame x hx
        have hx' := (hθ x _ (Subst.value_of_contains (hvars x hx))).1
        rw [← hvalue] at hx'
        cases hget : p.subst.get? x with
        | none =>
          rw [Subst.value_of_get?_eq_none hget] at hx'
          simp [Term.isGround] at hx'
        | some t => exact Subst.contains_iff.2 ⟨t, hget⟩
      · exact .inr hx
    · exact Or.imp_right .inr
  · have hne : (facing b (q.mapVars p.subst.value) (q.mapVars θ.value)).1 ≠
        (facing b (q.mapVars p.subst.value) (q.mapVars θ.value)).2 := by
      cases b
      · exact Ne.symm hsame
      · exact hsame
    simp only [if_neg hne]
    cases q with
    | name n => exact absurd rfl hsame
    | var x =>
      have hx : θ.contains x = true := hvars x (List.mem_singleton.2 rfl)
      have hget : p.subst.get? x = none := by
        refine Option.eq_none_iff_forall_ne_some.2 fun t ht => hsame ?_
        exact hpart.value_eq (Subst.contains_iff.2 ⟨t, ht⟩)
      have horient : orient (facing b (p.subst.value x) (θ.value x)).1
          (facing b (p.subst.value x) (θ.value x)).2 = some (x, θ.value x) := by
        rw [Subst.value_of_get?_eq_none hget]
        exact orient_of_isGround hground (hθ x _ (Subst.value_of_contains hx)).2.2 b
      refine ⟨⟨p.subst.bind T.normalize x (θ.value x), rest, p.narrowings⟩, qs,
        fun acc => by simp only [Term.mapVars, horient], ⟨hθ.bind_le hpart hx,
          hrest.imp fun _ _ h => h.mono (hθ.le_bind hpart hx hget), fun y => ?_⟩, hsize⟩
      rw [hcovers, hθ.contains_bind hpart hx, Term.occurrences, List.mem_singleton, or_assoc,
        or_left_comm]
    | app f as =>
      have hf : T.IsConstructor f := (Term.has_app.1 hq).1
      refine ⟨⟨p.subst, as.map (fun a => facing b (a.mapVars p.subst.value) (a.mapVars θ.value)) ++ rest,
        p.narrowings⟩, as ++ qs, fun acc => ?_, ⟨hpart, List.rel_append (forall₂_readsEquation
          (Term.has_app.1 hq).2 (Term.occurrences_app f as ▸ hvars) b fun x => ?_) hrest,
          fun x => (hcovers x).trans ?_⟩, ?_⟩
      · rw [← zip_facing b as (Term.mapVars p.subst.value) (Term.mapVars θ.value)]
        cases b <;> simp [facing, Term.mapVars_app, orient, solve_of_isConstructor hf]
      · cases hx : p.subst.get? x with
        | none => exact .inl (Subst.value_of_get?_eq_none hx)
        | some t => exact .inr (congrArg some (Subst.value_of_get? hx).symm)
      · rw [List.flatMap_append, List.mem_append, Term.occurrences_app]
      · rw [Term.sizeList_append, Term.sizeList, Term.size]
        omega

/-- Whether the work on a stack of problems is given up at one of its bounds. -/
def givesUp (T : Theory) : Nat → List Problem → Progress → Bool
  | _, [], _ => false
  | 0, _ :: _, _ => true
  | n + 1, p :: stack, acc =>
    maxUnifiers ≤ acc.found.length ||
      match p.eqs with
      | [] =>
        if acc.found.contains p.subst then T.givesUp n stack acc
        else T.givesUp n stack { acc with found := acc.found ++ [p.subst] }
      | e :: rest => T.givesUp n ((p.step T e rest acc).1 ++ stack) (p.step T e rest acc).2

/-- A problem that reads an instance is solved by its values, or the work runs out. -/
theorem Problem.Reads.solveAll {n : Nat} (h : p.Reads T θ V qs) :
    ((∀ s, T.givesUp n [p] ⟨[], true, s⟩ = true) ∧ n ≤ Term.sizeList qs) ∨
      ∃ τ : Subst, (∀ s, (T.solveAll n [p] ⟨[], true, s⟩).found = [τ]) ∧ τ.Le θ ∧
        ∀ x, V x ↔ τ.contains x = true := by
  induction n generalizing p qs with
  | zero => exact .inl ⟨fun _ => rfl, Nat.zero_le _⟩
  | succ n ih =>
    simp only [givesUp, Theory.solveAll, List.length_nil, Nat.le_zero_eq, show maxUnifiers ≠ 0 by decide,
      if_false, decide_false, Bool.false_or]
    cases heqs : p.eqs with
    | nil =>
      have hqs : qs = [] := List.forall₂_nil_right_iff.1 (heqs ▸ h.eqs)
      refine .inr ⟨p.subst, fun s => by cases n <;> rfl, h.part, fun x => ?_⟩
      simpa [hqs] using h.covers x
    | cons e rest =>
      obtain ⟨p', qs', hstep, hreads, hsize⟩ := h.step hθ heqs
      simp only [hstep, List.singleton_append]
      exact (ih hreads).imp_left fun h => ⟨h.1, by have := h.2; omega⟩

/-- A call that unifies terms of constructors with their instances finds the values, or gives up. -/
theorem exists_mem_unify_reads (b : Bool) {σ : Subst} (hσ : σ.Le θ) {qs : List Term}
    (hq : ∀ q ∈ qs, q.Has T.plainShape)
    (hvars : ∀ x ∈ qs.flatMap Term.occurrences, θ.contains x = true) {eqs : List Equation}
    (heqs : eqs = qs.map fun q => facing b q (q.mapVars θ.value)) :
    ((∀ s, T.givesUp maxWork [⟨σ, eqs, 0⟩] ⟨[], true, s⟩ = true) ∧ maxWork ≤ Term.sizeList qs) ∨
      ∃ τ : Subst, (∀ s, τ ∈ ((T.unify eqs σ).run s).1.substs) ∧ τ.Le θ ∧
        ∀ x, τ.contains x = true ↔ σ.contains x = true ∨ x ∈ qs.flatMap Term.occurrences := by
  have hstart : Problem.Reads T θ (fun x => σ.contains x = true ∨ x ∈ qs.flatMap Term.occurrences) qs
      ⟨σ, eqs, 0⟩ := by
    refine ⟨hσ, ?_, fun x => Iff.rfl⟩
    have hreads := forall₂_readsEquation (σ := σ) hq hvars b fun x => .inl (Eq.refl (Term.var x))
    simp only [Term.mapVars_var] at hreads
    exact heqs ▸ hreads
  refine (hstart.solveAll hθ).imp_right ?_
  rintro ⟨τ, hfound, hτ, hcovers⟩
  refine ⟨τ, fun s => List.mem_filter.2 ⟨by simp [hfound], ?_⟩, hτ, fun x => (hcovers x).symm⟩
  rw [solves, heqs, List.all_map, List.all_eq_true]
  intro q hmem
  have hinstance : τ.apply q = q.mapVars θ.value := Term.mapVars_congr fun x hx =>
    hτ.value_eq ((hcovers x).1 (.inr (List.mem_flatMap.2 ⟨q, hmem, hx⟩)))
  have hkept : τ.apply (q.mapVars θ.value) = q.mapVars θ.value := Term.mapVars_of_isGround
    (hθ.isGround_mapVars fun x hx => hvars x (List.mem_flatMap.2 ⟨q, hmem, hx⟩)) _
  cases b <;> simp [facing, equal, hinstance, hkept]

omit hθ in
theorem exists_mem_unify {p : Term} (hp : p.Has T.patternShape) (hsize : p.size < maxWork)
    {θ : Var → Term} (h : T.Message (p.mapVars θ)) (s : VarSupply) :
    ∃ σ, σ ∈ ((T.unify [(p.mapVars θ, p)] ∅).run s).1.substs := by
  let τ : Subst := SortedMap.ofList (p.occurrences.map fun x => (x, θ x))
  have hget : ∀ x ∈ p.occurrences, τ.get? x = some (θ x) := fun x hx =>
    (SortedMap.get?_ofList_map θ p.occurrences x).trans (if_pos hx)
  have hτ : τ.Assigns T := by
    intro x t hx
    obtain ⟨y, hy, he⟩ := List.mem_map.1 (SortedMap.mem_of_get?_ofList hx)
    cases he
    obtain ⟨hnormal, hground⟩ := h.of_mapVars x hy
    exact ⟨hground, hnormal.normalize, by rw [(hp.var_of_mem hy :)]; rfl⟩
  have hinstance : p.mapVars τ.value = p.mapVars θ :=
    Term.mapVars_congr fun x hx => Subst.value_of_get? (hget x hx)
  have hplain : p.Has T.plainShape := hp.mono (fun _ _ => trivial) (by rintro _ ⟨⟩) fun _ _ h => h.1
  rcases exists_mem_unify_reads hτ false (σ := ∅) nofun (List.forall_mem_singleton.2 hplain)
      (fun x hx => Subst.contains_iff.2 ⟨_, hget x (by simpa using hx)⟩) rfl with ⟨-, hwork⟩ | ⟨σ, hσ, -⟩
  · simp only [Term.sizeList] at hwork
    omega
  · have hσ := hσ s
    simp only [List.map_cons, List.map_nil, facing, hinstance] at hσ
    exact ⟨σ, hσ⟩

end Theory

/-! ## Theories of packs -/

/-- What the theories of packs have in common. The patterns that their rules open have few symbols. -/
structure Theory.OfPacks (T : Theory) : Prop where
  standard : T.Standard
  shallow : T.Shallow
  size : ∀ {r i g as c ps}, T.Opens r i g as c ps → (Term.app c ps).size < maxWork

theorem Assembled.ofPacks_theory {pack : Pack} {sig : Signature} (hp : Assembled pack sig) :
    Theory.OfPacks ⟨sig, pack.algebras, Reduction.projections ++ pack.equations⟩ :=
  ⟨hp.standard rfl, hp.shallow rfl, fun h => (hp.opens rfl h).2.2⟩

theorem Assembled.ofPacks {pack : Pack} {sig : Signature} {T : Theory} (hp : Assembled pack sig)
    (h : Theory.ofRules sig pack.equations pack.algebras = .ok T) : T.OfPacks :=
  Theory.ofRules_eq_ok h ▸ hp.ofPacks_theory

end ProtocolProver
