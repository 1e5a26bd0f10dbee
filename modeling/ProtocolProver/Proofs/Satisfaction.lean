import ProtocolProver.Formula.Truth
import ProtocolProver.Proofs.FreeUnification
import ProtocolProver.Proofs.NormalFormulas

/-!
# Truth under a valuation

A `Valuation` gives a term to every variable and a step to every timepoint, so that a formula with
free variables has a truth value on a trace (`Formula.Sat`, `Nnf.Sat`). Quantifiers range over the terms
of the domain and the steps of the trace, and terms are compared by their normal forms. Replacing
variables in a formula comes to the same as a change of the valuation (`sat_map`, `sat_instantiate`),
as long as quantifiers bind variables of index 0 and the terms that are put in have none of these;
`Nnf.Scoped` keeps track of this.
-/

namespace ProtocolProver

/-- Values for all variables and timepoints. -/
structure Valuation where
  term : Var → Term
  time : TimeVar → Nat

/-- Terms for variables and timepoints for timepoints. -/
structure Replacement where
  term : Var → Term
  time : TimeVar → TimeVar

namespace Replacement

/-- The replacement without the variables of a quantifier. -/
def except (ρ : Replacement) (bs : List Binder) : Replacement where
  term x := if .msg x ∈ bs then .var x else ρ.term x
  time i := if .time i ∈ bs then i else ρ.time i

/-- What is put in has no variable of index 0. -/
structure Apart (ρ : Replacement) : Prop where
  term : ∀ x, ρ.term x = .var x ∨ ∀ y ∈ (ρ.term x).occurrences, y.idx ≠ 0
  time : ∀ i, ρ.time i = i ∨ (ρ.time i).idx ≠ 0

theorem Apart.except {ρ : Replacement} (h : ρ.Apart) (bs : List Binder) : (ρ.except bs).Apart where
  term x := by
    by_cases hx : .msg x ∈ bs
    · exact .inl (if_pos hx)
    · simpa [Replacement.except, hx] using h.term x
  time i := by
    by_cases hi : .time i ∈ bs
    · exact .inl (if_pos hi)
    · simpa [Replacement.except, hi] using h.time i

/-- Variables of index 0 are left alone. -/
structure Fixes (ρ : Replacement) : Prop where
  term : ∀ x : Var, x.idx = 0 → ρ.term x = .var x
  time : ∀ i : TimeVar, i.idx = 0 → ρ.time i = i

theorem Fixes.except {ρ : Replacement} (h : ρ.Fixes) {bs : List Binder} (hbs : ∀ b ∈ bs, b.idx = 0) :
    ρ.except bs = ρ := by
  obtain ⟨term, time⟩ := ρ
  simp only [Replacement.except, Replacement.mk.injEq]
  constructor
  · funext x
    split
    · exact (h.term x (hbs (.msg x) ‹_›)).symm
    · rfl
  · funext i
    split
    · exact (h.time i (hbs (.time i) ‹_›)).symm
    · rfl

end Replacement

namespace Valuation

/-- The normal form of a term under a valuation. -/
def value (T : Theory) (v : Valuation) (t : Term) : Term := T.normalize (t.mapVars v.term)

/-- The valuation with the values that `w` gives to the variables of a quantifier. -/
def rebind (v : Valuation) (bs : List Binder) (w : Valuation) : Valuation where
  term x := if .msg x ∈ bs then w.term x else v.term x
  time i := if .time i ∈ bs then w.time i else v.time i

/-- The variables of a quantifier have values in the domain of their sorts, its timepoints are
steps. -/
structure Ranges (I : Interpretation) (bs : List Binder) (w : Valuation) : Prop where
  term : ∀ x : Var, .msg x ∈ bs → w.term x ∈ I.domain ∧ x.sort.admits (w.term x).sort = true
  time : ∀ i : TimeVar, .time i ∈ bs → w.time i < I.trace.length

/-- The valuation that a replacement is followed by. -/
def after (v : Valuation) (ρ : Replacement) : Valuation where
  term x := (ρ.term x).mapVars v.term
  time i := v.time (ρ.time i)

theorem value_mapVars (T : Theory) (v : Valuation) (ρ : Replacement) (t : Term) :
    v.value T (t.mapVars ρ.term) = (v.after ρ).value T t := by
  rw [value, Term.mapVars_mapVars]
  rfl

/-- New values for bound variables do not get into the terms that are put in. -/
theorem rebind_after {ρ : Replacement} (hρ : ρ.Apart) {bs : List Binder}
    (hbs : ∀ b ∈ bs, b.idx = 0) (v w : Valuation) :
    (v.after ρ).rebind bs w = (v.rebind bs w).after (ρ.except bs) := by
  simp only [rebind, after, Replacement.except, Valuation.mk.injEq]
  constructor
  · funext x
    by_cases hx : .msg x ∈ bs
    · simp [hx, Term.mapVars]
    · rw [if_neg hx, if_neg hx]
      rcases hρ.term x with h | h
      · simp [h, hx, Term.mapVars]
      · refine Term.mapVars_congr fun y hy => ?_
        exact (if_neg fun hyb => h y hy (hbs (.msg y) hyb)).symm
  · funext i
    by_cases hi : .time i ∈ bs
    · simp [hi]
    · rw [if_neg hi, if_neg hi]
      rcases hρ.time i with h | h
      · simp [h, hi]
      · exact (if_neg fun hib => h (hbs (.time _) hib)).symm

end Valuation

/-! ## Truth -/

/-- The step at `n` has an action of a predicate with the given arguments. -/
def Trace.Emits (tr : Trace) (n : Nat) (pred : String) (args : List Term) : Prop :=
  ∃ s, tr[n]? = some s ∧ ∃ f ∈ s.actions, f.pred = pred ∧ f.args = args

def Atom.Sat (I : Interpretation) (v : Valuation) : Atom → Prop
  | .action f i => I.trace.Emits (v.time i) f.pred (f.args.map (v.value I.theory))
  | .knows t i => I.trace.Emits (v.time i) Pred.knows [v.value I.theory t]
  | .less i j => v.time i < v.time j
  | .timeEq i j => v.time i = v.time j
  | .eq s t => v.value I.theory s = v.value I.theory t

theorem Atom.sat_action? {I : Interpretation} {v : Valuation} {a : Atom} {c : Fact × TimeVar}
    (h : a.action? = some c) :
    a.Sat I v ↔ I.trace.Emits (v.time c.2) c.1.pred (c.1.args.map (v.value I.theory)) := by
  cases a <;> cases h <;> rfl

theorem Atom.sat_map (I : Interpretation) (v : Valuation) (ρ : Replacement) (a : Atom) :
    (a.map (Term.mapVars ρ.term) ρ.time).Sat I v ↔ a.Sat I (v.after ρ) := by
  cases a <;> simp [Atom.map, Atom.Sat, Fact.mapTerms, Valuation.value_mapVars, Valuation.after,
    Function.comp_def]

theorem Atom.sat_congr {I : Interpretation} {v w : Valuation} {a : Atom}
    (hterm : ∀ t ∈ a.terms, ∀ x ∈ t.occurrences, v.term x = w.term x)
    (htime : ∀ i ∈ a.times, v.time i = w.time i) : a.Sat I v ↔ a.Sat I w := by
  have hvalue : ∀ t ∈ a.terms, v.value I.theory t = w.value I.theory t := fun t ht =>
    congrArg I.theory.normalize (Term.mapVars_congr (hterm t ht))
  cases a with
  | action f i =>
    have hargs : f.args.map (v.value I.theory) = f.args.map (w.value I.theory) :=
      List.map_congr_left hvalue
    rw [Sat, Sat, htime i (by simp [times]), hargs]
  | knows t i => rw [Sat, Sat, htime i (by simp [times]), hvalue t (by simp [terms])]
  | less i j | timeEq i j =>
    rw [Sat, Sat, htime i (by simp [times]), htime j (by simp [times])]
  | eq s t => rw [Sat, Sat, hvalue s (by simp [terms]), hvalue t (by simp [terms])]

namespace Formula

mutual

/-- Classical truth under a valuation. -/
def Sat (I : Interpretation) : Formula → Valuation → Prop
  | .top, _ => True
  | .bot, _ => False
  | .atom a, v => a.Sat I v
  | .neg f, v => ¬ Sat I f v
  | .conj fs, v => SatAll I fs v
  | .disj fs, v => SatAny I fs v
  | .imp f g, v => Sat I f v → Sat I g v
  | .ex bs f, v => ∃ w : Valuation, w.Ranges I bs ∧ Sat I f (v.rebind bs w)
  | .all bs f, v => ∀ w : Valuation, w.Ranges I bs → Sat I f (v.rebind bs w)

def SatAll (I : Interpretation) : List Formula → Valuation → Prop
  | [], _ => True
  | f :: fs, v => Sat I f v ∧ SatAll I fs v

def SatAny (I : Interpretation) : List Formula → Valuation → Prop
  | [], _ => False
  | f :: fs, v => Sat I f v ∨ SatAny I fs v

end

variable {I : Interpretation} {fs : List Formula} {v : Valuation}

theorem sat_conj : Sat I (.conj fs) v ↔ ∀ f ∈ fs, Sat I f v := by
  rw [Sat]
  induction fs with
  | nil => simp [SatAll]
  | cons f fs ih => simp [SatAll, ih]

theorem sat_disj : Sat I (.disj fs) v ↔ ∃ f ∈ fs, Sat I f v := by
  rw [Sat]
  induction fs with
  | nil => simp [SatAny]
  | cons f fs ih => simp [SatAny, ih]

end Formula

namespace Nnf

mutual

/-- Truth under a valuation. -/
def Sat (I : Interpretation) : Nnf → Valuation → Prop
  | .top, _ => True
  | .bot, _ => False
  | .atom a, v => a.Sat I v
  | .neq s t, v => v.value I.theory s ≠ v.value I.theory t
  | .conj fs, v => SatAll I fs v
  | .disj fs, v => SatAny I fs v
  | .ex bs f, v => ∃ w : Valuation, w.Ranges I bs ∧ Sat I f (v.rebind bs w)
  | .guarded bs gs f, v => ∀ w : Valuation, w.Ranges I bs →
      (∀ a ∈ gs, a.Sat I (v.rebind bs w)) → Sat I f (v.rebind bs w)

def SatAll (I : Interpretation) : List Nnf → Valuation → Prop
  | [], _ => True
  | f :: fs, v => Sat I f v ∧ SatAll I fs v

def SatAny (I : Interpretation) : List Nnf → Valuation → Prop
  | [], _ => False
  | f :: fs, v => Sat I f v ∨ SatAny I fs v

end

variable {I : Interpretation} {fs : List Nnf} {v : Valuation}

theorem sat_conj : Sat I (.conj fs) v ↔ ∀ f ∈ fs, Sat I f v := by
  rw [Sat]
  induction fs with
  | nil => simp [SatAll]
  | cons f fs ih => simp [SatAll, ih]

theorem sat_disj : Sat I (.disj fs) v ↔ ∃ f ∈ fs, Sat I f v := by
  rw [Sat]
  induction fs with
  | nil => simp [SatAny]
  | cons f fs ih => simp [SatAny, ih]

end Nnf

/-! ## Scopes -/

/-- The variables and timepoints that may be free. -/
structure Scope where
  var : Var → Prop
  time : TimeVar → Prop

/-- Nothing is free. -/
def Scope.closed : Scope := ⟨fun _ => False, fun _ => False⟩

/-- The scope below a quantifier. -/
def Scope.bind (s : Scope) (bs : List Binder) : Scope where
  var x := s.var x ∨ .msg x ∈ bs
  time i := s.time i ∨ .time i ∈ bs

namespace Valuation

variable {s : Scope} {v w : Valuation} {bs : List Binder}

theorem rebind_term_congr (h : ∀ x, s.var x → v.term x = w.term x) (u : Valuation) :
    ∀ x, (s.bind bs).var x → (v.rebind bs u).term x = (w.rebind bs u).term x := by
  intro x hx
  simp only [rebind]
  split
  · rfl
  · exact h x (hx.resolve_right ‹_›)

theorem rebind_time_congr (h : ∀ i, s.time i → v.time i = w.time i) (u : Valuation) :
    ∀ i, (s.bind bs).time i → (v.rebind bs u).time i = (w.rebind bs u).time i := by
  intro i hi
  simp only [rebind]
  split
  · rfl
  · exact h i (hi.resolve_right ‹_›)

end Valuation

def Term.Scoped (s : Scope) (t : Term) : Prop := ∀ x ∈ t.occurrences, s.var x

structure Atom.Scoped (s : Scope) (a : Atom) : Prop where
  terms : ∀ t ∈ a.terms, t.Scoped s
  times : ∀ i ∈ a.times, s.time i

/-- An action of the guard fixes the value of the binder. -/
def Binder.GuardedBy (gs : List Atom) : Binder → Prop
  | .msg x => ∃ f i, Atom.action f i ∈ gs ∧ ∃ t ∈ f.args, x ∈ t.occurrences
  | .time i => ∃ f, Atom.action f i ∈ gs

/-- Which variables quantifiers may bind, and which actions and knowledge formulas may speak of. -/
structure Fragment where
  binder : Binder → Prop
  action : Fact → Prop

/-- Quantifiers bind variables of index 0. -/
def Fragment.indexed : Fragment := ⟨fun b => b.idx = 0, fun _ => True⟩

def Atom.Within (L : Fragment) (a : Atom) : Prop := ∀ c, a.action? = some c → L.action c.1

/-- Formulas of a fragment whose free variables are in scope. An action of the guard fixes what a
universal quantifier binds, and guards do not speak of knowledge. -/
inductive Nnf.Scoped (L : Fragment) : Scope → Nnf → Prop
  | top {s : Scope} : Scoped L s .top
  | bot {s : Scope} : Scoped L s .bot
  | atom {s : Scope} {a : Atom} : a.Within L → a.Scoped s → Scoped L s (.atom a)
  | neq {s : Scope} {t u : Term} : t.Scoped s → u.Scoped s → Scoped L s (.neq t u)
  | conj {s : Scope} {fs : List Nnf} : (∀ f ∈ fs, Scoped L s f) → Scoped L s (.conj fs)
  | disj {s : Scope} {fs : List Nnf} : (∀ f ∈ fs, Scoped L s f) → Scoped L s (.disj fs)
  | ex {s : Scope} {bs : List Binder} {f : Nnf} : (∀ b ∈ bs, L.binder b) →
      Scoped L (s.bind bs) f → Scoped L s (.ex bs f)
  | guarded {s : Scope} {bs : List Binder} {gs : List Atom} {f : Nnf} : (∀ b ∈ bs, L.binder b) →
      (∀ b ∈ bs, b.GuardedBy gs) → (∀ t i, Atom.knows t i ∉ gs) → (∀ a ∈ gs, a.Within L) →
      (∀ a ∈ gs, a.Scoped (s.bind bs)) → Scoped L (s.bind bs) f → Scoped L s (.guarded bs gs f)

/-- A replacement leads from one scope to another. -/
structure Replacement.Leads (ρ : Replacement) (s s' : Scope) : Prop where
  term : ∀ x, s.var x → (ρ.term x).Scoped s'
  time : ∀ i, s.time i → s'.time (ρ.time i)

theorem Replacement.Leads.bind {ρ : Replacement} {s s' : Scope} (h : ρ.Leads s s')
    (bs : List Binder) : (ρ.except bs).Leads (s.bind bs) (s'.bind bs) where
  term x hx y hy := by
    unfold Replacement.except at hy
    simp only at hy
    split at hy
    · rename_i hb
      cases List.mem_singleton.1 hy
      exact .inr hb
    · exact .inl (h.term x (hx.resolve_right ‹_›) y hy)
  time i hi := by
    unfold Replacement.except
    simp only
    split
    · exact .inr ‹_›
    · exact .inl (h.time i (hi.resolve_right ‹_›))

theorem Term.Scoped.mapVars {s s' : Scope} {ρ : Replacement} (hρ : ρ.Leads s s') {t : Term}
    (h : t.Scoped s) : (t.mapVars ρ.term).Scoped s' := fun y hy => by
  obtain ⟨x, hx, hy⟩ := Term.mem_occurrences_mapVars.1 hy
  exact hρ.term x (h x hx) y hy

theorem Atom.Scoped.map {s s' : Scope} {ρ : Replacement} (hρ : ρ.Leads s s') {a : Atom}
    (h : a.Scoped s) : (a.map (Term.mapVars ρ.term) ρ.time).Scoped s' where
  terms t ht := by
    rw [Atom.terms_map] at ht
    obtain ⟨u, hu, rfl⟩ := List.mem_map.1 ht
    exact (h.terms u hu).mapVars hρ
  times i hi := by
    have hmap : (a.map (Term.mapVars ρ.term) ρ.time).times = a.times.map ρ.time := by
      cases a <;> rfl
    rw [hmap] at hi
    obtain ⟨j, hj, rfl⟩ := List.mem_map.1 hi
    exact hρ.time j (h.times j hj)

theorem Binder.GuardedBy.map {gs : List Atom} {b : Binder} (h : b.GuardedBy gs) {ρ : Replacement}
    (hterm : ∀ x, b = .msg x → ρ.term x = .var x) (htime : ∀ i, b = .time i → ρ.time i = i) :
    b.GuardedBy (gs.map (·.map (Term.mapVars ρ.term) ρ.time)) := by
  cases b with
  | msg x =>
    obtain ⟨f, i, hf, t, ht, hx⟩ := h
    refine ⟨_, _, List.mem_map_of_mem hf, t.mapVars ρ.term, List.mem_map_of_mem ht, ?_⟩
    refine Term.mem_occurrences_mapVars.2 ⟨x, hx, ?_⟩
    rw [hterm x rfl]
    exact List.mem_singleton.2 rfl
  | time i =>
    obtain ⟨f, hf⟩ := h
    have := List.mem_map_of_mem (f := (Atom.map (Term.mapVars ρ.term) ρ.time)) hf
    rw [Atom.map, htime i rfl] at this
    exact ⟨_, this⟩

/-- The values of a binding, as a replacement. -/
def Binding.replacement (b : Binding) : Replacement := ⟨b.terms.value, b.time⟩

theorem Binding.replacement_without (b : Binding) (bs : List Binder) :
    (b.without bs).replacement = b.replacement.except bs := by
  simp only [Binding.replacement, Binding.without, Replacement.except, Replacement.mk.injEq]
  constructor <;> funext x
  · by_cases hx : .msg x ∈ bs <;>
      simp [Subst.value, SortedMap.get?_filterKeys, hx]
  · by_cases hx : .time x ∈ bs <;>
      simp [Binding.time, SortedMap.get?_filterKeys, hx]

namespace Nnf

variable {I : Interpretation} {L : Fragment} {s s' : Scope} {f : Nnf}

theorem Scoped.mono (h : f.Scoped L s) (hvar : ∀ x, s.var x → s'.var x)
    (htime : ∀ i, s.time i → s'.time i) : f.Scoped L s' := by
  have hatom : ∀ {s s' : Scope} {a : Atom}, a.Scoped s → (∀ x, s.var x → s'.var x) →
      (∀ i, s.time i → s'.time i) → a.Scoped s' := fun h hvar htime =>
    ⟨fun t ht x hx => hvar x (h.terms t ht x hx), fun i hi => htime i (h.times i hi)⟩
  induction h generalizing s' with
  | top => exact .top
  | bot => exact .bot
  | atom hl ha => exact .atom hl (hatom ha hvar htime)
  | neq ht hu => exact .neq (fun x hx => hvar x (ht x hx)) fun x hx => hvar x (hu x hx)
  | conj _ ih => exact .conj fun f hf => ih f hf hvar htime
  | disj _ ih => exact .disj fun f hf => ih f hf hvar htime
  | ex hbs _ ih => exact .ex hbs (ih (fun x => .imp_left (hvar x)) fun i => .imp_left (htime i))
  | guarded hbs hg hk hl hgs _ ih =>
    exact .guarded hbs hg hk hl
      (fun a ha => hatom (hgs a ha) (fun x => .imp_left (hvar x)) fun i => .imp_left (htime i))
      (ih (fun x => .imp_left (hvar x)) fun i => .imp_left (htime i))

/-- Truth depends only on the values of what is free. -/
theorem Scoped.sat_congr (h : f.Scoped L s) {v w : Valuation}
    (hterm : ∀ x, s.var x → v.term x = w.term x) (htime : ∀ i, s.time i → v.time i = w.time i) :
    f.Sat I v ↔ f.Sat I w := by
  have hatom : ∀ {s : Scope} {v w : Valuation} {a : Atom}, a.Scoped s →
      (∀ x, s.var x → v.term x = w.term x) → (∀ i, s.time i → v.time i = w.time i) →
        (a.Sat I v ↔ a.Sat I w) := fun ha hterm htime =>
    Atom.sat_congr (fun t ht x hx => hterm x (ha.terms t ht x hx)) fun i hi => htime i (ha.times i hi)
  induction h generalizing v w with
  | top | bot => rfl
  | atom _ ha => exact hatom ha hterm htime
  | @neq _ t u ht hu =>
    have hvalue : ∀ {t : Term}, t.Scoped _ → v.value I.theory t = w.value I.theory t := fun ht =>
      congrArg I.theory.normalize (Term.mapVars_congr fun x hx => hterm x (ht x hx))
    rw [Sat, Sat, hvalue ht, hvalue hu]
  | conj _ ih =>
    rw [sat_conj, sat_conj]
    exact forall₂_congr fun f hf => ih f hf hterm htime
  | disj _ ih =>
    rw [sat_disj, sat_disj]
    exact exists_congr fun f => and_congr_right fun hf => ih f hf hterm htime
  | ex _ _ ih =>
    rw [Sat, Sat]
    exact exists_congr fun u => and_congr_right fun _ =>
      ih (Valuation.rebind_term_congr hterm u) (Valuation.rebind_time_congr htime u)
  | guarded _ _ _ _ hgs _ ih =>
    rw [Sat, Sat]
    exact forall₂_congr fun u _ => imp_congr
      (forall₂_congr fun a ha => hatom (hgs a ha) (Valuation.rebind_term_congr hterm u)
        (Valuation.rebind_time_congr htime u))
      (ih (Valuation.rebind_term_congr hterm u) (Valuation.rebind_time_congr htime u))

section Indexed

theorem timesList_eq (fs : List Nnf) : timesList fs = fs.flatMap times := by
  induction fs with
  | nil => rfl
  | cons f fs ih => simp [timesList, ih]

theorem Scoped.instantiate (h : f.Scoped .indexed s) {b : Binding}
    (hb : b.replacement.Leads s s') : (f.instantiate b).Scoped .indexed s' := by
  induction h generalizing b s' with
  | top => exact .top
  | bot => exact .bot
  | atom _ ha => exact .atom (fun _ _ => trivial) (ha.map hb)
  | neq ht hu => exact .neq (ht.mapVars hb) (hu.mapVars hb)
  | conj _ ih =>
    rw [Nnf.instantiate, instantiateList_eq]
    exact .conj (List.forall_mem_map.2 fun f hf => ih f hf hb)
  | disj _ ih =>
    rw [Nnf.instantiate, instantiateList_eq]
    exact .disj (List.forall_mem_map.2 fun f hf => ih f hf hb)
  | @ex _ bs _ hbs _ ih =>
    exact .ex hbs (ih (by rw [Binding.replacement_without]; exact hb.bind bs))
  | @guarded _ bs gs _ hbs hg hk _ hgs _ ih =>
    have hb' := hb.bind bs
    rw [← Binding.replacement_without] at hb'
    refine .guarded hbs (fun c hc => ?_) (fun t i hti => ?_) (fun _ _ _ _ => trivial)
      (List.forall_mem_map.2 fun a ha => (hgs a ha).map hb') (ih hb')
    · refine (hg c hc).map (ρ := (b.without bs).replacement) ?_ ?_ <;> rintro x rfl <;>
        rw [Binding.replacement_without] <;> exact if_pos hc
    · obtain ⟨a, ha, he⟩ := List.mem_map.1 hti
      cases a <;> cases he
      exact hk _ _ ha

theorem Scoped.map (h : f.Scoped .indexed s) {ρ : Replacement} (hρ : ρ.Fixes) (hl : ρ.Leads s s') :
    (f.map (Term.mapVars ρ.term) ρ.time).Scoped .indexed s' := by
  induction h generalizing s' with
  | top => exact .top
  | bot => exact .bot
  | atom _ ha => exact .atom (fun _ _ => trivial) (ha.map hl)
  | neq ht hu => exact .neq (ht.mapVars hl) (hu.mapVars hl)
  | conj _ ih =>
    rw [Nnf.map, mapList_eq]
    exact .conj (List.forall_mem_map.2 fun f hf => ih f hf hl)
  | disj _ ih =>
    rw [Nnf.map, mapList_eq]
    exact .disj (List.forall_mem_map.2 fun f hf => ih f hf hl)
  | @ex _ bs _ hbs _ ih =>
    have hl' := hl.bind bs
    rw [hρ.except hbs] at hl'
    exact .ex hbs (ih hl')
  | @guarded _ bs gs _ hbs hg hk _ hgs _ ih =>
    have hl' := hl.bind bs
    rw [hρ.except hbs] at hl'
    refine .guarded hbs (fun c hc => (hg c hc).map ?_ ?_) (fun t i hti => ?_)
      (fun _ _ _ _ => trivial) (List.forall_mem_map.2 fun a ha => (hgs a ha).map hl') (ih hl')
    · rintro x rfl
      exact hρ.term x (hbs (.msg x) hc)
    · rintro i rfl
      exact hρ.time i (hbs (.time i) hc)
    · obtain ⟨a, ha, he⟩ := List.mem_map.1 hti
      cases a <;> cases he
      exact hk _ _ ha

theorem Scoped.sat_instantiate (h : f.Scoped .indexed s) {b : Binding} (hb : b.replacement.Apart)
    {v : Valuation} : (f.instantiate b).Sat I v ↔ f.Sat I (v.after b.replacement) := by
  induction h generalizing b v with
  | top | bot => rfl
  | atom => exact Atom.sat_map I v b.replacement _
  | @neq _ t u =>
    exact not_congr (by rw [← Valuation.value_mapVars, ← Valuation.value_mapVars]; rfl)
  | conj _ ih =>
    rw [Nnf.instantiate, instantiateList_eq, sat_conj, sat_conj, List.forall_mem_map]
    exact forall₂_congr fun f hf => ih f hf hb
  | disj _ ih =>
    rw [Nnf.instantiate, instantiateList_eq, sat_disj, sat_disj]
    simp only [List.mem_map, exists_exists_and_eq_and]
    exact exists_congr fun f => and_congr_right fun hf => ih f hf hb
  | @ex _ bs _ hbs _ ih =>
    have hb' := hb.except bs
    rw [← Binding.replacement_without] at hb'
    rw [Nnf.instantiate, Sat, Sat]
    refine exists_congr fun w => and_congr_right fun _ => ?_
    rw [ih hb', Binding.replacement_without, Valuation.rebind_after hb hbs]
  | @guarded _ bs gs _ hbs _ _ _ _ _ ih =>
    have hb' := hb.except bs
    rw [← Binding.replacement_without] at hb'
    rw [Nnf.instantiate, Sat, Sat]
    refine forall₂_congr fun w _ => ?_
    rw [ih hb', List.forall_mem_map, Binding.replacement_without, Valuation.rebind_after hb hbs,
      ← Binding.replacement_without]
    exact imp_congr (forall₂_congr fun a _ => Atom.sat_map I _ (b.without bs).replacement a) .rfl

theorem Scoped.sat_map (h : f.Scoped .indexed s) {ρ : Replacement} (hρ : ρ.Fixes) (ha : ρ.Apart)
    {v : Valuation} :
    (f.map (Term.mapVars ρ.term) ρ.time).Sat I v ↔ f.Sat I (v.after ρ) := by
  induction h generalizing v with
  | top | bot => rfl
  | atom => exact Atom.sat_map I v ρ _
  | @neq _ t u =>
    exact not_congr (by rw [Valuation.value_mapVars, Valuation.value_mapVars])
  | conj _ ih =>
    rw [Nnf.map, mapList_eq, sat_conj, sat_conj, List.forall_mem_map]
    exact forall₂_congr fun f hf => ih f hf
  | disj _ ih =>
    rw [Nnf.map, mapList_eq, sat_disj, sat_disj]
    simp only [List.mem_map, exists_exists_and_eq_and]
    exact exists_congr fun f => and_congr_right fun hf => ih f hf
  | @ex _ bs _ hbs _ ih =>
    rw [Nnf.map, Sat, Sat]
    refine exists_congr fun w => and_congr_right fun _ => ?_
    rw [ih, Valuation.rebind_after ha hbs, hρ.except hbs]
  | @guarded _ bs gs _ hbs _ _ _ _ _ ih =>
    rw [Nnf.map, Sat, Sat]
    refine forall₂_congr fun w _ => ?_
    rw [ih, List.forall_mem_map, Valuation.rebind_after ha hbs, hρ.except hbs]
    exact imp_congr (forall₂_congr fun a _ => Atom.sat_map I _ ρ a) .rfl

end Indexed

end Nnf

end ProtocolProver
