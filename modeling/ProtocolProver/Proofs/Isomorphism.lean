import ProtocolProver.Proofs.SettledSolutions
import ProtocolProver.System.Fingerprint

/-!
# Systems with one fingerprint are isomorphic

Parts of two systems correspond if they differ in their variables and timepoints only
(`System.Corresponds`); what a formula binds corresponds to itself. A fingerprint shows everything up
to the numbers of variables and of classes of timepoints, so systems with the same fingerprint
correspond by the renaming from the numbers of one to those of the other
(`isomorphic_of_fingerprint`), if no timepoint that a formula binds has been joined with another one.
-/

namespace ProtocolProver

namespace System

variable {S S' : System}

/-! ## Numbers for variables and timepoints -/

/-- The variables that a fingerprint numbers. -/
def shownVars (S : System) : List Var :=
  ((Term.occurrencesList S.shownTerms).filter (·.idx ≠ 0)).eraseDups

/-- The classes of timepoints that a fingerprint numbers. -/
def shownClasses (S : System) : List TimeVar :=
  ((S.shownTimes.map S.find).filter (·.idx ≠ 0)).eraseDups

/-- The numbers that the fingerprint of a system shows in place of variables and timepoints. -/
def numbering (S : System) : Replacement where
  term x := .var (x.numbered S.shownVars)
  time i := (S.find i).numbered S.shownClasses

theorem mem_shownVars {x : Var} :
    x ∈ S.shownVars ↔ (∃ t ∈ S.shownTerms, x ∈ t.occurrences) ∧ x.idx ≠ 0 := by
  rw [shownVars, List.mem_eraseDups, List.mem_filter, Term.occurrencesList_eq, List.mem_flatMap]
  simp

theorem mem_shownTerms_of_fact {id : Nat} {n : Node} (hn : S.node? id = some n) {f : Fact}
    (hf : f ∈ n.facts) {t : Term} (ht : t ∈ f.args) : t ∈ S.shownTerms := by
  simp only [shownTerms, List.mem_append, List.mem_flatMap]
  exact .inl (.inl (.inl ⟨(id, n), mem_liveNodes.2 hn, f, hf, ht⟩))

theorem mem_shownTerms_of_goal {g : OpenGoal} (hg : g ∈ S.goals) {t : Term} (ht : t ∈ g.goal.terms) :
    t ∈ S.shownTerms := by
  simp only [shownTerms, List.mem_append, List.mem_flatMap]
  exact .inl (.inl (.inr ⟨g, hg, ht⟩))

theorem eq_of_numbering {x y : Var} (hx : x ∈ S.shownVars) (hy : y ∈ S.shownVars)
    (h : S.numbering.term x = S.numbering.term y) : x = y := by
  injection h with h
  rw [Var.numbered, Var.numbered, if_neg (mem_shownVars.1 hx).2, if_neg (mem_shownVars.1 hy).2] at h
  injection h with _ h
  exact (List.idxOf_inj hx).1 (Nat.succ.inj h)

theorem exists_occurrence {t t' : Term}
    (h : t'.mapVars S'.numbering.term = t.mapVars S.numbering.term) {x : Var}
    (hx : x ∈ t.occurrences) :
    ∃ x' ∈ t'.occurrences, S'.numbering.term x' = S.numbering.term x := by
  have hmem : x.numbered S.shownVars ∈ (t.mapVars S.numbering.term).occurrences :=
    Term.mem_occurrences_mapVars.2 ⟨x, hx, List.mem_singleton_self _⟩
  rw [← h] at hmem
  obtain ⟨x', hx', he⟩ := Term.mem_occurrences_mapVars.1 hmem
  exact ⟨x', hx', congrArg Term.var (List.mem_singleton.1 he).symm⟩

end System

/-- What a fingerprint shows of a node. -/
def Node.shape (ρ : Replacement) (id : Nat) (n : Node) : NodeShape :=
  let facts (fs : List Fact) : List Fact := fs.map (·.mapTerms (Term.mapVars ρ.term))
  ⟨id, n.rule, ρ.time n.time, facts n.premises, facts n.actions, facts n.conclusions⟩

def Goal.shape (ρ : Replacement) (g : Goal) : Goal := g.map (Term.mapVars ρ.term) ρ.time

def Guarded.shape (ρ : Replacement) (g : Guarded) : Guarded := g.map (Term.mapVars ρ.term) ρ.time

def Equation.shape (ρ : Replacement) (e : Equation) : Equation :=
  (e.1.mapVars ρ.term, e.2.mapVars ρ.term)

theorem System.fingerprint_eq (S : System) : S.fingerprint =
    { nodes := S.liveNodes.map fun p => p.2.shape S.numbering p.1
      goals := S.goals.map fun g => g.goal.shape S.numbering
      less := (SortedSet.toList S.less).map (·.map S.numbering.time)
      edges := S.edges
      disequalities := S.disequalities.map (Equation.shape S.numbering)
      guarded := S.guarded.map (Guarded.shape S.numbering)
      applied := S.applied } := rfl

/-! ## Parts that correspond -/

/-- Which variables and timepoints correspond to which. -/
abbrev Correspondence : Type := Binder → Binder → Prop

/-- Under a quantifier, what it binds corresponds to itself only. -/
def Correspondence.under (R : Correspondence) (bs : List Binder) : Correspondence := fun b b' =>
  if b ∈ bs ∨ b' ∈ bs then b' = b else R b b'

inductive Term.Corresponds (R : Correspondence) : Term → Term → Prop
  | var {x x' : Var} : R (.msg x) (.msg x') → Corresponds R (.var x) (.var x')
  | name (n : Name) : Corresponds R (.name n) (.name n)
  | app (f : Symbol) {as as' : List Term} :
    List.Forall₂ (Corresponds R) as as' → Corresponds R (.app f as) (.app f as')

structure Fact.Corresponds (R : Correspondence) (f f' : Fact) : Prop where
  pred : f'.pred = f.pred
  multiplicity : f'.multiplicity = f.multiplicity
  args : List.Forall₂ (Term.Corresponds R) f.args f'.args

inductive Atom.Corresponds (R : Correspondence) : Atom → Atom → Prop
  | action {f f' : Fact} {i i' : TimeVar} :
    f.Corresponds R f' → R (.time i) (.time i') → Corresponds R (.action f i) (.action f' i')
  | knows {t t' : Term} {i i' : TimeVar} :
    t.Corresponds R t' → R (.time i) (.time i') → Corresponds R (.knows t i) (.knows t' i')
  | less {i i' j j' : TimeVar} :
    R (.time i) (.time i') → R (.time j) (.time j') → Corresponds R (.less i j) (.less i' j')
  | timeEq {i i' j j' : TimeVar} :
    R (.time i) (.time i') → R (.time j) (.time j') → Corresponds R (.timeEq i j) (.timeEq i' j')
  | eq {s s' t t' : Term} :
    s.Corresponds R s' → t.Corresponds R t' → Corresponds R (.eq s t) (.eq s' t')

mutual

inductive Nnf.Corresponds : Correspondence → Nnf → Nnf → Prop
  | top {R : Correspondence} : Nnf.Corresponds R .top .top
  | bot {R : Correspondence} : Nnf.Corresponds R .bot .bot
  | atom {R : Correspondence} {a a' : Atom} : a.Corresponds R a' → Nnf.Corresponds R (.atom a) (.atom a')
  | neq {R : Correspondence} {s s' t t' : Term} :
    s.Corresponds R s' → t.Corresponds R t' → Nnf.Corresponds R (.neq s t) (.neq s' t')
  | conj {R : Correspondence} {fs fs' : List Nnf} :
    Nnf.CorrespondsList R fs fs' → Nnf.Corresponds R (.conj fs) (.conj fs')
  | disj {R : Correspondence} {fs fs' : List Nnf} :
    Nnf.CorrespondsList R fs fs' → Nnf.Corresponds R (.disj fs) (.disj fs')
  | ex {R : Correspondence} {bs : List Binder} {f f' : Nnf} :
    Nnf.Corresponds (R.under bs) f f' → Nnf.Corresponds R (.ex bs f) (.ex bs f')
  | guarded {R : Correspondence} {bs : List Binder} {gs gs' : List Atom} {f f' : Nnf} :
    List.Forall₂ (Atom.Corresponds (R.under bs)) gs gs' → Nnf.Corresponds (R.under bs) f f' →
      Nnf.Corresponds R (.guarded bs gs f) (.guarded bs gs' f')

inductive Nnf.CorrespondsList : Correspondence → List Nnf → List Nnf → Prop
  | nil {R : Correspondence} : Nnf.CorrespondsList R [] []
  | cons {R : Correspondence} {f f' : Nnf} {fs fs' : List Nnf} :
    Nnf.Corresponds R f f' → Nnf.CorrespondsList R fs fs' → Nnf.CorrespondsList R (f :: fs) (f' :: fs')

end

inductive Goal.Corresponds (R : Correspondence) : Goal → Goal → Prop
  | action {f f' : Fact} {i i' : TimeVar} :
    f.Corresponds R f' → R (.time i) (.time i') → Corresponds R (.action f i) (.action f' i')
  | premise (node idx : Nat) : Corresponds R (.premise node idx) (.premise node idx)
  | knows {t t' : Term} {i i' : TimeVar} :
    t.Corresponds R t' → R (.time i) (.time i') → Corresponds R (.knows t i) (.knows t' i')
  | chain {s s' t t' : Term} {i i' : TimeVar} : s.Corresponds R s' → t.Corresponds R t' →
    R (.time i) (.time i') → Corresponds R (.chain s t i) (.chain s' t' i')
  | split {f f' : Nnf} : f.Corresponds R f' → Corresponds R (.split f) (.split f')

structure Node.Corresponds (R : Correspondence) (n n' : Node) : Prop where
  rule : n'.rule = n.rule
  time : R (.time n.time) (.time n'.time)
  premises : List.Forall₂ (Fact.Corresponds R) n.premises n'.premises
  actions : List.Forall₂ (Fact.Corresponds R) n.actions n'.actions
  conclusions : List.Forall₂ (Fact.Corresponds R) n.conclusions n'.conclusions

/-- Goals and ordering constraints correspond in some order, all else in the order of the systems. -/
structure System.Corresponds (R : Correspondence) (S S' : System) : Prop where
  nodes : List.Forall₂ (fun p p' => p'.1 = p.1 ∧ p.2.Corresponds R p'.2) S.liveNodes S'.liveNodes
  goals : ∃ goals, goals.Perm S'.goals ∧
    List.Forall₂ (fun g g' => g.goal.Corresponds R g'.goal) S.goals goals
  less : ∃ less, less.Perm (SortedSet.toList S'.less) ∧ List.Forall₂ (fun p p' =>
    R (.time p.earlier) (.time p'.earlier) ∧ R (.time p.later) (.time p'.later))
      (SortedSet.toList S.less) less
  edges : S'.edges = S.edges
  disequalities : List.Forall₂ (fun e e' => e.1.Corresponds R e'.1 ∧ e.2.Corresponds R e'.2)
    S.disequalities S'.disequalities
  guarded : List.Forall₂ (fun g g' => g.toNnf.Corresponds R g'.toNnf) S.guarded S'.guarded
  applied : S'.applied = S.applied

/-! ## Parts with the same numbers -/

theorem forall₂_of_map_eq {α β γ : Type} {f : α → γ} {g : β → γ} {R : α → β → Prop} {as : List α}
    {bs : List β} (h : bs.map g = as.map f) (hR : ∀ a ∈ as, ∀ b ∈ bs, g b = f a → R a b) :
    List.Forall₂ R as bs := by
  induction as generalizing bs with
  | nil =>
    rw [List.map_nil, List.map_eq_nil_iff] at h
    exact h ▸ .nil
  | cons a as ih =>
    obtain ⟨b, bs, rfl, hab, h⟩ := List.map_eq_cons_iff.1 h
    exact .cons (hR a (List.mem_cons_self ..) b (List.mem_cons_self ..) hab)
      (ih h fun x hx y hy => hR x (List.mem_cons_of_mem _ hx) y (List.mem_cons_of_mem _ hy))

namespace Nnf

mutual

/-- Everything that a quantifier of the formula binds. -/
def binders : Nnf → List Binder
  | .top | .bot | .atom _ | .neq .. => []
  | .conj fs => bindersList fs
  | .disj fs => bindersList fs
  | .ex bs f => bs ++ binders f
  | .guarded bs _ f => bs ++ binders f

def bindersList : List Nnf → List Binder
  | [] => []
  | f :: fs => binders f ++ bindersList fs

end

theorem bindersList_eq (fs : List Nnf) : bindersList fs = fs.flatMap binders := by
  induction fs with
  | nil => rfl
  | cons f fs ih => simp [bindersList, ih]

theorem binders_map (g : Term → Term) (h : TimeVar → TimeVar) (f : Nnf) :
    (f.map g h).binders = f.binders := by
  induction f using induction_parts with
  | top | bot | atom | neq => simp only [map, binders]
  | conj fs ih | disj fs ih =>
    simp only [map, binders, bindersList_eq, mapList_eq, List.flatMap_map]
    exact List.flatMap_congr ih
  | ex bs f ih | guarded bs _ f ih => simp only [map, binders, ih]

theorem terms_map (g : Term → Term) (h : TimeVar → TimeVar) (f : Nnf) :
    (f.map g h).terms = f.terms.map g := by
  induction f using induction_parts with
  | top | bot | neq => simp [map, terms]
  | atom a => simp only [map, terms, Atom.terms_map]
  | conj fs ih | disj fs ih =>
    simp only [map, terms, termsList_eq, mapList_eq, List.flatMap_map, List.map_flatMap]
    exact List.flatMap_congr ih
  | ex bs f ih => simp only [map, terms, ih]
  | guarded bs gs f ih =>
    simp only [map, terms, ih, List.flatMap_map, List.map_append, List.map_flatMap, Atom.terms_map]

theorem times_map (g : Term → Term) (h : TimeVar → TimeVar) (f : Nnf) :
    (f.map g h).times = f.times.map h := by
  have hatom : ∀ a : Atom, (a.map g h).times = a.times.map h := fun a => by cases a <;> rfl
  induction f using induction_parts with
  | top | bot | neq => simp [map, times]
  | atom a => simp only [map, times, hatom]
  | conj fs ih | disj fs ih =>
    simp only [map, times, timesList_eq, mapList_eq, List.flatMap_map, List.map_flatMap]
    exact List.flatMap_congr ih
  | ex bs f ih => simp only [map, times, ih]
  | guarded bs gs f ih =>
    simp only [map, times, ih, List.flatMap_map, List.map_append, List.map_flatMap, hatom]

theorem correspondsList_of_forall₂ {R : Correspondence} {fs fs' : List Nnf}
    (h : List.Forall₂ (Nnf.Corresponds R) fs fs') : CorrespondsList R fs fs' := by
  induction h with
  | nil => exact .nil
  | cons hf _ ih => exact .cons hf ih

end Nnf

namespace Goal

def binders : Goal → List Binder
  | .split f => f.binders
  | _ => []

theorem binders_shape (ρ : Replacement) (g : Goal) : (g.shape ρ).binders = g.binders := by
  cases g with
  | split f => exact f.binders_map _ _
  | action | premise | knows | chain => rfl

theorem terms_shape (ρ : Replacement) (g : Goal) :
    (g.shape ρ).terms = g.terms.map (Term.mapVars ρ.term) := by
  cases g with
  | split f => exact f.terms_map _ _
  | action | premise | knows | chain => rfl

theorem times_shape (ρ : Replacement) (g : Goal) : (g.shape ρ).times = g.times.map ρ.time := by
  cases g with
  | split f => exact f.times_map _ _
  | action | premise | knows | chain => rfl

end Goal

namespace System

/-- What the fingerprints of two systems show in the same way. -/
def SameNumber (S S' : System) : Correspondence
  | .msg x, .msg x' => S'.numbering.term x' = S.numbering.term x
  | .time i, .time i' => S'.numbering.time i' = S.numbering.time i
  | _, _ => False

/-- The variables and timepoints that occur in the parts that a fingerprint shows. -/
def Mentions (S : System) : Binder → Prop
  | .msg x => ∃ t ∈ S.shownTerms, x ∈ t.occurrences
  | .time i => i ∈ S.shownTimes

/-- Everything in the given terms and timepoints occurs in parts that a fingerprint shows. -/
structure Displays (S : System) (ts : List Term) (is : List TimeVar) : Prop where
  terms : ∀ t ∈ ts, ∀ x ∈ t.occurrences, S.Mentions (.msg x)
  times : ∀ i ∈ is, S.Mentions (.time i)

theorem Displays.mono {S : System} {ts us : List Term} {is js : List TimeVar} (h : S.Displays us js)
    (ht : ∀ t ∈ ts, t ∈ us) (hi : ∀ i ∈ is, i ∈ js) : S.Displays ts is :=
  ⟨fun t hmem => h.terms t (ht t hmem), fun i hmem => h.times i (hi i hmem)⟩

/-- What occurs with the same number corresponds. -/
def Numbers (R : Correspondence) (S S' : System) : Prop :=
  ∀ b b', S.Mentions b → S'.Mentions b' → S.SameNumber S' b b' → R b b'

/-- Nothing but itself is shown in the same way. -/
def Isolates (S S' : System) (b : Binder) : Prop :=
  ∀ c c', S.SameNumber S' c c' → c = b ∨ c' = b → c' = c

variable {S S' : System} {R : Correspondence}

theorem Numbers.under (h : Numbers R S S') {bs : List Binder} (hbs : ∀ b ∈ bs, Isolates S S' b) :
    Numbers (R.under bs) S S' := by
  intro b b' hb hb' hsame
  unfold Correspondence.under
  split
  · rename_i hmem
    rcases hmem with hmem | hmem
    · exact hbs b hmem b b' hsame (.inl rfl)
    · exact hbs b' hmem b b' hsame (.inr rfl)
  · exact h b b' hb hb' hsame

namespace Numbers

variable (h : Numbers R S S')

include h

theorem term {t t' : Term} (ht : ∀ x ∈ t.occurrences, S.Mentions (.msg x))
    (ht' : ∀ x ∈ t'.occurrences, S'.Mentions (.msg x))
    (he : t'.mapVars S'.numbering.term = t.mapVars S.numbering.term) : t.Corresponds R t' := by
  induction t using Term.induction_args generalizing t' with
  | var x =>
    cases t' with
    | var x' =>
      exact .var (h _ _ (ht x (List.mem_singleton.2 rfl)) (ht' x' (List.mem_singleton.2 rfl)) he)
    | name n => cases he
    | app f as => rw [Term.mapVars_app] at he; cases he
  | name n =>
    cases t' with
    | var x' => cases he
    | name n' => cases he; exact .name n
    | app f as => rw [Term.mapVars_app] at he; cases he
  | app f as ih =>
    cases t' with
    | var x' => rw [Term.mapVars_app] at he; cases he
    | name n' => rw [Term.mapVars_app] at he; cases he
    | app f' as' =>
      rw [Term.mapVars_app, Term.mapVars_app, Term.app.injEq] at he
      obtain ⟨rfl, he⟩ := he
      exact .app f' (forall₂_of_map_eq he fun a ha a' ha' he => ih a ha
        (fun x hx => ht x (Term.mem_occurrences_app.2 ⟨a, ha, hx⟩))
        (fun x hx => ht' x (Term.mem_occurrences_app.2 ⟨a', ha', hx⟩)) he)

theorem fact {f f' : Fact} (hf : ∀ t ∈ f.args, ∀ x ∈ t.occurrences, S.Mentions (.msg x))
    (hf' : ∀ t ∈ f'.args, ∀ x ∈ t.occurrences, S'.Mentions (.msg x))
    (he : f'.mapTerms (Term.mapVars S'.numbering.term) = f.mapTerms (Term.mapVars S.numbering.term)) :
    f.Corresponds R f' where
  pred := (congrArg Fact.pred he :)
  multiplicity := (congrArg Fact.multiplicity he :)
  args := forall₂_of_map_eq (congrArg Fact.args he) fun t ht t' ht' he =>
    h.term (hf t ht) (hf' t' ht') he

theorem time {i i' : TimeVar} (hi : S.Mentions (.time i)) (hi' : S'.Mentions (.time i'))
    (he : S'.numbering.time i' = S.numbering.time i) : R (.time i) (.time i') := h _ _ hi hi' he

theorem atom {a a' : Atom} (ha : S.Displays a.terms a.times) (ha' : S'.Displays a'.terms a'.times)
    (he : a'.map (Term.mapVars S'.numbering.term) S'.numbering.time =
      a.map (Term.mapVars S.numbering.term) S.numbering.time) : a.Corresponds R a' := by
  cases a with
  | action f i =>
    cases a' <;> simp only [Atom.map, Atom.action.injEq, reduceCtorEq] at he
    simp only [Atom.terms, Atom.times] at ha ha'
    exact .action (h.fact ha.terms ha'.terms he.1)
      (h.time (ha.times i (by simp)) (ha'.times _ (by simp)) he.2)
  | knows t i =>
    cases a' <;> simp only [Atom.map, Atom.knows.injEq, reduceCtorEq] at he
    simp only [Atom.terms, Atom.times] at ha ha'
    exact .knows (h.term (ha.terms t (by simp)) (ha'.terms _ (by simp)) he.1)
      (h.time (ha.times i (by simp)) (ha'.times _ (by simp)) he.2)
  | less i j =>
    cases a' <;> simp only [Atom.map, Atom.less.injEq, reduceCtorEq] at he
    simp only [Atom.times] at ha ha'
    exact .less (h.time (ha.times i (by simp)) (ha'.times _ (by simp)) he.1)
      (h.time (ha.times j (by simp)) (ha'.times _ (by simp)) he.2)
  | timeEq i j =>
    cases a' <;> simp only [Atom.map, Atom.timeEq.injEq, reduceCtorEq] at he
    simp only [Atom.times] at ha ha'
    exact .timeEq (h.time (ha.times i (by simp)) (ha'.times _ (by simp)) he.1)
      (h.time (ha.times j (by simp)) (ha'.times _ (by simp)) he.2)
  | eq s t =>
    cases a' <;> simp only [Atom.map, Atom.eq.injEq, reduceCtorEq] at he
    simp only [Atom.terms] at ha ha'
    exact .eq (h.term (ha.terms s (by simp)) (ha'.terms _ (by simp)) he.1)
      (h.term (ha.terms t (by simp)) (ha'.terms _ (by simp)) he.2)

omit h in
theorem nnf {f f' : Nnf} (h : Numbers R S S') (hbs : ∀ b ∈ f.binders, Isolates S S' b)
    (hf : S.Displays f.terms f.times) (hf' : S'.Displays f'.terms f'.times)
    (he : f'.map (Term.mapVars S'.numbering.term) S'.numbering.time =
      f.map (Term.mapVars S.numbering.term) S.numbering.time) : f.Corresponds R f' := by
  have part : ∀ {S : System} {fs : List Nnf}, S.Displays (Nnf.termsList fs) (Nnf.timesList fs) →
      ∀ f ∈ fs, S.Displays f.terms f.times := fun hd f hmem => hd.mono
    (fun t ht => Nnf.termsList_eq _ ▸ List.mem_flatMap.2 ⟨f, hmem, ht⟩)
    fun i hi => Nnf.timesList_eq _ ▸ List.mem_flatMap.2 ⟨f, hmem, hi⟩
  have guard : ∀ {S : System} {gs : List Atom} {f : Nnf},
      S.Displays (gs.flatMap Atom.terms ++ f.terms) (gs.flatMap Atom.times ++ f.times) →
        (∀ a ∈ gs, S.Displays a.terms a.times) ∧ S.Displays f.terms f.times := fun hd =>
    ⟨fun a ha => hd.mono (fun t ht => List.mem_append_left _ (List.mem_flatMap.2 ⟨a, ha, ht⟩))
      fun i hi => List.mem_append_left _ (List.mem_flatMap.2 ⟨a, ha, hi⟩),
      hd.mono (fun t ht => List.mem_append_right _ ht) fun i hi => List.mem_append_right _ hi⟩
  induction f using Nnf.induction_parts generalizing f' R with
  | top =>
    cases f' <;> simp only [Nnf.map, reduceCtorEq] at he
    exact .top
  | bot =>
    cases f' <;> simp only [Nnf.map, reduceCtorEq] at he
    exact .bot
  | atom a =>
    cases f' <;> simp only [Nnf.map, Nnf.atom.injEq, reduceCtorEq] at he
    simp only [Nnf.terms, Nnf.times] at hf hf'
    exact .atom (h.atom hf hf' he)
  | neq s t =>
    cases f' <;> simp only [Nnf.map, Nnf.neq.injEq, reduceCtorEq] at he
    simp only [Nnf.terms] at hf hf'
    exact .neq (h.term (hf.terms s (by simp)) (hf'.terms _ (by simp)) he.1)
      (h.term (hf.terms t (by simp)) (hf'.terms _ (by simp)) he.2)
  | conj fs ih =>
    cases f' <;> simp only [Nnf.map, Nnf.conj.injEq, reduceCtorEq, Nnf.mapList_eq] at he
    simp only [Nnf.terms, Nnf.times, Nnf.binders, Nnf.bindersList_eq, List.mem_flatMap] at hf hf' hbs
    exact .conj (Nnf.correspondsList_of_forall₂ (forall₂_of_map_eq he
      fun g hg g' hg' he => ih g hg h (fun b hb => hbs b ⟨g, hg, hb⟩) (part hf g hg)
        (part hf' g' hg') he))
  | disj fs ih =>
    cases f' <;> simp only [Nnf.map, Nnf.disj.injEq, reduceCtorEq, Nnf.mapList_eq] at he
    simp only [Nnf.terms, Nnf.times, Nnf.binders, Nnf.bindersList_eq, List.mem_flatMap] at hf hf' hbs
    exact .disj (Nnf.correspondsList_of_forall₂ (forall₂_of_map_eq he
      fun g hg g' hg' he => ih g hg h (fun b hb => hbs b ⟨g, hg, hb⟩) (part hf g hg)
        (part hf' g' hg') he))
  | ex bs f ih =>
    cases f' <;> simp only [Nnf.map, Nnf.ex.injEq, reduceCtorEq] at he
    simp only [Nnf.terms, Nnf.times, Nnf.binders, List.forall_mem_append] at hf hf' hbs
    obtain ⟨rfl, he⟩ := he
    exact .ex (ih (h.under hbs.1) hbs.2 hf hf' he)
  | guarded bs gs f ih =>
    cases f' <;> simp only [Nnf.map, Nnf.guarded.injEq, reduceCtorEq] at he
    simp only [Nnf.terms, Nnf.times, Nnf.binders, List.forall_mem_append] at hf hf' hbs
    obtain ⟨rfl, hgs, he⟩ := he
    obtain ⟨hatoms, hbody⟩ := guard hf
    obtain ⟨hatoms', hbody'⟩ := guard hf'
    exact .guarded (forall₂_of_map_eq hgs fun a ha a' ha' he =>
      (h.under hbs.1).atom (hatoms a ha) (hatoms' a' ha') he)
      (ih (h.under hbs.1) hbs.2 hbody hbody' he)

theorem goal {g g' : Goal} (hbs : ∀ b ∈ g.binders, Isolates S S' b)
    (hg : S.Displays g.terms g.times) (hg' : S'.Displays g'.terms g'.times)
    (he : g'.shape S'.numbering = g.shape S.numbering) : g.Corresponds R g' := by
  unfold Goal.shape at he
  cases g with
  | action f i =>
    cases g' <;> simp only [Goal.map, Goal.action.injEq, reduceCtorEq] at he
    simp only [Goal.terms, Goal.times] at hg hg'
    exact .action (h.fact hg.terms hg'.terms he.1)
      (h.time (hg.times i (by simp)) (hg'.times _ (by simp)) he.2)
  | premise node idx =>
    cases g' <;> simp only [Goal.map, Goal.premise.injEq, reduceCtorEq] at he
    obtain ⟨rfl, rfl⟩ := he
    exact .premise _ _
  | knows t i =>
    cases g' <;> simp only [Goal.map, Goal.knows.injEq, reduceCtorEq] at he
    simp only [Goal.terms, Goal.times] at hg hg'
    exact .knows (h.term (hg.terms t (by simp)) (hg'.terms _ (by simp)) he.1)
      (h.time (hg.times i (by simp)) (hg'.times _ (by simp)) he.2)
  | chain s t i =>
    cases g' <;> simp only [Goal.map, Goal.chain.injEq, reduceCtorEq] at he
    simp only [Goal.terms, Goal.times] at hg hg'
    exact .chain (h.term (hg.terms s (by simp)) (hg'.terms _ (by simp)) he.1)
      (h.term (hg.terms t (by simp)) (hg'.terms _ (by simp)) he.2.1)
      (h.time (hg.times i (by simp)) (hg'.times _ (by simp)) he.2.2)
  | split f =>
    cases g' <;> simp only [Goal.map, Goal.split.injEq, reduceCtorEq] at he
    exact .split (h.nnf hbs hg hg' he)

end Numbers

/-! ## The parts of a system -/

def binders (S : System) : List Binder :=
  S.goals.flatMap (fun g => g.goal.binders) ++ S.guarded.flatMap fun g => g.toNnf.binders

theorem displays_fact {p : Nat × Node} (hp : p ∈ S.liveNodes) {f : Fact} (hf : f ∈ p.2.facts) :
    ∀ t ∈ f.args, ∀ x ∈ t.occurrences, S.Mentions (.msg x) := fun t ht _ hx =>
  ⟨t, mem_shownTerms_of_fact (mem_liveNodes.1 hp) hf ht, hx⟩

theorem mentions_time_node {p : Nat × Node} (hp : p ∈ S.liveNodes) : S.Mentions (.time p.2.time) := by
  simp only [Mentions, shownTimes, List.mem_append, List.mem_map]
  exact .inl (.inl (.inl ⟨p, hp, rfl⟩))

theorem displays_goal {g : OpenGoal} (hg : g ∈ S.goals) : S.Displays g.goal.terms g.goal.times where
  terms t ht _ hx := ⟨t, mem_shownTerms_of_goal hg ht, hx⟩
  times i hi := by
    simp only [Mentions, shownTimes, List.mem_append, List.mem_flatMap]
    exact .inl (.inl (.inr ⟨g, hg, hi⟩))

theorem mentions_time_less {p : Precedence} (hp : p ∈ SortedSet.toList S.less) {i : TimeVar}
    (hi : i ∈ [p.earlier, p.later]) : S.Mentions (.time i) := by
  simp only [Mentions, shownTimes, List.mem_append, List.mem_flatMap]
  exact .inl (.inr ⟨p, hp, hi⟩)

theorem displays_disequality {e : Equation} (he : e ∈ S.disequalities) {t : Term}
    (ht : t ∈ [e.1, e.2]) : ∀ x ∈ t.occurrences, S.Mentions (.msg x) := fun x hx => by
  refine ⟨t, ?_, hx⟩
  simp only [shownTerms, List.mem_append, List.mem_flatMap]
  exact .inl (.inr ⟨e, he, ht⟩)

theorem displays_guarded {g : Guarded} (hg : g ∈ S.guarded) :
    S.Displays g.toNnf.terms g.toNnf.times where
  terms t ht _ hx := ⟨t, List.mem_append_right _ (List.mem_flatMap.2 ⟨g, hg, ht⟩), hx⟩
  times _ hi := List.mem_append_right _ (List.mem_flatMap.2 ⟨g, hg, hi⟩)

theorem exists_perm_of_map_perm {α β γ : Type} {f : α → γ} {g : β → γ} {as : List α} {bs : List β}
    (h : (as.map f).Perm (bs.map g)) : ∃ cs : List β, cs.Perm bs ∧ cs.map g = as.map f := by
  have hcomp : Relation.Comp (List.Forall₂ fun b c => g b = c) List.Perm bs (as.map f) :=
    ⟨bs.map g, List.forall₂_map_right_iff.2 (List.forall₂_same.2 fun _ _ => rfl), h.symm⟩
  rw [List.forall₂_comp_perm_eq_perm_comp_forall₂] at hcomp
  obtain ⟨cs, hperm, hcs⟩ := hcomp
  refine ⟨cs, hperm.symm, ?_⟩
  rwa [← List.forall₂_eq_eq_eq, List.forall₂_map_left_iff]

/-- Systems with the same fingerprint correspond in any way that respects the numbers. -/
theorem Numbers.system (h : Numbers R S S')
    (hbs : ∀ b ∈ S.binders, Isolates S S' b)
    (hfingerprint : (S.fingerprint == S'.fingerprint) = true) : S.Corresponds R S' := by
  change Fingerprint.beq S.fingerprint S'.fingerprint = true at hfingerprint
  simp only [Fingerprint.beq, Bool.and_eq_true, decide_eq_true_eq, List.isPerm_iff] at hfingerprint
  obtain ⟨⟨⟨⟨⟨⟨hnodes, hgoals⟩, hless⟩, hedges⟩, hdiseqs⟩, hguarded⟩, happlied⟩ := hfingerprint
  simp only [fingerprint_eq] at hnodes hgoals hless hedges hdiseqs hguarded happlied
  obtain ⟨goals, hperm, hgoals⟩ := exists_perm_of_map_perm hgoals
  obtain ⟨less, hperm', hless⟩ := exists_perm_of_map_perm hless
  refine ⟨forall₂_of_map_eq hnodes.symm fun p hp p' hp' he => ?_,
    ⟨goals, hperm, forall₂_of_map_eq hgoals fun g hg g' hg' he => ?_⟩,
    ⟨less, hperm', forall₂_of_map_eq hless fun p hp p' hp' he => ?_⟩, hedges.symm,
    forall₂_of_map_eq hdiseqs.symm fun e hmem e' hmem' he => ?_,
    forall₂_of_map_eq hguarded.symm fun g hg g' hg' he => ?_, happlied.symm⟩
  · have facts : ∀ {fs fs' : List Fact}, (∀ f ∈ fs, f ∈ p.2.facts) → (∀ f ∈ fs', f ∈ p'.2.facts) →
        fs'.map (·.mapTerms (Term.mapVars S'.numbering.term)) =
          fs.map (·.mapTerms (Term.mapVars S.numbering.term)) →
            List.Forall₂ (Fact.Corresponds R) fs fs' := fun hfs hfs' he =>
      forall₂_of_map_eq he fun f hf f' hf' he =>
        h.fact (displays_fact hp (hfs f hf)) (displays_fact hp' (hfs' f' hf')) he
    obtain ⟨hid, hrule, htime, hpremises, hactions, hconclusions⟩ := NodeShape.mk.inj he
    exact ⟨hid, hrule, h.time (mentions_time_node hp) (mentions_time_node hp') htime,
      facts (by simp +contextual [Node.facts]) (by simp +contextual [Node.facts]) hpremises,
      facts (by simp +contextual [Node.facts]) (by simp +contextual [Node.facts]) hactions,
      facts (by simp +contextual [Node.facts]) (by simp +contextual [Node.facts]) hconclusions⟩
  · exact h.goal (fun b hb => hbs b (List.mem_append_left _ (List.mem_flatMap.2 ⟨g, hg, hb⟩)))
      (displays_goal hg) (displays_goal (hperm.mem_iff.1 hg')) he
  · obtain ⟨hearlier, hlater⟩ := Precedence.mk.inj he
    have hp' := hperm'.mem_iff.1 hp'
    exact ⟨h.time (mentions_time_less hp (by simp)) (mentions_time_less hp' (by simp)) hearlier,
      h.time (mentions_time_less hp (by simp)) (mentions_time_less hp' (by simp)) hlater⟩
  · obtain ⟨hleft, hright⟩ := Prod.mk.inj he
    exact ⟨h.term (displays_disequality hmem (by simp)) (displays_disequality hmem' (by simp)) hleft,
      h.term (displays_disequality hmem (by simp)) (displays_disequality hmem' (by simp)) hright⟩
  · exact h.nnf (fun b hb => hbs b (List.mem_append_right _ (List.mem_flatMap.2 ⟨g, hg, hb⟩)))
      (displays_guarded hg) (displays_guarded hg') (congrArg Guarded.toNnf he)

end System

/-! ## What a fingerprint shows -/

namespace Fingerprint

def terms (p : Fingerprint) : List Term :=
  p.nodes.flatMap (fun n => (n.premises ++ n.actions ++ n.conclusions).flatMap Fact.args)
    ++ p.goals.flatMap Goal.terms ++ p.disequalities.flatMap (fun e => [e.1, e.2])
    ++ p.guarded.flatMap fun g => g.toNnf.terms

def times (p : Fingerprint) : List TimeVar :=
  p.nodes.map NodeShape.time ++ p.goals.flatMap Goal.times
    ++ p.less.flatMap (fun q => [q.earlier, q.later]) ++ p.guarded.flatMap fun g => g.toNnf.times

def binders (p : Fingerprint) : List Binder :=
  p.goals.flatMap Goal.binders ++ p.guarded.flatMap fun g => g.toNnf.binders

theorem beq_symm {p q : Fingerprint} (h : (p == q) = true) : (q == p) = true := by
  change beq p q = true at h
  change beq q p = true
  simp only [beq, Bool.and_eq_true, decide_eq_true_eq, List.isPerm_iff] at h ⊢
  obtain ⟨⟨⟨⟨⟨⟨hnodes, hgoals⟩, hless⟩, hedges⟩, hdiseqs⟩, hguarded⟩, happlied⟩ := h
  exact ⟨⟨⟨⟨⟨⟨hnodes.symm, hgoals.symm⟩, hless.symm⟩, hedges.symm⟩, hdiseqs.symm⟩, hguarded.symm⟩,
    happlied.symm⟩

theorem perm_of_beq {p q : Fingerprint} (h : (p == q) = true) :
    p.terms.Perm q.terms ∧ p.times.Perm q.times ∧ p.binders.Perm q.binders := by
  change beq p q = true at h
  simp only [beq, Bool.and_eq_true, decide_eq_true_eq, List.isPerm_iff] at h
  obtain ⟨⟨⟨⟨⟨⟨hnodes, hgoals⟩, hless⟩, -⟩, hdiseqs⟩, hguarded⟩, -⟩ := h
  unfold terms times binders
  rw [hnodes, hdiseqs, hguarded]
  exact ⟨(((List.Perm.refl _).append (hgoals.flatMap_right _)).append_right _).append_right _,
    (((List.Perm.refl _).append (hgoals.flatMap_right _)).append (hless.flatMap_right _)).append_right _,
    (hgoals.flatMap_right _).append_right _⟩

end Fingerprint

namespace System

variable {S S' : System}

theorem terms_fingerprint (S : System) :
    S.fingerprint.terms = S.shownTerms.map (Term.mapVars S.numbering.term) := by
  have hguarded : ∀ g : Guarded, (g.shape S.numbering).toNnf.terms =
      g.toNnf.terms.map (Term.mapVars S.numbering.term) := fun g => g.toNnf.terms_map _ _
  have hnode : ∀ p : Nat × Node, ((p.2.shape S.numbering p.1).premises ++
      (p.2.shape S.numbering p.1).actions ++ (p.2.shape S.numbering p.1).conclusions).flatMap Fact.args =
        p.2.facts.flatMap fun f => f.args.map (Term.mapVars S.numbering.term) := fun p => by
    simp only [Node.shape, Node.facts, ← List.map_append, List.flatMap_map]
    rfl
  simp only [fingerprint_eq, Fingerprint.terms, shownTerms, List.flatMap_map, List.map_append,
    List.map_flatMap, Goal.terms_shape, hguarded, hnode]
  rfl

theorem times_fingerprint (S : System) : S.fingerprint.times = S.shownTimes.map S.numbering.time := by
  have hguarded : ∀ g : Guarded, (g.shape S.numbering).toNnf.times =
      g.toNnf.times.map S.numbering.time := fun g => g.toNnf.times_map _ _
  simp only [fingerprint_eq, Fingerprint.times, shownTimes, List.flatMap_map, List.map_append,
    List.map_flatMap, List.map_map, Goal.times_shape, hguarded]
  rfl

theorem binders_fingerprint (S : System) : S.fingerprint.binders = S.binders := by
  have hguarded : ∀ g : Guarded, (g.shape S.numbering).toNnf.binders = g.toNnf.binders :=
    fun g => g.toNnf.binders_map _ _
  simp only [fingerprint_eq, Fingerprint.binders, binders, List.flatMap_map, Goal.binders_shape,
    hguarded]

section Twins

variable (h : (S.fingerprint == S'.fingerprint) = true)

include h

theorem mem_binders_iff {b : Binder} : b ∈ S.binders ↔ b ∈ S'.binders := by
  rw [← binders_fingerprint, ← binders_fingerprint]
  exact (Fingerprint.perm_of_beq h).2.2.mem_iff

/-- Everything in one system has the same number as something in the other. -/
theorem exists_twin {b : Binder} (hb : S.Mentions b) : ∃ b', S'.Mentions b' ∧ S.SameNumber S' b b' := by
  obtain ⟨hterms, htimes, -⟩ := Fingerprint.perm_of_beq h
  rw [terms_fingerprint, terms_fingerprint] at hterms
  rw [times_fingerprint, times_fingerprint] at htimes
  cases b with
  | msg x =>
    obtain ⟨t, ht, hx⟩ := hb
    obtain ⟨t', ht', he⟩ := List.mem_map.1 (hterms.mem_iff.1 (List.mem_map_of_mem ht))
    obtain ⟨x', hx', he⟩ := System.exists_occurrence he hx
    exact ⟨.msg x', ⟨t', ht', hx'⟩, he⟩
  | time i =>
    obtain ⟨i', hi', he⟩ := List.mem_map.1 (htimes.mem_iff.1 (List.mem_map_of_mem hb))
    exact ⟨.time i', hi', he⟩

end Twins

/-- Variables with the same number are the same of index 0, or have the same place and sort. -/
theorem sameNumber_msg {x x' : Var} : S.SameNumber S' (.msg x) (.msg x') ↔
    (x.idx = 0 ∧ x' = x) ∨ x.idx ≠ 0 ∧ x'.idx ≠ 0 ∧
      S'.shownVars.idxOf x' = S.shownVars.idxOf x ∧ x'.sort = x.sort := by
  change Term.var (x'.numbered S'.shownVars) = Term.var (x.numbered S.shownVars) ↔ _
  rw [Term.var.injEq, Var.numbered, Var.numbered]
  split <;> split
  all_goals rename_i hx' hx
  · simp [hx, hx']
  · refine iff_of_false (fun he => ?_) (by simp [hx, hx'])
    rw [he] at hx'
    cases hx'
  · refine iff_of_false (fun he => ?_) ?_
    · rw [← he] at hx
      cases hx
    · rintro (⟨-, rfl⟩ | ⟨h, -⟩)
      · exact hx' hx
      · exact h hx
  · simp [hx, hx']

/-- Timepoints with the same number have the same class of index 0, or classes at the same place. -/
theorem sameNumber_time {i i' : TimeVar} : S.SameNumber S' (.time i) (.time i') ↔
    ((S.find i).idx = 0 ∧ S'.find i' = S.find i) ∨ (S.find i).idx ≠ 0 ∧ (S'.find i').idx ≠ 0 ∧
      S'.shownClasses.idxOf (S'.find i') = S.shownClasses.idxOf (S.find i) := by
  change (S'.find i').numbered S'.shownClasses = (S.find i).numbered S.shownClasses ↔ _
  rw [TimeVar.numbered, TimeVar.numbered]
  split <;> split
  all_goals rename_i hi' hi
  · simp [hi, hi']
  · refine iff_of_false (fun he => ?_) (by simp [hi, hi'])
    rw [he] at hi'
    cases hi'
  · refine iff_of_false (fun he => ?_) ?_
    · rw [← he] at hi
      cases hi
    · rintro (⟨-, he⟩ | ⟨h, -⟩)
      · exact hi' (he ▸ hi)
      · exact h hi
  · simp [hi, hi']

/-! ## From the numbers of one system to those of the other -/

/-- The variable of `S'` that has the number of `x` in `S`. -/
def renameVar (S S' : System) (x : Var) : Var :=
  if x.idx = 0 then x else S'.shownVars.getD (S.shownVars.idxOf x) x

/-- The class of `S'` that has the number of the class `c` in `S`. -/
def renameClass (S S' : System) (c : TimeVar) : TimeVar :=
  if c.idx = 0 then c else S'.shownClasses.getD (S.shownClasses.idxOf c) c

theorem mem_shownClasses {i : TimeVar} (hi : i ∈ S.shownTimes) (hidx : (S.find i).idx ≠ 0) :
    S.find i ∈ S.shownClasses := by
  rw [shownClasses, List.mem_eraseDups, List.mem_filter]
  exact ⟨List.mem_map_of_mem hi, by simpa using hidx⟩

theorem renameVar_eq {x x' : Var} (hx' : S'.Mentions (.msg x'))
    (h : S.SameNumber S' (.msg x) (.msg x')) : S.renameVar S' x = x' := by
  rcases sameNumber_msg.1 h with ⟨hx, rfl⟩ | ⟨hx, hidx, he, -⟩
  · exact if_pos hx
  · rw [renameVar, if_neg hx, ← he, List.getD, List.getElem?_idxOf (mem_shownVars.2 ⟨hx', hidx⟩)]
    rfl

theorem renameClass_eq {i i' : TimeVar} (hi' : S'.Mentions (.time i'))
    (h : S.SameNumber S' (.time i) (.time i')) : S.renameClass S' (S.find i) = S'.find i' := by
  rcases sameNumber_time.1 h with ⟨hi, he⟩ | ⟨hi, hidx, he⟩
  · rw [he]
    exact if_pos hi
  · rw [renameClass, if_neg hi, ← he, List.getD, List.getElem?_idxOf (mem_shownClasses hi' hidx)]
    rfl

/-- Variables correspond by `φ`, timepoints by `ψ` on their classes. -/
def renamedBy (φ : Var → Var) (ψ : TimeVar → TimeVar) (S S' : System) : Correspondence
  | .msg x, .msg x' => x' = φ x
  | .time i, .time i' => S'.find i' = ψ (S.find i)
  | _, _ => False

theorem numbers_renamedBy : Numbers (renamedBy (S.renameVar S') (S.renameClass S') S S') S S' := by
  intro b b' _ hb' hsame
  cases b with
  | msg x =>
    cases b' with
    | msg x' => exact (renameVar_eq hb' hsame).symm
    | time => exact hsame.elim
  | time i =>
    cases b' with
    | msg => exact hsame.elim
    | time i' => exact (renameClass_eq hb' hsame).symm

/-- The variables that occur, but for those of index 0. -/
def vars (S : System) : Set Var := {x | S.Mentions (.msg x) ∧ x.idx ≠ 0}

def timeClasses (S : System) : Set TimeVar := {c | ∃ i, S.Mentions (.time i) ∧ S.find i = c}

/-- Quantifiers bind what has index 0, and what they bind is not joined with other timepoints. -/
structure BindsApart (S : System) : Prop where
  index : ∀ b ∈ S.binders, b.idx = 0
  alone : ∀ i, .time i ∈ S.binders → ∀ j, S.find j = i ↔ j = i

section Bijection

variable (h : (S.fingerprint == S'.fingerprint) = true)

include h

theorem exists_twin_var {x : Var} (hx : x ∈ S.vars) : ∃ x' ∈ S'.vars,
    S.SameNumber S' (.msg x) (.msg x') ∧ S.renameVar S' x = x' := by
  obtain ⟨b', hb', hsame⟩ := exists_twin h hx.1
  cases b' with
  | time => exact hsame.elim
  | msg x' =>
    refine ⟨x', ⟨hb', ?_⟩, hsame, renameVar_eq hb' hsame⟩
    rcases sameNumber_msg.1 hsame with ⟨hidx, -⟩ | ⟨-, hidx, -⟩
    · exact absurd hidx hx.2
    · exact hidx

theorem exists_twin_time {i : TimeVar} (hi : S.Mentions (.time i)) : ∃ i', S'.Mentions (.time i') ∧
    S.SameNumber S' (.time i) (.time i') ∧ S.renameClass S' (S.find i) = S'.find i' := by
  obtain ⟨b', hb', hsame⟩ := exists_twin h hi
  cases b' with
  | msg => exact hsame.elim
  | time i' => exact ⟨i', hb', hsame, renameClass_eq hb' hsame⟩

omit h in
theorem SameNumber.symm {b b' : Binder} (h : S.SameNumber S' b b') : S'.SameNumber S b' b := by
  cases b <;> cases b' <;> first | exact Eq.symm h | exact h.elim

theorem bijOn_renameVar (h' : (S'.fingerprint == S.fingerprint) = true) :
    Set.BijOn (S.renameVar S') S.vars S'.vars := by
  refine ⟨fun x hx => ?_, fun x hx y hy he => ?_, fun x' hx' => ?_⟩
  · obtain ⟨x', hx', -, he⟩ := exists_twin_var h hx
    exact he ▸ hx'
  · obtain ⟨x', -, hsame, hx'⟩ := exists_twin_var h hx
    obtain ⟨y', -, hsame', hy'⟩ := exists_twin_var h hy
    have hxy : x' = y' := hx'.symm.trans (he.trans hy')
    subst hxy
    exact eq_of_numbering (mem_shownVars.2 hx) (mem_shownVars.2 hy) (Eq.trans hsame.symm hsame')
  · obtain ⟨x, hx, hsame, -⟩ := exists_twin_var h' hx'
    exact ⟨x, hx, renameVar_eq hx'.1 hsame.symm⟩

theorem bijOn_renameClass (h' : (S'.fingerprint == S.fingerprint) = true) :
    Set.BijOn (S.renameClass S') S.timeClasses S'.timeClasses := by
  refine ⟨?_, ?_, ?_⟩
  · rintro c ⟨i, hi, rfl⟩
    obtain ⟨i', hi', -, he⟩ := exists_twin_time h hi
    exact ⟨i', hi', he.symm⟩
  · rintro c ⟨i, hi, rfl⟩ d ⟨j, hj, rfl⟩ he
    obtain ⟨i', hi', hsame, hi''⟩ := exists_twin_time h hi
    obtain ⟨j', hj', hsame', hj''⟩ := exists_twin_time h hj
    have hij : S'.find i' = S'.find j' := hi''.symm.trans (he.trans hj'')
    rcases sameNumber_time.1 hsame with ⟨hidx, hc⟩ | ⟨hidx, hidx', hc⟩ <;>
      rcases sameNumber_time.1 hsame' with ⟨hjdx, hd⟩ | ⟨hjdx, hjdx', hd⟩
    · rw [← hc, ← hd, hij]
    · rw [← hij, hc] at hjdx'
      exact absurd hidx hjdx'
    · rw [hij, hd] at hidx'
      exact absurd hjdx hidx'
    · rw [hij, hd] at hc
      exact ((List.idxOf_inj (mem_shownClasses hj hjdx)).1 hc).symm
  · rintro c ⟨i', hi', rfl⟩
    obtain ⟨i, hi, hsame, -⟩ := exists_twin_time h' hi'
    exact ⟨S.find i, ⟨i, hi, rfl⟩, renameClass_eq hi' hsame.symm⟩

/-- What a quantifier binds has a number of its own. -/
theorem BindsApart.isolates (hS : S.BindsApart) (hS' : S'.BindsApart) {b : Binder}
    (hb : b ∈ S.binders) : Isolates S S' b := by
  have hidx := hS.index b hb
  have hb' := (mem_binders_iff h).1 hb
  intro c c' hsame hc
  cases c with
  | msg x =>
    cases c' with
    | time => exact hsame.elim
    | msg x' =>
      rcases sameNumber_msg.1 hsame with ⟨-, rfl⟩ | ⟨hx, hx', -⟩
      · rfl
      · rcases hc with rfl | rfl
        · exact absurd hidx hx
        · exact absurd hidx hx'
  | time i =>
    cases c' with
    | msg => exact hsame.elim
    | time i' =>
      rcases hc with rfl | rfl
      · have hfind : S.find i = i := (hS.alone i hb i).2 rfl
        rcases sameNumber_time.1 hsame with ⟨-, he⟩ | ⟨hi, -⟩
        · rw [(hS'.alone i hb' i').1 (he.trans hfind)]
        · rw [hfind] at hi
          exact absurd hidx hi
      · have hfind : S'.find i' = i' := (hS'.alone i' hb' i').2 rfl
        rcases sameNumber_time.1 hsame with ⟨-, he⟩ | ⟨-, hi', -⟩
        · rw [(hS.alone i' hb i).1 (he.symm.trans hfind)]
        · rw [hfind] at hi'
          exact absurd hidx hi'

end Bijection

end System

/-- Systems with the same fingerprint are isomorphic, if what their formulas bind is kept apart: their
variables correspond one to one with their sorts, their classes of timepoints correspond one to one,
and so do all parts that the fingerprint shows. -/
theorem isomorphic_of_fingerprint {S S' : System} (hS : S.BindsApart) (hS' : S'.BindsApart)
    (h : (S.fingerprint == S'.fingerprint) = true) : ∃ (φ : Var → Var) (ψ : TimeVar → TimeVar),
      Set.BijOn φ S.vars S'.vars ∧ (∀ x ∈ S.vars, (φ x).sort = x.sort) ∧ (∀ x, x.idx = 0 → φ x = x) ∧
      Set.BijOn ψ S.timeClasses S'.timeClasses ∧ S.Corresponds (System.renamedBy φ ψ S S') S' := by
  have h' := Fingerprint.beq_symm h
  refine ⟨S.renameVar S', S.renameClass S', System.bijOn_renameVar h h', fun x hx => ?_,
    fun x hx => if_pos hx, System.bijOn_renameClass h h',
    System.numbers_renamedBy.system (fun b hb => hS.isolates h hS' hb) h⟩
  obtain ⟨x', -, hsame, he⟩ := System.exists_twin_var h hx
  rw [he]
  rcases System.sameNumber_msg.1 hsame with ⟨-, rfl⟩ | ⟨-, -, -, hsort⟩
  · rfl
  · exact hsort

/-- Some message is signed at a timepoint before which it is known, and it is revoked nowhere. -/
def signedSystem (x : Var) (i : TimeVar) : System where
  goals := [⟨.action (.linear "Signed" [.var x]) i, 0⟩, ⟨.knows (.var x) i, 1⟩]
  guarded := [⟨[.time (.ofName "a")], [.action (.linear "Revoked" [.var x]) (.ofName "a")], .bot⟩]

/-- Neither names nor the order of goals count. -/
theorem isomorphic_of_fingerprint_signed :
    let S := signedSystem ⟨"x", 1, .msg⟩ ⟨"i", 2⟩
    let S' := { signedSystem ⟨"y", 5, .msg⟩ ⟨"j", 3⟩ with
      goals := (signedSystem ⟨"y", 5, .msg⟩ ⟨"j", 3⟩).goals.reverse }
    S.BindsApart ∧ S'.BindsApart ∧ (S.fingerprint == S'.fingerprint) = true ∧
      ∃ (φ : Var → Var) (ψ : TimeVar → TimeVar), Set.BijOn φ S.vars S'.vars ∧
        (∀ x ∈ S.vars, (φ x).sort = x.sort) ∧ (∀ x, x.idx = 0 → φ x = x) ∧
        Set.BijOn ψ S.timeClasses S'.timeClasses ∧ S.Corresponds (System.renamedBy φ ψ S S') S' := by
  intro S S'
  have hS : S.BindsApart := ⟨by decide, fun i _ j => Iff.rfl⟩
  have hS' : S'.BindsApart := ⟨by decide, fun i _ j => Iff.rfl⟩
  have h : (S.fingerprint == S'.fingerprint) = true := by decide +kernel
  exact ⟨hS, hS', h, isomorphic_of_fingerprint hS hS' h⟩

/-- No two timepoints are those of the given actions, where the timepoints that the formula binds have
been joined. -/
def joinedSystem (f f' : Fact × TimeVar) : System :=
  (({} : System).pushGoal (.split (.guarded [.time (.ofName "a"), .time (.ofName "b")]
    [.action f.1 f.2, .action f'.1 f'.2] .bot))).union (.ofName "a") (.ofName "b")

/-- Where timepoints that a formula binds are joined, one fingerprint stands for two formulas. -/
theorem fingerprint_of_joined :
    let S := joinedSystem (.linear "P" [], .ofName "a") (.linear "Q" [], .ofName "b")
    let S' := joinedSystem (.linear "P" [], .ofName "a") (.linear "Q" [], .ofName "a")
    (∀ b ∈ S.binders ++ S'.binders, b.idx = 0) ∧ (S.fingerprint == S'.fingerprint) = true ∧
      ∀ R, ¬S.Corresponds R S' := by
  refine ⟨by decide, by decide +kernel, fun R h => ?_⟩
  obtain ⟨goals, hperm, hgoals⟩ := h.goals
  obtain rfl := List.perm_singleton.1 hperm
  obtain ⟨hgoal, -⟩ := List.forall₂_cons.1 hgoals
  cases hgoal with
  | split hformula =>
    cases hformula with
    | guarded hguard _ =>
      obtain ⟨-, hguard⟩ := List.forall₂_cons.1 hguard
      obtain ⟨hatom, -⟩ := List.forall₂_cons.1 hguard
      cases hatom with
      | action _ htime =>
        rw [Correspondence.under, if_pos (by decide)] at htime
        exact absurd htime (by decide)

end ProtocolProver
