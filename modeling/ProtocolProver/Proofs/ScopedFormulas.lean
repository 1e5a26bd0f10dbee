import ProtocolProver.Proofs.CompiledModels
import ProtocolProver.Proofs.Satisfaction

/-!
# Scopes of normal forms

The normal form of a closed formula is in the empty scope and in the fragment of the formula: nothing
is free in it, an action of its guard fixes every universal variable, and it speaks of no other actions.
-/

namespace ProtocolProver

theorem Atom.Scoped.negate {L : Fragment} {s : Scope} {a : Atom} (hl : a.Within L) (h : a.Scoped s)
    {n : Nnf} (hn : a.negate = .ok n) : n.Scoped L s := by
  cases a with
  | action f i =>
    cases hn
    refine .guarded (List.forall_mem_nil _) (List.forall_mem_nil _) (fun t j ht => ?_)
      (List.forall_mem_singleton.2 hl) (List.forall_mem_singleton.2 ?_) .bot
    · cases List.mem_singleton.1 ht
    · exact ⟨fun t ht x hx => .inl (h.terms t ht x hx), fun j hj => .inl (h.times j hj)⟩
  | knows t i => cases hn
  | less i j | timeEq i j =>
    cases hn
    have hi := h.times i (by simp [Atom.times])
    have hj := h.times j (by simp [Atom.times])
    refine .disj ?_
    simp only [List.forall_mem_cons]
    exact ⟨.atom (by rintro _ ⟨⟩) ⟨List.forall_mem_nil _, by simp [Atom.times, hi, hj]⟩,
      .atom (by rintro _ ⟨⟩) ⟨List.forall_mem_nil _, by simp [Atom.times, hi, hj]⟩, List.forall_mem_nil _⟩
  | eq t u =>
    cases hn
    exact .neq (h.terms t (by simp [Atom.terms])) (h.terms u (by simp [Atom.terms]))

namespace Formula

mutual

def actions : Formula → List Fact
  | .top | .bot => []
  | .atom a => (a.action?.map Prod.fst).toList
  | .neg f => actions f
  | .conj fs => actionsList fs
  | .disj fs => actionsList fs
  | .imp f g => actions f ++ actions g
  | .ex _ f => actions f
  | .all _ f => actions f

def actionsList : List Formula → List Fact
  | [] => []
  | f :: fs => actions f ++ actionsList fs

end

def scopes (L : Fragment) : Grammar Scope := ⟨L.binder, Scope.bind, fun s a => a.Within L ∧ a.Scoped s⟩

/-- Formulas of a fragment whose free variables are in scope. -/
abbrev Scoped (L : Fragment) (s : Scope) (f : Formula) : Prop := f.Over (scopes L) s

theorem bind_of_filter {s : Scope} {bs : List Binder} {vs : List Var} {is : List TimeVar}
    (hvs : ∀ x ∈ vs.filter fun x => !bs.contains (.msg x), s.var x)
    (his : ∀ i ∈ is.filter fun i => !bs.contains (.time i), s.time i) :
    (∀ x ∈ vs, (s.bind bs).var x) ∧ ∀ i ∈ is, (s.bind bs).time i := by
  refine ⟨fun x hx => ?_, fun i hi => ?_⟩
  · by_cases hb : .msg x ∈ bs
    · exact .inr hb
    · exact .inl (hvs x (List.mem_filter.2 ⟨hx, by simpa using hb⟩))
  · by_cases hb : .time i ∈ bs
    · exact .inr hb
    · exact .inl (his i (List.mem_filter.2 ⟨hi, by simpa using hb⟩))

section Free

variable {L : Fragment}

mutual

theorem scoped_of_free : ∀ {f : Formula} {s : Scope}, (∀ b ∈ f.binders, L.binder b) →
    (∀ c ∈ f.actions, L.action c) → (∀ x ∈ f.freeOccurrences, s.var x) →
      (∀ i ∈ f.timeOccurrences, s.time i) → f.Scoped L s
  | .top, _, _, _, _, _ => .top
  | .bot, _, _, _, _, _ => .bot
  | .atom a, s, _, hl, hx, hi => by
    refine .atom ⟨fun c hc => hl c.1 (by simp [actions, hc]), fun t ht x hxt => hx x ?_, hi⟩
    rw [freeOccurrences, Term.occurrencesList_eq]
    exact List.mem_flatMap.2 ⟨t, ht, hxt⟩
  | .neg f, _, hb, hl, hx, hi => .neg (scoped_of_free hb hl hx hi)
  | .conj fs, _, hb, hl, hx, hi => .conj (scoped_of_freeList hb hl hx hi)
  | .disj fs, _, hb, hl, hx, hi => .disj (scoped_of_freeList hb hl hx hi)
  | .imp f g, _, hb, hl, hx, hi => by
    simp only [binders, actions, freeOccurrences, timeOccurrences,
      List.forall_mem_append] at hb hl hx hi
    exact .imp (scoped_of_free hb.1 hl.1 hx.1 hi.1) (scoped_of_free hb.2 hl.2 hx.2 hi.2)
  | .ex bs f, _, hb, hl, hx, hi => by
    simp only [binders, List.forall_mem_append] at hb
    obtain ⟨hx, hi⟩ := bind_of_filter hx hi
    exact .ex hb.1 (scoped_of_free hb.2 hl hx hi)
  | .all bs f, _, hb, hl, hx, hi => by
    simp only [binders, List.forall_mem_append] at hb
    obtain ⟨hx, hi⟩ := bind_of_filter hx hi
    exact .all hb.1 (scoped_of_free hb.2 hl hx hi)

theorem scoped_of_freeList : ∀ {fs : List Formula} {s : Scope},
    (∀ b ∈ bindersList fs, L.binder b) → (∀ c ∈ actionsList fs, L.action c) →
      (∀ x ∈ freeOccurrencesList fs, s.var x) → (∀ i ∈ timeOccurrencesList fs, s.time i) →
        ∀ f ∈ fs, f.Scoped L s
  | [], _, _, _, _, _ => nofun
  | f :: fs, _, hb, hl, hx, hi => by
    simp only [bindersList, actionsList, freeOccurrencesList, timeOccurrencesList,
      List.forall_mem_append] at hb hl hx hi
    exact List.forall_mem_cons.2
      ⟨scoped_of_free hb.1 hl.1 hx.1 hi.1, scoped_of_freeList hb.2 hl.2 hx.2 hi.2⟩

end

end Free

variable {L : Fragment} {s : Scope}

theorem guardedBy_of_checkGuarded {gs : List Atom} {b : Binder} (h : checkGuarded gs b = .ok ()) :
    b.GuardedBy gs := by
  unfold checkGuarded at h
  extract_lets actions at h
  have hactions : ∀ {f : Fact} {i : TimeVar}, (f, i) ∈ actions → Atom.action f i ∈ gs := by
    intro f i hfi
    obtain ⟨a, ha, he⟩ := List.mem_filterMap.1 hfi
    cases a <;> cases he
    exact ha
  cases b with
  | msg x =>
    simp only at h
    split at h
    · rename_i hany
      obtain ⟨⟨f, i⟩, hfi, hx⟩ := List.any_eq_true.1 hany
      obtain ⟨t, ht, hx⟩ := List.any_eq_true.1 hx
      exact ⟨f, i, hactions hfi, t, ht, Term.occurs_iff.1 hx⟩
    · cases h
  | time i =>
    simp only at h
    split at h
    · rename_i hany
      obtain ⟨⟨f, j⟩, hfj, hj⟩ := List.any_eq_true.1 hany
      cases beq_iff_eq.1 hj
      exact ⟨f, hactions hfj⟩
    · cases h

theorem yields_scopes (L : Fragment) : (scopes L).Yields (Nnf.Scoped L) where
  top := .top
  bot := .bot
  atom h := .atom h.1 h.2
  negate h hn := h.2.negate h.1 hn
  conj := .conj
  disj := .disj
  ex := .ex
  guarded {s bs parts _ _} hbs hparts hbody h := by
    obtain ⟨guard, hguard, h⟩ := bind_eq_ok h
    obtain ⟨⟨⟩, hcheck, h⟩ := bind_eq_ok h
    cases h
    have hatom : ∀ a ∈ guard, (a.Within L ∧ a.Scoped (s.bind bs)) ∧ ∀ t i, a ≠ .knows t i := by
      intro a ha
      obtain ⟨p, hp, he⟩ := of_mem_mapM hguard a ha
      unfold guardAtom at he
      split at he <;> cases he
      rename_i hk
      cases hparts _ hp with
      | atom h => exact ⟨h, hk⟩
    exact .guarded hbs (fun b hb => guardedBy_of_checkGuarded (of_forM_eq_ok hcheck b hb))
      (fun t i hti => (hatom _ hti).2 t i rfl) (fun a ha => (hatom a ha).1.1)
      (fun a ha => (hatom a ha).1.2) hbody

theorem scoped_toNnf {f : Formula} (hb : ∀ b ∈ f.binders, L.binder b)
    (hl : ∀ c ∈ f.actions, L.action c) {n : Nnf} (h : f.toNnf = .ok n) :
    f.Scoped L .closed ∧ n.Scoped L .closed := by
  unfold Formula.toNnf at h
  split at h
  · cases h
  · cases h
  · rename_i hvars htimes
    have hx : ∀ x ∈ f.freeOccurrences, Scope.closed.var x := fun x hx => by
      have := List.mem_eraseDups.2 hx
      rw [show f.freeOccurrences.eraseDups = [] from hvars] at this
      cases this
    have hi : ∀ i ∈ f.timeOccurrences, Scope.closed.time i := fun i hi => by
      have := List.mem_eraseDups.2 hi
      rw [show f.timeOccurrences.eraseDups = [] from htimes] at this
      cases this
    have hscoped := scoped_of_free hb hl hx hi
    exact ⟨hscoped, (hscoped.forms (yields_scopes L)).pos n h⟩

end Formula

end ProtocolProver
