import ProtocolProver.Proofs.ScopedSystems
import ProtocolProver.Proofs.TraceTruth

/-!
# Conditions of rules

A condition without quantifiers compares terms (`Nnf.Static`). A step may leave variables open that
only the condition of its rule mentions. Putting different new names in for them keeps the condition
true (`Static.sat_of_holds`), since terms that differ still do (`Term.eq_of_mapVars_newName`).
-/

namespace ProtocolProver

/-- There is no quantifier in the formula. -/
inductive Nnf.QuantifierFree : Nnf → Prop
  | top : QuantifierFree .top
  | bot : QuantifierFree .bot
  | atom {a : Atom} : QuantifierFree (.atom a)
  | neq {s t : Term} : QuantifierFree (.neq s t)
  | conj {fs : List Nnf} : (∀ f ∈ fs, QuantifierFree f) → QuantifierFree (.conj fs)
  | disj {fs : List Nnf} : (∀ f ∈ fs, QuantifierFree f) → QuantifierFree (.disj fs)

/-- The formula has no quantifier and speaks of terms only. -/
inductive Nnf.Static : Nnf → Prop
  | top : Static .top
  | bot : Static .bot
  | eq {s t : Term} : Static (.atom (.eq s t))
  | neq {s t : Term} : Static (.neq s t)
  | conj {fs : List Nnf} : (∀ f ∈ fs, Static f) → Static (.conj fs)
  | disj {fs : List Nnf} : (∀ f ∈ fs, Static f) → Static (.disj fs)

namespace Nnf

variable {f : Nnf}

theorem QuantifierFree.static (h : f.QuantifierFree) {L : Fragment} {s : Scope} (hs : f.Scoped L s)
    (ht : ∀ i, ¬s.time i) : f.Static := by
  induction h with
  | top => exact .top
  | bot => exact .bot
  | neq => exact .neq
  | @atom a =>
    cases hs with
    | atom _ ha =>
      have hnil : a.times = [] := List.eq_nil_iff_forall_not_mem.2 fun i hi => ht i (ha.times i hi)
      cases a <;> first | exact .eq | cases hnil
  | conj _ ih =>
    cases hs with
    | conj hs => exact .conj fun f hf => ih f hf (hs f hf)
  | disj _ ih =>
    cases hs with
    | disj hs => exact .disj fun f hf => ih f hf (hs f hf)

theorem Static.mem_freeOccurrences (h : f.Static) {x : Var} :
    x ∈ f.freeOccurrences ↔ ∃ t ∈ f.terms, x ∈ t.occurrences := by
  have hlist : ∀ {fs : List Nnf}, x ∈ freeOccurrencesList fs ↔ ∃ f ∈ fs, x ∈ f.freeOccurrences := by
    intro fs
    induction fs with
    | nil => simp [freeOccurrencesList]
    | cons f fs ih => simp [freeOccurrencesList, ih]
  have hparts : ∀ {fs : List Nnf}, (∀ f ∈ fs, x ∈ f.freeOccurrences ↔
      ∃ t ∈ f.terms, x ∈ t.occurrences) →
      (x ∈ freeOccurrencesList fs ↔ ∃ t ∈ termsList fs, x ∈ t.occurrences) := by
    intro fs ih
    simp only [hlist, termsList_eq, List.mem_flatMap]
    constructor
    · rintro ⟨f, hf, hx⟩
      obtain ⟨t, ht, hx⟩ := (ih f hf).1 hx
      exact ⟨t, ⟨f, hf, ht⟩, hx⟩
    · rintro ⟨t, ⟨f, hf, ht⟩, hx⟩
      exact ⟨f, hf, (ih f hf).2 ⟨t, ht, hx⟩⟩
  induction h with
  | top | bot => simp [freeOccurrences, terms]
  | eq => simp [freeOccurrences, terms, Atom.terms, Term.occurrencesList_eq]
  | neq => simp [freeOccurrences, terms, Term.occurrencesList_eq]
  | conj _ ih => exact hparts ih
  | disj _ ih => exact hparts ih

theorem Static.scoped (h : f.Static) {s : Scope} (hf : ∀ t ∈ f.terms, t.Scoped s) (L : Fragment) :
    f.Scoped L s := by
  induction h with
  | top => exact .top
  | bot => exact .bot
  | eq => exact .atom nofun ⟨hf, nofun⟩
  | neq => exact .neq (hf _ (by simp [terms])) (hf _ (by simp [terms]))
  | conj _ ih =>
    simp only [terms, termsList_eq, List.mem_flatMap] at hf
    exact .conj fun f hfs => ih f hfs fun t ht => hf t ⟨f, hfs, ht⟩
  | disj _ ih =>
    simp only [terms, termsList_eq, List.mem_flatMap] at hf
    exact .disj fun f hfs => ih f hfs fun t ht => hf t ⟨f, hfs, ht⟩

theorem Static.terms_scoped (h : f.Static) {L : Fragment} {s : Scope} (hs : f.Scoped L s) :
    ∀ t ∈ f.terms, t.Scoped s := by
  induction h with
  | top | bot => exact List.forall_mem_nil _
  | eq =>
    cases hs with
    | atom _ ha => exact ha.terms
  | neq =>
    cases hs with
    | neq ht hu => simpa [terms] using ⟨ht, hu⟩
  | conj _ ih =>
    cases hs with
    | conj hs =>
      simp only [terms, termsList_eq, List.mem_flatMap]
      rintro t ⟨f, hf, ht⟩
      exact ih f hf (hs f hf) t ht
  | disj _ ih =>
    cases hs with
    | disj hs =>
      simp only [terms, termsList_eq, List.mem_flatMap]
      rintro t ⟨f, hf, ht⟩
      exact ih f hf (hs f hf) t ht

/-- A condition that holds of a rule instance stays true when open variables get values that keep
different terms apart. -/
theorem Static.sat_of_holds {T : Theory} (h : f.Static) {σ : Subst} {ρ : Var → Term}
    (he : (f.instantiate (.ofSubst σ)).holds T [] = true)
    (hρ : ∀ t ∈ f.terms, ∀ u ∈ f.terms, (T.normalize (σ.apply t)).mapVars ρ =
      (T.normalize (σ.apply u)).mapVars ρ → T.normalize (σ.apply t) = T.normalize (σ.apply u))
    {I : Interpretation} {v : Valuation}
    (hv : ∀ t ∈ f.terms, v.value I.theory t = (T.normalize (σ.apply t)).mapVars ρ) : f.Sat I v := by
  have hvalue : ∀ t, (Interpretation.ofTrace T []).value {} t = T.normalize t := fun t =>
    congrArg T.normalize (Term.mapVars_var _)
  unfold holds at he
  induction h with
  | top => exact trivial
  | bot => cases he
  | @eq s t =>
    have he := beq_iff_eq.1 he
    simp only [terms, Atom.terms, List.mem_cons, List.not_mem_nil, or_false, forall_eq_or_imp,
      forall_eq] at hv
    change (Interpretation.ofTrace T []).value {} (σ.apply s) = _ at he
    rw [hvalue, hvalue] at he
    exact (hv.1.trans (congrArg _ he)).trans hv.2.symm
  | @neq s t =>
    have he := bne_iff_ne.1 he
    change (Interpretation.ofTrace T []).value {} (σ.apply s) ≠ _ at he
    rw [hvalue, hvalue] at he
    refine fun e => he (hρ s (by simp [terms]) t (by simp [terms]) ?_)
    rw [← hv s (by simp [terms]), ← hv t (by simp [terms])]
    exact e
  | conj _ ih =>
    simp only [terms, termsList_eq, List.mem_flatMap] at hρ hv
    rw [Nnf.instantiate, instantiateList_eq, eval, evalAll_iff, List.forall_mem_map] at he
    exact sat_conj.2 fun f hf => ih f hf (he f hf)
      (fun t ht u hu => hρ t ⟨f, hf, ht⟩ u ⟨f, hf, hu⟩) fun t ht => hv t ⟨f, hf, ht⟩
  | disj _ ih =>
    simp only [terms, termsList_eq, List.mem_flatMap] at hρ hv
    rw [Nnf.instantiate, instantiateList_eq, eval, evalAny_iff] at he
    obtain ⟨f', hf', he⟩ := he
    obtain ⟨f, hf, rfl⟩ := List.mem_map.1 hf'
    exact sat_disj.2 ⟨f, hf, ih f hf he (fun t ht u hu => hρ t ⟨f, hf, ht⟩ u ⟨f, hf, hu⟩)
      fun t ht => hv t ⟨f, hf, ht⟩⟩

end Nnf

/-! ## New names for open variables -/

/-- Terms over the variables `vs` whose public names are shorter than `n`. -/
def shortNames (vs : List Var) (n : Nat) : Shape where
  var x := x ∈ vs
  name
    | .pub name => name.length < n
    | .fresh .. => True
  app _ _ := True

/-- A public name for every variable, longer than `n` by its place in the list. -/
def newName (vs : List Var) (n : Nat) (x : Var) : Term :=
  .name (.pub (String.ofList (List.replicate (n + vs.idxOf x) 'x')))

namespace Term

variable {vs : List Var} {n : Nat}

theorem exists_shortNames (t : Term) : ∃ n, t.Has (shortNames t.occurrences n) := by
  have mono : ∀ {t : Term} {vs ws : List Var} {n k : Nat}, t.Has (shortNames vs n) → vs ⊆ ws →
      n ≤ k → t.Has (shortNames ws k) := by
    intro t vs ws n k h hvs hn
    refine h.mono (fun x hx => hvs hx) (fun a ha => ?_) fun _ _ h => h
    cases a with
    | pub name => exact Nat.lt_of_lt_of_le ha hn
    | fresh => trivial
  induction t using induction_args with
  | var v => exact ⟨0, .var (List.mem_singleton.2 rfl)⟩
  | name a =>
    cases a with
    | pub name => exact ⟨name.length + 1, .name (Nat.lt_succ_self _)⟩
    | fresh => exact ⟨0, .name trivial⟩
  | app f as ih =>
    have hall : ∃ n, ∀ a ∈ as, a.Has (shortNames a.occurrences n) := by
      clear f
      induction as with
      | nil => exact ⟨0, nofun⟩
      | cons a as ihas =>
        obtain ⟨n, hn⟩ := ih a (List.mem_cons_self ..)
        obtain ⟨k, hk⟩ := ihas fun b hb => ih b (List.mem_cons_of_mem a hb)
        refine ⟨max n k, List.forall_mem_cons.2 ⟨mono hn (fun _ h => h) (le_max_left n k), ?_⟩⟩
        exact fun b hb => mono (hk b hb) (fun _ h => h) (le_max_right n k)
    obtain ⟨n, hn⟩ := hall
    exact ⟨n, .app trivial fun a ha => mono (hn a ha)
      (fun x hx => mem_occurrences_app.2 ⟨a, ha, hx⟩) (Nat.le_refl n)⟩

theorem eq_of_map_eq {α β : Type} {f : α → β} : ∀ {as bs : List α}, as.map f = bs.map f →
    (∀ a ∈ as, ∀ b ∈ bs, f a = f b → a = b) → as = bs
  | [], [], _, _ => rfl
  | [], _ :: _, h, _ => by simp at h
  | _ :: _, [], h, _ => by simp at h
  | a :: as, b :: bs, h, hinj => by
    rw [List.map_cons, List.map_cons, List.cons.injEq] at h
    rw [hinj a (List.mem_cons_self ..) b (List.mem_cons_self ..) h.1, eq_of_map_eq h.2 fun c hc d hd =>
      hinj c (List.mem_cons_of_mem a hc) d (List.mem_cons_of_mem b hd)]

/-- Different terms stay different when their variables become new names. -/
theorem eq_of_mapVars_newName {t u : Term} (ht : t.Has (shortNames vs n))
    (hu : u.Has (shortNames vs n)) (h : t.mapVars (newName vs n) = u.mapVars (newName vs n)) :
    t = u := by
  have hvar : ∀ x a, ((Term.name a).Has (shortNames vs n)) → newName vs n x ≠ .name a := by
    rintro x a ha he
    cases he
    have : (String.ofList (List.replicate (n + vs.idxOf x) 'x')).length < n := has_name.1 ha
    simp at this
  induction ht generalizing u with
  | @var x hx =>
    cases hu with
    | @var y hy =>
      have he : String.ofList (List.replicate (n + vs.idxOf x) 'x') =
          String.ofList (List.replicate (n + vs.idxOf y) 'x') := by simpa [mapVars, newName] using h
      have he := congrArg String.length he
      simp only [String.length_ofList, List.length_replicate, Nat.add_left_cancel_iff] at he
      rw [(List.idxOf_inj hx).1 he]
    | name ha => exact absurd h (hvar x _ (.name ha))
    | app => cases h
  | @name a ha =>
    cases hu with
    | var => exact absurd h.symm (hvar _ _ (.name ha))
    | name => exact h
    | app => cases h
  | @app f as _ has ih =>
    cases hu with
    | var => cases h
    | name => cases h
    | @app g bs _ hbs =>
      rw [mapVars_app, mapVars_app] at h
      injection h with hf hargs
      subst hf
      rw [eq_of_map_eq hargs fun a ha b hb => ih a ha (hbs b hb)]

/-- Open variables can be given public names that keep the given terms apart. -/
theorem exists_newNames (ts : List Term) : ∃ ρ : Var → Term,
    (∀ x, ∃ name, ρ x = .name (.pub name)) ∧
      ∀ t ∈ ts, ∀ u ∈ ts, t.mapVars ρ = u.mapVars ρ → t = u := by
  obtain ⟨n, hn⟩ := exists_shortNames (.app .pair ts)
  rw [has_app] at hn
  exact ⟨newName _ n, fun x => ⟨_, rfl⟩, fun t ht u hu =>
    eq_of_mapVars_newName (hn.2 t ht) (hn.2 u hu)⟩

end Term

end ProtocolProver
