import ProtocolProver.Proofs.SolverShapes
import ProtocolProver.Proofs.StandardTheory

/-!
# Unification of terms without destructors

Terms that are built from constructors are in normal form, and stay so when others are put in for
their variables. Between such terms, unification is by structure: it draws no new variables, and if it
reports to be complete, then every solution of the equations is an instance of a unifier that it has
found (`unify_constructors`).
-/

namespace ProtocolProver

/-- Every variable is given a value of its sort. -/
def RespectsSorts (θ : Var → Term) : Prop := ∀ x : Var, x.sort.admits (θ x).sort = true

theorem TermSort.admits_or {r s t : TermSort} (hr : r.admits t = true) (hs : s.admits t = true) :
    r.admits s = true ∨ s.admits r = true := by
  revert hr hs
  cases r <;> cases s <;> cases t <;> decide

namespace Term

theorem mapVars_mapVars (t : Term) (σ ρ : Var → Term) :
    (t.mapVars σ).mapVars ρ = t.mapVars fun v => (σ v).mapVars ρ := by
  induction t using induction_args with
  | var v => rfl
  | name n => rfl
  | app f as ih =>
    rw [mapVars_app, mapVars_app, mapVars_app, List.map_map]
    exact congrArg (app f) (List.map_congr_left ih)

theorem mem_occurrences_mapVars {t : Term} {σ : Var → Term} {y : Var} :
    y ∈ (t.mapVars σ).occurrences ↔ ∃ x ∈ t.occurrences, y ∈ (σ x).occurrences := by
  induction t using induction_args with
  | var v => simp [mapVars, occurrences]
  | name n => simp [mapVars, occurrences]
  | app f as ih =>
    rw [mapVars_app, mem_occurrences_app]
    constructor
    · rintro ⟨_, hb, hy⟩
      obtain ⟨a, ha, rfl⟩ := List.mem_map.1 hb
      obtain ⟨x, hx, hy⟩ := (ih a ha).1 hy
      exact ⟨x, mem_occurrences_app.2 ⟨a, ha, hx⟩, hy⟩
    · rintro ⟨x, hx, hy⟩
      obtain ⟨a, ha, hx⟩ := mem_occurrences_app.1 hx
      exact ⟨_, List.mem_map_of_mem ha, (ih a ha).2 ⟨x, hx, hy⟩⟩

/-- What holds of a term and of all parts below it holds of the values of its variables. -/
theorem of_mapVars {Q : Term → Prop} (hQ : ∀ f as, Q (.app f as) → ∀ a ∈ as, Q a) {t : Term}
    {θ : Var → Term} (h : Q (t.mapVars θ)) : ∀ x ∈ t.occurrences, Q (θ x) := by
  induction t using induction_args with
  | var x => exact List.forall_mem_singleton.2 h
  | name => exact nofun
  | app f as ih =>
    intro x hx
    obtain ⟨a, ha, hx⟩ := mem_occurrences_app.1 hx
    rw [mapVars_app] at h
    exact ih a ha (hQ f _ h _ (List.mem_map_of_mem ha)) x hx

theorem occurs_iff {v : Var} {t : Term} : t.occurs v = true ↔ v ∈ t.occurrences := by
  induction t using induction_args with
  | var w => rw [occurs, occurrences, List.mem_singleton, beq_iff_eq, eq_comm]
  | name n => simp [occurs, occurrences]
  | app f as ih =>
    rw [occurs, occursList_eq, List.any_eq_true, mem_occurrences_app]
    exact exists_congr fun a => and_congr_right fun ha => ih a ha

theorem size_le_sizeList {a : Term} : ∀ {as : List Term}, a ∈ as → a.size ≤ sizeList as
  | b :: bs, h => by
    rw [sizeList]
    rcases List.mem_cons.1 h with rfl | h
    · exact Nat.le_add_right _ _
    · exact (size_le_sizeList h).trans (Nat.le_add_left _ _)

theorem size_le_of_mem {t : Term} {θ : Var → Term} {x : Var} (h : x ∈ t.occurrences) :
    (θ x).size ≤ (t.mapVars θ).size := by
  induction t using induction_args with
  | var v => rw [List.mem_singleton.1 h]; exact Nat.le_refl _
  | name n => cases h
  | app f as ih =>
    obtain ⟨a, ha, hx⟩ := mem_occurrences_app.1 h
    rw [mapVars_app, size]
    exact (ih a ha hx).trans
      ((size_le_sizeList (List.mem_map_of_mem ha)).trans (Nat.le_add_left _ _))

theorem ne_of_mem_app {θ : Var → Term} {x : Var} {f : Symbol} {as : List Term}
    (h : x ∈ (app f as).occurrences) : θ x ≠ (app f as).mapVars θ := by
  intro he
  obtain ⟨a, ha, hx⟩ := mem_occurrences_app.1 h
  have hle := @size_le_of_mem a θ x hx
  have hlist := size_le_sizeList (List.mem_map_of_mem (f := mapVars θ) ha)
  rw [he, mapVars_app, size] at hle
  omega

/-- Putting values of the right sorts in keeps the sort of a term, or narrows it. -/
theorem admits_mapVars {θ : Var → Term} (hθ : RespectsSorts θ) {s : TermSort} {t : Term}
    (h : s.admits t.sort = true) : s.admits (t.mapVars θ).sort = true := by
  cases t with
  | var v => exact TermSort.admits_trans h (hθ v)
  | name n => exact h
  | app f as => rw [mapVars_app]; exact h

end Term

namespace Theory

/-! ## Terms of constructors -/

/-- Terms over the variables `V` that are built from constructors, with any number of arguments. -/
def constructors (T : Theory) (V : Var → Prop) : Shape :=
  ⟨V, fun _ => True, fun f _ => T.IsConstructor f⟩

/-- Terms without destructors. -/
def plainShape (T : Theory) : Shape := T.constructors fun _ => True

variable {T : Theory} {V W : Var → Prop} {t : Term}

theorem constructors_mono (h : t.Has (T.constructors V)) (hV : ∀ x, V x → W x) :
    t.Has (T.constructors W) := h.mono hV (fun _ h => h) fun _ _ h => h

theorem constructors_iff : t.Has (T.constructors V) ↔
    t.Has T.plainShape ∧ ∀ x ∈ t.occurrences, V x := by
  refine ⟨fun h => ⟨constructors_mono h fun _ _ => trivial, fun x hx => h.var_of_mem hx⟩, ?_⟩
  rintro ⟨h, hV⟩
  induction h with
  | var => exact .var (hV _ (List.mem_singleton.2 rfl))
  | name => exact .name trivial
  | app hf _ ih =>
    exact .app hf fun a ha => ih a ha fun x hx => hV x (Term.mem_occurrences_app.2 ⟨a, ha, hx⟩)

theorem eval_constructors (ht : t.Has (T.constructors V)) (ρ : Var → Term) (n : Nat) :
    t.eval ρ (T.reduce n) = t.mapVars ρ := by
  induction ht with
  | var => rfl
  | name => rfl
  | app h _ ih => rw [Term.eval_app, Term.mapVars_app, h.reduce, List.map_congr_left ih]

theorem normalize_constructors (ht : t.Has (T.constructors V)) : T.normalize t = t :=
  (eval_constructors ht .var _).trans t.mapVars_var

/-- Normalizing an instance of a term of constructors is normalizing the values. -/
theorem normalize_mapVars_constructors (ht : t.Has (T.constructors V)) (σ : Var → Term) :
    T.normalize (t.mapVars σ) = t.mapVars fun v => T.normalize (σ v) := by
  rw [normalize, Term.eval_mapVars]
  exact eval_constructors ht _ _

end Theory

/-! ## Substitutions that a solution takes in -/

/-- The values of `σ` are the same under `θ` as the variables that they are put in for. -/
def Subst.Absorbed (σ : Subst) (θ : Var → Term) : Prop := ∀ x, (σ.value x).mapVars θ = θ x

namespace Subst

variable {σ : Subst} {P : Shape} {θ : Var → Term}

theorem Absorbed.empty : (∅ : Subst).Absorbed θ := fun _ => rfl

theorem Absorbed.apply (h : σ.Absorbed θ) (t : Term) : (σ.apply t).mapVars θ = t.mapVars θ := by
  rw [Subst.apply, Term.mapVars_mapVars]
  exact Term.mapVars_congr fun x _ => h x

theorem absorbed_single {x : Var} {t : Term} (h : θ x = t.mapVars θ) :
    (Subst.single x t).Absorbed θ := by
  intro y
  rw [Subst.value, Subst.single, SortedMap.get?_insert]
  split
  · rename_i hy
    rw [hy, h]
    rfl
  · rfl

section Bind

variable {T : Theory} {V : Var → Prop} {x : Var} {t : Term}

/-- A solution that has taken in a substitution takes in a binding that is true under it. -/
theorem Absorbed.bind (h : σ.Absorbed θ) (hσ : σ.Over (T.constructors V)) (hx : V x)
    (ht : t.Has (T.constructors V)) (hs : x.sort.admits t.sort = true)
    (he : θ x = t.mapVars θ) : (σ.bind T.normalize x t).Absorbed θ := by
  have ht' := hσ.apply ht
  have hsingle : (Subst.single x (σ.apply t)).Over (T.constructors V) :=
    .insert .empty hx ht' (hσ.within.sort_apply hs)
  have he' : θ x = (σ.apply t).mapVars θ := by rw [he, h.apply]
  intro y
  unfold Subst.bind
  rw [Theory.normalize_constructors ht', Subst.value, SortedMap.get?_insert]
  split
  · rename_i hy
    rw [hy, he']
    rfl
  · rw [SortedMap.get?_mapValues]
    have hy := h y
    rw [Subst.value] at hy
    cases hu : σ.get? y with
    | none => rfl
    | some u =>
      rw [hu] at hy
      rw [Option.map_some, Option.getD_some, ← hy, Option.getD_some]
      split
      · rw [Theory.normalize_constructors (hsingle.apply (hσ y u hu).2.1)]
        exact (absorbed_single he').apply u
      · rfl

end Bind

end Subst

/-! ## Equations between terms of constructors -/

/-- Both sides of all equations are the same under `θ`. -/
def Solves (θ : Var → Term) (eqs : List Equation) : Prop :=
  ∀ e ∈ eqs, e.1.mapVars θ = e.2.mapVars θ

theorem solves_zip_iff {θ : Var → Term} {as bs : List Term} (h : as.length = bs.length) :
    Solves θ (as.zip bs) ↔ as.map (Term.mapVars θ) = bs.map (Term.mapVars θ) := by
  induction as generalizing bs with
  | nil =>
    cases bs with
    | nil => simp [Solves]
    | cons => cases h
  | cons a as ih =>
    cases bs with
    | nil => cases h
    | cons b bs =>
      rw [List.map_cons, List.map_cons, List.cons.injEq, ← ih (Nat.succ.inj h)]
      exact List.forall_mem_cons

theorem Solves.zip {θ : Var → Term} {as bs : List Term}
    (h : as.map (Term.mapVars θ) = bs.map (Term.mapVars θ)) : Solves θ (as.zip bs) :=
  (solves_zip_iff (by simpa using congrArg List.length h)).2 h

/-- An equation with a solution that is not a binding is one between applications of one symbol. -/
theorem app_of_orient_eq_none {l r : Term} (h : orient l r = none) (hne : l ≠ r)
    {θ : Var → Term} (hθ : RespectsSorts θ)
    (he : l.mapVars θ = r.mapVars θ) : ∃ f as bs, l = .app f as ∧ r = .app f bs ∧
      as.length = bs.length ∧ as.map (Term.mapVars θ) = bs.map (Term.mapVars θ) := by
  -- A variable and a term that is none: sorts and the occurs check stand in no way.
  have binding : ∀ {x : Var} {t : Term}, t.isVar = false → θ x = t.mapVars θ →
      (x.sort.admits t.sort && !t.occurs x) = true := by
    intro x t ht he
    have hs : x.sort.admits t.sort = true := by
      have := hθ x
      rw [he] at this
      cases t with
      | var v => cases ht
      | name n => exact this
      | app f as => rw [Term.mapVars_app] at this; exact this
    refine Bool.and_eq_true_iff.2 ⟨hs, ?_⟩
    rw [Bool.not_eq_true', Bool.eq_false_iff]
    intro hocc
    have hocc := Term.occurs_iff.1 hocc
    cases t with
    | var v => cases ht
    | name n => cases hocc
    | app f as => exact Term.ne_of_mem_app hocc he
  cases l with
  | var x =>
    cases r with
    | var y =>
      have hx := hθ x
      change θ x = θ y at he
      rw [he] at hx
      unfold orient at h
      simp only at h
      split at h
      · split at h <;> cases h
      · rename_i hs
        rcases TermSort.admits_or hx (hθ y) with hxy | hyx
        · rw [if_pos hxy] at h
          cases h
        · rw [if_pos hyx] at h
          split at h <;> cases h
    | name n | app f as =>
      unfold orient at h
      simp only [binding rfl he, if_true] at h
      cases h
  | name n =>
    cases r with
    | var y =>
      unfold orient at h
      simp only [binding rfl he.symm, if_true] at h
      cases h
    | name k => exact absurd he hne
    | app f as => rw [Term.mapVars_app] at he; cases he
  | app f as =>
    cases r with
    | var y =>
      unfold orient at h
      simp only [binding rfl he.symm, if_true] at h
      cases h
    | name k => rw [Term.mapVars_app] at he; cases he
    | app g bs =>
      rw [Term.mapVars_app, Term.mapVars_app, Term.app.injEq] at he
      obtain ⟨rfl, he⟩ := he
      exact ⟨f, as, bs, rfl, rfl, by simpa using congrArg List.length he, he⟩

namespace Theory

variable {T : Theory} {V : Var → Prop} {l r : Term}

theorem narrow_of_isConstructor {f : Symbol} (hf : T.IsConstructor f) (as : List Term) (r : Term)
    (s : VarSupply) : (Free.narrow T.rules (.app f as) r).run s = ([], s) := by
  have hempty : rulesFor T.rules f = [] :=
    List.filter_eq_nil_iff.2 fun r hr => by simpa using hf.noRule r hr
  unfold Free.narrow
  simp only [hempty]
  split <;> rfl

theorem narrow_constructors (hl : l.Has (T.constructors V)) (s : VarSupply) :
    (Free.narrow T.rules l r).run s = ([], s) := by
  cases hl with
  | var => rfl
  | name => rfl
  | app hf => exact narrow_of_isConstructor hf _ _ _

/-- The arguments of applications of one symbol. -/
def argumentwise : Term → Term → List Alternative
  | .app f as, .app g bs => if f = g ∧ as.length = bs.length then [⟨as.zip bs, false⟩] else []
  | _, _ => []

theorem argumentwise_have {P : Shape} (hl : l.Has P) (hr : r.Has P) :
    AlternativesPlain P (argumentwise l r) := by
  intro a ha
  unfold argumentwise at ha
  split at ha
  · split at ha
    · rw [List.mem_singleton.1 ha]
      exact ⟨rfl, .zip (Term.has_app.1 hl).2 (Term.has_app.1 hr).2⟩
    · cases ha
  · cases ha

theorem solve_constructors (hl : l.Has (T.constructors V)) (hr : r.Has (T.constructors V))
    (s : VarSupply) : (T.solve l r).run s = (⟨argumentwise l r, true⟩, s) := by
  have free : ∀ {t : Term}, t.Has (T.constructors V) → t.head?.bind T.algebras.owner? = none := by
    intro t ht
    cases ht with
    | var => rfl
    | name => rfl
    | app hf => exact hf.free
  unfold solve
  rw [show T.solver? l r = none by rw [solver?, free hl, free hr]; rfl]
  simp only [Free.solve, StateT.run_bind, narrow_constructors hl, narrow_constructors hr]
  exact congrArg (fun as => ((⟨as, true⟩ : Solutions), s))
    ((List.append_nil _).trans (List.append_nil _))

/-- A problem that `θ` solves, with what it has bound taken in. -/
def Problem.Open (p : Problem) (θ : Var → Term) : Prop := p.subst.Absorbed θ ∧ Solves θ p.eqs

/-- A problem over variables `V` and constructors. -/
def Problem.Plain (p : Problem) (T : Theory) (V : Var → Prop) : Prop :=
  p.subst.Over (T.constructors V) ∧ EquationsHave (T.constructors V) p.eqs

/-- A step on a problem of constructors leaves problems of constructors, is complete, and goes on with
every solution. -/
theorem step_constructors {p : Problem} {e : Equation} {rest : List Equation}
    (acc : Theory.Progress) (hp : p.Plain T V) (he : p.eqs = e :: rest) :
    (p.step T e rest acc).2 = acc ∧ (∀ q ∈ (p.step T e rest acc).1, q.Plain T V) ∧
      ∀ θ, RespectsSorts θ → p.Open θ → ∃ q ∈ (p.step T e rest acc).1, q.Open θ := by
  obtain ⟨hσ, heqs⟩ := hp
  rw [he] at heqs
  obtain ⟨⟨h₁, h₂⟩, hrest⟩ := List.forall_mem_cons.1 heqs
  have hl := hσ.apply h₁
  have hr := hσ.apply h₂
  have side : ∀ {θ}, p.Open θ → (p.subst.apply e.1).mapVars θ = (p.subst.apply e.2).mapVars θ ∧
      Solves θ rest := by
    rintro θ ⟨ha, hs⟩
    rw [he] at hs
    obtain ⟨hs, hrest⟩ := List.forall_mem_cons.1 hs
    rw [ha.apply, ha.apply]
    exact ⟨hs, hrest⟩
  unfold Problem.step
  simp only [normalize_constructors hl, normalize_constructors hr]
  generalize p.subst.apply e.1 = l, p.subst.apply e.2 = r at hl hr side ⊢
  split
  · exact ⟨rfl, List.forall_mem_singleton.2 ⟨hσ, hrest⟩, fun θ _ h =>
      ⟨_, List.mem_singleton.2 rfl, h.1, (side h).2⟩⟩
  · rename_i hne
    cases ho : orient l r with
    | some b =>
      obtain ⟨x, t⟩ := b
      obtain ⟨hxt, hs⟩ := orient_eq_some ho
      have hx : V x ∧ t.Has (T.constructors V) := by
        rcases hxt with ⟨rfl, rfl⟩ | ⟨rfl, rfl⟩
        · exact ⟨Term.has_var.1 hl, hr⟩
        · exact ⟨Term.has_var.1 hr, hl⟩
      have hbind := hσ.bind (fun t ht => by rw [normalize_constructors ht]; exact ht) hx.1 hx.2 hs
      refine ⟨rfl, List.forall_mem_singleton.2 ⟨hbind, hrest⟩, fun θ _ h =>
        ⟨_, List.mem_singleton.2 rfl, h.1.bind hσ hx.1 hx.2 hs ?_, (side h).2⟩⟩
      rcases hxt with ⟨rfl, rfl⟩ | ⟨rfl, rfl⟩
      · exact (side h).1
      · exact (side h).1.symm
    | none =>
      have hsolve := solve_constructors hl hr acc.supply
      have hargs := argumentwise_have hl hr
      simp only [hsolve, Bool.and_true]
      refine ⟨?_, fun q hq => ?_, fun θ hθ h => ?_⟩
      · have hall : (argumentwise l r).all (fun a => !a.narrowed || p.narrowings < maxNarrowing) =
            true := List.all_eq_true.2 fun a ha => by simp [(hargs a ha).1]
        rw [hall, Bool.and_true]
      · obtain ⟨a, ha, rfl⟩ := List.mem_map.1 hq
        exact ⟨hσ, (hargs a (List.mem_filter.1 ha).1).2.append hrest⟩
      · obtain ⟨hlr, hrest⟩ := side h
        obtain ⟨f, as, bs, rfl, rfl, hlen, hmap⟩ := app_of_orient_eq_none ho hne hθ hlr
        have hmem : (⟨as.zip bs, false⟩ : Alternative) ∈ argumentwise (.app f as) (.app f bs) := by
          rw [argumentwise, if_pos ⟨rfl, hlen⟩]
          exact List.mem_singleton.2 rfl
        refine ⟨_, List.mem_map_of_mem (List.mem_filter.2 ⟨hmem, rfl⟩), h.1, ?_⟩
        exact fun e he => (List.mem_append.1 he).elim (Solves.zip hmap e) (hrest e)

/-- Working off problems of constructors draws nothing. If it is complete, no solution is lost. -/
theorem solveAll_constructors (n : Nat) {stack : List Problem} {acc : Theory.Progress}
    (hstack : ∀ p ∈ stack, p.Plain T V) (hacc : ∀ σ ∈ acc.found, σ.Over (T.constructors V)) :
    (T.solveAll n stack acc).supply = acc.supply ∧
      (∀ σ ∈ (T.solveAll n stack acc).found, σ.Over (T.constructors V)) ∧
      ((T.solveAll n stack acc).complete = true → ∀ θ, RespectsSorts θ →
        (∃ p ∈ stack, p.Open θ) ∨ (∃ σ ∈ acc.found, σ.Absorbed θ) →
          ∃ σ ∈ (T.solveAll n stack acc).found, σ.Absorbed θ) := by
  fun_induction solveAll T n stack acc with
  | case1 => exact ⟨rfl, hacc, fun _ θ _ h => h.resolve_left (by simp)⟩
  | case2 | case3 => exact ⟨rfl, hacc, fun h => absurd h (by simp)⟩
  | case4 n p stack acc _ _ hc ih =>
    obtain ⟨hs, hf, hcomplete⟩ := ih (List.forall_mem_cons.1 hstack).2 hacc
    refine ⟨hs, hf, fun h θ hθ ho => hcomplete h θ hθ ?_⟩
    rcases ho with ⟨q, hq, ho⟩ | ho
    · rcases List.mem_cons.1 hq with rfl | hq
      · exact .inr ⟨_, List.contains_iff_mem.1 hc, ho.1⟩
      · exact .inl ⟨q, hq, ho⟩
    · exact .inr ho
  | case5 n p stack acc _ _ _ ih =>
    -- A problem without equations is an answer.
    obtain ⟨hp, hrest⟩ := List.forall_mem_cons.1 hstack
    obtain ⟨hs, hf, hcomplete⟩ := ih hrest
      (List.forall_mem_append.2 ⟨hacc, List.forall_mem_singleton.2 hp.1⟩)
    refine ⟨hs, hf, fun h θ hθ ho => hcomplete h θ hθ ?_⟩
    rcases ho with ⟨q, hq, ho⟩ | ⟨σ, hσ, ho⟩
    · rcases List.mem_cons.1 hq with rfl | hq
      · exact .inr ⟨_, List.mem_append_right _ (List.mem_singleton.2 rfl), ho.1⟩
      · exact .inl ⟨q, hq, ho⟩
    · exact .inr ⟨σ, List.mem_append_left _ hσ, ho⟩
  | case6 n p stack acc _ e rest heqs problems acc' hstep ih =>
    obtain ⟨hp, hrest⟩ := List.forall_mem_cons.1 hstack
    obtain ⟨hacc', hplain, hopen⟩ := step_constructors acc hp heqs
    rw [hstep] at hacc' hplain hopen
    cases hacc'
    obtain ⟨hs, hf, hcomplete⟩ := ih (List.forall_mem_append.2 ⟨hplain, hrest⟩) hacc
    refine ⟨hs, hf, fun h θ hθ ho => hcomplete h θ hθ ?_⟩
    rcases ho with ⟨q, hq, ho⟩ | ho
    · rcases List.mem_cons.1 hq with rfl | hq
      · obtain ⟨q', hq', ho'⟩ := hopen θ hθ ho
        exact .inl ⟨q', List.mem_append_left _ hq', ho'⟩
      · exact .inl ⟨q, List.mem_append_right _ hq, ho⟩
    · exact .inr ho

/-- Unifying terms of constructors draws nothing, binds variables of the equations to terms over them,
and covers every solution if it is complete. -/
theorem unify_constructors {eqs : List Equation} (h : EquationsHave (T.constructors V) eqs)
    (s : VarSupply) :
    ((T.unify eqs ∅).run s).2 = s ∧
      (∀ σ ∈ ((T.unify eqs ∅).run s).1.substs, σ.Over (T.constructors V)) ∧
      (((T.unify eqs ∅).run s).1.complete = true → ∀ θ, RespectsSorts θ → Solves θ eqs →
        ∃ σ ∈ ((T.unify eqs ∅).run s).1.substs, σ.Absorbed θ) := by
  have hstart : ∀ p ∈ [(⟨∅, eqs, 0⟩ : Problem)], p.Plain T V :=
    List.forall_mem_singleton.2 ⟨.empty, h⟩
  obtain ⟨hs, hf, hcomplete⟩ :=
    @solveAll_constructors T V maxWork _ ⟨[], true, s⟩ hstart (by simp)
  have hrun : (T.unify eqs ∅).run s =
      (⟨(T.solveAll maxWork [⟨∅, eqs, 0⟩] ⟨[], true, s⟩).found.filter (T.solves · eqs),
        (T.solveAll maxWork [⟨∅, eqs, 0⟩] ⟨[], true, s⟩).complete &&
          ((T.solveAll maxWork [⟨∅, eqs, 0⟩] ⟨[], true, s⟩).found.filter (T.solves · eqs)).length ==
            (T.solveAll maxWork [⟨∅, eqs, 0⟩] ⟨[], true, s⟩).found.length⟩,
        (T.solveAll maxWork [⟨∅, eqs, 0⟩] ⟨[], true, s⟩).supply) := rfl
  rw [hrun]
  refine ⟨hs, fun σ hσ => hf σ (List.mem_filter.1 hσ).1, fun hc θ hθ hsolves => ?_⟩
  simp only [Bool.and_eq_true, beq_iff_eq] at hc
  obtain ⟨σ, hσ, ha⟩ := hcomplete hc.1 θ hθ
    (.inl ⟨_, List.mem_singleton.2 rfl, Subst.Absorbed.empty, hsolves⟩)
  have hall := List.length_filter_eq_length_iff.1 hc.2
  exact ⟨σ, List.mem_filter.2 ⟨hσ, hall σ hσ⟩, ha⟩

end Theory

end ProtocolProver
