import ProtocolProver.Proofs.UnionEquations

/-!
# Complete unification

A step of unification hands an equation to the solver of an algebra, or takes it apart, if it is neither
true nor a binding. On an exact equation (`Theory.exact`) no solution is lost by that. So if a run of
unification claims to be complete and every equation that it has handed out (`Theory.handed`) is exact,
then every solution of the equations is an instance of a unifier (`Theory.exists_unifier`). Without
exponents and sums every equation is exact.
-/

namespace ProtocolProver

namespace Theory

/-- Whether a term in which a variable occurs can never be equal to it. -/
def loopExact (T : Theory) (x : Var) (t : Term) : Bool :=
  x.sort != .msg || !t.occurs x || T.traps x t

/-- Whether an equation that no algebra solves is solved without loss. -/
def freeExact (T : Theory) : Term → Term → Bool
  | .var x, .app f as => T.loopExact x (.app f as)
  | .app f as, .var x => T.loopExact x (.app f as)
  | _, _ => true

/-- Whether an equation between different normal terms is solved without loss, if it cannot be read as
a binding. -/
def exact (T : Theory) (l r : Term) : Bool :=
  match T.solver? l r with
  | some .exponents => Exponent.exact T l r
  | some .xor => ExclusiveOr.exact T l r
  | some .multisets => Multiset.exact T l r
  | none => T.freeExact l r

variable {T : Theory} {V : Var → Prop} {l r t : Term} {s : VarSupply} (hT : T.Standard)

/-! ## Solvers -/

theorem narrow_plain (ho : l.head?.bind T.algebras.owner? = none) (hl : l.Has (T.plainOver V)) :
    (Free.narrow T.rules l r).run s = ([], s) := by
  cases hl with
  | var | name => rfl
  | app hf => exact narrow_of_isConstructor (isConstructor_of_isDestructor ho hf.2) _ _ _

theorem solve_free (hs : T.solver? l r = none) (hpl : l.Has (T.plainOver V))
    (hpr : r.Has (T.plainOver V)) : (T.solve l r).run s = (⟨argumentwise l r, true⟩, s) := by
  obtain ⟨hl, hr⟩ := Option.or_eq_none_iff.1 hs
  unfold solve
  rw [hs]
  simp only [Free.solve, StateT.run_bind, narrow_plain hl hpl, narrow_plain hr hpr]
  exact congrArg (fun as => ((⟨as, true⟩ : Solutions), s))
    ((List.append_nil _).trans (List.append_nil _))

include hT

theorem have_solve (hpl : l.Has (T.plainOver (·.idx < s.next)))
    (hpr : r.Has (T.plainOver (·.idx < s.next))) :
    s.next ≤ ((T.solve l r).run s).2.next ∧
      ((T.solve l r).run s).1.Plain (T.plainOver (·.idx < ((T.solve l r).run s).2.next)) := by
  have hkeeps := hT.keeps_plainOver (·.idx < s.next)
  cases hs : T.solver? l r with
  | none =>
    rw [solve_free hs hpl hpr]
    exact ⟨le_rfl, argumentwise_have hpl hpr⟩
  | some a =>
    obtain ⟨f, hf⟩ := exists_owner?_of_solver? hs
    unfold solve
    rw [hs]
    cases a with
    | exponents => exact ⟨le_rfl,
        Closes.have_solve_exponents (hkeeps.exponents (Algebras.exponents_of_owner? hf)) hpl hpr⟩
    | xor => exact ⟨le_rfl, Closes.have_solve_xor (hkeeps.xor (Algebras.xor_of_owner? hf)) hpl hpr⟩
    | multisets => exact have_solve_union hT (Algebras.multisets_of_owner? hf) hpl hpr

namespace Instance

variable {ρ : T.Instance}

omit hT in
theorem Solves.zip : ∀ {as bs : List Term},
    as.map (fun a => (ρ.value a).1) = bs.map (fun b => (ρ.value b).1) → ρ.Solves (as.zip bs)
  | [], _, _ => by simp [Solves]
  | _ :: _, [], h => by cases h
  | a :: as, b :: bs, h => by
    rw [List.map_cons, List.map_cons, List.cons.injEq] at h
    rw [List.zip_cons_cons]
    exact List.forall_mem_cons.2 ⟨Subtype.ext h.1, Solves.zip h.2⟩

/-- A variable with the value of a free application can be bound to it, if the equation is exact. -/
theorem binds_of_term_eq {x : Var} {f : Symbol} {as : List Term} (hn : T.Normal (.app f as))
    (hp : (Term.app f as).Has (T.plainOver V)) (hf : T.algebras.owner? f = none)
    (hx : T.loopExact x (.app f as) = true) (heq : ρ.term x = ρ.value (.app f as)) :
    x.sort = .msg ∧ (Term.app f as).occurs x = false := by
  have hmsg : x.sort = .msg := by
    by_contra hmsg
    have hhead := head?_term (ρ := ρ) hmsg
    rw [heq, coe_value_constructor hT hp hf] at hhead
    cases hhead
  have htraps : T.traps x (.app f as) = false :=
    Bool.eq_false_iff.2 fun h => term_ne_value hT h hn hp heq
  simpa [loopExact, hmsg, htraps] using hx

/-- A solution of an exact equation that no algebra solves, and that is not a binding, is one of the
arguments. -/
theorem exists_argumentwise (hs : T.solver? l r = none) (hl : T.Normal l) (hr : T.Normal r)
    (hpl : l.Has (T.plainOver V)) (hpr : r.Has (T.plainOver V)) (hne : l ≠ r)
    (ho : orient l r = none) (hexact : T.freeExact l r = true) (heq : ρ.value l = ρ.value r) :
    ∃ a ∈ argumentwise l r, ρ.Solves a.eqs := by
  obtain ⟨hol, hor⟩ := Option.or_eq_none_iff.1 hs
  have hsort : ∀ {x : Var} {n : Name}, ρ.term x = ρ.value (.name n) →
      x.sort.admits (Term.name n).sort = true := by
    intro x n he
    have h := ρ.sort x
    rwa [he] at h
  cases l with
  | var x =>
    cases r with
    | var y =>
      have hx := ρ.sort x
      change ρ.term x = ρ.term y at heq
      rw [heq] at hx
      unfold orient at ho
      simp only at ho
      split_ifs at ho with h₁ h₂ h₃ h₄
      exact absurd (TermSort.admits_or hx (ρ.sort y)) (by simp [h₃, h₄])
    | name n => simp [orient, hsort heq, Term.occurs] at ho
    | app g bs =>
      obtain ⟨hx, hocc⟩ := binds_of_term_eq hT hr hpr hor hexact heq
      simp [orient, hx, hocc, TermSort.admits] at ho
  | name n =>
    cases r with
    | var y => simp [orient, hsort heq.symm, Term.occurs] at ho
    | name k => exact absurd (congrArg Subtype.val heq) hne
    | app g bs =>
      have h := congrArg Subtype.val heq
      rw [coe_value_constructor hT hpr hor] at h
      cases h
  | app f as =>
    cases r with
    | var y =>
      obtain ⟨hy, hocc⟩ := binds_of_term_eq hT hl hpl hol hexact heq.symm
      simp [orient, hy, hocc, TermSort.admits] at ho
    | name k =>
      have h := congrArg Subtype.val heq
      rw [coe_value_constructor hT hpl hol] at h
      cases h
    | app g bs =>
      have h := congrArg Subtype.val heq
      rw [coe_value_constructor hT hpl hol, coe_value_constructor hT hpr hor, Term.app.injEq] at h
      obtain ⟨rfl, h⟩ := h
      have hlen : as.length = bs.length := by simpa using congrArg List.length h
      rw [argumentwise, if_pos ⟨rfl, hlen⟩]
      exact ⟨_, List.mem_singleton.2 rfl, Solves.zip h⟩

/-- No solution of an exact equation is lost, if the solver claims to know all. -/
theorem exists_alternative (hl : T.Normal l) (hr : T.Normal r)
    (hpl : l.Has (T.plainOver (·.idx < s.next))) (hpr : r.Has (T.plainOver (·.idx < s.next)))
    (hne : l ≠ r) (ho : orient l r = none) (hexact : T.exact l r = true)
    (hc : ((T.solve l r).run s).1.complete = true) (heq : ρ.value l = ρ.value r) :
    ∃ a ∈ ((T.solve l r).run s).1.alternatives, ∃ τ : T.Instance,
      ρ.AgreesBelow τ s.next ∧ τ.Solves a.eqs := by
  unfold exact at hexact
  cases hs : T.solver? l r with
  | none =>
    rw [hs] at hexact
    obtain ⟨a, ha, hsolves⟩ := exists_argumentwise hT hs hl hr hpl hpr hne ho hexact heq
    rw [solve_free hs hpl hpr]
    exact ⟨a, ha, ρ, .refl, hsolves⟩
  | some a =>
    obtain ⟨f, hf⟩ := exists_owner?_of_solver? hs
    unfold solve at hc ⊢
    rw [hs] at hexact hc ⊢
    cases a with
    | exponents =>
      obtain ⟨a, ha, hsolves⟩ :=
        exists_alternative_exponents hT (Algebras.exponents_of_owner? hf) hl hr hpl hpr hexact hc heq
      exact ⟨a, ha, ρ, .refl, hsolves⟩
    | xor =>
      obtain ⟨a, ha, hsolves⟩ :=
        exists_alternative_xor hT (Algebras.xor_of_owner? hf) hl hr hpl hpr hexact hc heq
      exact ⟨a, ha, ρ, .refl, hsolves⟩
    | multisets =>
      exact exists_alternative_union hT (Algebras.multisets_of_owner? hf) hl hr hpl hpr hexact hc heq

end Instance

/-! ## Runs -/

/-- A problem over plain terms with indices below `k`. -/
def Problem.Below (p : Problem) (T : Theory) (k : Nat) : Prop :=
  p.subst.Inside (T.plainOver (·.idx < k)) ∧ EquationsHave (T.plainOver (·.idx < k)) p.eqs

/-- An instance that solves the equations and has absorbed what is bound. -/
def Instance.Opens (ρ : T.Instance) (p : Problem) : Prop := ρ.Absorbs p.subst ∧ ρ.Solves p.eqs

/-- The equation that a step hands to a solver. -/
def Problem.handed (T : Theory) (p : Problem) (e : Equation) : List Equation :=
  let l := T.normalize (p.subst.apply e.1)
  let r := T.normalize (p.subst.apply e.2)
  if l = r ∨ (orient l r).isSome then [] else [(l, r)]

/-- The equations that are handed to solvers while a stack of problems is worked off. -/
def handed (T : Theory) : Nat → List Problem → Progress → List Equation
  | _, [], _ => []
  | 0, _ :: _, _ => []
  | n + 1, p :: stack, acc =>
    if maxUnifiers ≤ acc.found.length then []
    else
      match p.eqs with
      | [] =>
        if acc.found.contains p.subst then T.handed n stack acc
        else T.handed n stack { acc with found := acc.found ++ [p.subst] }
      | e :: rest =>
        p.handed T e ++ T.handed n ((p.step T e rest acc).1 ++ stack) (p.step T e rest acc).2

omit hT in
theorem Instance.Opens.agree {ρ τ : T.Instance} {p : Problem} {k : Nat} (h : ρ.Opens p)
    (hp : p.Below T k) (hτ : ρ.AgreesBelow τ k) : τ.Opens p := by
  have old : ∀ {t : Term}, t.Has (T.plainOver (·.idx < k)) → τ.value t = ρ.value t := fun ht =>
    hτ.value fun x hx => ht.var_of_mem hx
  refine ⟨fun x => ?_, fun e he => ?_⟩
  · cases hx : p.subst.get? x with
    | none => rw [Subst.value_of_get?_eq_none hx, Instance.value_var]
    | some t =>
      obtain ⟨hlt, ht⟩ := hp.1 x t hx
      have hρ := h.1 x
      rw [Subst.value_of_get? hx] at hρ ⊢
      rw [old ht, hρ, hτ x hlt]
  · rw [old (hp.2 e he).1, old (hp.2 e he).2]
    exact h.2 e he

omit hT in
theorem Problem.Below.mono {p : Problem} {j k : Nat} (h : p.Below T j) (hjk : j ≤ k) :
    p.Below T k :=
  ⟨h.1.mono (fun _ hx => lt_of_lt_of_le hx hjk) (fun _ h => h) fun _ _ h => h,
    equationsHave_mono h.2 fun _ hx => lt_of_lt_of_le hx hjk⟩

omit hT in
theorem Problem.Below.flat {p : Problem} {k : Nat} (h : p.Below T k) : p.subst.Inside T.flatShape :=
  h.1.mono (fun _ _ => trivial) (fun _ h => h) fun _ _ h => h.1

theorem step_below {p : Problem} {e : Equation} {rest : List Equation} {acc : Progress}
    (hp : p.Below T acc.supply.next) (he : p.eqs = e :: rest) :
    acc.supply.next ≤ (p.step T e rest acc).2.supply.next ∧
      ∀ q ∈ (p.step T e rest acc).1, q.Below T (p.step T e rest acc).2.supply.next := by
  obtain ⟨hσ, heqs⟩ := hp
  rw [he] at heqs
  obtain ⟨⟨h₁, h₂⟩, hrest⟩ := List.forall_mem_cons.1 heqs
  have hkeeps := hT.keeps_plainOver (·.idx < acc.supply.next)
  have hl := hkeeps.has_normalize (hσ.apply h₁)
  have hr := hkeeps.has_normalize (hσ.apply h₂)
  unfold Problem.step
  simp only
  generalize T.normalize (p.subst.apply e.1) = l, T.normalize (p.subst.apply e.2) = r at hl hr ⊢
  split
  · exact ⟨le_rfl, List.forall_mem_singleton.2 ⟨hσ, hrest⟩⟩
  · cases ho : orient l r with
    | some b =>
      obtain ⟨x, t⟩ := b
      refine ⟨le_rfl, List.forall_mem_singleton.2 ⟨?_, hrest⟩⟩
      rcases (orient_eq_some ho).1 with ⟨rfl, rfl⟩ | ⟨rfl, rfl⟩
      · exact hσ.bind hkeeps (Term.has_var.1 hl) hr
      · exact hσ.bind hkeeps (Term.has_var.1 hr) hl
    | none =>
      obtain ⟨hle, heqs⟩ := have_solve hT hl hr
      refine ⟨hle, fun q hq => ?_⟩
      obtain ⟨a, ha, rfl⟩ := List.mem_map.1 hq
      have hold := Problem.Below.mono (p := ⟨p.subst, rest, 0⟩) ⟨hσ, hrest⟩ hle
      exact ⟨hold.1, (heqs a (List.mem_filter.1 ha).1).2.append hold.2⟩

omit hT in
theorem complete_of_step {p : Problem} {e : Equation} {rest : List Equation} {acc : Progress}
    (h : (p.step T e rest acc).2.complete = true) : acc.complete = true := by
  unfold Problem.step at h
  simp only at h
  split at h
  · exact h
  · split at h
    · exact h
    · exact (Bool.and_eq_true_iff.1 (Bool.and_eq_true_iff.1 h).1).1

/-- If a step claims to be complete and hands out an exact equation, every solution goes on. -/
theorem exists_open_step {ρ : T.Instance} {p : Problem} {e : Equation} {rest : List Equation}
    {acc : Progress} (hp : p.Below T acc.supply.next) (he : p.eqs = e :: rest)
    (hexact : ∀ e' ∈ p.handed T e, T.exact e'.1 e'.2 = true)
    (hc : (p.step T e rest acc).2.complete = true) (ho : ρ.Opens p) :
    ∃ q ∈ (p.step T e rest acc).1, ∃ τ : T.Instance,
      ρ.AgreesBelow τ acc.supply.next ∧ τ.Opens q := by
  obtain ⟨hσ, heqs⟩ := id hp
  obtain ⟨habsorbs, hsolves⟩ := ho
  rw [he] at heqs hsolves
  obtain ⟨⟨h₁, h₂⟩, hrest⟩ := List.forall_mem_cons.1 heqs
  obtain ⟨hsolves, hsolvesRest⟩ := List.forall_mem_cons.1 hsolves
  have hkeeps := hT.keeps_plainOver (·.idx < acc.supply.next)
  have hflat : ∀ {t : Term}, t.Has (T.plainOver (·.idx < acc.supply.next)) →
      T.Flat (p.subst.apply t) := fun ht => flat_of_plainOver (hσ.apply ht)
  have hl := hkeeps.has_normalize (hσ.apply h₁)
  have hr := hkeeps.has_normalize (hσ.apply h₂)
  have hnl := hT.normal_normalize (hflat h₁)
  have hnr := hT.normal_normalize (hflat h₂)
  have heq : ρ.value (T.normalize (p.subst.apply e.1)) =
      ρ.value (T.normalize (p.subst.apply e.2)) := by
    rw [Instance.value_normalize hT (hflat h₁), Instance.value_normalize hT (hflat h₂),
      habsorbs.apply, habsorbs.apply, hsolves]
  unfold Problem.handed at hexact
  unfold Problem.step at hc ⊢
  simp only at hexact hc ⊢
  generalize T.normalize (p.subst.apply e.1) = l, T.normalize (p.subst.apply e.2) = r at *
  split at hc
  · rename_i hlr
    rw [if_pos hlr]
    exact ⟨_, List.mem_singleton.2 rfl, ρ, .refl, habsorbs, hsolvesRest⟩
  · rename_i hlr
    rw [if_neg hlr]
    cases ho : orient l r with
    | some b =>
      obtain ⟨x, t⟩ := b
      refine ⟨_, List.mem_singleton.2 rfl, ρ, .refl, ?_, hsolvesRest⟩
      rcases (orient_eq_some ho).1 with ⟨rfl, rfl⟩ | ⟨rfl, rfl⟩
      · exact habsorbs.bind hT hp.flat (flat_of_plainOver hr) heq
      · exact habsorbs.bind hT hp.flat (flat_of_plainOver hl) heq.symm
    | none =>
      rw [ho] at hc hexact
      have hexact : T.exact l r = true := by
        simpa [hlr] using hexact
      have hsolver := (Bool.and_eq_true_iff.1 (Bool.and_eq_true_iff.1 hc).1).2
      obtain ⟨a, ha, τ, hτ, hsolved⟩ :=
        Instance.exists_alternative hT hnl hnr hl hr hlr ho hexact hsolver heq
      have hopens : τ.Opens ⟨p.subst, rest, 0⟩ :=
        Instance.Opens.agree ⟨habsorbs, hsolvesRest⟩ ⟨hσ, hrest⟩ hτ
      refine ⟨_, List.mem_map_of_mem (List.mem_filter.2 ⟨ha, ?_⟩), τ, hτ, hopens.1, ?_⟩
      · simp [((have_solve hT hl hr).2 a ha).1]
      · exact List.forall_mem_append.2 ⟨hsolved, hopens.2⟩

omit hT in
theorem mem_found_of_mem {σ : Subst} {n : Nat} {stack : List Problem} {acc : Progress}
    (h : σ ∈ acc.found) : σ ∈ (T.solveAll n stack acc).found := by
  fun_induction solveAll T n stack acc with
  | case1 | case2 | case3 => exact h
  | case4 _ _ _ _ _ _ _ ih => exact ih h
  | case5 _ _ _ _ _ _ _ ih => exact ih (List.mem_append_left _ h)
  | case6 n p stack acc _ e rest _ problems acc' hstep ih =>
    have hfound := problem_step_found (T := T) p e rest acc
    rw [hstep] at hfound
    exact ih (hfound ▸ h)

omit hT in
theorem complete_of_solveAll {n : Nat} {stack : List Problem} {acc : Progress}
    (h : (T.solveAll n stack acc).complete = true) : acc.complete = true := by
  fun_induction solveAll T n stack acc with
  | case1 => exact h
  | case2 | case3 => cases h
  | case4 _ _ _ _ _ _ _ ih => exact ih h
  | case5 _ _ _ _ _ _ _ ih => exact ih h
  | case6 n p stack acc _ e rest _ problems acc' hstep ih =>
    have hcomplete : (p.step T e rest acc).2.complete = true := by
      rw [hstep]
      exact ih h
    exact complete_of_step hcomplete

/-- If a run claims to be complete and every equation that it has handed out is exact, a solution of a
problem on the stack has absorbed one of the answers, with values for the variables drawn. -/
theorem exists_mem_found {ρ : T.Instance} {n : Nat} {stack : List Problem} {acc : Progress}
    (hstack : ∀ p ∈ stack, p.Below T acc.supply.next)
    (hexact : ∀ e ∈ T.handed n stack acc, T.exact e.1 e.2 = true)
    (hc : (T.solveAll n stack acc).complete = true) (ho : ∃ p ∈ stack, ρ.Opens p) :
    ∃ σ ∈ (T.solveAll n stack acc).found, σ.Inside T.flatShape ∧ ∃ τ : T.Instance,
      ρ.AgreesBelow τ acc.supply.next ∧ τ.Absorbs σ := by
  fun_induction solveAll T n stack acc generalizing ρ with
  | case1 =>
    obtain ⟨p, hp, -⟩ := ho
    cases hp
  | case2 | case3 => cases hc
  | case4 n p stack acc hlt heqs hfound ih =>
    simp only [handed, hlt, heqs, hfound, if_true, if_false] at hexact
    obtain ⟨q, hq, ho⟩ := ho
    rcases List.mem_cons.1 hq with rfl | hq
    · exact ⟨q.subst, mem_found_of_mem (List.contains_iff_mem.1 hfound), (hstack q hq).flat, ρ, .refl,
        ho.1⟩
    · exact ih (List.forall_mem_cons.1 hstack).2 hexact hc ⟨q, hq, ho⟩
  | case5 n p stack acc hlt heqs hfound ih =>
    simp only [handed, hlt, heqs, hfound, if_false] at hexact
    obtain ⟨q, hq, ho⟩ := ho
    rcases List.mem_cons.1 hq with rfl | hq
    · exact ⟨q.subst, mem_found_of_mem (by simp), (hstack q hq).flat, ρ, .refl, ho.1⟩
    · exact ih (List.forall_mem_cons.1 hstack).2 hexact hc ⟨q, hq, ho⟩
  | case6 n p stack acc hlt e rest heqs problems acc' hstep ih =>
    simp only [handed, hlt, heqs, hstep, if_false, List.forall_mem_append] at hexact
    obtain ⟨hp, hstack⟩ := List.forall_mem_cons.1 hstack
    obtain ⟨hle, hproblems⟩ := step_below hT hp heqs
    have hopen := fun hc => exists_open_step hT (ρ := ρ) hp heqs hexact.1 hc
    rw [hstep] at hle hproblems hopen
    have hbelow := List.forall_mem_append.2 ⟨hproblems, fun q hq => (hstack q hq).mono hle⟩
    obtain ⟨q, hq, ho⟩ := ho
    rcases List.mem_cons.1 hq with rfl | hq
    · obtain ⟨q', hq', τ, hτ, ho'⟩ := hopen (complete_of_solveAll hc) ho
      obtain ⟨σ, hσ, hflat, υ, hυ, habsorbs⟩ :=
        ih hbelow hexact.2 hc ⟨q', List.mem_append_left _ hq', ho'⟩
      exact ⟨σ, hσ, hflat, υ, hτ.trans hυ hle, habsorbs⟩
    · obtain ⟨σ, hσ, hflat, υ, hυ, habsorbs⟩ :=
        ih hbelow hexact.2 hc ⟨q, List.mem_append_right _ hq, ho⟩
      exact ⟨σ, hσ, hflat, υ, fun x hx => hυ x (hx.trans_le hle), habsorbs⟩

/-! ## Unifiers -/

omit hT in
theorem mem_substs_of_complete {eqs : List Equation} {base : Subst}
    (h : ((T.unify eqs base).run s).1.complete = true) :
    (T.solveAll maxWork [⟨base, eqs, 0⟩] ⟨[], true, s⟩).complete = true ∧
      ∀ σ ∈ (T.solveAll maxWork [⟨base, eqs, 0⟩] ⟨[], true, s⟩).found,
        σ ∈ ((T.unify eqs base).run s).1.substs := by
  obtain ⟨hc, hlen⟩ := Bool.and_eq_true_iff.1 h
  have hall := List.length_filter_eq_length_iff.1 (eq_of_beq hlen)
  exact ⟨hc, fun σ hσ => List.mem_filter.2 ⟨hσ, hall σ hσ⟩⟩

/-- The instance by the normal forms of terms. -/
def Instance.ofTerms {θ : Var → Term} (hθ : RespectsSorts θ) (hflat : ∀ x, T.Flat (θ x)) :
    T.Instance where
  term x := ⟨T.normalize (θ x), hT.normal_normalize (hflat x)⟩
  sort x := sort_normalize (hθ x)

theorem Instance.coe_value_ofTerms {θ : Var → Term} {hθ : RespectsSorts θ}
    {hflat : ∀ x, T.Flat (θ x)} (ht : T.Flat t) :
    ((Instance.ofTerms hT hθ hflat).value t).1 = T.normalize (t.mapVars θ) := by
  rw [Instance.coe_value hT ht, normalize, Term.eval_mapVars]
  rfl

/-- The equations that unification hands to solvers. -/
def handedBy (T : Theory) (eqs : List Equation) (base : Subst) (s : VarSupply) : List Equation :=
  T.handed maxWork [⟨base, eqs, 0⟩] ⟨[], true, s⟩

/-- Terms of the right sorts that make all equations true and agree with a substitution, modulo the
theory. -/
structure Solution (T : Theory) (eqs : List Equation) (base : Subst) (θ : Var → Term) : Prop where
  sorts : RespectsSorts θ
  flat (x : Var) : T.Flat (θ x)
  solves : ∀ e ∈ eqs, T.normalize (e.1.mapVars θ) = T.normalize (e.2.mapVars θ)
  agrees (x : Var) (t : Term) : base.get? x = some t → T.normalize (t.mapVars θ) = T.normalize (θ x)

omit hT in
theorem Solution.ofSubst {eqs : List Equation} {base θ : Subst}
    (hvalues : ∀ b ∈ θ.entries, T.Flat b.2 ∧ b.1.sort.admits b.2.sort = true)
    (hsolves : ∀ e ∈ eqs, T.normalize (θ.apply e.1) = T.normalize (θ.apply e.2))
    (hagrees : ∀ b ∈ base.entries, T.normalize (θ.apply b.2) = T.normalize (θ.value b.1)) :
    T.Solution eqs base θ.value := by
  have hwithin : θ.Within T.flatShape := fun x t ht =>
    hvalues (x, t) (SortedMap.get?_eq_some_iff.1 ht)
  exact ⟨hwithin.sort_value, fun x => hwithin.value_of_var trivial, hsolves, fun x t ht =>
    hagrees (x, t) (SortedMap.get?_eq_some_iff.1 ht)⟩

omit hT in
theorem Instance.exists_subst (hT : T.Standard) (τ : T.Instance) (ts : List Term)
    (hts : ∀ t ∈ ts, T.Flat t) :
    ∃ δ : Subst, ∀ t ∈ ts, T.normalize (δ.apply t) = (τ.value t).1 := by
  let ys := ts.flatMap Term.occurrences
  refine ⟨SortedMap.ofList (ys.map fun y => (y, (τ.term y).1)), fun t ht => ?_⟩
  rw [Instance.coe_value hT (hts t ht), normalize, Subst.apply, Term.eval_mapVars]
  refine Term.eval_congr fun y hy => ?_
  have hmem : y ∈ ys := List.mem_flatMap.2 ⟨t, ht, hy⟩
  have hget := SortedMap.get?_ofList_map (fun y => (τ.term y).1) ys y
  rw [if_pos hmem] at hget
  rw [Subst.value_of_get? hget]
  exact (τ.term y).2.normalize

/-- If unification claims to be complete and every equation that it hands out is exact, then every
solution is an instance of a unifier. -/
theorem exists_unifier {eqs : List Equation} {base : Subst} {θ : Var → Term}
    (heqs : EquationsHave (T.plainOver (·.idx < s.next)) eqs)
    (hbase : base.Inside (T.plainOver (·.idx < s.next)))
    (hexact : ∀ e ∈ T.handedBy eqs base s, T.exact e.1 e.2 = true)
    (hc : ((T.unify eqs base).run s).1.complete = true) (hθ : T.Solution eqs base θ)
    {xs : List Var} (hxs : ∀ x ∈ xs, x.idx < s.next) :
    ∃ σ ∈ ((T.unify eqs base).run s).1.substs, ∃ δ : Subst,
      ∀ x ∈ xs, T.normalize (θ x) = T.normalize (δ.apply (σ.value x)) := by
  obtain ⟨hrun, hsubsts⟩ := mem_substs_of_complete hc
  let ρ := Instance.ofTerms hT hθ.sorts hθ.flat
  have hbelow : Problem.Below ⟨base, eqs, 0⟩ T s.next := ⟨hbase, heqs⟩
  have hopens : ρ.Opens ⟨base, eqs, 0⟩ := by
    refine ⟨fun x => Subtype.ext ?_, fun e he => Subtype.ext ?_⟩
    · rw [Instance.coe_value_ofTerms hT (hbelow.flat.value trivial)]
      cases hx : base.get? x with
      | none => rw [Subst.value_of_get?_eq_none hx]; rfl
      | some t => rw [Subst.value_of_get? hx]; exact hθ.agrees x t hx
    · rw [Instance.coe_value_ofTerms hT (flat_of_plainOver (heqs e he).1),
        Instance.coe_value_ofTerms hT (flat_of_plainOver (heqs e he).2)]
      exact hθ.solves e he
  obtain ⟨σ, hσ, hflat, τ, hτ, habsorbs⟩ := exists_mem_found hT (ρ := ρ)
    (List.forall_mem_singleton.2 hbelow) hexact hrun ⟨_, List.mem_singleton.2 rfl, hopens⟩
  obtain ⟨δ, hδ⟩ := Instance.exists_subst hT τ (xs.map σ.value)
    (List.forall_mem_map.2 fun x _ => hflat.value trivial)
  refine ⟨σ, hsubsts σ hσ, δ, fun x hx => ?_⟩
  calc T.normalize (θ x) = (τ.term x).1 := congrArg Subtype.val (hτ x (hxs x hx))
    _ = (τ.value (σ.value x)).1 := by rw [habsorbs x]
    _ = T.normalize (δ.apply (σ.value x)) := (hδ _ (List.mem_map_of_mem hx)).symm

/-! ## Theories without exponents and sums -/

omit hT

section Free

variable (he : T.algebras.exponents = false) (hx : T.algebras.xor = false)

include he hx

theorem owner?_eq_none_or (f : Symbol) :
    T.algebras.owner? f = none ∨ T.algebras.owner? f = some .multisets ∧ f = .union := by
  rcases T.algebras.owner?_cases f with ⟨-, h, -⟩ | ⟨-, h, -⟩ | ⟨ho, hm⟩ | ho
  · simp [he] at h
  · simp [hx] at h
  · exact .inr ⟨ho, hm.2⟩
  · exact .inl ho

theorem firm_app_of_free (f : Symbol) (as : List Term) : T.firm (.app f as) = true := by
  rcases owner?_eq_none_or he hx f with ho | ⟨-, rfl⟩
  · simp [firm, isAlgebraic, ho]
  · simp [firm]

theorem traps_eq_occurs (x : Var) (t : Term) : T.traps x t = t.occurs x := by
  induction t using Term.induction_args with
  | var y => rfl
  | name n => rfl
  | app f as ih =>
    rw [traps, firm_app_of_free he hx, Bool.true_and, trapsList_eq, Term.occurs, Term.occursList_eq]
    rw [Bool.eq_iff_iff, List.any_eq_true, List.any_eq_true]
    exact exists_congr fun a => and_congr_right fun ha => by rw [ih a ha]

/-- Every equation of free symbols and unions is exact. -/
theorem exact_of_free (l r : Term) : T.exact l r = true := by
  unfold exact
  cases hs : T.solver? l r with
  | none =>
    have hloop : ∀ (x : Var) (t : Term), T.loopExact x t = true := by
      intro x t
      rw [loopExact, traps_eq_occurs he hx]
      cases t.occurs x <;> simp
    simp only
    unfold freeExact
    split
    · exact hloop ..
    · exact hloop ..
    · rfl
  | some a =>
    obtain ⟨f, hf⟩ := exists_owner?_of_solver? hs
    rcases owner?_eq_none_or he hx f with ho | ⟨ho, -⟩
    · rw [ho] at hf
      cases hf
    · rw [ho] at hf
      cases hf
      have hpart : ∀ t : Term, (t.isMsgVar || T.firm t) = true := by
        intro t
        cases t with
        | var x => cases hs : x.sort <;> simp [Term.isMsgVar, firm, hs]
        | name n => rfl
        | app f as => exact Bool.or_eq_true_iff.2 (.inr (firm_app_of_free he hx f as))
      simp [Multiset.exact, List.all_eq_true, hpart]

end Free

end Theory

/-- The variables of equations and of a substitution. -/
def mentioned (eqs : List Equation) (base : Subst) : List Var :=
  eqs.flatMap (fun e => e.1.occurrences ++ e.2.occurrences) ++
    base.entries.flatMap fun b => b.1 :: b.2.occurrences

theorem idx_of_mem_mentioned {T : Theory} {eqs : List Equation} {base : Subst} {k : Nat}
    (heqs : EquationsHave (T.plainOver (·.idx < k)) eqs) (hbase : base.Inside (T.plainOver (·.idx < k)))
    {x : Var} (hx : x ∈ mentioned eqs base) : x.idx < k := by
  rcases List.mem_append.1 hx with hx | hx
  · obtain ⟨e, he, hx⟩ := List.mem_flatMap.1 hx
    rcases List.mem_append.1 hx with hx | hx
    · exact (heqs e he).1.var_of_mem hx
    · exact (heqs e he).2.var_of_mem hx
  · obtain ⟨⟨y, t⟩, hb, hx⟩ := List.mem_flatMap.1 hx
    obtain ⟨hy, ht⟩ := hbase y t (SortedMap.get?_eq_some_iff.2 hb)
    rcases List.mem_cons.1 hx with rfl | hx
    · exact hy
    · exact ht.var_of_mem hx

/-- In every theory that is assembled from packs and free functions without exponents and sums, for
equations and a base of terms without destructors and a supply beyond their indices: if unification
claims to be complete, every solution is an instance of a unifier. All terms, those of the solution
included, respect the arities, as compilation checks. -/
theorem unifiers_cover_solutions {pack : Pack} {sig : Signature} {T : Theory}
    (hp : Assembled pack sig) (hT : Theory.ofRules sig pack.equations pack.algebras = .ok T)
    (he : T.algebras.exponents = false) (hx : T.algebras.xor = false) {eqs : List Equation}
    {base : Subst} {s : VarSupply} (heqs : EquationsHave (T.plainOver (·.idx < s.next)) eqs)
    (hbase : base.Inside (T.plainOver (·.idx < s.next)))
    (hc : ((T.unify eqs base).run s).1.complete = true) {θ : Var → Term}
    (hθ : T.Solution eqs base θ) :
    ∃ σ ∈ ((T.unify eqs base).run s).1.substs, ∃ δ : Subst, ∀ x ∈ mentioned eqs base,
      T.normalize (θ x) = T.normalize (δ.apply (σ.value x)) :=
  Theory.exists_unifier (hp.ofPacks hT).standard heqs hbase
    (fun e _ => Theory.exact_of_free he hx e.1 e.2) hc hθ fun _ hx => idx_of_mem_mentioned heqs hbase hx

/-- Only unions. -/
def unionPack : Pack where
  algebras := ⟨false, false, true⟩

def unionTheory : Theory := ⟨Signature.builtin, ⟨false, false, true⟩, Reduction.projections⟩

theorem assembled_union : Assembled unionPack Signature.builtin :=
  @Assembled.load _ _ _ _ "multiset" .builtin rfl

/-- Two variables share three elements, and one of them stands in a pair of the base. -/
theorem unifiers_cover_solutions_union :
    let x : Term := .var (.msg "x")
    let y : Term := .var (.msg "y")
    let w : Term := .var (.msg "w")
    let a : Term := .pubName "a"
    let b : Term := .pubName "b"
    let c : Term := .pubName "c"
    let eqs : List Equation :=
      [(.app .union [x, y], .app .union [a, b, c]), (.var (.msg "z"), .app .pair [w, b])]
    let base : Subst := Subst.single (.msg "z") (.app .pair [x, b])
    let θ : Subst := SortedMap.ofList [(.msg "x", .app .union [b, c]), (.msg "y", a),
      (.msg "z", .app .pair [.app .union [b, c], b]), (.msg "w", .app .union [c, b])]
    let unifiers := ((unionTheory.unify eqs base).run ⟨1⟩).1
    unifiers.complete = true ∧ unionTheory.Solution eqs base θ.value ∧
      ∃ σ ∈ unifiers.substs, ∃ δ : Subst, ∀ x ∈ mentioned eqs base,
        unionTheory.normalize (θ.value x) = unionTheory.normalize (δ.apply (σ.value x)) := by
  intro x y w a b c eqs base θ unifiers
  have heqs : ∀ e ∈ eqs, e.1.Has (unionTheory.plainOver (·.idx < 1)) ∧
      e.2.Has (unionTheory.plainOver (·.idx < 1)) := by decide
  have hentries : ∀ b ∈ base.entries, b.1.idx < 1 ∧ b.2.Has (unionTheory.plainOver (·.idx < 1)) := by
    decide
  have hbase : base.Inside (unionTheory.plainOver (·.idx < 1)) := fun v t ht =>
    hentries (v, t) (SortedMap.get?_eq_some_iff.1 ht)
  have hc : unifiers.complete = true := by decide +kernel
  have hθ : unionTheory.Solution eqs base θ.value :=
    .ofSubst (by decide) (by decide +kernel) (by decide +kernel)
  exact ⟨hc, hθ, unifiers_cover_solutions (s := ⟨1⟩) assembled_union rfl rfl rfl heqs hbase hc hθ⟩

/-- In every theory that is assembled from packs and free functions, with exponents and sums or
without: if unification of terms without destructors claims to be complete and every equation that it
hands to a solver is exact, then every solution is an instance of a unifier. -/
theorem exact_unifiers_cover_solutions {pack : Pack} {sig : Signature} {T : Theory}
    (hp : Assembled pack sig) (hT : Theory.ofRules sig pack.equations pack.algebras = .ok T)
    {eqs : List Equation} {s : VarSupply} (heqs : EquationsHave (T.plainOver (·.idx < s.next)) eqs)
    (hexact : ∀ e ∈ T.handedBy eqs ∅ s, T.exact e.1 e.2 = true)
    (hc : ((T.unify eqs ∅).run s).1.complete = true) {θ : Var → Term}
    (hθ : T.Solution eqs ∅ θ) :
    ∃ σ ∈ ((T.unify eqs ∅).run s).1.substs, ∃ δ : Subst, ∀ x ∈ mentioned eqs ∅,
      T.normalize (θ x) = T.normalize (δ.apply (σ.value x)) :=
  Theory.exists_unifier (hp.ofPacks hT).standard heqs .empty hexact hc hθ fun _ hx =>
    idx_of_mem_mentioned heqs .empty hx

/-- A power and a sum with variables in common. -/
theorem exact_unifiers_cover_solutions_mixed :
    let x : Term := .var (.msg "x")
    let y : Term := .var (.msg "y")
    let g : Term := .pubName "g"
    let a : Term := .pubName "a"
    let b : Term := .pubName "b"
    let eqs : List Equation := [(.app .exp [x, y], .app .exp [g, .app .mult [a, b]]),
      (.app .xor [y, .var (.msg "z")], .app .xor [a, x])]
    let θ : Subst := SortedMap.ofList [(.msg "x", .app .exp [g, b]), (.msg "y", a),
      (.msg "z", .app .exp [g, b])]
    let unifiers := ((mixedTheory.unify eqs ∅).run ⟨1⟩).1
    unifiers.complete = true ∧ mixedTheory.Solution eqs ∅ θ.value ∧
      ∃ σ ∈ unifiers.substs, ∃ δ : Subst, ∀ x ∈ mentioned eqs ∅,
        mixedTheory.normalize (θ.value x) = mixedTheory.normalize (δ.apply (σ.value x)) := by
  intro x y g a b eqs θ unifiers
  have heqs : ∀ e ∈ eqs, e.1.Has (mixedTheory.plainOver (·.idx < 1)) ∧
      e.2.Has (mixedTheory.plainOver (·.idx < 1)) := by decide
  have hc : unifiers.complete = true := by decide +kernel
  have hθ : mixedTheory.Solution eqs ∅ θ.value :=
    .ofSubst (by decide) (by decide +kernel) (List.forall_mem_nil _)
  have hexact : ∀ e ∈ mixedTheory.handedBy eqs ∅ ⟨1⟩, mixedTheory.exact e.1 e.2 = true := by
    decide +kernel
  exact ⟨hc, hθ, exact_unifiers_cover_solutions (s := ⟨1⟩) assembled_mixed rfl heqs hexact hc hθ⟩

/-- A square that is `one`, and a variable that a sum could cancel: unification claims that there is
nothing else, but finds no unifier at all. -/
theorem complete_without_unifier :
    let x : Term := .var (.msg "x")
    let a : Term := .pubName "a"
    let b : Term := .pubName "b"
    let square : List Equation := [(.app .mult [x, x], .const .one)]
    let one : Subst := Subst.single (.msg "x") (.const .one)
    let loop : List Equation := [(x, .app .pair [.app .xor [x, .var (.msg "y")], a])]
    let cancel : Subst := SortedMap.ofList [(.msg "x", .app .pair [b, a]),
      (.msg "y", .app .xor [.app .pair [b, a], b])]
    ∀ p ∈ [(square, one), (loop, cancel)],
      EquationsHave (mixedTheory.plainOver (·.idx < 1)) p.1 ∧
      mixedTheory.Solution p.1 ∅ p.2.value ∧
      ((mixedTheory.unify p.1 ∅).run ⟨1⟩).1.complete = true ∧
      ((mixedTheory.unify p.1 ∅).run ⟨1⟩).1.substs = [] := by
  intro x a b square one loop cancel
  have hsquare : ∀ e ∈ square, e.1.Has (mixedTheory.plainOver (·.idx < 1)) ∧
      e.2.Has (mixedTheory.plainOver (·.idx < 1)) := by decide
  have hloop : ∀ e ∈ loop, e.1.Has (mixedTheory.plainOver (·.idx < 1)) ∧
      e.2.Has (mixedTheory.plainOver (·.idx < 1)) := by decide
  refine List.forall_mem_cons.2 ⟨⟨hsquare, .ofSubst (by decide) (by decide +kernel)
    (List.forall_mem_nil _), by decide +kernel, by decide +kernel⟩, List.forall_mem_singleton.2
    ⟨hloop, .ofSubst (by decide) (by decide +kernel) (List.forall_mem_nil _), by decide +kernel,
      by decide +kernel⟩⟩

end ProtocolProver
