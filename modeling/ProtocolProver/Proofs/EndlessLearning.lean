import ProtocolProver.Proofs.SaturatedKnowledge
import ProtocolProver.Proofs.Termination

/-!
# Learning that does not end

Deconstruction is repeated until nothing new is learned, and a rule of a model can always find
something new. Under `f(g(h(x))) = x` and `h(g(g(y))) = y` every term has a normal form, but the
adversary who sees a name under some `g` takes out the same name under one `g` more: for `x` the
solver finds the coil that `h` unwinds to what is known (`Knowledge.coil_mem_deconstruct`). No
knowledge holds all coils, so another round always follows (`Knowledge.not_analyses_coil`).
-/

namespace ProtocolProver

/-! ## Steps of unification -/

namespace Theory

variable {T : Theory} {σ : Subst} {k : Nat} {l r l' r' : Term} {rest : List Equation}
  {s s' : VarSupply}

theorem solveAll_bind {x : Var} {t : Term} (hl : T.normalize (σ.apply l) = l')
    (hr : T.normalize (σ.apply r) = r') (hne : l' ≠ r') (horient : orient l' r' = some (x, t))
    (n : Nat) :
    T.solveAll (n + 1) [⟨σ, (l, r) :: rest, k⟩] ⟨[], true, s⟩ =
      T.solveAll n [⟨σ.bind T.normalize x t, rest, k⟩] ⟨[], true, s⟩ := by
  rw [solveAll, if_neg (by simp [maxUnifiers])]
  simp only [Problem.step, hl, hr, if_neg hne, horient, List.append_nil]

theorem solveAll_alternative {eqs : List Equation} {narrowed : Bool}
    (hl : T.normalize (σ.apply l) = l') (hr : T.normalize (σ.apply r) = r') (hne : l' ≠ r')
    (horient : orient l' r' = none)
    (hsolve : (T.solve l' r').run s = (⟨[⟨eqs, narrowed⟩], true⟩, s')) (hk : k < maxNarrowing)
    (n : Nat) :
    T.solveAll (n + 1) [⟨σ, (l, r) :: rest, k⟩] ⟨[], true, s⟩ =
      T.solveAll n [⟨σ, eqs ++ rest, k + narrowed.toNat⟩] ⟨[], true, s'⟩ := by
  rw [solveAll, if_neg (by simp [maxUnifiers])]
  simp [Problem.step, hl, hr, if_neg hne, horient, hsolve, hk]

end Theory

/-! ## Coils -/

def coilSignature : Signature :=
  ⟨Signature.builtin.symbols ++ [⟨"f", 1, .pub⟩, ⟨"g", 1, .pub⟩, ⟨"h", 1, .pub⟩]⟩

/-- One `g` more. -/
abbrev wind (t : Term) : Term := .app ⟨11⟩ [t]

/-- An application of `h`. -/
abbrev unwind (t : Term) : Term := .app ⟨12⟩ [t]

/-- The rule `f(g(h(x))) = x`. -/
def releaseRule : Reduction :=
  let x : Term := .var (.msg "x")
  ⟨"release", .app ⟨10⟩ [wind (unwind x)], x⟩

/-- The rule `h(g(g(y))) = y`. -/
def unwindRule : Reduction :=
  let y : Term := .var (.msg "y")
  ⟨"unwind", unwind (wind (wind y)), y⟩

def coilTheory : Theory :=
  ⟨coilSignature, {}, Reduction.projections ++ [releaseRule, unwindRule]⟩

/-- A name under a number of `g`. -/
def coil (a : Name) : Nat → Term
  | 0 => .name a
  | n + 1 => wind (coil a n)

theorem shrinking_coilTheory : coilTheory.Shrinking := by
  have hT : Theory.ofRules coilSignature [releaseRule, unwindRule] {} = .ok coilTheory := rfl
  refine Theory.shrinking_of_ofRules hT (fun r hr v => ?_) (by decide)
  have hsub : ∀ r ∈ [releaseRule, unwindRule], r.rhs.occurrences.Sublist r.lhs.occurrences := by
    decide
  exact (hsub r hr).count_le v

theorem isConstructor_wind : coilTheory.IsConstructor ⟨11⟩ := ⟨rfl, by decide⟩

section Coil

variable (a : Name)

theorem has_coil : ∀ n, (coil a n).Has (coilTheory.constructors fun _ => False)
  | 0 => .name trivial
  | n + 1 => .app isConstructor_wind (List.forall_mem_singleton.2 (has_coil n))

theorem size_coil : ∀ n, (coil a n).size = n + 1
  | 0 => rfl
  | n + 1 => by simp only [coil, Term.size, Term.sizeList, size_coil n]; omega

theorem isGround_coil : ∀ n, (coil a n).isGround = true
  | 0 => rfl
  | n + 1 => by simp [coil, Term.isGround, Term.isGroundList, isGround_coil n]

theorem normalize_coil (n : Nat) : coilTheory.normalize (coil a n) = coil a n :=
  Theory.normalize_constructors (has_coil a n)

theorem normalize_apply_coil (σ : Subst) (n : Nat) :
    coilTheory.normalize (σ.apply (coil a n)) = coil a n := by
  rw [Subst.apply, Term.mapVars_of_isGround (isGround_coil a n), normalize_coil]

theorem normalize_unwind (n : Nat) :
    coilTheory.normalize (unwind (coil a (n + 2))) = coil a n := by
  have h := normalize_coil a (n + 2)
  unfold Theory.normalize at h ⊢
  rw [Term.eval, Term.evalList, Term.evalList, h]
  rfl

theorem coil_ne_unwind (n : Nat) (t : Term) : coil a n ≠ unwind t := by
  cases n <;> simp [coil]

theorem var_ne_coil (y : Var) (n : Nat) : .var y ≠ coil a n := by
  cases n <;> simp [coil]

theorem orient_coil_unwind (n : Nat) (t : Term) : orient (coil a n) (unwind t) = none := by
  cases n <;> rfl

theorem orient_var_coil {y : Var} (hy : y.sort = .msg) (n : Nat) :
    orient (.var y) (coil a n) = some (y, coil a n) := by
  have hoccurs := Term.occurs_of_isGround (isGround_coil a n) y
  cases n <;> simp_all [orient, coil, TermSort.admits]

/-- An application of `h` to a variable is solved by narrowing alone: what it is applied to is wound
twice more. -/
theorem solve_unwind (n : Nat) (x : Var) (s : VarSupply) :
    let y : Term := .var ((Var.msg "y").reindex s.next)
    (coilTheory.solve (coil a n) (unwind (.var x))).run s =
      (⟨[⟨[(.var x, wind (wind y)), (y, coil a n)], true⟩], true⟩, ⟨s.next + 1⟩) := by
  have hnarrow : (Free.narrow coilTheory.rules (coil a n) (unwind (.var x))).run s = ([], s) :=
    Theory.narrow_constructors (has_coil a n) s
  have hsolve : coilTheory.solve (coil a n) (unwind (.var x)) =
      Free.solve coilTheory.rules (coil a n) (unwind (.var x)) := by
    cases n <;> rfl
  rw [hsolve]
  cases n with
  | zero => rfl
  | succ n =>
    rw [coil] at hnarrow ⊢
    simp only [Free.solve, StateT.run_bind, hnarrow]
    rfl

/-- The solution of `g(h(x))` for the coil `g^(n + 1)(a)`. -/
def windings (x y : Var) (n : Nat) : Subst :=
  ((∅ : Subst).bind coilTheory.normalize x (wind (wind (.var y)))).bind
    coilTheory.normalize y (coil a n)

theorem get?_wound (x y z : Var) :
    ((∅ : Subst).bind coilTheory.normalize x (wind (wind (.var y)))).get? z =
      if z = x then some (wind (wind (.var y))) else none := by
  have hwound : coilTheory.normalize ((∅ : Subst).apply (wind (wind (.var y)))) =
      wind (wind (.var y)) := rfl
  rw [Subst.get?_bind, hwound, SortedMap.get?_empty, Option.map_none]

theorem value_windings {x y : Var} (hxy : x ≠ y) (n : Nat) :
    (windings a x y n).value x = coil a (n + 2) := by
  have hy : (Subst.single y (coil a n)).value y = coil a n := by
    simp [Subst.value, Subst.single, SortedMap.get?_insert]
  have hoccurs : Term.occurs y (wind (wind (.var y))) = true := by
    simp [Term.occurs, Term.occursList]
  rw [Subst.value, windings, Subst.get?_bind, if_neg hxy, get?_wound, if_pos rfl,
    normalize_apply_coil]
  simp only [Option.map_some, hoccurs, if_true, Option.getD_some, Subst.apply, Term.mapVars,
    Term.mapVarsList, hy]
  exact normalize_coil a (n + 2)

theorem solves_windings {x y : Var} (hxy : x ≠ y) (n : Nat) :
    coilTheory.solves (windings a x y n)
      [(coil a (n + 1), wind (unwind (.var x)))] = true := by
  have hunwind : coilTheory.normalize ((windings a x y n).apply (wind (unwind (.var x)))) =
      coil a (n + 1) := by
    simp only [Subst.apply, Term.mapVars, Term.mapVarsList, value_windings a hxy]
    change coilTheory.reduce _ ⟨11⟩ [coilTheory.normalize (unwind (coil a (n + 2)))] = _
    rw [normalize_unwind, isConstructor_wind.reduce]
    rfl
  simp [Theory.solves, Theory.equal, normalize_apply_coil, hunwind]

/-- The solver goes down to `h(x)`, narrows it, and binds `x` and the variable of the rule. -/
theorem solveAll_coil {x : Var} (hsort : x.sort = .msg) (n : Nat) (s : VarSupply)
    (hxy : x ≠ (Var.msg "y").reindex s.next) :
    (coilTheory.solveAll Theory.maxWork
      [⟨∅, [(coil a (n + 1), wind (unwind (.var x)))], 0⟩] ⟨[], true, s⟩).found =
        [windings a x ((Var.msg "y").reindex s.next) n] := by
  let y : Var := (Var.msg "y").reindex s.next
  have hclosed : coilTheory.normalize ((∅ : Subst).apply (wind (unwind (.var x)))) =
      wind (unwind (.var x)) := rfl
  have hne : coil a (n + 1) ≠ wind (unwind (.var x)) := by simp [coil, coil_ne_unwind]
  have hsolve : (coilTheory.solve (wind (coil a n)) (wind (unwind (.var x)))).run s =
      (⟨[⟨[coil a n].zip [unwind (.var x)], false⟩], true⟩, s) :=
    Theory.solve_of_isConstructor isConstructor_wind (by rfl) s
  have hstuck : coilTheory.normalize ((∅ : Subst).apply (unwind (.var x))) =
      unwind (.var x) := rfl
  have hx : coilTheory.normalize ((∅ : Subst).apply (.var x)) = .var x := rfl
  have hwound : coilTheory.normalize ((∅ : Subst).apply (wind (wind (.var y)))) =
      wind (wind (.var y)) := rfl
  have horient : orient (.var x) (wind (wind (.var y))) =
      some (x, wind (wind (.var y))) := by
    have hyx : y ≠ x := hxy.symm
    simp [orient, hsort, hyx, Term.occurs, Term.occursList, TermSort.admits]
  have hy : coilTheory.normalize (Subst.apply
      ((∅ : Subst).bind coilTheory.normalize x (wind (wind (.var y)))) (.var y)) =
        .var y := by
    rw [Subst.apply, Term.mapVars, Subst.value, get?_wound, if_neg hxy.symm]
    rfl
  have hrun := calc
    coilTheory.solveAll Theory.maxWork
        [⟨∅, [(coil a (n + 1), wind (unwind (.var x)))], 0⟩] ⟨[], true, s⟩
      = coilTheory.solveAll 4095 [⟨∅, [(coil a n, unwind (.var x))], 0⟩] ⟨[], true, s⟩ :=
        Theory.solveAll_alternative (normalize_apply_coil a ∅ (n + 1)) hclosed hne rfl hsolve
          (Nat.succ_pos 2) 4095
    _ = coilTheory.solveAll 4094
        [⟨∅, [(.var x, wind (wind (.var y))), (.var y, coil a n)], 1⟩]
          ⟨[], true, ⟨s.next + 1⟩⟩ :=
        Theory.solveAll_alternative (normalize_apply_coil a ∅ n) hstuck (coil_ne_unwind a n _)
          (orient_coil_unwind a n _) (solve_unwind a n x s) (Nat.succ_pos 2) 4094
    _ = coilTheory.solveAll 4093
        [⟨(∅ : Subst).bind coilTheory.normalize x (wind (wind (.var y))),
          [(.var y, coil a n)], 1⟩] ⟨[], true, ⟨s.next + 1⟩⟩ :=
        Theory.solveAll_bind hx hwound Term.noConfusion horient 4093
    _ = coilTheory.solveAll 4092 [⟨windings a x y n, [], 1⟩] ⟨[], true, ⟨s.next + 1⟩⟩ :=
        Theory.solveAll_bind hy (normalize_apply_coil a _ n) (var_ne_coil a y n)
          (orient_var_coil a rfl n) 4092
    _ = ⟨[windings a x y n], true, ⟨s.next + 1⟩⟩ := rfl
  rw [hrun]

theorem windings_mem_unify {x : Var} (hsort : x.sort = .msg) (n : Nat) (s : VarSupply)
    (hxy : x ≠ (Var.msg "y").reindex s.next) :
    windings a x ((Var.msg "y").reindex s.next) n ∈
      ((coilTheory.unify [(coil a (n + 1), wind (unwind (.var x)))] ∅).run s).1.substs := by
  refine List.mem_filter.2 ⟨?_, solves_windings a hxy n⟩
  rw [solveAll_coil a hsort n s hxy]
  exact List.mem_singleton_self _

end Coil

/-! ## Rounds -/

section Fold

variable {α β : Type} {step : List β → α → StateM VarSupply (List β)} {b : β}
  (hkeep : ∀ (a : α) (bs : List β) (s : VarSupply), b ∈ bs → b ∈ ((step bs a).run s).1)

include hkeep

theorem mem_foldlM_of_mem : ∀ (as : List α) (bs : List β) (s : VarSupply), b ∈ bs →
    b ∈ ((as.foldlM step bs).run s).1
  | [], _, _, h => h
  | a :: as, bs, s, h => by
    rw [List.foldlM_cons]
    exact mem_foldlM_of_mem as _ _ (hkeep a bs s h)

theorem mem_foldlM_of_adds {a : α} (hadd : ∀ (bs : List β) (s : VarSupply),
    b ∈ ((step bs a).run s).1) {as : List α} (ha : a ∈ as) (bs : List β) (s : VarSupply) :
    b ∈ ((as.foldlM step bs).run s).1 := by
  obtain ⟨before, after, rfl⟩ := List.append_of_mem ha
  simp only [List.foldlM_append, List.foldlM_cons]
  exact mem_foldlM_of_mem hkeep after _ _ (hadd _ _)

end Fold

theorem opens_release : coilTheory.Opens releaseRule 0 ⟨10⟩ [wind (unwind (.var (.msg "x")))]
    ⟨11⟩ [unwind (.var (.msg "x"))] :=
  ⟨by decide, rfl, by decide, by decide, rfl⟩

namespace Knowledge

variable {K : Knowledge} {a : Name}

theorem mem_deconstruct_of_yields {T : Theory} {t u : Term} (ht : K.contains t = true)
    (hstep : ∀ s, ∃ e ∈ ((T.extract t).run s).1, ∀ (learned : List Term) (s : VarSupply),
      u ∈ ((K.yields T e learned).run s).1) (s : VarSupply) :
    u ∈ ((K.deconstruct T).run s).1 := by
  have hkeep : ∀ (e : Extraction) (learned : List Term) (s : VarSupply), u ∈ learned →
      u ∈ ((K.yields T e learned).run s).1 := fun _ _ _ h => (mem_yields _ _).2 (.inl h)
  refine mem_foldlM_of_adds (fun t learned s h => ?_) (fun learned s => ?_)
    (SortedSet.contains_iff_mem_toList.1 ht) [] s
  · exact mem_foldlM_of_mem hkeep ((T.extract t).run s).1 learned _ h
  obtain ⟨e, he, hadds⟩ := hstep s
  exact mem_foldlM_of_adds hkeep hadds he learned _

theorem coil_mem_yields (n : Nat) (hnew : K.contains (coil a (n + 2)) = false) (k : Nat)
    (learned : List Term) (s : VarSupply) :
    let x : Var := (Var.msg "x").reindex k
    coil a (n + 2) ∈ ((K.yields coilTheory
      ⟨[(coil a (n + 1), wind (unwind (.var x)))], .var x, []⟩ learned).run s).1 := by
  intro x
  have hxy : x ≠ (Var.msg "y").reindex s.next := by simp [x, Var.reindex, Var.msg]
  have hvalue := value_windings a hxy n
  refine (mem_yields learned s).2 (.inr ⟨_, windings_mem_unify a rfl n s hxy, ?_,
    isGround_coil a (n + 2), hnew, fun _ hside => absurd hside List.not_mem_nil⟩)
  rw [Subst.apply, Term.mapVars, hvalue, normalize_coil]

theorem coil_mem_deconstruct {n : Nat} (hknown : K.contains (coil a (n + 1)) = true)
    (hnew : K.contains (coil a (n + 2)) = false) (s : VarSupply) :
    coil a (n + 2) ∈ ((K.deconstruct coilTheory).run s).1 := by
  refine mem_deconstruct_of_yields hknown (fun s => ?_) s
  obtain ⟨-, -, hall⟩ := Theory.mem_extract isConstructor_wind.free [coil a n] s
  obtain ⟨k, -, -, hmem⟩ := hall _ _ _ _ _ opens_release
  exact ⟨_, hmem, coil_mem_yields n hnew k⟩

theorem exists_highest_coil {n : Nat} (h : K.contains (coil a (n + 1)) = true) :
    ∃ n, K.contains (coil a (n + 1)) = true ∧ K.contains (coil a (n + 2)) = false := by
  by_contra hnone
  have hall : ∀ i, K.contains (coil a (n + i + 1)) = true := by
    intro i
    induction i with
    | zero => exact h
    | succ i ih =>
      by_contra hnew
      exact hnone ⟨n + i, ih, Bool.eq_false_of_not_eq_true hnew⟩
  have hsize := Term.size_le_sizeList
    (SortedSet.contains_iff_mem_toList.1 (hall (Term.sizeList K.toList)))
  rw [size_coil] at hsize
  change _ ≤ Term.sizeList K.toList at hsize
  omega

/-- Deconstruction does not end if every round learns something, under a condition that learning
keeps. -/
theorem not_analyses_of_gains {T : Theory} {I : Knowledge → Prop}
    (hgains : ∀ K s, I K → ((K.deconstruct T).run s).1 ≠ [])
    (hkeep : ∀ (K : Knowledge) (us : List Term), I K → I (us.foldl insert K)) (h : I K)
    (s : VarSupply) (K' : Knowledge) : ¬K.Analyses T s K' := by
  intro hends
  induction hends with
  | @done K s _ nothing => exact hgains K s h (by rw [nothing])
  | more _ _ _ ih => exact ih (hkeep _ _ h)

theorem not_analyses_coil {n : Nat} (h : K.contains (coil a (n + 1)) = true) (s : VarSupply)
    (K' : Knowledge) : ¬K.Analyses coilTheory s K' := by
  refine not_analyses_of_gains (I := fun K => K.contains (coil a (n + 1)) = true)
    (fun K s h => ?_) (fun K us h => contains_foldl_insert.2 (.inr h)) h s K'
  obtain ⟨i, hknown, hnew⟩ := exists_highest_coil h
  exact List.ne_nil_of_mem (coil_mem_deconstruct hknown hnew s)

/-- An adversary who sees a coil for the first time never stops learning. -/
theorem not_learns_coil {n : Nat} (h : K.contains (coil a (n + 1)) = false) (K' : Knowledge) :
    ¬K.Learns coilTheory (coil a (n + 1)) K' := by
  intro hlearns
  have hnormal := normalize_coil a (n + 1)
  cases hlearns with
  | known known => simp [hnormal, h] at known
  | new _ ends =>
    rw [hnormal] at ends
    exact not_analyses_coil (a := a) (n := n) (by simp [contains_insert]) _ _ ends

end Knowledge

end ProtocolProver
