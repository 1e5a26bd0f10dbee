import ProtocolProver.Theory.Basic

/-!
# Unification modulo a theory

`Theory.unify` looks for the substitutions that make all equations of a list true modulo the theory.
It works on a stack of problems, at most `maxWork` of them, and stops after `maxUnifiers` answers;
destructors are solved by at most `maxNarrowing` narrowing steps on one way to an answer. When one
of these bounds is met, or a part of the theory does not know all its solutions, the answer is not
`complete`. Every answer is checked against the equations, so each is a unifier
(`Theory.solves_of_mem_unify`).
-/

namespace ProtocolProver

/-- The unifiers that were found. Without `complete` there may be others. -/
structure Unifiers where
  substs : List Subst
  complete : Bool

namespace Theory

/-- The most unifiers that one call gives. -/
def maxUnifiers : Nat := 64

/-- The most problems that one call looks at. -/
def maxWork : Nat := 4096

/-- The most narrowing steps on one way to a unifier. -/
def maxNarrowing : Nat := 3

/-- A partial solution with the equations that remain. -/
structure Problem where
  subst : Subst
  eqs : List Equation
  narrowings : Nat

/-- The answers so far and the state of the supply. -/
structure Progress where
  found : List Subst
  complete : Bool
  supply : VarSupply

/-- What becomes of a problem with at least one equation: it goes on as it is, with a binding, or
splits in alternatives. -/
def Problem.step (T : Theory) (p : Problem) (e : Equation) (rest : List Equation) (acc : Progress) :
    List Problem × Progress :=
  let l := T.normalize (p.subst.apply e.1)
  let r := T.normalize (p.subst.apply e.2)
  if l = r then ([{ p with eqs := rest }], acc)
  else
    match orient l r with
    | some (x, t) => ([{ p with subst := p.subst.bind T.normalize x t, eqs := rest }], acc)
    | none =>
      let (solutions, supply) := (T.solve l r).run acc.supply
      let allowed (a : Alternative) : Bool := !a.narrowed || p.narrowings < maxNarrowing
      let problems := (solutions.alternatives.filter allowed).map fun a =>
        { subst := p.subst, eqs := a.eqs ++ rest, narrowings := p.narrowings + a.narrowed.toNat }
      (problems, { acc with
        complete := acc.complete && solutions.complete && solutions.alternatives.all allowed
        supply := supply })

/-- Works on a stack of problems, at most `n` of them. -/
def solveAll (T : Theory) : Nat → List Problem → Progress → Progress
  | _, [], acc => acc
  | 0, _ :: _, acc => { acc with complete := false }
  | n + 1, p :: stack, acc =>
    if maxUnifiers ≤ acc.found.length then { acc with complete := false }
    else
      match p.eqs with
      | [] =>
        if acc.found.contains p.subst then T.solveAll n stack acc
        else T.solveAll n stack { acc with found := acc.found ++ [p.subst] }
      | e :: rest =>
        let (problems, acc) := p.step T e rest acc
        T.solveAll n (problems ++ stack) acc

/-- Whether a substitution makes every equation true. -/
def solves (T : Theory) (σ : Subst) (eqs : List Equation) : Bool :=
  eqs.all fun e => T.equal (σ.apply e.1) (σ.apply e.2)

/-- The unifiers of `eqs` that extend `base`. -/
def unify (T : Theory) (eqs : List Equation) (base : Subst) : StateM VarSupply Unifiers := do
  let acc := T.solveAll maxWork [⟨base, eqs, 0⟩] ⟨[], true, ← get⟩
  set acc.supply
  let substs := acc.found.filter (T.solves · eqs)
  return ⟨substs, acc.complete && substs.length == acc.found.length⟩

theorem solves_of_mem_unify {T : Theory} {eqs : List Equation} {base : Subst} {s : VarSupply}
    {σ : Subst} (h : σ ∈ ((T.unify eqs base).run s).1.substs) : T.solves σ eqs = true :=
  (List.mem_filter.1 h).2

end Theory

end ProtocolProver
