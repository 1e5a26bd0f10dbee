import ProtocolProver.Theory.Equation

/-!
# Matching and unification by structure

`matchTerm` extends a substitution so that a pattern becomes a given term. `mostGeneralUnifier`
solves one equation between terms up to sorts, with no theory in play. It ends because each binding
removes a variable from the equations that remain.
-/

namespace ProtocolProver

mutual

/-- Extends `σ` so that `pattern` becomes the term. On failure the substitution reached so far is
the error. -/
def matchTerm : (pattern : Term) → Term → Subst → Except Subst Subst
  | .var v, t, σ =>
    match σ.get? v with
    | some bound => if bound = t then .ok σ else .error σ
    | none => if v.sort.admits t.sort then .ok (σ.insert v t) else .error σ
  | .name m, t, σ => if t = .name m then .ok σ else .error σ
  | .app f ps, .app g ts, σ =>
    if f = g ∧ ps.length = ts.length then matchTerms ps ts σ else .error σ
  | .app .., _, σ => .error σ

/-- Matches patterns with terms one after the other, as far as both lists go. -/
def matchTerms : (patterns : List Term) → List Term → Subst → Except Subst Subst
  | p :: ps, t :: ts, σ =>
    match matchTerm p t σ with
    | .ok σ => matchTerms ps ts σ
    | .error σ => .error σ
  | _, _, σ => .ok σ

end

/-- The substitution that matching ends with, if it succeeds. -/
def matchTerms? (patterns ts : List Term) (σ : Subst) : Option Subst :=
  (matchTerms patterns ts σ).toOption

/-- What a list of equations comes down to before the first binding. -/
inductive Mismatch where
  | none
  | clash
  | binding (x : Var) (t : Term) (rest : List Equation)

/-- Takes equations apart, the last arguments first, up to the first that needs a binding or cannot
be solved. The number of equations looked at is bounded by the size of the left sides. -/
def firstMismatch : Nat → List Equation → Mismatch
  | _, [] => .none
  | 0, _ :: _ => .clash
  | n + 1, (l, r) :: rest =>
    if l = r then firstMismatch n rest
    else
      match orient l r with
      | some (x, t) => .binding x t rest
      | none =>
        match l, r with
        | .app f as, .app g bs =>
          if f = g ∧ as.length = bs.length then firstMismatch n ((as.zip bs).reverse ++ rest)
          else .clash
        | _, _ => .clash

def leftSize (eqs : List Equation) : Nat := Term.sizeList (eqs.map Prod.fst)

/-- Solves equations to which `σ` has been applied, with at most `n` bindings. -/
def solveEquations : Nat → List Equation → Subst → Option Subst
  | 0, eqs, σ =>
    match firstMismatch (leftSize eqs) eqs with
    | .none => some σ
    | _ => none
  | n + 1, eqs, σ =>
    match firstMismatch (leftSize eqs) eqs with
    | .none => some σ
    | .clash => none
    | .binding x t rest =>
      solveEquations n (rest.map (Subst.single x t).applyEquation) (σ.bind id x t)

/-- The most general substitution that makes two terms equal by structure. There are no more
bindings than variables. -/
def mostGeneralUnifier (l r : Term) : Option Subst :=
  solveEquations (l.vars.length + r.vars.length) [(l, r)] ∅

end ProtocolProver
