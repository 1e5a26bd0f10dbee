import ProtocolProver.Term.Subst

/-!
# Equations between terms

What the parts of a theory exchange while they solve equations: the ways an equation can be
continued (`Solutions`), the deconstruction steps open to the adversary (`Extraction`), and the
bindings that an equation with a variable on one side stands for (`orient`).
-/

namespace ProtocolProver

/-- A pair of terms to be made equal. -/
abbrev Equation : Type := Term × Term

def Subst.applyEquation (σ : Subst) (e : Equation) : Equation := (σ.apply e.1, σ.apply e.2)

/-- One way to go on with an equation: what remains to be solved. -/
structure Alternative where
  eqs : List Equation
  narrowed : Bool := false

/-- The ways to go on with an equation. Without `complete` there may be others. -/
structure Solutions where
  alternatives : List Alternative
  complete : Bool := true

namespace Solutions

/-- The equation has no solution. -/
def none : Solutions := ⟨[], true⟩

/-- The equation comes down to `eqs`. -/
def one (eqs : List Equation) : Solutions := ⟨[⟨eqs, false⟩], true⟩

end Solutions

/-- A deconstruction step: once `eqs` are solved, whoever knows every `side` term learns
`output`. -/
structure Extraction where
  eqs : List Equation
  output : Term
  side : List Term

/-- Reads an equation as a binding of a variable, if sorts and the occurs check allow it. Of two
variables of one sort the larger is bound. -/
def orient : Term → Term → Option (Var × Term)
  | .var x, .var y =>
    if x.sort = y.sort then
      if compare x y = .gt then some (x, .var y) else some (y, .var x)
    else if x.sort.admits y.sort then some (x, .var y)
    else if y.sort.admits x.sort then some (y, .var x)
    else none
  | .var x, t => if x.sort.admits t.sort && !t.occurs x then some (x, t) else none
  | t, .var x => if x.sort.admits t.sort && !t.occurs x then some (x, t) else none
  | _, _ => none

/-! ## Choosing from a list -/

/-- Every element of a list with the others, in order. -/
def picks {α : Type} : List α → List (α × List α)
  | [] => []
  | a :: as => (a, as) :: (picks as).map fun (b, bs) => (b, a :: bs)

/-- Splits a list by the binary digits of `mask`, the last digit for the first element: the elements
at ones and those at zeros. -/
def splitByMask {α : Type} : Nat → List α → List α × List α
  | _, [] => ([], [])
  | mask, a :: as =>
    let (ones, zeros) := splitByMask (mask / 2) as
    if mask % 2 = 1 then (a :: ones, zeros) else (ones, a :: zeros)

/-- The largest number of elements that is split in all ways. -/
def maxBipartition : Nat := 6

/-- The ways to split a list in two parts that are not empty, the first with the first element.
Lists of more than `maxBipartition` elements are not split. -/
def bipartitions {α : Type} : List α → List (List α × List α)
  | [] => []
  | a :: as =>
    if as.length < maxBipartition then
      (List.range (Nat.pow 2 as.length)).filterMap fun mask =>
        let (ones, zeros) := splitByMask mask as
        if zeros.isEmpty then none else some (a :: ones, zeros)
    else []

end ProtocolProver
