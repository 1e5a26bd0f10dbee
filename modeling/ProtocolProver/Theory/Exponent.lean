import ProtocolProver.Theory.Equation

/-!
# Exponentiation with a group of exponents

Exponents form an abelian group under `mult`, with inverse `inv` and unit `one`. Products are kept
flat and sorted, without a factor next to its inverse, and a power of a power has the product of the
exponents.
-/

namespace ProtocolProver.Exponent

def owns (f : Symbol) : Bool := f == .exp || f == .mult || f == .inv || f == .one

/-- The factors of a product. Anything else is its own only factor. -/
def factors : Term → List Term
  | .app f as => if f = .mult then as else if f = .one then [] else [.app f as]
  | t => [t]

/-- The product of factors that are taken as they are. -/
def product : List Term → Term
  | [] => .const .one
  | [t] => t
  | ts => .app .mult (sortTerms ts)

mutual

/-- The inverse of a group element. -/
def inverse : Term → Term
  | .app f as =>
    if f = .inv then as.headD (.app f as)
    else if f = .one then .app f as
    else if f = .mult then product (inverseList as)
    else .app .inv [.app f as]
  | t => .app .inv [t]

def inverseList : List Term → List Term
  | [] => []
  | t :: ts => inverse t :: inverseList ts

end

/-- What a factor is a power of, and whether it is inverted. -/
def base : Term → Term × Bool
  | .app f as => if f = .inv then (as.headD (.app f as), true) else (.app f as, false)
  | t => (t, false)

/-- Drops each factor together with an inverse of it. -/
def cancel (ts : List Term) : List Term :=
  ts.foldl (fun kept t =>
    let inv := inverse t
    if kept.contains inv then kept.erase inv else kept ++ [t]) []

/-- The power of a normal base to a normal exponent. -/
def power (b e : Term) : Term :=
  if e = .const .one then b
  else
    match b with
    | .app f [b', e'] =>
      if f = .exp then
        let e'' := product (cancel (factors e' ++ factors e))
        if e'' = .const .one then b' else .app .exp [b', e'']
      else .app .exp [b, e]
    | _ => .app .exp [b, e]

def reduce (f : Symbol) (as : List Term) : Term :=
  if f = .mult then product (cancel (as.flatMap factors))
  else
    match as with
    | [a] => if f = .inv then inverse a else .app f [a]
    | [b, e] => if f = .exp then power b e else .app f [b, e]
    | as => .app f as

/-- The quotient `exp b₂ e₂ / e₁` of one exponentiation by the exponent of another. -/
def shifted (b e e' : Term) : Term := .app .exp [b, .app .mult [e, inverse e']]

/-- Continues `exp b e = t` where `t` is not an exponentiation. -/
def solvePower (b e t : Term) : Solutions where
  alternatives :=
    (if b.isMsgVar then [⟨[(b, .app .exp [t, inverse e])], false⟩] else [])
      ++ if e.isMsgVar then [⟨[(e, .const .one), (b, t)], false⟩] else []

/-- Continues `exp b₁ e₁ = exp b₂ e₂`. -/
def solvePowers (b₁ e₁ b₂ e₂ : Term) : Solutions where
  alternatives :=
    ⟨[(b₁, b₂), (e₁, e₂)], false⟩
      :: (if b₁.isMsgVar then [⟨[(b₁, shifted b₂ e₂ e₁)], false⟩] else [])
      ++ if b₂.isMsgVar then [⟨[(b₂, shifted b₁ e₁ e₂)], false⟩] else []
  complete := !(b₁.isVar && b₂.isVar)

/-- A message variable that occurs once takes up the rest of a product that has to be `one`. -/
def absorb? (rest : List Term) : Option (List Equation) :=
  (picks rest).findSome? fun (t, others) =>
    let (u, inverted) := base t
    match u with
    | .var v =>
      if v.sort = .msg ∧ !others.any (·.occurs v) then
        some [(u, if inverted then product others else inverse (product others))]
      else none
    | _ => none

/-- Continues `l = r` in the group of exponents, as `l * inv r = one`. -/
def solveProduct (l r : Term) : Solutions :=
  match cancel (factors l ++ (factors r).map inverse) with
  | [] => .one []
  | t :: ts =>
    match absorb? (t :: ts) with
    | some eqs => .one eqs
    | none =>
      let (first, inverted) := base t
      let pairs := (picks ts).filterMap fun (u, others) =>
        let (second, inverted') := base u
        if inverted = inverted' then none
        else
          let rest : List Equation :=
            if others.isEmpty then [] else [(product others, .const .one)]
          some (⟨(first, second) :: rest, false⟩ : Alternative)
      ⟨pairs, ts.length ≤ 1⟩

def solve (l r : Term) : Solutions :=
  match l, r with
  | .app f [b₁, e₁], .app g [b₂, e₂] =>
    if f = .exp ∧ g = .exp then solvePowers b₁ e₁ b₂ e₂
    else if f = .exp then solvePower b₁ e₁ r
    else if g = .exp then solvePower b₂ e₂ l
    else solveProduct l r
  | .app f [b, e], _ => if f = .exp then solvePower b e r else solveProduct l r
  | _, .app g [b, e] => if g = .exp then solvePower b e l else solveProduct l r
  | _, _ => solveProduct l r

/-- The largest number of factors of an exponent that is split in all ways. -/
def maxSplitFactors : Nat := 5

def decompose (f : Symbol) (as : List Term) : List (List Term) :=
  if f = .exp then
    match as with
    | [b, e] =>
      let fs := factors e
      let n := fs.length
      [b, e] ::
        if 1 < n ∧ n ≤ maxSplitFactors then
          (List.range (Nat.pow 2 n - 2)).map fun i =>
            let (kept, split) := splitByMask (i + 1) fs
            [.app .exp [b, product kept], product split]
        else []
    | as => [as]
  else if f = .mult then (bipartitions as).map fun (ts, us) => [product ts, product us]
  else if f = .inv then [as]
  else if f = .one then [[]]
  else []

/-- Whoever holds a power and one factor of the exponent gets the power without it, and an inverse
can be inverted. -/
def extract (f : Symbol) (as : List Term) : List Extraction :=
  match as with
  | [b, e] =>
    if f = .exp then
      (picks (factors e)).map fun (t, rest) => ⟨[], .app .exp [b, product rest], [t]⟩
    else []
  | [a] => if f = .inv then [⟨[], a, []⟩] else []
  | _ => []

end ProtocolProver.Exponent
