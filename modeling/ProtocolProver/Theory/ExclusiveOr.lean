import ProtocolProver.Theory.Equation

/-!
# Exclusive or

`xor` is associative and commutative, every term cancels itself, and `zero` is the unit. Sums are
kept flat and sorted, with each summand once.
-/

namespace ProtocolProver.ExclusiveOr

def owns (f : Symbol) : Bool := f == .xor || f == .zero

/-- The summands of a sum. Anything else is its own only summand. -/
def summands : Term → List Term
  | .app f as => if f = .xor then as else if f = .zero then [] else [.app f as]
  | t => [t]

/-- Drops equal terms in pairs. -/
def cancel (ts : List Term) : List Term :=
  ts.foldl (fun kept t => if kept.contains t then kept.erase t else kept ++ [t]) []

/-- The sum of terms that are taken as they are. -/
def sum (ts : List Term) : Term :=
  match cancel ts with
  | [] => .const .zero
  | [t] => t
  | kept => .app .xor (sortTerms kept)

/-- The normal form of a symbol applied to normal arguments. -/
def reduce (f : Symbol) (as : List Term) : Term :=
  if f = .xor then sum (as.flatMap summands) else .app f as

/-- A message variable that occurs once takes up the rest of a sum that has to be `zero`. -/
def absorb? (rest : List Term) : Option (List Equation) :=
  (picks rest).findSome? fun (t, others) =>
    match t with
    | .var v => if v.sort = .msg ∧ !others.any (·.occurs v) then some [(t, sum others)] else none
    | _ => none

/-- Continues `l = r`, where one side is headed by a symbol of this theory. -/
def solve (l r : Term) : Solutions :=
  match summands (sum (summands l ++ summands r)) with
  | [] => .one []
  | t :: ts =>
    match absorb? (t :: ts) with
    | some eqs => .one eqs
    | none =>
      match ts with
      | [] => .none
      | [u] => .one [(t, u)]
      | ts =>
        ⟨(picks ts).map fun (u, others) => ⟨[(t, u), (sum others, .const .zero)], false⟩, false⟩

/-- The ways to assemble a term from others by public operations. -/
def decompose (f : Symbol) (as : List Term) : List (List Term) :=
  if f = .zero then [[]] else (bipartitions as).map fun (ts, us) => [sum ts, sum us]

/-- Whoever holds a sum and the sum of the others gets a summand. -/
def extract (f : Symbol) (as : List Term) : List Extraction :=
  if f = .xor then (picks as).map fun (t, rest) => ⟨[], t, [sum rest]⟩ else []

end ProtocolProver.ExclusiveOr
