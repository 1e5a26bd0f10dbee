import ProtocolProver.Theory.Equation

/-!
# Multisets

`union` is associative and commutative. Unions are kept flat and sorted.
-/

namespace ProtocolProver.Multiset

def owns (f : Symbol) : Bool := f == .union

/-- The elements of a union. Anything else is its own only element. -/
def elements : Term → List Term
  | .app f as => if f = .union then as else [.app f as]
  | t => [t]

/-- The union of elements that are taken as they are. -/
def union : List Term → Term
  | [t] => t
  | ts => .app .union (sortTerms ts)

def reduce (f : Symbol) (as : List Term) : Term :=
  if f = .union then union (as.flatMap elements) else .app f as

/-- Drops what two lists have in common, one for one. -/
def dropCommon : List Term → List Term → List Term × List Term
  | [], right => ([], right)
  | t :: left, right =>
    if right.contains t then dropCommon left (right.erase t)
    else
      let (left, right) := dropCommon left right
      (t :: left, right)

/-- Continues a union of `first` and `left` against one of `partner` and `rest` by pairing the first
two elements, or by letting one of them take up more than the other. -/
def pairWith (first : Term) (left : List Term) (partner : Term) (rest : List Term) :
    StateM VarSupply (List Alternative) := do
  let paired : List Alternative :=
    match left.isEmpty, rest.isEmpty with
    | true, true => [⟨[(first, partner)], false⟩]
    | false, false => [⟨[(first, partner), (union left, union rest)], false⟩]
    | _, _ => []
  let firstAbsorbs : List Alternative ←
    if first.isMsgVar && !rest.isEmpty then do
      let extra : Term := .var (← VarSupply.freshVar "u" .msg)
      pure [⟨[(first, union [partner, extra]), (union (left ++ [extra]), union rest)], false⟩]
    else pure []
  let partnerAbsorbs : List Alternative ←
    if partner.isMsgVar && !left.isEmpty then do
      let extra : Term := .var (← VarSupply.freshVar "u" .msg)
      pure [⟨[(partner, union [first, extra]), (union left, union (rest ++ [extra]))], false⟩]
    else pure []
  return paired ++ firstAbsorbs ++ partnerAbsorbs

/-- Continues `l = r`, where one side is a union. Elements other than message variables are atomic.
Message variables on both sides can share parts of each other, which is not covered. -/
def solve (l r : Term) : StateM VarSupply Solutions := do
  match dropCommon (elements l) (elements r) with
  | ([], []) => return .one []
  | ([], _) => return .none
  | (_, []) => return .none
  | (first :: left, partner :: right) =>
    if left.isEmpty && first.isMsgVar then return .one [(first, union (partner :: right))]
    else if right.isEmpty && partner.isMsgVar then return .one [(partner, union (first :: left))]
    else
      let alternatives ← (picks (partner :: right)).mapM fun (u, rest) => pairWith first left u rest
      let shared := (first :: left).any Term.isMsgVar && (partner :: right).any Term.isMsgVar
      return ⟨alternatives.flatten, !shared⟩

/-- The ways to assemble a union from others. -/
def decompose (f : Symbol) (as : List Term) : List (List Term) :=
  if f = .union then (bipartitions as).map fun (ts, us) => [union ts, union us] else []

end ProtocolProver.Multiset
