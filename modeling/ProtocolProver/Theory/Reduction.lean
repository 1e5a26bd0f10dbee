import ProtocolProver.Signature
import ProtocolProver.Theory.Matching

/-!
# Reductions of free symbols

An equation is used from left to right. It must bind its variables on the left and have a smaller
right side. A rule whose right side is a variable inside one of its arguments lets the adversary
take that argument apart.
-/

namespace ProtocolProver

/-- An equation, used from left to right. -/
structure Reduction where
  name : String
  lhs : Term
  rhs : Term
deriving DecidableEq

namespace Reduction

/-- The rules of pairs, which every theory has. -/
def projections : List Reduction :=
  let x : Term := .var (.msg "x")
  let y : Term := .var (.msg "y")
  [⟨"fst", .app .fst [.pair x y], x⟩, ⟨"snd", .app .snd [.pair x y], y⟩]

/-- Checks the shape of a rule: no variable on the left, no new variables and fewer symbols on the
right. -/
def validate (rule : Reduction) : Except ModelError Unit := do
  if rule.lhs.isVar then throw (.equationVariableLhs rule.name)
  if let some v := rule.rhs.vars.find? fun v => !rule.lhs.vars.contains v then
    throw (.equationUnboundVar rule.name v.name)
  if rule.lhs.size ≤ rule.rhs.size then throw (.equationNotDecreasing rule.name)

/-- Both sides with new variables. -/
def renamed (rule : Reduction) : StateM VarSupply (Term × Term) := do
  let ρ ← VarSupply.renameApart (termVars [rule.lhs, rule.rhs])
  return (ρ.apply rule.lhs, ρ.apply rule.rhs)

/-- The right side and the instance under which the left side is the term `t`. -/
def contract? (rule : Reduction) (t : Term) : Option (Term × Subst) :=
  (matchTerm rule.lhs t ∅).toOption.map fun σ => (rule.rhs, σ)

/-- The argument of the left side that the rule takes apart: the first one other than a variable
that holds the right side, a variable. -/
def input? (rule : Reduction) : Option Nat :=
  match rule.rhs with
  | .var out => rule.lhs.args.findIdx? fun a => !a.isVar && a.occurs out
  | _ => none

end Reduction

/-- The rules whose left side is headed by `f`. -/
def rulesFor (rules : List Reduction) (f : Symbol) : List Reduction :=
  rules.filter fun r => r.lhs.head? == some f

/-- The first reduction of `t` at its root, as a right side and the values of its variables. -/
def contractRoot? (rules : List Reduction) (t : Term) : Option (Term × Subst) :=
  match t.head? with
  | some f => (rulesFor rules f).findSome? (·.contract? t)
  | none => none

namespace Free

/-- The narrowing steps of `l` in `l = r`: one for each rule for the symbol of `l`. -/
def narrow (rules : List Reduction) (l r : Term) : StateM VarSupply (List Alternative) :=
  match l with
  | .app f as =>
    if l.isGround then pure []
    else
      (rulesFor rules f).mapM fun rule => do
        let (lhs, rhs) ← rule.renamed
        return ⟨as.zip lhs.args ++ [(rhs, r)], true⟩
  | _ => pure []

/-- Continues `l = r`, where neither side is headed by a symbol with an algebraic meaning. -/
def solve (rules : List Reduction) (l r : Term) : StateM VarSupply Solutions := do
  let byArgs : List Alternative :=
    match l, r with
    | .app f as, .app g bs => if f = g ∧ as.length = bs.length then [⟨as.zip bs, false⟩] else []
    | _, _ => []
  let left ← narrow rules l r
  let right ← narrow rules r l
  return ⟨byArgs ++ left ++ right, true⟩

/-- One deconstruction step for each rule that takes apart terms headed by the symbol of `t` and
that the adversary may apply. -/
def extract (sig : Signature) (rules : List Reduction) (t : Term) :
    StateM VarSupply (List Extraction) := do
  let steps ← rules.mapM fun rule => do
    match rule.lhs, rule.input? with
    | .app g as, some i =>
      if sig.isPublic g && t.head?.isSome && (as[i]?.bind Term.head?) == t.head? then
        let (lhs, rhs) ← rule.renamed
        return [⟨[(t, lhs.args.getD i t)], rhs, lhs.args.eraseIdx i⟩]
      else return []
    | _, _ => return []
  return steps.flatten

end Free

end ProtocolProver
