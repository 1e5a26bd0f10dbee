import ProtocolProver.Theory.Exponent
import ProtocolProver.Theory.ExclusiveOr
import ProtocolProver.Theory.Multiset
import ProtocolProver.Theory.Reduction

/-!
# Equational theories

A theory combines reductions of free symbols with up to three algebras: exponentiation,
exclusive or and multisets. Each symbol belongs to one part, and `Theory.normalize` brings a term to
the form by which it is compared. Arguments come first; a symbol applied to normal arguments is then
reduced by the part it belongs to.
-/

namespace ProtocolProver

/-- Which algebras a theory has besides its reductions. -/
structure Algebras where
  exponents : Bool := false
  xor : Bool := false
  multisets : Bool := false
deriving DecidableEq, Repr

/-- An algebra that gives some symbols a meaning. -/
inductive Algebra where
  | exponents
  | xor
  | multisets
deriving DecidableEq, Repr

/-- The algebra that a symbol belongs to. Other symbols are free. -/
def Algebras.owner? (a : Algebras) (f : Symbol) : Option Algebra :=
  if a.exponents && Exponent.owns f then some .exponents
  else if a.xor && ExclusiveOr.owns f then some .xor
  else if a.multisets && Multiset.owns f then some .multisets
  else none

/-- A signature with the equations that hold between its terms. -/
structure Theory where
  signature : Signature
  algebras : Algebras
  rules : List Reduction

namespace Theory

/-- How many rule applications may follow from one another in the reduction of one symbol. Rules of
which no right side can be reduced need one. -/
def reductionLimit : Nat := 100000

/-- The normal form of a symbol applied to normal arguments. The right side of a rule is built up
from normal values, so it is reduced symbol by symbol. -/
def reduce (T : Theory) : Nat → Symbol → List Term → Term
  | 0, f, as =>
    match T.algebras.owner? f with
    | some .exponents => Exponent.reduce f as
    | some .xor => ExclusiveOr.reduce f as
    | some .multisets => Multiset.reduce f as
    | none => .app f as
  | n + 1, f, as =>
    match T.algebras.owner? f with
    | some .exponents => Exponent.reduce f as
    | some .xor => ExclusiveOr.reduce f as
    | some .multisets => Multiset.reduce f as
    | none =>
      match contractRoot? T.rules (.app f as) with
      | some (rhs, σ) => rhs.eval σ.value (T.reduce n)
      | none => .app f as

/-- The form of a term by which it is compared. -/
def normalize (T : Theory) (t : Term) : Term := t.eval .var (T.reduce reductionLimit)

def equal (T : Theory) (l r : Term) : Bool := T.normalize l == T.normalize r

/-- Whether a symbol belongs to one of the algebras. -/
def isAlgebraic (T : Theory) (f : Symbol) : Bool := (T.algebras.owner? f).isSome

/-- Whether a symbol heads the left side of a rule. -/
def isDestructor (T : Theory) (f : Symbol) : Bool := T.rules.any fun r => r.lhs.head? == some f

/-- The ways to assemble a term from others by public operations. -/
def decompose (T : Theory) : Term → List (List Term)
  | .app f as =>
    match T.algebras.owner? f with
    | some .exponents => Exponent.decompose f as
    | some .xor => ExclusiveOr.decompose f as
    | some .multisets => Multiset.decompose f as
    | none => if T.signature.isPublic f then [as] else []
  | _ => []

/-- The deconstruction steps for a term that the adversary holds. -/
def extract (T : Theory) (t : Term) : StateM VarSupply (List Extraction) :=
  match t with
  | .app f as =>
    match T.algebras.owner? f with
    | some .exponents => pure (Exponent.extract f as)
    | some .xor => pure (ExclusiveOr.extract f as)
    | some .multisets => pure []
    | none => Free.extract T.signature T.rules t
  | _ => pure []

/-- The algebra of the first side that is headed by an algebraic symbol. -/
def solver? (T : Theory) (l r : Term) : Option Algebra :=
  (l.head?.bind T.algebras.owner?).or (r.head?.bind T.algebras.owner?)

/-- The ways to go on with an equation between different normal terms. -/
def solve (T : Theory) (l r : Term) : StateM VarSupply Solutions :=
  match T.solver? l r with
  | some .exponents => pure (Exponent.solve l r)
  | some .xor => pure (ExclusiveOr.solve l r)
  | some .multisets => Multiset.solve l r
  | none => Free.solve T.rules l r

/-! ## Admissible rules -/

/-- Whether the right sides of two rules have one normal form wherever their left sides overlap at
the root. -/
def joinable (T : Theory) (first second : Reduction) : Bool :=
  if first.lhs.head? = second.lhs.head? then
    let ρ := (VarSupply.renameApart second.lhs.vars {}).1
    match mostGeneralUnifier first.lhs (ρ.apply second.lhs) with
    | some σ => T.normalize (σ.apply first.rhs) == T.normalize (σ.apply (ρ.apply second.rhs))
    | none => true
  else true

/-- The first two rules that overlap without a common normal form. -/
def firstConflict? (T : Theory) : List Reduction → Option (Reduction × Reduction)
  | [] => none
  | r :: rs =>
    match rs.find? fun s => !T.joinable r s with
    | some s => some (r, s)
    | none => T.firstConflict? rs

/-- The theory of `rules` and `algebras` over a signature, if the rules are admissible. -/
def ofRules (signature : Signature) (rules : List Reduction) (algebras : Algebras) :
    Except ModelError Theory := do
  rules.forM Reduction.validate
  let T : Theory := { signature, algebras, rules := Reduction.projections ++ rules }
  match T.firstConflict? T.rules with
  | some (r, s) => throw (.notConfluent r.name s.name)
  | none => return T

end Theory

end ProtocolProver
