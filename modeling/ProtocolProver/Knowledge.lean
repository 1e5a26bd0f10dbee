import ProtocolProver.Data.SortedSet
import ProtocolProver.Theory.Unify

/-!
# What the adversary knows

The adversary keeps the terms it has observed together with everything it can take out of them by
deconstruction (`Knowledge.learn`). Whether it can build a term from what it keeps with public
symbols is checked when asked (`Knowledge.derives`), up to a depth of `maxConstructionDepth`.
-/

namespace ProtocolProver

/-- The observed terms, closed under deconstruction. -/
structure Knowledge where
  terms : SortedSet Term := ∅
deriving DecidableEq

namespace Knowledge

instance : Inhabited Knowledge := ⟨{}⟩

/-- The nesting of symbols beyond which a term counts as underivable. -/
def maxConstructionDepth : Nat := 16

def toList (K : Knowledge) : List Term := SortedSet.toList K.terms

def size (K : Knowledge) : Nat := K.terms.size

def contains (K : Knowledge) (t : Term) : Bool := SortedSet.contains K.terms t

def insert (K : Knowledge) (t : Term) : Knowledge := ⟨SortedSet.insert K.terms t⟩

/-- Whether a normal term is known, a public name, or built from derivable parts with at most `n`
levels of construction. -/
def derivable (K : Knowledge) (T : Theory) : Nat → Term → Bool
  | 0, t =>
    K.contains t || match t with
      | .name (.pub _) => true
      | _ => false
  | n + 1, t =>
    K.contains t || match t with
      | .name (.pub _) => true
      | .app .. => (T.decompose t).any fun parts => parts.all (K.derivable T n)
      | _ => false

/-- Whether the adversary can produce `t`. -/
def derives (K : Knowledge) (T : Theory) (t : Term) : Bool :=
  K.derivable T maxConstructionDepth (T.normalize t)

/-- What a deconstruction step of a known term yields: ground terms that are not known yet, for the
unifiers under which every side term is derivable. -/
def yields (K : Knowledge) (T : Theory) (e : Extraction) (learned : List Term) :
    StateM VarSupply (List Term) := do
  let unifiers ← T.unify e.eqs ∅
  return unifiers.substs.foldl (fun learned σ =>
    let output := T.normalize (σ.apply e.output)
    if output.isGround && !K.contains output && !learned.contains output
        && e.side.all fun s => K.derives T (σ.apply s)
    then learned ++ [output] else learned) learned

/-- One round of deconstruction of all known terms. -/
def deconstruct (K : Knowledge) (T : Theory) : StateM VarSupply (List Term) :=
  K.toList.foldlM (fun learned t => do
    (← T.extract t).foldlM (fun learned e => K.yields T e learned) learned) []

/-- Repeats deconstruction until nothing new is learned, at most `n` rounds. -/
def analyse (T : Theory) : Nat → Knowledge → VarSupply → Knowledge
  | 0, K, _ => K
  | n + 1, K, supply =>
    match (K.deconstruct T).run supply with
    | ([], _) => K
    | (learned, supply) => analyse T n (learned.foldl insert K) supply

/-- The rounds of deconstruction left for equations that release more than parts of a known term. -/
def spareRounds : Nat := 100000

/-- A bound on the rounds of deconstruction: each adds a part of a known term, or a power with fewer
factors in its exponent, and a term of size `n` has fewer than `4 ^ n` of these. Only equations can
use up the spare rounds. -/
def rounds (K : Knowledge) : Nat := K.toList.foldr (fun t n => Nat.pow 4 t.size + n) spareRounds

/-- Adds an observed ground term and takes apart what is known. -/
def learn (K : Knowledge) (T : Theory) (t : Term) : Knowledge :=
  let t := T.normalize t
  if K.contains t then K
  else
    let K := K.insert t
    analyse T K.rounds K {}

end Knowledge

end ProtocolProver
