import ProtocolProver.Theory.Unify

/-!
# Facts

A fact is a predicate applied to terms. Linear facts are used up by the rule that takes them as a
premise, persistent facts stay. Four predicates have a meaning of their own: `In` and `Out` are the
network, `Fr` draws a fresh value and `K` records what the adversary knows.
-/

namespace ProtocolProver

namespace Pred

/-- A message received from the network. -/
def input : String := "In"

/-- A message sent to the network. -/
def output : String := "Out"

/-- A fresh value. -/
def fresh : String := "Fr"

/-- Knowledge of the adversary, as an action. -/
def knows : String := "K"

/-- Whether a predicate has a meaning of its own. -/
def isReserved (pred : String) : Bool :=
  pred == input || pred == output || pred == fresh || pred == knows

end Pred

inductive Multiplicity where
  | linear
  | persistent
deriving DecidableEq, Repr

def Multiplicity.rank : Multiplicity → Nat
  | .linear => 0
  | .persistent => 1

/-- A predicate applied to terms. -/
structure Fact where
  pred : String
  multiplicity : Multiplicity
  args : List Term
deriving DecidableEq

namespace Fact

def linear (pred : String) (args : List Term) : Fact := ⟨pred, .linear, args⟩

def persistent (pred : String) (args : List Term) : Fact := ⟨pred, .persistent, args⟩

def isPersistent (f : Fact) : Bool := f.multiplicity == .persistent

def cmp (f g : Fact) : Ordering :=
  (compare f.pred g.pred).then
    ((compare f.multiplicity.rank g.multiplicity.rank).then (Term.cmpList f.args g.args))

instance : Ord Fact := ⟨cmp⟩

theorem cmp_eq_iff : ∀ {f g : Fact}, cmp f g = .eq ↔ f = g
  | ⟨_, m, _⟩, ⟨_, n, _⟩ => by
    have hr : m.rank = n.rank ↔ m = n := by cases m <;> cases n <;> decide
    simp [cmp, Term.cmpList_eq_iff, hr]

theorem cmp_swap (f g : Fact) : cmp f g = (cmp g f).swap := by
  simp only [cmp, Ordering.swap_then]
  rw [compare_swap f.pred, compare_swap f.multiplicity.rank, Term.cmpList_swap]

theorem cmp_trans {f g h : Fact} (h₁ : cmp f g = .lt) (h₂ : cmp g h = .lt) : cmp f h = .lt :=
  then_lt_trans Std.LawfulEqCmp.eq_of_compare Std.TransCmp.lt_trans
    (then_lt_trans Std.LawfulEqCmp.eq_of_compare Std.TransCmp.lt_trans Term.cmpList_trans) h₁ h₂

instance : Std.TransOrd Fact := transCmp_of_laws cmp_eq_iff cmp_swap cmp_trans

instance : Std.LawfulEqOrd Fact := lawfulEqCmp_of_iff cmp_eq_iff

def mapTerms (g : Term → Term) (f : Fact) : Fact := { f with args := f.args.map g }

def apply (σ : Subst) (f : Fact) : Fact := f.mapTerms σ.apply

def normalize (T : Theory) (f : Fact) : Fact := f.mapTerms T.normalize

/-- The instance of a fact under `σ`, in normal form. -/
def instantiate (T : Theory) (σ : Subst) (f : Fact) : Fact :=
  f.mapTerms fun t => T.normalize (σ.apply t)

def isGround (f : Fact) : Bool := f.args.all Term.isGround

/-- The equations that make the arguments of two facts equal. -/
def equations (f g : Fact) : List Equation := f.args.zip g.args

/-- Whether a conclusion of this shape can provide the premise `g`. -/
def sameKind (f g : Fact) : Bool :=
  f.pred == g.pred && f.multiplicity == g.multiplicity && f.args.length == g.args.length

/-- Whether two actions have the same predicate and number of arguments. -/
def sameShape (f g : Fact) : Bool := f.pred == g.pred && f.args.length == g.args.length

end Fact

/-- Every occurrence of a variable in a list of facts. -/
def factOccurrences (fs : List Fact) : List Var :=
  fs.flatMap fun f => Term.occurrencesList f.args

/-- The variables of a list of facts in order of first occurrence. -/
def factVars (fs : List Fact) : List Var := (factOccurrences fs).eraseDups

end ProtocolProver
