/-!
# Symbolic terms

Messages are terms over a signature: variables, names (constants) and applications of function
symbols. Terms are compared by structure here; equality modulo an equational theory is equality of
normal forms. `Term.beq_iff` and `Term.instDecidableEq` decide equality of terms.
-/

namespace ProtocolProver

/-- The sort of a variable or name, from most to least specific. -/
inductive TermSort where
  | fresh
  | pub
  | msg
deriving DecidableEq, Repr

/-- Whether a value of sort `t` may stand where `s` is expected. -/
def TermSort.admits (s t : TermSort) : Bool := s == .msg || s == t

/-- A variable. Templates use index 0, renamed copies get an index from a `VarSupply`. -/
structure Var where
  name : String
  idx : Nat
  sort : TermSort
deriving Repr

namespace Var

/-- Indices tell most variables apart, so they are compared before the names. -/
instance : DecidableEq Var := fun v w =>
  if hi : v.idx = w.idx then
    if hn : v.name = w.name then
      if hs : v.sort = w.sort then isTrue (by cases v; cases w; simp_all)
      else isFalse fun h => hs (congrArg sort h)
    else isFalse fun h => hn (congrArg name h)
  else isFalse fun h => hi (congrArg idx h)

def msg (name : String) : Var := ⟨name, 0, .msg⟩

def fresh (name : String) : Var := ⟨name, 0, .fresh⟩

def pub (name : String) : Var := ⟨name, 0, .pub⟩

end Var

/-- A constant: a public name or a fresh value. -/
inductive Name where
  | pub (name : String)
  | fresh (name : String) (idx : Nat)
deriving DecidableEq, Repr

namespace Name

/-- Public names that start with this character stand for variables that a solved system leaves
open. Models may not use them. -/
def generatedMark : Char := '@'

/-- The public name that stands in for the open variable `v`. -/
def generated (v : Var) : Name :=
  .pub (generatedMark.toString ++ v.name ++ "." ++ toString v.idx)

/-- Whether a text is kept for generated names. -/
def isReserved (text : String) : Bool := text.toList.head? == some generatedMark

def isGenerated : Name → Bool
  | .pub name => isReserved name
  | .fresh .. => false

def sort : Name → TermSort
  | .pub _ => .pub
  | .fresh .. => .fresh

end Name

/-- A function symbol, by its place in the signature. -/
structure Symbol where
  index : Nat
deriving DecidableEq, Repr

namespace Symbol

def pair : Symbol := ⟨0⟩
def fst : Symbol := ⟨1⟩
def snd : Symbol := ⟨2⟩
def exp : Symbol := ⟨3⟩
def mult : Symbol := ⟨4⟩
def inv : Symbol := ⟨5⟩
def one : Symbol := ⟨6⟩
def xor : Symbol := ⟨7⟩
def zero : Symbol := ⟨8⟩
def union : Symbol := ⟨9⟩

end Symbol

/-- A symbolic message. -/
inductive Term where
  | var (v : Var)
  | name (n : Name)
  | app (f : Symbol) (args : List Term)

namespace Term

instance : Inhabited Term := ⟨.name (.pub "")⟩

/-! ## Equality -/

mutual

def beq : Term → Term → Bool
  | .var v, .var w => v == w
  | .name m, .name n => m == n
  | .app f as, .app g bs => f == g && beqList as bs
  | _, _ => false

def beqList : List Term → List Term → Bool
  | [], [] => true
  | a :: as, b :: bs => beq a b && beqList as bs
  | _, _ => false

end

mutual

theorem beq_iff : ∀ {s t : Term}, beq s t = true ↔ s = t
  | .var v, .var w => by simp [beq]
  | .name m, .name n => by simp [beq]
  | .app f as, .app g bs => by simp [beq, @beqList_iff as bs]
  | .var _, .name _ => by simp [beq]
  | .var _, .app .. => by simp [beq]
  | .name _, .var _ => by simp [beq]
  | .name _, .app .. => by simp [beq]
  | .app .., .var _ => by simp [beq]
  | .app .., .name _ => by simp [beq]

theorem beqList_iff : ∀ {as bs : List Term}, beqList as bs = true ↔ as = bs
  | [], [] => by simp [beqList]
  | a :: as, b :: bs => by
    simp [beqList, @beq_iff a b, @beqList_iff as bs]
  | [], _ :: _ => by simp [beqList]
  | _ :: _, [] => by simp [beqList]

end

instance : DecidableEq Term := fun s t =>
  if h : beq s t = true then isTrue (beq_iff.1 h) else isFalse fun e => h (beq_iff.2 e)

/-! ## Parts of a term -/

def const (f : Symbol) : Term := .app f []

def pubName (name : String) : Term := .name (.pub name)

def pair (a b : Term) : Term := .app .pair [a, b]

def sort : Term → TermSort
  | .var v => v.sort
  | .name n => n.sort
  | .app .. => .msg

def head? : Term → Option Symbol
  | .app f _ => some f
  | _ => none

def args : Term → List Term
  | .app _ as => as
  | _ => []

def isVar : Term → Bool
  | .var _ => true
  | _ => false

/-- Whether the term is a message variable, which any term can instantiate. -/
def isMsgVar : Term → Bool
  | .var v => v.sort == .msg
  | _ => false

mutual

/-- The number of variables, names and applications in a term. -/
def size : Term → Nat
  | .app _ as => 1 + sizeList as
  | _ => 1

def sizeList : List Term → Nat
  | [] => 0
  | a :: as => size a + sizeList as

end

mutual

/-- Whether `v` occurs in a term. -/
def occurs (v : Var) : Term → Bool
  | .var w => w == v
  | .name _ => false
  | .app _ as => occursList v as

def occursList (v : Var) : List Term → Bool
  | [] => false
  | a :: as => occurs v a || occursList v as

end

mutual

/-- Every occurrence of a variable, from left to right. -/
def occurrences : Term → List Var
  | .var v => [v]
  | .name _ => []
  | .app _ as => occurrencesList as

def occurrencesList : List Term → List Var
  | [] => []
  | a :: as => occurrences a ++ occurrencesList as

end

/-- The variables of a term in order of first occurrence. -/
def vars (t : Term) : List Var := t.occurrences.eraseDups

mutual

/-- Whether a term has no variables. -/
def isGround : Term → Bool
  | .var _ => false
  | .name _ => true
  | .app _ as => isGroundList as

def isGroundList : List Term → Bool
  | [] => true
  | a :: as => isGround a && isGroundList as

end

mutual

/-- Whether `f` is applied somewhere in a term. -/
def mentions (f : Symbol) : Term → Bool
  | .app g as => g == f || mentionsList f as
  | _ => false

def mentionsList (f : Symbol) : List Term → Bool
  | [] => false
  | a :: as => mentions f a || mentionsList f as

end

mutual

/-- Puts `f v` in the place of every variable `v`. -/
def mapVars (f : Var → Term) : Term → Term
  | .var v => f v
  | .name n => .name n
  | .app g as => .app g (mapVarsList f as)

def mapVarsList (f : Var → Term) : List Term → List Term
  | [] => []
  | a :: as => mapVars f a :: mapVarsList f as

end

/-- The terms of a queue and their subterms, level by level, up to `n` of them. -/
def breadthFirst : Nat → List Term → List Term
  | 0, _ => []
  | _ + 1, [] => []
  | n + 1, t :: queue => t :: breadthFirst n (queue ++ t.args)

/-- All subterms with repetitions, the term itself first and then level by level. There are as many
as the size of the term. -/
def subterms (t : Term) : List Term := breadthFirst t.size [t]

/-! ## Lists of terms

The functions above come with a companion on argument lists; each is the usual list operation. -/

theorem occursList_eq (v : Var) (as : List Term) : occursList v as = as.any (occurs v) := by
  induction as with
  | nil => rfl
  | cons a as ih => simp [occursList, ih]

theorem occurrencesList_eq (as : List Term) : occurrencesList as = as.flatMap occurrences := by
  induction as with
  | nil => rfl
  | cons a as ih => simp [occurrencesList, ih]

theorem isGroundList_eq (as : List Term) : isGroundList as = as.all isGround := by
  induction as with
  | nil => rfl
  | cons a as ih => simp [isGroundList, ih]

theorem mentionsList_eq (f : Symbol) (as : List Term) :
    mentionsList f as = as.any (mentions f) := by
  induction as with
  | nil => rfl
  | cons a as ih => simp [mentionsList, ih]

theorem mapVarsList_eq (f : Var → Term) (as : List Term) :
    mapVarsList f as = as.map (mapVars f) := by
  induction as with
  | nil => rfl
  | cons a as ih => simp [mapVarsList, ih]

theorem size_pos : ∀ t : Term, 0 < t.size
  | .var _ => by simp [size]
  | .name _ => by simp [size]
  | .app .. => by simp only [size]; omega

end Term

/-- The variables of a list of terms in order of first occurrence. -/
def termVars (ts : List Term) : List Var := (Term.occurrencesList ts).eraseDups

end ProtocolProver
