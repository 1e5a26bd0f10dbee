import ProtocolProver.Error
import ProtocolProver.Term.Basic

/-!
# Signatures

A signature lists the function symbols of a model; a symbol is known by its place in the list. The
built-in symbols are always there and come first, so `Symbol.pair` and the others name the same
symbol in every signature.
-/

namespace ProtocolProver

/-- Whether the adversary may apply a symbol. -/
inductive Visibility where
  | pub
  | priv
deriving DecidableEq, Repr

/-- A declared function symbol. -/
structure Declaration where
  name : String
  arity : Nat
  visibility : Visibility
deriving DecidableEq, Repr

/-- The function symbols of a model. -/
structure Signature where
  symbols : List Declaration
deriving DecidableEq, Repr

namespace Signature

/-- The signature that has the built-in symbols only. -/
def builtin : Signature where
  symbols :=
    [("pair", 2), ("fst", 1), ("snd", 1), ("exp", 2), ("mult", 2), ("inv", 1), ("one", 0),
      ("xor", 2), ("zero", 0), ("union", 2)].map fun (name, arity) => ⟨name, arity, .pub⟩

instance : Inhabited Signature := ⟨builtin⟩

def size (sig : Signature) : Nat := sig.symbols.length

def get? (sig : Signature) (f : Symbol) : Option Declaration := sig.symbols[f.index]?

def lookup? (sig : Signature) (name : String) : Option Symbol :=
  (sig.symbols.findIdx? (·.name == name)).map Symbol.mk

def name (sig : Signature) (f : Symbol) : String := ((sig.get? f).map Declaration.name).getD ""

def arity (sig : Signature) (f : Symbol) : Nat := ((sig.get? f).map Declaration.arity).getD 0

def isPublic (sig : Signature) (f : Symbol) : Bool :=
  (sig.get? f).any (·.visibility == .pub)

def toList (sig : Signature) : List (Symbol × Declaration) :=
  sig.symbols.zipIdx.map fun (d, i) => (⟨i⟩, d)

/-- Declares a symbol, or finds the one that was declared before in the same way. -/
def declare (sig : Signature) (name : String) (arity : Nat) (visibility : Visibility) :
    Except ModelError (Symbol × Signature) :=
  match sig.lookup? name with
  | some f =>
    if sig.get? f = some ⟨name, arity, visibility⟩ then .ok (f, sig)
    else .error (.symbolClash name)
  | none => .ok (⟨sig.size⟩, ⟨sig.symbols ++ [⟨name, arity, visibility⟩]⟩)

end Signature

end ProtocolProver
