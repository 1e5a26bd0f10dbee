import ProtocolProver.Theory.Basic

/-!
# Packs of symbols and equations

A pack brings the symbols of a cryptographic primitive with their equations, or switches an algebra
on. Packs may share symbols, and a model may ask for several.
-/

namespace ProtocolProver

/-- What packs add to a theory. -/
structure Pack where
  equations : List Reduction := []
  algebras : Algebras := {}

namespace Pack

/-- The packs that a model can ask for. -/
def names : List String :=
  ["hashing", "signing", "symmetric-encryption", "asymmetric-encryption", "diffie-hellman", "xor",
    "multiset"]

/-- Both contributions. Of equations with the same name the first is kept. -/
def merge (p q : Pack) : Pack where
  equations := q.equations.foldl
    (fun es e => if es.any (·.name == e.name) then es else es ++ [e]) p.equations
  algebras :=
    { exponents := p.algebras.exponents || q.algebras.exponents
      xor := p.algebras.xor || q.algebras.xor
      multisets := p.algebras.multisets || q.algebras.multisets }

/-- Declares a public symbol. What was declared before stays when this fails. -/
def declare (name : String) (arity : Nat) : ExceptT ModelError (StateM Signature) Symbol := do
  match (← get).declare name arity .pub with
  | .ok (f, sig) => set sig; return f
  | .error e => throw e

/-- Declares the symbols of a pack and gives what it adds. -/
def load (name : String) : ExceptT ModelError (StateM Signature) Pack := do
  let m : Term := .var (.msg "m")
  let k : Term := .var (.msg "k")
  match name with
  | "hashing" =>
    let _ ← declare "h" 1
    return {}
  | "signing" =>
    let sign ← declare "sign" 2
    let verify ← declare "verify" 3
    let pk ← declare "pk" 1
    let getMessage ← declare "getMessage" 1
    let ok ← declare "true" 0
    let signed : Term := .app sign [m, k]
    return { equations :=
      [⟨"verify", .app verify [signed, m, .app pk [k]], .const ok⟩,
        ⟨"getMessage", .app getMessage [signed], m⟩] }
  | "symmetric-encryption" =>
    let senc ← declare "senc" 2
    let sdec ← declare "sdec" 2
    return { equations := [⟨"sdec", .app sdec [.app senc [m, k], k], m⟩] }
  | "asymmetric-encryption" =>
    let aenc ← declare "aenc" 2
    let adec ← declare "adec" 2
    let pk ← declare "pk" 1
    return { equations := [⟨"adec", .app adec [.app aenc [m, .app pk [k]], k], m⟩] }
  | "diffie-hellman" => return { algebras := { exponents := true } }
  | "xor" => return { algebras := { xor := true } }
  | "multiset" => return { algebras := { multisets := true } }
  | _ => throw (.unknownBuiltin name)

end Pack

end ProtocolProver
