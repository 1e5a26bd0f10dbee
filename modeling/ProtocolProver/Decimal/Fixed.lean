/-!
# Decimals with a fixed number of places

`fixedText` writes a double with a given number of decimal places, rounded to the nearest such
decimal; a half goes to the even neighbour.
-/

namespace ProtocolProver

/-- The quotient of two natural numbers, rounded to the nearest; a half goes to the even
neighbour. -/
def roundDiv (num den : Nat) : Nat :=
  let q := num / den
  let r := num % den
  if 2 * r < den ∨ (2 * r = den ∧ q % 2 = 0) then q else q + 1

/-- A finite double without its sign, as `significand · 2 ^ exponent`. -/
def binaryParts (x : Float) : Nat × Int :=
  let bits : Nat := x.toBits.toNat
  let fraction : Nat := bits % Nat.pow 2 52
  let biased : Nat := bits / Nat.pow 2 52 % Nat.pow 2 11
  if biased = 0 then (fraction, -1074) else (fraction + Nat.pow 2 52, Int.ofNat biased - 1075)

/-- A double that is not negative, in the given number of decimal places. -/
def fixedText (places : Nat) (x : Float) : String :=
  let (m, e) := binaryParts x
  let scaled := match e with
    | .ofNat k => m * Nat.pow 2 k * Nat.pow 10 places
    | .negSucc k => roundDiv (m * Nat.pow 10 places) (Nat.pow 2 (k + 1))
  let digits := toString (scaled % Nat.pow 10 places)
  toString (scaled / Nat.pow 10 places) ++ "."
    ++ String.ofList (List.replicate (places - digits.length) '0') ++ digits

end ProtocolProver
