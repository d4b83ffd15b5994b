/-!
# Decimal numbers

A decimal is a whole coefficient and a power of ten.  Every finite double is a decimal exactly, and
every decimal is read as the double nearest to it.
-/

namespace Lox

/-- The number `coefficient * 10 ^ exponent`. -/
structure Decimal where
  coefficient : Nat
  exponent : Int
  deriving DecidableEq, Repr

namespace Decimal

def valueOfDigits (digits : List Char) : Nat :=
  digits.foldl (fun value digit ↦ 10 * value + (digit.toNat - '0'.toNat)) 0

/-- The decimal written with `whole` before the point and `fraction` after it. -/
def ofDigits (whole fraction : List Char) : Decimal :=
  ⟨valueOfDigits (whole ++ fraction), -fraction.length⟩

def digits (d : Decimal) : List Char :=
  Nat.toDigits 10 d.coefficient

def toFloat (d : Decimal) : Float :=
  Float.ofScientific d.coefficient (d.exponent < 0) d.exponent.natAbs

/-- The whole number `m` and the power `q` with `|x| = m * 2 ^ q`, for a finite `x`. -/
def binaryParts (x : Float) : Nat × Int :=
  let bits := x.toBits.toNat
  let fraction := bits % Nat.pow 2 52
  let field : Nat := bits / Nat.pow 2 52 % Nat.pow 2 11
  if field = 0 then (fraction, -1074) else (fraction + Nat.pow 2 52, Int.ofNat field - 1075)

/-- The magnitude of a finite double, with every digit it has. -/
def exact (x : Float) : Decimal :=
  let (m, q) := binaryParts x
  if 0 ≤ q then ⟨m * Nat.pow 2 q.natAbs, 0⟩ else ⟨m * Nat.pow 5 q.natAbs, q⟩

end Decimal

end Lox
