import Lox.Decimal

/-!
# The fewest digits that read back

Many decimals are read as the same double.  `Decimal.shortest` picks one with as few digits as
possible, and among those the one nearest to the double itself.  The search ends with the exact
value at the latest.
-/

namespace Lox.Decimal

/-- The decimals just below and just above `d` that lack its last `surplus` digits, the nearer
first; where both are equally near, the one that ends in an even digit comes first.  Those whose
distance from `d` is over `slack` units of its last place are left out.  `size` counts the digits
of `d`. -/
def roundings (d : Decimal) (size slack surplus : Nat) : List Decimal :=
  if surplus = 0 then [d]
  else
    let unit := Nat.pow 10 surplus
    let quotient := d.coefficient / unit
    let remainder := d.coefficient % unit
    let below : Decimal := ⟨quotient, d.exponent + surplus⟩
    let above : Decimal :=
      if quotient + 1 = Nat.pow 10 (size - surplus) then ⟨1, d.exponent + size⟩
      else ⟨quotient + 1, d.exponent + surplus⟩
    let downward := if remainder ≤ slack then [below] else []
    let upward := if unit - remainder ≤ slack then [above] else []
    if 2 * remainder < unit ∨ (2 * remainder = unit ∧ quotient % 2 = 0) then downward ++ upward
    else upward ++ downward

/-- The distance from a finite double to the next one of greater magnitude, in units of the last
place of its exact value. -/
def spacing (x : Float) : Nat :=
  let (_, q) := binaryParts x
  if 0 ≤ q then Nat.pow 2 q.natAbs else Nat.pow 5 q.natAbs

/-- Whether `d` is read as `x`. -/
def readsAs (x : Float) (d : Decimal) : Bool :=
  d.toFloat.toBits == x.toBits

/-- The decimal with the fewest digits that is read as `x`, for `x` finite and not negative.  What
is read as `x` lies closer to it than the next double does, so no other decimal is tried. -/
def shortest (x : Float) : Decimal :=
  let whole := exact x
  let size := whole.digits.length
  let slack := spacing x
  let found := (List.range size).findSome? fun dropped ↦
    (whole.roundings size slack (size - 1 - dropped)).find? (readsAs x)
  found.getD whole

end Lox.Decimal
