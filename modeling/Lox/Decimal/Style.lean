import Lox.Decimal.Shortest

/-!
# Numbers as text

A `NumberStyle` collects the decisions that are left once the digits of a number are known: which
powers of ten are written as an exponent, and whether a whole number keeps a fraction.
-/

namespace Lox

structure NumberStyle where
  /-- Whether a number whose first digit counts `10 ^ e` is written with an exponent. -/
  usesExponent : Int → Bool
  /-- Whether a whole number is written with a fraction of zero. -/
  keepsFraction : Bool

namespace NumberStyle

/-- Digits with a point after the first `point` of them, and zeros where digits are missing. -/
def positional (style : NumberStyle) (digits : List Char) (point : Int) : List Char :=
  if point ≤ 0 then
    '0' :: '.' :: List.replicate point.natAbs '0' ++ digits
  else if digits.length ≤ point then
    digits ++ List.replicate (point.natAbs - digits.length) '0'
      ++ if style.keepsFraction then ['.', '0'] else []
  else
    digits.take point.natAbs ++ '.' :: digits.drop point.natAbs

/-- Digits with a point after the first, and the power of ten after `e`, with a sign and at least
two digits. -/
def scientific (digits : List Char) (power : Int) : List Char :=
  let mantissa := match digits with
    | [] => []
    | [digit] => [digit]
    | digit :: more => digit :: '.' :: more
  let size := Nat.toDigits 10 power.natAbs
  mantissa ++ 'e' :: (if power < 0 then '-' else '+')
    :: (if size.length < 2 then '0' :: size else size)

def decimal (style : NumberStyle) (d : Decimal) : List Char :=
  let digits := d.digits
  let point := digits.length + d.exponent
  if d.coefficient = 0 then style.positional ['0'] 1
  else if style.usesExponent (point - 1) then scientific digits (point - 1)
  else style.positional digits point

/-- The text of a double: the fewest digits that read back, after a minus if its sign is set. -/
def number (style : NumberStyle) (x : Float) : String :=
  if x.isNaN then "nan"
  else
    let sign := if x.toBits.toNat / Nat.pow 2 63 = 1 then ['-'] else []
    if x.isInf then String.ofList (sign ++ ['i', 'n', 'f'])
    else String.ofList (sign ++ style.decimal (Decimal.shortest x.abs))

/-- Numbers as a program prints them: every digit in its place, and no point in a whole number. -/
def plain : NumberStyle := ⟨fun _ ↦ false, false⟩

/-- Numbers as a listing of tokens shows them: an exponent below `10 ^ -4` and from `10 ^ 16` on,
and a point in every other number. -/
def listing : NumberStyle := ⟨fun power ↦ power < -4 || 16 ≤ power, true⟩

end NumberStyle

end Lox
