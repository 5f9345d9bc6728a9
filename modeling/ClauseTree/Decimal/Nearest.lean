/-!
# The double nearest to a decimal

`nearestBits?` rounds a positive quotient of natural numbers to the nearest double, ties to
the even significand, in exact arithmetic. There is no double for a quotient that rounds
beyond the greatest one; a quotient that is too small rounds to zero.
-/

namespace ClauseTree.Decimal

def roundHalfEven (num den : Nat) : Nat :=
  let below := num / den
  let rest := num % den
  if 2 * rest < den then below
  else if den < 2 * rest then below + 1
  else if below % 2 = 0 then below else below + 1

/-- `num / den` divided by `2 ^ q`, as a numerator and a denominator. -/
def scaleDown (num den : Nat) (q : Int) : Nat × Nat :=
  (num * Nat.pow 2 (-q).toNat, den * Nat.pow 2 q.toNat)

/-- The exponent of two in whose steps doubles near `num / den` follow each other. -/
def stepExponent (num den : Nat) : Int :=
  let q : Int := (Nat.log2 num : Int) - Nat.log2 den - 52
  let (n, d) := scaleDown num den q
  max (if n < Nat.pow 2 52 * d then q - 1 else q) (-1074)

/-- The bits of the double nearest to the positive quotient `num / den`. A significand of
`2 ^ 53` after rounding carries into the exponent by the addition itself. -/
def nearestBits? (num den : Nat) : Option Nat :=
  let q := stepExponent num den
  let (n, d) := scaleDown num den q
  let m := roundHalfEven n d
  let bits :=
    if m < Nat.pow 2 52 then m
    else (q + 1075).toNat * Nat.pow 2 52 + (m - Nat.pow 2 52)
  if bits < 2047 * Nat.pow 2 52 then some bits else none

/-- The double nearest to `significand * 10 ^ exponent` with the given sign. -/
def nearest? (negative : Bool) (significand : Nat) (exponent : Int) : Option Float :=
  let signed (bits : Nat) : Float :=
    Float.ofBits (UInt64.ofNat (bits + if negative then Nat.pow 2 63 else 0))
  let lead : Int := (Nat.toDigits 10 significand).length + exponent
  -- the number of digits decides outside the range, so no great power of ten is computed
  if significand = 0 then some (signed 0)
  else if 400 < lead then none
  else if lead < -400 then some (signed 0)
  else
    (nearestBits? (significand * Nat.pow 10 exponent.toNat)
      (Nat.pow 10 (-exponent).toNat)).map signed

end ClauseTree.Decimal
