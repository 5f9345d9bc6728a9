/-!
# Doubles as decimals

A finite double stands for every real that rounds to it, an interval around `m * 2 ^ q`.
`Binary.shortest` is the decimal with the fewest digits in that interval, and of those the
nearest to the double itself. All comparisons are between natural numbers, so the result
is exact for every double.

A grid is the set of multiples of a power of ten. The interval lies within one power of
ten or contains it, so fewer digits means a coarser grid, and the coarsest grid with a
point in the interval gives the fewest digits. The interval is convex and contains
`m * 2 ^ q`: if any point of a grid lies in it, so does one of the two beside `m * 2 ^ q`.

A `Layout` holds the choices a format leaves open: which numbers are written without an
exponent, whether a whole number shows a fraction, and which way a tie goes. `Layout.write`
writes a finite double by such choices.

## Main definitions

* `Binary`, the magnitude `m * 2 ^ q` of a double, and `Binary.shortest`, its decimal
* `Layout` and `Layout.write`
-/

namespace ClauseTree.Decimal

structure Binary where
  m : Nat
  q : Int
  /-- The double below is half as far away as the one above. -/
  narrow : Bool
  deriving DecidableEq, Repr

def Binary.ofBits (bits : Nat) : Binary :=
  let fraction : Nat := bits % Nat.pow 2 52
  let exponent : Nat := bits / Nat.pow 2 52 % Nat.pow 2 11
  if exponent = 0 then ⟨fraction, -1074, false⟩
  else ⟨Nat.pow 2 52 + fraction, (exponent : Int) - 1075, fraction = 0 && 1 < exponent⟩

def Binary.ofFloat (x : Float) : Binary := Binary.ofBits x.toBits.toNat

/-- What becomes of a double that is exactly halfway between two decimals. -/
inductive Tie
  | toEven
  | up
  deriving DecidableEq, Repr

structure Scaled where
  digits : Nat
  exponent : Int
  deriving DecidableEq, Repr

/-- `2 ^ (q - 2) / 10 ^ k` as a numerator and a denominator. -/
def quarterOver (q k : Int) : Nat × Nat :=
  (Nat.pow 2 (q - 2).toNat * Nat.pow 10 (-k).toNat,
    Nat.pow 2 (2 - q).toNat * Nat.pow 10 k.toNat)

/-- The multiple of `10 ^ k` that stands for `b`, if one rounds to it. Ends of the interval
round to `b` exactly if its significand is even. -/
def Binary.onGrid? (b : Binary) (tie : Tie) (k : Int) : Option Nat :=
  let (up, down) := quarterOver b.q k
  let value := 4 * b.m * up
  let lowest := (4 * b.m - if b.narrow then 1 else 2) * up
  let highest := (4 * b.m + 2) * up
  let inside (c : Nat) : Bool :=
    if b.m % 2 = 0 then lowest ≤ c * down && c * down ≤ highest
    else lowest < c * down && c * down < highest
  let below := value / down
  let above := below + 1
  let toBelow := value - below * down
  let toAbove := above * down - value
  if inside below && inside above then
    if toBelow < toAbove then some below
    else if toAbove < toBelow then some above
    else match tie with
      | .toEven => some (if below % 2 = 0 then below else above)
      | .up => some above
  else if inside below then some below
  else if inside above then some above
  else none

/-- An exponent of ten whose power is above every real that rounds to `b`. -/
def Binary.topExponent (b : Binary) : Int :=
  ((Nat.log2 b.m : Int) + b.q + 1) * 30103 / 100000 + 2

/-- The decimal with the fewest digits that rounds to `b`, the nearest one of those. The
grids are tried from coarse to fine; seventeen digits always suffice. -/
def Binary.shortest (b : Binary) (tie : Tie) : Scaled :=
  if b.m = 0 then ⟨0, 0⟩
  else
    ((List.range 24).findSome? fun (i : Nat) =>
      (b.onGrid? tie (b.topExponent - i)).map fun c => ⟨c, b.topExponent - i⟩).getD ⟨0, 0⟩

/-! ## Layouts -/

structure Layout where
  /-- Whether a number is written without an exponent, by the power of ten of its first digit. -/
  positional : Int → Bool
  fraction : Bool
  tie : Tie

def digits (n : Nat) : List Char := Nat.toDigits 10 n

/-- `ds` times ten to the `k`, without an exponent. -/
def plainNotation (fraction : Bool) (ds : List Char) (k : Int) : List Char :=
  let whole : Int := ds.length + k
  if 0 ≤ k then
    ds ++ List.replicate k.toNat '0' ++ if fraction then ['.', '0'] else []
  else if 0 < whole then
    ds.take whole.toNat ++ '.' :: ds.drop whole.toNat
  else
    '0' :: '.' :: (List.replicate (-whole).toNat '0' ++ ds)

/-- `ds` with the point after the first digit, and the power of ten `e` of that digit. -/
def scientificNotation (ds : List Char) (e : Int) : List Char :=
  ds.take 1 ++ (if ds.length ≤ 1 then [] else '.' :: ds.drop 1) ++
    'e' :: (if e < 0 then '-' else '+') :: digits e.natAbs

def Layout.magnitude (l : Layout) (d : Scaled) : List Char :=
  let ds := digits d.digits
  let e : Int := ds.length - 1 + d.exponent
  if l.positional e then plainNotation l.fraction ds d.exponent else scientificNotation ds e

def isNegative (x : Float) : Bool := Nat.pow 2 63 ≤ x.toBits.toNat

/-- Zero keeps its sign. -/
def Layout.write (l : Layout) (x : Float) : List Char :=
  (if isNegative x then ['-'] else []) ++ l.magnitude ((Binary.ofFloat x).shortest l.tie)

end ClauseTree.Decimal
