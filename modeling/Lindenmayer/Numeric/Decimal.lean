import Lindenmayer.Numeric.Binary

/-! Decimal texts of doubles: the fewest digits that read back, and a fixed number of places. -/
namespace Lindenmayer.Decimal

/-- The decimal digits of `n`, left-padded with zeros to at least `width`. -/
def digits (n width : Nat) : String :=
  let ds := Nat.repr n
  "".pushn '0' (width - ds.length) ++ ds

/-- The number `n · 10 ^ -places` written with exactly that many places. -/
def pointed (n places : Nat) : String :=
  if places = 0 then Nat.repr n
  else Nat.repr (n / Nat.pow 10 places) ++ "." ++ digits (n % Nat.pow 10 places) places

/-- The texts of the values that are no numerals; `finite` writes the others. -/
def write (finite : Binary → String) (x : Float) : String :=
  match Binary.ofFloat? x with
  | some b => (if b.negative then "-" else "") ++ finite b
  | none => if x.isNaN then "NaN" else if x < 0 then "-inf" else "inf"

/-- `x` with exactly `places` decimal places: its exact value rounded, a half to the even
neighbour. A negative number that rounds to zero keeps its sign. -/
def fixed (places : Nat) : Float → String :=
  write fun b =>
    let scaled : Binary := ⟨false, b.significand * Nat.pow 10 places, b.exponent⟩
    pointed (scaled.nearest .toEven) places

/-- The numbers that round to a double, as `low`, `value` and `high` over a common denominator.
The ends belong to them when the significand is even. -/
structure Interval where
  low : Nat
  value : Nat
  high : Nat
  denominator : Nat
  closed : Bool

/-- The interval of the magnitude of a nonzero double. Below a power of two the doubles are twice
as dense. -/
def Interval.of (b : Binary) : Interval :=
  let m := b.significand
  let below := if m = Nat.pow 2 52 ∧ -1074 < b.exponent then 1 else 2
  let up := (b.exponent - 2).toNat
  let down := (2 - b.exponent).toNat
  ⟨(4 * m - below) <<< up, (4 * m) <<< up, (4 * m + 2) <<< up, 1 <<< down, m % 2 == 0⟩

/-- The multiple `c · 10 ^ k` in the interval that is nearest to its value, as `c`. -/
def Interval.multiple? (i : Interval) (tie : Tie) (k : Int) : Option Nat :=
  let scale := Nat.pow 10 (-k).toNat
  let unit := i.denominator * Nat.pow 10 k.toNat
  let low := i.low * scale
  let value := i.value * scale
  let high := i.high * scale
  let inside (c : Nat) :=
    if i.closed then low ≤ c * unit && c * unit ≤ high else low < c * unit && c * unit < high
  let c := value / unit
  let nearer := roundQuotient tie value unit
  if inside nearer then some nearer
  else if inside c then some c
  else if inside (c + 1) then some (c + 1)
  else none

/-- The coarsest decimal grid `10 ^ k`, from `k` downward, that has a point in the interval. -/
def Interval.search (i : Interval) (tie : Tie) : Nat → Int → Option (Nat × Int)
  | 0, _ => none
  | n + 1, k =>
    match i.multiple? tie k with
    | some c => some (c, k)
    | none => i.search tie n (k - 1)

/-- The shortest decimal that reads back as the double, nearest to it among those, as digits and
a power of ten. -/
def shortest (tie : Tie) (b : Binary) : Nat × Int :=
  if b.significand = 0 then (0, 0)
  else
    let top := (b.exponent + b.significand.log2 + 1) * 30103 / 100000 + 2
    ((Interval.of b).search tie 24 top).getD (0, 0)

/-- The decimal `c · 10 ^ k` in positional notation, without trailing zeros after a point. -/
def positional (c : Nat) (k : Int) : String :=
  if 0 ≤ k then Nat.repr (c * Nat.pow 10 k.toNat) else pointed c (-k).toNat

/-- The decimal `c · 10 ^ k` with one digit before the point, and a power of ten that always has a
sign. -/
def scientific (c : Nat) (k : Int) : String :=
  let ds := (Nat.repr c).toList
  let fraction := if ds.length = 1 then "" else "." ++ String.ofList (ds.drop 1)
  let power := k + ds.length - 1
  String.ofList (ds.take 1) ++ fraction ++ (if power < 0 then "e-" else "e+") ++
    Nat.repr power.natAbs

/-- `x` with the fewest digits that read back as `x` and always a point or a power of ten. The
power stands from 10 ^ 16 upward and below 0.00001. Of two equally near, the even one is taken. -/
def general : Float → String :=
  write fun b =>
    let (c, k) := shortest .toEven b
    let size := k + (Nat.repr c).length
    if c ≠ 0 ∧ (16 < size ∨ size ≤ -5) then scientific c k
    else if 0 ≤ k then positional c k ++ ".0"
    else positional c k

/-- `x` in positional notation with the fewest digits that read back as `x`. Of two equally near,
the larger one is taken. -/
def exact : Float → String :=
  write fun b => let (c, k) := shortest .awayFromZero b; positional c k

end Lindenmayer.Decimal
