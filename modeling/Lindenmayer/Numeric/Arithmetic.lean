import Lindenmayer.Numeric.Binary

/-! Arithmetic on doubles beyond the four operations. Each result is computed exactly on binary
numerals and then rounded once. -/
namespace Lindenmayer

def notANumber : Float := 0.0 / 0.0

def infinity : Float := 1.0 / 0.0

/-- The remainder of the division of `x` by `y` with the quotient cut to an integer. It has the
sign of `x` and is exact. -/
def remainder (x y : Float) : Float :=
  match Binary.ofFloat? x, Binary.ofFloat? y with
  | some a, some b =>
    if b.significand = 0 then notANumber
    else
      let e := min a.exponent b.exponent
      let m := a.significand <<< (a.exponent - e).toNat
      let n := b.significand <<< (b.exponent - e).toNat
      Binary.toFloat ⟨a.negative, m % n, e⟩
  | some _, none => if y.isNaN then notANumber else x
  | none, _ => notANumber

/-- `x` brought into one turn of the given period. A tiny negative `x` may round up to the
period itself. -/
def wrap (x period : Float) : Float :=
  let r := remainder x period
  if r < 0 then r + period.abs else r

/-- The largest integer that is not above `x`. -/
def roundDown (x : Float) : Float :=
  match Binary.ofFloat? x with
  | none => x
  | some b =>
    if 0 ≤ b.exponent then x
    else
      let m := b.whole
      let cut := m <<< (-b.exponent).toNat ≠ b.significand
      Binary.toFloat ⟨b.negative, if b.negative ∧ cut then m + 1 else m, 0⟩

/-- `x * y + z` with a single rounding. -/
def fusedMulAdd (x y z : Float) : Float :=
  match Binary.ofFloat? x, Binary.ofFloat? y, Binary.ofFloat? z with
  | some a, some b, some c =>
    let product : Binary :=
      ⟨a.negative != b.negative, a.significand * b.significand, a.exponent + b.exponent⟩
    let e := min product.exponent c.exponent
    let sum := product.signedAt e + c.signedAt e
    if sum = 0 then Binary.toFloat ⟨product.negative && c.negative, 0, e⟩
    else Binary.toFloat ⟨sum < 0, sum.natAbs, e⟩
  | some _, some _, none => z
  | _, _, _ => x * y + z

/-- Two to an integer power: zero below the format's range and infinite above it. -/
def powerOfTwo (n : Int) : Float :=
  Binary.toFloat ⟨false, 1, n⟩

/-- The integer part of a finite double, cut toward zero; zero for the others. -/
def integerPart (x : Float) : Int :=
  match Binary.ofFloat? x with
  | none => 0
  | some b => if b.negative then -(b.whole : Int) else b.whole

/-- The byte nearest to `x`, halves upward. Below the range it is 0, above it 255, and 0 for
what is not a number. -/
def nearestByte (x : Float) : UInt8 :=
  match Binary.ofFloat? x with
  | none => if 0 < x then 255 else 0
  | some b => if b.negative then 0 else UInt8.ofNat (min (b.nearest .awayFromZero) 255)

/-- The smaller of two numbers. An operand that is not a number yields to the other; of two
equal ones the first is kept. -/
def lesser (x y : Float) : Float :=
  if x.isNaN then y else if y < x then y else x

/-- The larger of two numbers. An operand that is not a number yields to the other; of two
equal ones the first is kept. -/
def greater (x y : Float) : Float :=
  if x.isNaN then y else if x < y then y else x

/-- `x` held between two bounds. What is not a number stays so. -/
def clamp (x low high : Float) : Float :=
  let y := if x < low then low else x
  if high < y then high else y

end Lindenmayer
