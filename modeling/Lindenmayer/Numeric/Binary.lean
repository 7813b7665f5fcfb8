/-! Finite doubles as the binary numerals they stand for, and the double nearest to a numeral. Powers
of natural numbers are `Nat.pow` by name, so that they mean the same under any imports. -/
namespace Lindenmayer

/-- What becomes of a quotient that lies halfway between two integers. -/
inductive Tie where
  | toEven
  | awayFromZero
  deriving DecidableEq, Repr

/-- The integer nearest to n / d. -/
def roundQuotient (tie : Tie) (n d : Nat) : Nat :=
  let q := n / d
  let r := n % d
  if 2 * r < d then q
  else if d < 2 * r then q + 1
  else match tie with
    | .toEven => q + q % 2
    | .awayFromZero => q + 1

/-- The number ± significand · 2 ^ exponent. A zero keeps its sign. -/
structure Binary where
  negative : Bool
  significand : Nat
  exponent : Int
  deriving DecidableEq, Repr

namespace Binary

/-- The numeral of a finite double, with the exponent the format stores it at; nothing for
infinities and NaN. -/
def ofFloat? (x : Float) : Option Binary :=
  let bits := x.toBits
  let negative := bits >>> 63 == 1
  let field := (bits >>> 52 &&& 0x7ff).toNat
  let fraction := (bits &&& 0xfffffffffffff).toNat
  if field = 0x7ff then none
  else if field = 0 then some ⟨negative, fraction, -1074⟩
  else some ⟨negative, Nat.pow 2 52 + fraction, field - 1075⟩

/-- The double with this sign and the magnitude `m · 2 ^ t`, where `t ≥ -1074` and `m` has 53
bits unless `t` is least. A magnitude past the largest double is an infinity. -/
def assemble (negative : Bool) (m : Nat) (t : Int) : Float :=
  let magnitude := min ((t + 1074).toNat * Nat.pow 2 52 + m) (0x7ff * Nat.pow 2 52)
  .ofBits (UInt64.ofNat (if negative then Nat.pow 2 63 + magnitude else magnitude))

/-- The double nearest to the number, ties to the even significand. -/
def toFloat (b : Binary) : Float :=
  let width : Int := b.significand.log2 + 1
  let t := max (b.exponent + width - 53) (-1074)
  if b.significand = 0 ∨ b.exponent + width < -1074 then assemble b.negative 0 (-1074)
  else if t ≤ b.exponent then
    assemble b.negative (b.significand <<< (b.exponent - t).toNat) t
  else
    assemble b.negative (roundQuotient .toEven b.significand (1 <<< (t - b.exponent).toNat)) t

/-- The signed significand once the exponent is lowered to `e`. -/
def signedAt (b : Binary) (e : Int) : Int :=
  let m : Int := b.significand <<< (b.exponent - e).toNat
  if b.negative then -m else m

def whole (b : Binary) : Nat :=
  if 0 ≤ b.exponent then b.significand <<< b.exponent.toNat
  else b.significand >>> (-b.exponent).toNat

def nearest (tie : Tie) (b : Binary) : Nat :=
  if 0 ≤ b.exponent then b.significand <<< b.exponent.toNat
  else roundQuotient tie b.significand (1 <<< (-b.exponent).toNat)

end Binary
end Lindenmayer
