import Lindenmayer.Numeric.Arithmetic

/-! Colors by red, green and blue channels from 0 to 1. -/
namespace Lindenmayer

structure Color where
  red : Float
  green : Float
  blue : Float
  deriving Repr, BEq, Inhabited

namespace Color

def black : Color := ⟨0, 0, 0⟩
def white : Color := ⟨1, 1, 1⟩

/-- Each channel held to the range from 0 to 1. -/
def clamped (red green blue : Float) : Color :=
  ⟨clamp red 0 1, clamp green 0 1, clamp blue 0 1⟩

def ofBytes (red green blue : UInt8) : Color :=
  ⟨Float.ofNat red.toNat / 255, Float.ofNat green.toNat / 255, Float.ofNat blue.toNat / 255⟩

/-- The place of a hue on the six-sided wheel, in sixths of a turn. -/
def sixths (hue : Float) : Float := wrap hue 1 * 6

/-- The color of a hue in turns, a saturation and a value. The hue wraps around. Saturation and
value count as given, and only the channels are held to their range. -/
def ofHue (hue saturation value : Float) : Color :=
  if saturation == 0 then clamped value value value
  else
    let place := sixths hue
    let sector := roundDown place
    let f := place - sector
    let p := value * (1 - saturation)
    let q := value * fusedMulAdd saturation (-f) 1
    let t := value * fusedMulAdd saturation (f - 1) 1
    match sector.toUInt8 with
    | 0 => clamped value t p
    | 1 => clamped q value p
    | 2 => clamped p value t
    | 3 => clamped p q value
    | 4 => clamped t p value
    | _ => clamped value p q

end Color
end Lindenmayer
