import Lindenmayer.Random.Source
import Lindenmayer.Numeric.Arithmetic

/-! Choosing an index with given weights, by one random word. -/
namespace Lindenmayer.Weighted

/-- The sums of the first one, two, ... weights on top of a start. -/
def sums : Float → List Float → List Float
  | _, [] => []
  | s, w :: ws => (s + w) :: sums (s + w) ws

def total (weights : List Float) : Float := weights.foldl (· + ·) 0

/-- The largest fraction that a word stands for. -/
def topFraction : Float := 1 - powerOfTwo (-52)

/-- The first double at or below the one with the given bits whose largest multiple stays below
the total. -/
def fitScale (total : Float) : Nat → Float
  | 0 => .ofBits 0
  | bits + 1 =>
    let scale := Float.ofBits (UInt64.ofNat (bits + 1))
    if scale * topFraction ≥ total then fitScale total bits else scale

/-- The number between 0 and the scale that a word stands for. -/
def point (word : UInt64) (scale : Float) : Float :=
  (Float.ofNat (word >>> 12).toNat * powerOfTwo (-52)) * scale

/-- The index of a weight: how many of the sums before the last one are not above the point. -/
def index (weights : List Float) (word : UInt64) : Nat :=
  let all := total weights
  let x := point word (fitScale all all.toBits.toNat)
  ((sums 0 weights).dropLast.filter (· ≤ x)).length

end Lindenmayer.Weighted
