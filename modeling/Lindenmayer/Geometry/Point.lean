/-! Points of the plane. -/
namespace Lindenmayer

/-- A point, or a displacement, of the plane. -/
structure Point where
  x : Float
  y : Float
  deriving Repr, Inhabited

namespace Point

def origin : Point := ⟨0, 0⟩

def add (p q : Point) : Point := ⟨p.x + q.x, p.y + q.y⟩

def sub (p q : Point) : Point := ⟨p.x - q.x, p.y - q.y⟩

def scale (p : Point) (k : Float) : Point := ⟨p.x * k, p.y * k⟩

instance : Add Point := ⟨add⟩
instance : Sub Point := ⟨sub⟩

def distance (p q : Point) : Float :=
  let d := p - q
  (d.x * d.x + d.y * d.y).sqrt

end Point
end Lindenmayer
