import Lindenmayer.Proofs.Numeric.Equality
import Lindenmayer.Proofs.Picture.Marks
import Lindenmayer.Turtle.Surface

/-! Pens: what shows of a surface apart from its picture. A pen alone tells which segments some
commands draw and which of them end a stroke. -/
namespace Lindenmayer

namespace Surface
variable {σ : Type} [Surface σ]

@[simp] theorem performAll_nil (s : σ) : performAll s [] = s := rfl

@[simp] theorem performAll_cons (s : σ) (m : Command) (ms : List Command) :
    performAll s (m :: ms) = performAll (perform s m) ms := rfl

@[simp] theorem performAll_append (s : σ) (ms ns : List Command) :
    performAll s (ms ++ ns) = performAll (performAll s ms) ns := List.foldl_append

end Surface

section Adopt
variable {α : Type} [BEq α]

/-- The value held after a new one is asked for. One that equals it is not taken over. -/
def adopt (held new : α) : α := if new == held then held else new

variable [PartialEquivBEq α]

private theorem foldl_adopt_of_beq {x z : α} (h : x == z) (ws : List α) :
    ws.foldl adopt x = ws.foldl adopt z ∨ ws.foldl adopt x = x ∧ ws.foldl adopt z = z := by
  induction ws with
  | nil => exact .inr ⟨rfl, rfl⟩
  | cons w ws ih =>
    have hw : (w == x) = (w == z) := BEq.congr_right h
    cases hz : w == z with
    | true => simpa [adopt, hw, hz] using ih
    | false => exact .inl (by simp [adopt, hw, hz])

/-- Asking for the same values a second time changes nothing. A value need not equal itself for
this. -/
theorem foldl_adopt_foldl (x : α) (ws : List α) :
    ws.foldl adopt (ws.foldl adopt x) = ws.foldl adopt x := by
  induction ws generalizing x with
  | nil => rfl
  | cons w ws ih =>
    simp only [List.foldl_cons]
    generalize hy : ws.foldl adopt (adopt x w) = y
    have hi : ws.foldl adopt y = y := by rw [← hy, ih]
    cases hwy : w == y with
    | true => simpa [adopt, hwy] using hi
    | false =>
      simp only [adopt, hwy] at hy ⊢
      cases hwx : w == x with
      | false => simpa [hwx] using hy
      | true =>
        simp only [hwx, if_true] at hy
        -- The second pass starts from a value equal to the first start, so the two agree unless
        -- neither of them ever leaves its start; but then the first ends at an equal of w.
        rcases foldl_adopt_of_beq hwx ws with he | ⟨_, hx⟩
        · exact he.trans hy
        · rw [hx] at hy
          rw [hy, hwy] at hwx
          contradiction

end Adopt

theorem sameNumber_adopt (held new : Float) : SameNumber (adopt held new) new := by
  unfold adopt
  cases h : new == held with
  | true => exact .inl (BEq.symm h)
  | false => exact SameNumber.refl new

/-- A pen: its place and direction, whether it draws, and how. -/
structure Pen where
  position : Point
  heading : Float
  isDown : Bool
  width : Float
  color : Color

namespace Pen

/-- The pen after a command. -/
def follow (p : Pen) : Command → Pen
  | .moveTo q | .lineTo q => { p with position := q }
  | .setHeading h => { p with heading := h }
  | .penUp => { p with isDown := false }
  | .penDown => { p with isDown := true }
  | .setPenWidth w => { p with width := adopt p.width w }
  | .setColor k => { p with color := adopt p.color k }

/-- The pen after some commands in order. -/
def followAll (p : Pen) (commands : List Command) : Pen := commands.foldl follow p

/-- The segment that a command draws: a line with the pen down, from where the pen is and as it
draws then. -/
def mark? (p : Pen) : Command → Option Mark
  | .lineTo q => if p.isDown then some ⟨p.position, q, p.width, p.color⟩ else none
  | _ => none

/-- The segments that some commands draw, each by the pen as it is then. -/
def marks (p : Pen) : List Command → List Mark
  | [] => []
  | m :: ms => (p.mark? m).toList ++ (p.follow m).marks ms

/-- Whether a command ends the stroke that is being drawn: a move, a lift, or a width or color that
differs from the one held. -/
def breaks (p : Pen) : Command → Bool
  | .moveTo _ | .penUp => true
  | .setPenWidth w => w != p.width
  | .setColor k => k != p.color
  | _ => false

/-- Whether one of some commands ends the stroke that is being drawn. -/
def breaksIn (p : Pen) : List Command → Bool
  | [] => false
  | m :: ms => p.breaks m || (p.follow m).breaksIn ms

theorem mark?_eq_some_iff {p : Pen} {m : Command} {mark : Mark} :
    p.mark? m = some mark ↔
      p.isDown = true ∧ ∃ q, m = .lineTo q ∧ mark = ⟨p.position, q, p.width, p.color⟩ := by
  cases m with
  | lineTo q => cases hd : p.isDown <;> simp [mark?, hd, eq_comm]
  | _ => simp [mark?]

@[simp] theorem followAll_nil (p : Pen) : p.followAll [] = p := rfl

@[simp] theorem followAll_cons (p : Pen) (m : Command) (ms : List Command) :
    p.followAll (m :: ms) = (p.follow m).followAll ms := rfl

private def widths (ms : List Command) : List Float :=
  ms.filterMap fun | .setPenWidth w => some w | _ => none

private def colors (ms : List Command) : List Color :=
  ms.filterMap fun | .setColor k => some k | _ => none

private theorem followAll_cosmetic (p : Pen) {ms : List Command} (h : ∀ m ∈ ms, m.isCosmetic) :
    p.followAll ms =
      { p with
        width := (widths ms).foldl adopt p.width, color := (colors ms).foldl adopt p.color } := by
  induction ms generalizing p with
  | nil => rfl
  | cons m ms ih =>
    obtain ⟨hm, hms⟩ := List.forall_mem_cons.mp h
    rw [followAll_cons, ih _ hms]
    cases m <;> simp_all [Command.isCosmetic, follow, widths, colors]

theorem mark?_cosmetic (p : Pen) {m : Command} (h : m.isCosmetic) : p.mark? m = none := by
  cases m <;> first | rfl | contradiction

/-- Giving cosmetic commands a second time changes nothing. -/
theorem followAll_twice (p : Pen) {ms : List Command} (h : ∀ m ∈ ms, m.isCosmetic) :
    (p.followAll ms).followAll ms = p.followAll ms := by
  simp [followAll_cosmetic _ h, foldl_adopt_foldl]

theorem follow_of_not_breaks (p : Pen) {m : Command} (h : m.isCosmetic)
    (hb : p.breaks m = false) : p.follow m = p := by
  cases m with
  | setPenWidth w =>
    have hw : (w == p.width) = true := by simpa [breaks, bne] using hb
    simp [follow, adopt, hw]
  | setColor k =>
    have hk : (k == p.color) = true := by simpa [breaks, bne] using hb
    simp [follow, adopt, hk]
  | _ => contradiction

end Pen
end Lindenmayer
