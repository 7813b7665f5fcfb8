import Lindenmayer.Proofs.Turtle.Canvas
import Lindenmayer.Proofs.Turtle.Steps
import Lindenmayer.Turtle.Recorder

/-! Stances: what a cursor and a surface both hold of a turtle. A run tells its surface of every
change to the stance of the cursor, so that the two never drift apart, and cosmetic hooks do not
drive them apart either, since the cursor follows the width that they leave. -/
namespace Lindenmayer

/-- The place and the direction of a turtle, whether its pen is down, and the width of the pen. -/
structure Stance where
  position : Point
  heading : Float
  isDown : Bool
  width : Float

namespace Stance

/-- The stance after a command, when each value is stored as it is given. -/
def follow (x : Stance) : Command → Stance
  | .moveTo p | .lineTo p => { x with position := p }
  | .setHeading h => { x with heading := h }
  | .penUp => { x with isDown := false }
  | .penDown => { x with isDown := true }
  | .setPenWidth w => { x with width := w }
  | .setColor _ => x

/-- The stance after some commands in order. -/
def followAll (x : Stance) (commands : List Command) : Stance := commands.foldl follow x

/-- The stance apart from the width. -/
def bare (x : Stance) : Point × Float × Bool := (x.position, x.heading, x.isDown)

/-- Two stances that are one apart from the widths, with a relation between the widths. -/
structure Matches (same : Float → Float → Prop) (x y : Stance) : Prop where
  position : x.position = y.position
  heading : x.heading = y.heading
  isDown : x.isDown = y.isDown
  width : same x.width y.width

variable {same : Float → Float → Prop} {x y : Stance}

theorem matches_iff_bare : x.Matches same y ↔ x.bare = y.bare ∧ same x.width y.width := by
  simp only [bare, Prod.mk.injEq]
  exact ⟨fun ⟨hp, hh, hd, hw⟩ => ⟨⟨hp, hh, hd⟩, hw⟩, fun ⟨⟨hp, hh, hd⟩, hw⟩ => ⟨hp, hh, hd, hw⟩⟩

theorem matches_self (h : ∀ w, same w w) (x : Stance) : x.Matches same x :=
  ⟨rfl, rfl, rfl, h x.width⟩

theorem matches_eq_iff : x.Matches (· = ·) y ↔ x = y := by
  refine ⟨fun ⟨hp, hh, hd, hw⟩ => ?_, fun h => h ▸ matches_self (fun _ => rfl) x⟩
  obtain ⟨position, heading, isDown, width⟩ := x
  cases hp
  cases hh
  cases hd
  cases hw
  rfl

theorem bare_follow_cosmetic (x : Stance) {m : Command} (h : m.isCosmetic) :
    (x.follow m).bare = x.bare := by
  cases m <;> first | rfl | contradiction

end Stance

def Cursor.stance (c : Cursor) : Stance := ⟨c.position, c.heading, c.penDown, c.penWidth⟩

/-- The commands of an action tell all that it does to the stance of the cursor. -/
theorem Cursor.stance_step {c : Cursor} {p : Params} {stack : Stack} {a : Action} {e : Effect}
    (h : c.step p stack a = .ok e) : c.stance.followAll e.commands = e.cursor.stance := by
  cases a with
  | pop =>
    cases stack with
    | nil => cases h
    | cons s rest => cases h; rfl
  | _ => cases h; rfl

namespace Surface
variable {σ : Type} [Surface σ]

/-- The stance that a surface holds. Whether the pen is down is for each surface to tell. -/
def stance (isDown : σ → Bool) (s : σ) : Stance := ⟨position s, heading s, isDown s, penWidth s⟩

/-- A surface whose setters store what they are given. -/
def Stores (isDown : σ → Bool) : Prop :=
  ∀ s m, stance isDown (perform s m) = (stance isDown s).follow m

/-- A surface that stores what it is given, but of the width perhaps not the very same double. -/
def Keeps (isDown : σ → Bool) (same : Float → Float → Prop) : Prop :=
  ∀ s x m, (stance isDown s).Matches same x →
    (stance isDown (perform s m)).Matches same (x.follow m)

variable {isDown : σ → Bool} {same : Float → Float → Prop}

theorem Stores.keeps (h : Stores isDown) : Keeps isDown (· = ·) := by
  intro s x m hx
  rw [Stance.matches_eq_iff] at hx ⊢
  rw [h, hx]

theorem Keeps.matches_performAll (h : Keeps isDown same) {s : σ} {x : Stance}
    (hx : (stance isDown s).Matches same x) (commands : List Command) :
    (stance isDown (performAll s commands)).Matches same (x.followAll commands) := by
  induction commands generalizing s x with
  | nil => exact hx
  | cons m ms ih => exact ih (h s x m hx)

/-- Cosmetic commands leave all but the width. -/
theorem Keeps.bare_performAll (h : Keeps isDown same) (hs : ∀ w, same w w) (s : σ)
    {commands : List Command} (hc : ∀ m ∈ commands, m.isCosmetic) :
    (stance isDown (performAll s commands)).bare = (stance isDown s).bare := by
  induction commands generalizing s with
  | nil => rfl
  | cons m ms ih =>
    obtain ⟨hm, hms⟩ := List.forall_mem_cons.mp hc
    have hp := (Stance.matches_iff_bare.mp (h s _ m (Stance.matches_self hs _))).1
    rw [performAll_cons, ih _ hms, hp, Stance.bare_follow_cosmetic _ hm]

/-- Hooks that give cosmetic commands leave all but the width. -/
theorem Keeps.bare_hook {τ : Type} (h : Keeps isDown same) (hs : ∀ w, same w w) {part : τ → σ}
    {hooks : List (Hook τ)} (hc : ∀ k ∈ hooks, k.IsCosmeticThrough part) :
    ∀ k ∈ hooks, ∀ m s,
      (stance isDown (part (k m s))).bare = (stance isDown (part s)).bare := by
  intro k hk m s
  obtain ⟨commands, hm, he⟩ := hc k hk m s
  rw [he]
  exact h.bare_performAll hs (part s) hm

/-- Notes make no difference to what a surface keeps. -/
theorem Keeps.noted {ν : Type} (h : Keeps isDown same) :
    Keeps (fun n : Noted σ ν => isDown n.surface) same :=
  fun n => h n.surface

end Surface

theorem Recorder.stores : Surface.Stores Recorder.penDown := by
  intro r m
  cases m with
  | setColor k => cases hc : r.colored <;> simp [Surface.perform, perform, hc] <;> rfl
  | _ => rfl

def Pen.stance (p : Pen) : Stance := ⟨p.position, p.heading, p.isDown, p.width⟩

/-- A pen has the stance that it is told, with the number of the width. -/
theorem Pen.matches_follow {p : Pen} {x : Stance} (h : p.stance.Matches SameNumber x)
    (m : Command) : (p.follow m).stance.Matches SameNumber (x.follow m) := by
  cases m with
  | moveTo _ | lineTo _ => exact ⟨rfl, h.heading, h.isDown, h.width⟩
  | setHeading _ => exact ⟨h.position, rfl, h.isDown, h.width⟩
  | penUp | penDown => exact ⟨h.position, h.heading, rfl, h.width⟩
  | setPenWidth _ => exact ⟨h.position, h.heading, h.isDown, sameNumber_adopt _ _⟩
  | setColor _ => exact ⟨h.position, h.heading, h.isDown, h.width⟩

theorem Canvas.keeps : Surface.Keeps Canvas.penDown SameNumber := by
  intro c x m h
  have hp : Surface.stance Canvas.penDown (Surface.perform c m) = (c.pen.follow m).stance := by
    rw [← Canvas.pen_perform]
    rfl
  rw [hp]
  exact Pen.matches_follow (p := c.pen) h m

namespace Turtle
variable {σ : Type} [Surface σ] {isDown : σ → Bool} {same : Float → Float → Prop} {t : Turtle σ}

/-- Cursor and surface hold the same stance. -/
def Agrees (isDown : σ → Bool) (same : Float → Float → Prop) (t : Turtle σ) : Prop :=
  (Surface.stance isDown t.surface).Matches same t.cursor.stance

theorem agrees_start (hk : Surface.Keeps isDown same) (hs : ∀ w, same w w) (p : Params)
    (pose : Pose) (surface : σ) : (start p pose surface).Agrees isDown same :=
  hk.matches_performAll (Stance.matches_self hs _) (opening pose _)

/-- Hooks that leave all but the width keep the two together, for the cursor takes the width that
they leave. -/
theorem Agrees.observe (h : t.Agrees isDown same) (hs : ∀ w, same w w) {hooks : List (Hook σ)}
    (hb : ∀ k ∈ hooks, ∀ m s, (Surface.stance isDown (k m s)).bare = (Surface.stance isDown s).bare)
    (n : Nat) (c : Char) : (t.observe hooks n c).Agrees isDown same := by
  by_cases hn : hooks = []
  · rw [hn, observe_nil]
    exact h
  · refine Stance.matches_iff_bare.mpr ⟨?_, ?_⟩
    · rw [surface_observe_of_spared (f := fun s => (Surface.stance isDown s).bare) hb,
        cursor_observe]
      exact (Stance.matches_iff_bare.mp h).1
    · have hw := penWidth_observe hn n c t
      simp only [Surface.stance, Cursor.stance, hw]
      exact hs _

theorem Agrees.act (h : t.Agrees isDown same) (hk : Surface.Keeps isDown same) {p : Params}
    {a : Action} {next : Turtle σ} (ha : t.act p a = .ok next) : next.Agrees isDown same := by
  obtain ⟨e, he, rfl⟩ := act_eq_ok_iff.mp ha
  unfold Agrees
  rw [← Cursor.stance_step he]
  exact hk.matches_performAll h e.commands

end Turtle

namespace Interpreter
variable {σ ν : Type} [Surface σ] {isDown : σ → Bool} {same : Float → Float → Prop}

/-- Cursor and surface agree from the start of a run to its end, at every step before the action and
after it. -/
private theorem agrees_run (i : Interpreter) (hk : Surface.Keeps isDown same)
    (hs : ∀ w, same w w) {hooks : List (Hook (Noted σ ν))}
    (hc : ∀ k ∈ hooks, k.IsCosmeticThrough Noted.surface) (pose : Pose) (w : Word) (surface : σ)
    (notes : List ν) :
    let isDown (n : Noted σ ν) := isDown n.surface
    let start := Turtle.start i.params pose (⟨surface, notes⟩ : Noted σ ν)
    start.Agrees isDown same ∧
      (∀ s ∈ i.steps hooks 0 w start, s.before.Agrees isDown same ∧ s.after.Agrees isDown same) ∧
      (i.run hooks pose w ⟨surface, notes⟩).turtle.Agrees isDown same := by
  intro isDown' start
  have hkeeps : Surface.Keeps isDown' same := hk.noted
  have hstart : start.Agrees isDown' same := Turtle.agrees_start hkeeps hs i.params pose _
  exact ⟨hstart, run_invariant (fun n c t h => h.observe hs (hk.bare_hook hs hc) n c)
    (fun a t next h ha => h.act hkeeps ha) 0 w hstart⟩

/-- Cursor and surface never drift apart. After the opening of a run, and at each of its steps after
the hooks and after the action, a surface whose setters store what they are given holds the place,
the heading, the pen state and the width of the cursor. So does a canvas in any state, but that its
width may be another double for the same number. The hooks give cosmetic commands and may note what
they like. -/
theorem stance_run (i : Interpreter) (pose : Pose) (w : Word) {ν : Type} (notes : List ν) :
    (∀ {σ : Type} [Surface σ] (isDown : σ → Bool), Surface.Stores isDown →
      ∀ hooks : List (Hook (Noted σ ν)), (∀ k ∈ hooks, k.IsCosmeticThrough Noted.surface) →
      ∀ surface : σ,
        let start := Turtle.start i.params pose (⟨surface, notes⟩ : Noted σ ν)
        let agree (t : Turtle (Noted σ ν)) :=
          Surface.stance isDown t.surface.surface = t.cursor.stance
        agree start ∧ (∀ s ∈ i.steps hooks 0 w start, agree s.before ∧ agree s.after) ∧
          agree (i.run hooks pose w ⟨surface, notes⟩).turtle) ∧
    ∀ hooks : List (Hook (Noted Canvas ν)), (∀ k ∈ hooks, k.IsCosmeticThrough Noted.surface) →
      ∀ canvas : Canvas,
        let start := Turtle.start i.params pose (⟨canvas, notes⟩ : Noted Canvas ν)
        let agree (t : Turtle (Noted Canvas ν)) :=
          (Surface.stance Canvas.penDown t.surface.surface).Matches SameNumber t.cursor.stance
        agree start ∧ (∀ s ∈ i.steps hooks 0 w start, agree s.before ∧ agree s.after) ∧
          agree (i.run hooks pose w ⟨canvas, notes⟩).turtle := by
  refine ⟨fun isDown hstores hooks hc surface => ?_, fun hooks hc canvas => ?_⟩
  · have h := i.agrees_run hstores.keeps (fun _ => rfl) hc pose w surface notes
    simp only [Turtle.Agrees, Stance.matches_eq_iff] at h
    exact h
  · exact i.agrees_run Canvas.keeps SameNumber.refl hc pose w canvas notes

/-- A hook that numbers its calls and widens the pen at every second one, on a recorder, and on a
canvas in the middle of a stroke. -/
theorem stance_run_banded :
    let i : Interpreter := ⟨.standard, .ofAngle 90⟩
    let looks (m : Moment) : List Command :=
      [.setPenWidth (if m.index % 2 = 0 then 1 else 3), .setColor .black]
    let band (σ : Type) [Surface σ] : Hook (Noted σ Nat) := fun m n =>
      (Surface.performAll n (looks m)).note m.index
    let w : Word := ['F', '[', '#', 'F', ']', '+', 'f', 'F']
    let recorder : Recorder := .blank false 1
    let canvas : Canvas := Surface.performAll (.blank 2 .black) [.lineTo ⟨1, 0⟩]
    let recorded := (i.run [band Recorder] .standard w ⟨recorder, []⟩).turtle
    let drawn := (i.run [band Canvas] .standard w ⟨canvas, []⟩).turtle
    Surface.stance Recorder.penDown recorded.surface.surface = recorded.cursor.stance ∧
      (Surface.stance Canvas.penDown drawn.surface.surface).Matches SameNumber
        drawn.cursor.stance := by
  intro i looks band w recorder canvas recorded drawn
  have hb (σ : Type) [Surface σ] : ∀ k ∈ [band σ], k.IsCosmeticThrough Noted.surface := by
    refine List.forall_mem_singleton.mpr fun m n => ⟨looks m, ?_, rfl⟩
    exact List.forall_mem_cons.mpr ⟨rfl, List.forall_mem_singleton.mpr rfl⟩
  obtain ⟨hstores, hcanvas⟩ := stance_run i .standard w ([] : List Nat)
  exact ⟨(hstores Recorder.penDown Recorder.stores _ (hb Recorder) recorder).2.2,
    (hcanvas _ (hb Canvas) canvas).2.2⟩

end Interpreter
end Lindenmayer
