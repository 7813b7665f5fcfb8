import Lindenmayer.Proofs.Numeric.Whole
import Lindenmayer.Proofs.Turtle.Discipline

/-! Turtles on the integer lattice. Where all steps and headings are integers and all turns are
quarter turns, a turtle does not drift: it goes where one goes that counts in integers. -/
namespace Lindenmayer

/-- A place and a heading on the integer lattice. -/
structure Site where
  x : ℤ
  y : ℤ
  heading : ℤ
  deriving DecidableEq, Repr

namespace Site

/-- The neighbour of the origin that a heading points to, by the quarter turns in it. -/
def direction (heading : ℤ) : ℤ × ℤ :=
  match heading / 90 % 4 with
  | 0 => (1, 0)
  | 1 => (0, 1)
  | 2 => (-1, 0)
  | _ => (0, -1)

def ahead (s : Site) (length : ℤ) : Site :=
  { s with x := s.x + (direction s.heading).1 * length, y := s.y + (direction s.heading).2 * length }

end Site

/-- A turtle that counts in integers: where it is and what it has saved. -/
structure Lattice where
  site : Site
  saved : List Site
  deriving DecidableEq, Repr

namespace Lattice

/-- The effect of an action on the lattice, with one length for all steps and one angle for all
turns. Restoring fails when nothing is saved. -/
def act (length angle : ℤ) (l : Lattice) : Action → Option Lattice
  | .draw _ | .jump _ => some { l with site := l.site.ahead length }
  | .turnLeft _ => some { l with site.heading := l.site.heading + angle }
  | .turnRight _ => some { l with site.heading := l.site.heading - angle }
  | .reverse => some { l with site.heading := -l.site.heading }
  | .push => some { l with saved := l.site :: l.saved }
  | .pop =>
    match l.saved with
    | [] => none
    | s :: rest => some ⟨s, rest⟩
  | _ => some l

/-- The symbols of a word with the states that they lead to, up to the first that fails. -/
def path (b : Bindings) (length angle : ℤ) : Word → Lattice → List (Char × Lattice)
  | [], _ => []
  | c :: cs, l =>
    match l.act length angle (b.action c) with
    | none => []
    | some next => (c, next) :: path b length angle cs next

end Lattice

/-- An action whose amount, if it has a place for one, is the step length or the turning angle, and
that does not change these. -/
def Action.isPlain : Action → Bool
  | .noop | .draw none | .jump none | .turnLeft none | .turnRight none | .reverse | .push | .pop =>
    true
  | _ => false

section QuarterTurns

/-- On quarter turns the displacement of a heading is exact. -/
theorem value?_unit {heading : Float} {k : ℤ} (h : value? heading = some (k : ℚ)) (hk : 90 ∣ k) :
    value? (Heading.unit heading).x = some ((Site.direction k).1 : ℚ) ∧
      value? (Heading.unit heading).y = some ((Site.direction k).2 : ℚ) := by
  have h0 : value? 0 = some ((0 : ℤ) : ℚ) := value?_zero
  have h90 : value? 90 = some ((90 : ℤ) : ℚ) := value?_literal 90 (by decide)
  have h180 : value? 180 = some ((180 : ℤ) : ℚ) := value?_literal 180 (by decide)
  have h270 : value? 270 = some ((270 : ℤ) : ℚ) := value?_literal 270 (by decide)
  have h360 : value? 360 = some ((360 : ℤ) : ℚ) := value?_literal 360 (by decide)
  obtain ⟨q, rfl⟩ := hk
  have hwrap := value?_wrap h h360 (by decide) (by decide)
  have hbeq {c : Float} {v : ℤ} (hc : value? c = some (v : ℚ)) :
      (wrap heading 360 == c) = true ↔ 90 * q % 360 = v := by
    rw [value_beq_iff hwrap hc]
    exact Int.cast_inj
  have hdirection : 90 * q / 90 % 4 = q % 4 := by omega
  have hq : q % 4 = 0 ∨ q % 4 = 1 ∨ q % 4 = 2 ∨ q % 4 = 3 := by omega
  simp only [Heading.unit, Site.direction, hbeq h0, hbeq h90, hbeq h180, hbeq h270, hdirection]
  -- The four exact branches, one for each direction.
  obtain hq | hq | hq | hq := hq
  · rw [if_pos (by omega), hq]
    simp [value?_zero, value?_one]
  · rw [if_neg (by omega), if_pos (by omega), hq]
    simp [value?_zero, value?_one]
  · rw [if_neg (by omega), if_neg (by omega), if_pos (by omega), hq]
    simp [value?_zero, value?_neg value?_one]
  · rw [if_neg (by omega), if_neg (by omega), if_neg (by omega), if_pos (by omega), hq]
    simp [value?_zero, value?_neg value?_one]

theorem abs_direction_mul_le (k length : ℤ) :
    |(Site.direction k).1 * length| ≤ |length| ∧ |(Site.direction k).2 * length| ≤ |length| := by
  unfold Site.direction
  split <;> simp

end QuarterTurns

section Simulation
variable {length angle : ℤ}

/-- The point stands where the site is. -/
def Point.IsAt (p : Point) (s : Site) : Prop :=
  value? p.x = some (s.x : ℚ) ∧ value? p.y = some (s.y : ℚ)

/-- A site from which as many steps and turns stay within the integers of 53 bits, with a multiple
of a quarter turn for its heading. -/
structure Site.HasRoom (length angle : ℤ) (n : Nat) (s : Site) : Prop where
  x : |s.x| + n * |length| ≤ 2 ^ 53
  y : |s.y| + n * |length| ≤ 2 ^ 53
  heading : |s.heading| + n * |angle| ≤ 2 ^ 53
  quarter : 90 ∣ s.heading

namespace Site.HasRoom
variable {n : Nat} {s : Site} {size size' amount bound : ℤ}

private theorem le_of_room (h : size + (n + 1 : Nat) * |amount| ≤ bound) :
    size + |amount| ≤ bound := by
  have hn : 0 ≤ (n : ℤ) * |amount| := by positivity
  push_cast at h
  linarith

/-- What grows by no more than the amount uses up no more than its share of the room. -/
private theorem room_of_le (h : size + (n + 1 : Nat) * |amount| ≤ bound)
    (hle : size' ≤ size + |amount|) : size' + n * |amount| ≤ bound := by
  push_cast at h
  linarith

theorem succ (h : s.HasRoom length angle (n + 1)) : s.HasRoom length angle n where
  x := room_of_le h.x (le_add_of_nonneg_right (abs_nonneg _))
  y := room_of_le h.y (le_add_of_nonneg_right (abs_nonneg _))
  heading := room_of_le h.heading (le_add_of_nonneg_right (abs_nonneg _))
  quarter := h.quarter

theorem abs_ahead_le (s : Site) (length : ℤ) :
    |(s.ahead length).x| ≤ |s.x| + |length| ∧ |(s.ahead length).y| ≤ |s.y| + |length| := by
  obtain ⟨hx, hy⟩ := abs_direction_mul_le s.heading length
  exact ⟨(abs_add_le _ _).trans (by gcongr), (abs_add_le _ _).trans (by gcongr)⟩

theorem ahead (h : s.HasRoom length angle (n + 1)) : (s.ahead length).HasRoom length angle n where
  x := room_of_le h.x (abs_ahead_le s length).1
  y := room_of_le h.y (abs_ahead_le s length).2
  heading := h.succ.heading
  quarter := h.quarter

theorem turn (h : s.HasRoom length angle (n + 1)) {heading : ℤ}
    (hle : |heading| ≤ |s.heading| + |angle|) (hq : 90 ∣ heading) :
    ({ s with heading := heading } : Site).HasRoom length angle n where
  x := h.succ.x
  y := h.succ.y
  heading := room_of_le h.heading hle
  quarter := hq

theorem abs_heading_add_le (h : s.HasRoom length angle (n + 1)) :
    |s.heading| + |angle| ≤ 2 ^ 53 := le_of_room h.heading

/-- From a point on the lattice a step leads to a point on the lattice, without rounding. -/
theorem advance (h : s.HasRoom length angle (n + 1)) {p : Point} {heading step : Float}
    (hp : p.IsAt s) (hh : value? heading = some (s.heading : ℚ))
    (hstep : value? step = some (length : ℚ)) : (p.advance heading step).IsAt (s.ahead length) := by
  obtain ⟨hux, huy⟩ := value?_unit hh h.quarter
  obtain ⟨hdx, hdy⟩ := abs_direction_mul_le s.heading length
  obtain ⟨hx, hy⟩ := abs_ahead_le s length
  have hlength : |length| ≤ 2 ^ 53 :=
    (le_add_of_nonneg_left (abs_nonneg s.x)).trans (le_of_room h.x)
  exact ⟨value?_add_int hp.1 (value?_mul_int hux hstep (hdx.trans hlength))
      (hx.trans (le_of_room h.x)),
    value?_add_int hp.2 (value?_mul_int huy hstep (hdy.trans hlength))
      (hy.trans (le_of_room h.y))⟩

end Site.HasRoom

/-- The cursor is at the site and heads where it heads. -/
structure Cursor.IsAt (c : Cursor) (s : Site) : Prop where
  position : c.position.IsAt s
  heading : value? c.heading = some (s.heading : ℚ)

structure Saved.IsAt (length : ℤ) (s : Saved) (l : Site) : Prop where
  position : s.position.IsAt l
  heading : value? s.heading = some (l.heading : ℚ)
  stepLength : value? s.stepLength = some (length : ℚ)

/-- A turtle that takes steps and turns of these sizes, and is where one on the lattice is. -/
structure Turtle.Follows {σ : Type} (length angle : ℤ) (t : Turtle σ) (l : Lattice) : Prop where
  cursor : t.cursor.IsAt l.site
  stepLength : value? t.cursor.stepLength = some (length : ℚ)
  turningAngle : value? t.cursor.turningAngle = some (angle : ℚ)
  stack : List.Forall₂ (Saved.IsAt length) t.stack l.saved

structure Lattice.HasRoom (length angle : ℤ) (n : Nat) (l : Lattice) : Prop where
  site : l.site.HasRoom length angle n
  saved : ∀ s ∈ l.saved, s.HasRoom length angle n

namespace Turtle.Follows
variable {σ : Type} [Surface σ] {t : Turtle σ} {l : Lattice} {n : Nat}

theorem observe (h : t.Follows length angle l) (hooks : List (Hook σ)) (n : Nat) (c : Char) :
    (t.observe hooks n c).Follows length angle l := by
  have hc := cursor_observe hooks n c t
  refine ⟨⟨?_, ?_⟩, ?_, ?_, by rw [stack_observe]; exact h.stack⟩
  · rw [hc]; exact h.cursor.position
  · rw [hc]; exact h.cursor.heading
  · rw [hc]; exact h.stepLength
  · rw [hc]; exact h.turningAngle

omit [Surface σ] in
/-- Ahead on the lattice, whatever becomes of the pen and of the surface. -/
private theorem moved (h : t.Follows length angle l) (hroom : l.HasRoom length angle (n + 1))
    (down : Bool) (surface : σ) :
    Turtle.Follows length angle
        ⟨{ t.cursor with position := t.cursor.ahead none, penDown := down }, t.stack, surface⟩
        { l with site := l.site.ahead length } ∧
      Lattice.HasRoom length angle n { l with site := l.site.ahead length } := by
  have hp := hroom.site.advance h.cursor.position h.cursor.heading h.stepLength
  exact ⟨⟨⟨hp, h.cursor.heading⟩, h.stepLength, h.turningAngle, h.stack⟩,
    hroom.site.ahead, fun s hs => (hroom.saved s hs).succ⟩

omit [Surface σ] in
private theorem turned (h : t.Follows length angle l) (hroom : l.HasRoom length angle (n + 1))
    {x : Float} {k : ℤ} (hx : value? x = some (k : ℚ)) (hle : |k| ≤ |l.site.heading| + |angle|)
    (hq : 90 ∣ k) (surface : σ) :
    Turtle.Follows length angle ⟨{ t.cursor with heading := x }, t.stack, surface⟩
        { l with site.heading := k } ∧
      Lattice.HasRoom length angle n { l with site.heading := k } :=
  ⟨⟨⟨h.cursor.position, hx⟩, h.stepLength, h.turningAngle, h.stack⟩,
    hroom.site.turn hle hq, fun s hs => (hroom.saved s hs).succ⟩

/-- The step lemma: both fail, or both go on to one place of the lattice. -/
theorem act (h : t.Follows length angle l) (hroom : l.HasRoom length angle (n + 1))
    (hquarter : 90 ∣ angle) {a : Action} (ha : a.isPlain) (p : Params) :
    (t.act p a = .error (.of .nothingSaved) ∧ l.act length angle a = none) ∨
      ∃ next l', t.act p a = .ok next ∧ l.act length angle a = some l' ∧
        next.Follows length angle l' ∧ l'.HasRoom length angle n := by
  have hsaved : ∀ s ∈ l.saved, s.HasRoom length angle n := fun s hs => (hroom.saved s hs).succ
  have hbound := hroom.site.abs_heading_add_le
  cases a with
  | noop => exact .inr ⟨_, _, rfl, rfl, h, hroom.site.succ, hsaved⟩
  | draw amount =>
    obtain rfl : amount = none := by cases amount <;> trivial
    exact .inr ⟨_, _, rfl, rfl, h.moved hroom true _⟩
  | jump amount =>
    obtain rfl : amount = none := by cases amount <;> trivial
    exact .inr ⟨_, _, rfl, rfl, h.moved hroom true _⟩
  | turnLeft amount =>
    obtain rfl : amount = none := by cases amount <;> trivial
    have hle := abs_add_le l.site.heading angle
    have hx := value?_add_int h.cursor.heading h.turningAngle (hle.trans hbound)
    exact .inr ⟨_, _, rfl, rfl, h.turned hroom hx hle (dvd_add hroom.site.quarter hquarter) _⟩
  | turnRight amount =>
    obtain rfl : amount = none := by cases amount <;> trivial
    have hle := abs_sub l.site.heading angle
    have hx := value?_sub_int h.cursor.heading h.turningAngle (hle.trans hbound)
    exact .inr ⟨_, _, rfl, rfl, h.turned hroom hx hle (dvd_sub hroom.site.quarter hquarter) _⟩
  | reverse =>
    have hle : |-l.site.heading| ≤ |l.site.heading| + |angle| := by
      rw [abs_neg]
      exact le_add_of_nonneg_right (abs_nonneg angle)
    have hx : value? (-t.cursor.heading) = some ((-l.site.heading : ℤ) : ℚ) := by
      rw [Int.cast_neg]
      exact value?_neg h.cursor.heading
    exact .inr ⟨_, _, rfl, rfl, h.turned hroom hx hle (dvd_neg.mpr hroom.site.quarter) _⟩
  | push =>
    have hs : t.cursor.save.IsAt length l.site :=
      ⟨h.cursor.position, h.cursor.heading, h.stepLength⟩
    exact .inr ⟨_, _, rfl, rfl, ⟨h.cursor, h.stepLength, h.turningAngle, .cons hs h.stack⟩,
      hroom.site.succ, List.forall_mem_cons.mpr ⟨hroom.site.succ, hsaved⟩⟩
  | pop =>
    -- What was saved had more room than is left now.
    obtain ⟨c, stack, surface⟩ := t
    obtain ⟨site, saved⟩ := l
    cases h.stack with
    | nil => exact .inl ⟨rfl, rfl⟩
    | cons hs hrest =>
      obtain ⟨hsite, hsaved⟩ := List.forall_mem_cons.mp hsaved
      exact .inr ⟨_, _, rfl, rfl, ⟨⟨hs.position, hs.heading⟩, hs.stepLength, h.turningAngle, hrest⟩,
        hsite, hsaved⟩
  | _ => cases ha

end Turtle.Follows

/-- A step that leads to a state of the lattice, by the same symbol. -/
structure Step.LeadsTo {σ : Type} (s : Step σ) (next : Char × Lattice) : Prop where
  symbol : s.symbol = next.1
  cursor : s.after.cursor.IsAt next.2.site

namespace Interpreter
variable {σ ν : Type} [Surface σ] {i : Interpreter}

private theorem walk_lattice (hooks : List (Hook σ)) (hquarter : 90 ∣ angle) (n : Nat) {w : Word}
    (hw : ∀ c ∈ w, (i.bindings.action c).isPlain) {t : Turtle σ} {l : Lattice}
    (h : t.Follows length angle l) (hroom : l.HasRoom length angle w.length) :
    let path := Lattice.path i.bindings length angle w l
    List.Forall₂ Step.LeadsTo (i.steps hooks n w t) path ∧
      (i.walk hooks n w t).turtle.cursor.IsAt ((path.map Prod.snd).getLastD l).site ∧
      (i.walk hooks n w t).fault =
        if path.length = w.length then none
        else some ⟨.nothingSaved, some (n + path.length), .fatal⟩ := by
  induction w generalizing n t l with
  | nil => exact ⟨.nil, h.cursor, rfl⟩
  | cons c cs ih =>
    obtain ⟨hc, hcs⟩ := List.forall_mem_cons.mp hw
    have ho := h.observe hooks n c
    obtain ⟨ha, hl⟩ | ⟨next, l', ha, hl, hnext, hroom'⟩ := ho.act hroom hquarter hc i.params
    · simp only [Lattice.path, hl]
      rw [steps_cons_of_error ha, walk_cons_of_error ha]
      exact ⟨.nil, ho.cursor, rfl⟩
    · obtain ⟨hsteps, hlast, hfault⟩ := ih (n + 1) hcs hnext hroom'
      simp only [Lattice.path, hl]
      rw [steps_cons_of_ok ha, walk_cons_of_ok ha]
      refine ⟨.cons ⟨rfl, hnext.cursor⟩ hsteps, ?_, ?_⟩
      · rw [List.map_cons, List.getLastD_cons]
        exact hlast
      · rw [hfault]
        simp only [List.length_cons, Nat.add_right_cancel_iff, Nat.add_assoc, Nat.add_comm 1]

/-- Figures of right angles are drawn without drift. Let the symbols of a word draw, jump, turn,
reverse, save, restore or do nothing, with no amounts of their own; let the turning angle and the
first heading be multiples of 90, and the first place and the step length be integers. As long as
the numbers cannot leave the integers of 53 bits, each step leads to the place and heading that
counting in integers gives, and the run ends, or fails, where that does. If the hooks give cosmetic
commands only, the lines that the surface is asked for end where counting in integers draws. -/
theorem run_lattice (i : Interpreter) (hooks : List (Hook (Noted (Logged σ) ν))) (pose : Pose)
    (w : Word) (surface : σ) (notes : List ν) (start : Site)
    (hw : ∀ c ∈ w, (i.bindings.action c).isPlain)
    (hangle : value? i.params.angle = some (angle : ℚ)) (hquarter : 90 ∣ angle)
    (hlength : value? pose.stepLength = some (length : ℚ)) (hposition : pose.position.IsAt start)
    (hheading : value? pose.heading = some (start.heading : ℚ))
    (hroom : start.HasRoom length angle w.length) :
    let s : Noted (Logged σ) ν := ⟨⟨surface, []⟩, notes⟩
    let run := i.run hooks pose w s
    let path := Lattice.path i.bindings length angle w ⟨start, []⟩
    let lines := path.filter fun next => (i.bindings.action next.1).isDraw
    List.Forall₂ Step.LeadsTo (i.steps hooks 0 w (.start i.params pose s)) path ∧
      run.turtle.cursor.IsAt ((path.map Prod.snd).getLastD ⟨start, []⟩).site ∧
      run.fault =
        (if path.length = w.length then none else some ⟨.nothingSaved, some path.length, .fatal⟩) ∧
      ((∀ k ∈ hooks, k.IsCosmeticThrough Noted.surface) →
        List.Forall₂ Point.IsAt (run.turtle.given.filterMap Command.lineEnd?)
          (lines.map fun next => next.2.site)) := by
  intro s run path lines
  have hfollows : (Turtle.start i.params pose s).Follows length angle ⟨start, []⟩ :=
    ⟨⟨hposition, hheading⟩, hlength, hangle, .nil⟩
  obtain ⟨hsteps, hlast, hfault⟩ := walk_lattice hooks hquarter 0 hw hfollows ⟨hroom, nofun⟩
  rw [Nat.zero_add] at hfault
  refine ⟨hsteps, hlast, hfault, fun hc => ?_⟩
  rw [lineEnds_run i hc pose w surface notes, List.forall₂_map_left_iff,
    List.forall₂_map_right_iff]
  have hdraws : Relator.LiftFun Step.LeadsTo Iff
      (fun s : Step (Noted (Logged σ) ν) => (i.bindings.action s.symbol).isDraw = true)
      (fun next : Char × Lattice => (i.bindings.action next.1).isDraw = true) := by
    intro s next h
    exact iff_of_eq (congrArg (fun c => (i.bindings.action c).isDraw = true) h.symbol)
  exact (List.rel_filter hdraws hsteps).imp fun s next h => h.cursor.position

/-- Turns of 450 degrees from a heading of -270, with a reversal inside brackets, under a taper. -/
theorem run_lattice_hook :
    let i : Interpreter := ⟨.standard, .ofAngle 450⟩
    let hooks : List (Hook (Noted (Logged Canvas) Nat)) := [(Decoration.taper ⟨3⟩).hook]
    let pose : Pose := ⟨⟨3, -2⟩, -270, 7, none⟩
    let w : Word := ['F', '+', '[', 'F', '-', '|', 'F', ']', 'f']
    let run := i.run hooks pose w (⟨⟨.blank 1 .black, []⟩, []⟩ : Noted (Logged Canvas) Nat)
    run.fault = none ∧ run.turtle.cursor.IsAt ⟨-4, 5, 180⟩ ∧
      List.Forall₂ Point.IsAt (run.turtle.given.filterMap Command.lineEnd?)
        [⟨3, 5, -270⟩, ⟨-4, 5, 180⟩, ⟨-4, -2, 270⟩] := by
  intro i hooks pose w run
  have hc : ∀ k ∈ hooks, k.IsCosmeticThrough Noted.surface := by
    refine List.forall_mem_singleton.mpr fun m s => ?_
    exact ⟨[(Decoration.taper ⟨3⟩).command m], List.forall_mem_singleton.mpr rfl, rfl⟩
  have hroom : (⟨3, -2, -270⟩ : Site).HasRoom 7 450 w.length :=
    ⟨by decide, by decide, by decide, by decide⟩
  have hw : ∀ c ∈ w, (i.bindings.action c).isPlain := List.all_eq_true.mp rfl
  obtain ⟨-, hlast, hfault, hlines⟩ := run_lattice i hooks pose w (.blank 1 .black) [] ⟨3, -2, -270⟩
    hw (by decide +kernel) (by decide) (by decide +kernel)
    ⟨by decide +kernel, by decide +kernel⟩ (by decide +kernel) hroom
  exact ⟨hfault, hlast, hlines hc⟩

end Interpreter

end Simulation

end Lindenmayer
