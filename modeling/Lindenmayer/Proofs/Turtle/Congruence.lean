import Lindenmayer.Proofs.Turtle.Underflow
import Lindenmayer.Turtle.Decoration
import Lindenmayer.Turtle.Recorder
import Mathlib.Data.List.Forall2

/-! Congruent runs. Widths go from the surface to the cursor, from there to the saved states, and
back. Nothing else comes to depend on them: runs that differ in looks alone make the same moves. -/
namespace Lindenmayer

/-- A saved state apart from its width. -/
def Saved.bare (s : Saved) : Point × Float × Float := (s.position, s.heading, s.stepLength)

/-- The commands among some that move the surface or its pen: all but the cosmetic ones. -/
def Command.moves (commands : List Command) : List Command := commands.filter (!·.isCosmetic)

theorem Command.moves_append (ms ns : List Command) : moves (ms ++ ns) = moves ms ++ moves ns :=
  List.filter_append ms ns

theorem Command.moves_cosmetic {ms : List Command} (h : ∀ m ∈ ms, m.isCosmetic) : moves ms = [] :=
  List.filter_eq_nil_iff.mpr fun m hm => by simp [h m hm]

/-- Cursors that are one apart from the pen width. -/
structure Cursor.Congruent (c d : Cursor) : Prop where
  position : c.position = d.position
  heading : c.heading = d.heading
  penDown : c.penDown = d.penDown
  stepLength : c.stepLength = d.stepLength
  turningAngle : c.turningAngle = d.turningAngle

/-- Effects that leave congruent cursors, and stacks of one depth with the same states apart from
the widths, by the same moves. -/
structure Effect.Congruent (e f : Effect) : Prop where
  cursor : e.cursor.Congruent f.cursor
  stack : e.stack.map Saved.bare = f.stack.map Saved.bare
  moves : Command.moves e.commands = Command.moves f.commands

namespace Cursor.Congruent
variable {c d : Cursor} {s t : Stack}

theorem ahead (h : c.Congruent d) (length : Option Float) : c.ahead length = d.ahead length := by
  simp only [Cursor.ahead, h.position, h.heading, h.stepLength]

theorem bare_save (h : c.Congruent d) : c.save.bare = d.save.bare := by
  simp only [Cursor.save, Saved.bare, h.position, h.heading, h.stepLength]

theorem turn (h : c.Congruent d) (hs : s.map Saved.bare = t.map Saved.bare) {x y : Float}
    (hx : x = y) : (c.turn s x).Congruent (d.turn t y) := by
  cases hx
  exact ⟨⟨h.position, rfl, h.penDown, h.stepLength, h.turningAngle⟩, hs, rfl⟩

/-- Congruent cursors have congruent effects, or they fail alike, however much the widths and the
increments of the width differ. -/
theorem step (h : c.Congruent d) (hs : s.map Saved.bare = t.map Saved.bare) (p : Params)
    (increment : Float) (a : Action) :
    let q := { p with widthIncrement := increment }
    (∃ f, c.step p s a = .error f ∧ d.step q t a = .error f) ∨
      ∃ e f, c.step p s a = .ok e ∧ d.step q t a = .ok f ∧ e.Congruent f := by
  intro q
  cases a with
  | noop => exact .inr ⟨_, _, rfl, rfl, h, hs, rfl⟩
  | draw length =>
    have ht := h.ahead length
    refine .inr ⟨_, _, rfl, rfl, ⟨ht, h.heading, rfl, h.stepLength, h.turningAngle⟩, hs, ?_⟩
    rw [ht]
  | jump length =>
    have ht := h.ahead length
    refine .inr ⟨_, _, rfl, rfl, ⟨ht, h.heading, rfl, h.stepLength, h.turningAngle⟩, hs, ?_⟩
    rw [ht]
  | turnLeft angle => exact .inr ⟨_, _, rfl, rfl, h.turn hs (by rw [h.heading, h.turningAngle])⟩
  | turnRight angle => exact .inr ⟨_, _, rfl, rfl, h.turn hs (by rw [h.heading, h.turningAngle])⟩
  | reverse => exact .inr ⟨_, _, rfl, rfl, h.turn hs (by rw [h.heading])⟩
  | push => exact .inr ⟨_, _, rfl, rfl, h, congrArg₂ List.cons h.bare_save hs, rfl⟩
  | pop =>
    cases s with
    | nil =>
      cases t with
      | nil => exact .inl ⟨_, rfl, rfl⟩
      | cons y ys => cases hs
    | cons x xs =>
      cases t with
      | nil => cases hs
      | cons y ys =>
        obtain ⟨hb, hrest⟩ := List.cons.inj hs
        simp only [Saved.bare, Prod.mk.injEq] at hb
        obtain ⟨hp, hh, hl⟩ := hb
        -- Of the commands, only the one for the width tells the two apart.
        refine .inr ⟨_, _, rfl, rfl, ⟨hp, hh, rfl, hl, h.turningAngle⟩, hrest, ?_⟩
        simp [Command.moves, Command.isCosmetic, hp, hh]
  | width change =>
    refine .inr ⟨_, _, rfl, rfl,
      ⟨h.position, h.heading, h.penDown, h.stepLength, h.turningAngle⟩, hs, ?_⟩
    simp [Command.moves, Command.isCosmetic]
  | length change =>
    refine .inr ⟨_, _, rfl, rfl, ⟨h.position, h.heading, h.penDown, ?_, h.turningAngle⟩, hs, rfl⟩
    rw [h.stepLength]
  | angle change =>
    refine .inr ⟨_, _, rfl, rfl, ⟨h.position, h.heading, h.penDown, h.stepLength, ?_⟩, hs, rfl⟩
    rw [h.turningAngle]

end Cursor.Congruent

variable {σ τ ν μ : Type} [Surface σ] [Surface τ]

namespace Turtle

/-- The moves that the surface was given, in order. -/
def moves (t : Turtle (Noted (Logged σ) ν)) : List Command := Command.moves t.surface.surface.log

/-- Turtles with congruent cursors, with stacks of one depth and the same states apart from the
widths, and with surfaces that were given the same moves. -/
structure Congruent (t : Turtle (Noted (Logged σ) ν)) (u : Turtle (Noted (Logged τ) μ)) : Prop where
  cursor : t.cursor.Congruent u.cursor
  stack : t.stack.map Saved.bare = u.stack.map Saved.bare
  moves : t.moves = u.moves

private theorem moves_performAll (s : Noted (Logged σ) ν) (ms : List Command) :
    Command.moves (Surface.performAll s ms).surface.log =
      Command.moves s.surface.log ++ Command.moves ms := by
  let log (s : Noted (Logged σ) ν) := s.surface.log
  have hlog : ∀ s m, log (Surface.perform s m) = log s ++ [m] := fun _ _ => rfl
  rw [← Command.moves_append]
  exact congrArg Command.moves (Surface.log_performAll hlog s ms)

private theorem moves_observe {hooks : List (Hook (Noted (Logged σ) ν))}
    (hc : ∀ k ∈ hooks, k.IsCosmeticThrough Noted.surface) (n : Nat) (c : Char)
    (t : Turtle (Noted (Logged σ) ν)) : (t.observe hooks n c).moves = t.moves := by
  let geometric (s : Noted (Logged σ) ν) := Command.moves s.surface.log
  have hspared : ∀ k ∈ hooks, ∀ m s, geometric (k m s) = geometric s := by
    intro k hk m s
    obtain ⟨commands, hm, he⟩ := hc k hk m s
    have hlog : (k m s).surface.log = s.surface.log ++ commands := by
      rw [he]
      exact Surface.log_performAll (fun _ _ => rfl) s.surface commands
    change Command.moves (k m s).surface.log = Command.moves s.surface.log
    rw [hlog, Command.moves_append, Command.moves_cosmetic hm, List.append_nil]
  exact surface_observe_of_spared hspared n c t

namespace Congruent
variable {t : Turtle (Noted (Logged σ) ν)} {u : Turtle (Noted (Logged τ) μ)}

theorem start (p : Params) (increment : Float) (pose : Pose) (width : Option Float)
    (surface : σ) (other : τ) (notes : List ν) (others : List μ) :
    (Turtle.start p pose (⟨⟨surface, []⟩, notes⟩ : Noted (Logged σ) ν)).Congruent
      (Turtle.start { p with widthIncrement := increment } { pose with penWidth := width }
        (⟨⟨other, []⟩, others⟩ : Noted (Logged τ) μ)) :=
  ⟨⟨rfl, rfl, rfl, rfl, rfl⟩, rfl, rfl⟩

/-- Cosmetic hooks change widths and looks, on either side. -/
theorem observe (h : t.Congruent u) {hooks : List (Hook (Noted (Logged σ) ν))}
    (hc : ∀ k ∈ hooks, k.IsCosmeticThrough Noted.surface)
    {others : List (Hook (Noted (Logged τ) μ))}
    (ho : ∀ k ∈ others, k.IsCosmeticThrough Noted.surface) (n : Nat) (c : Char) :
    (t.observe hooks n c).Congruent (u.observe others n c) where
  cursor := by
    obtain ⟨hp, hh, hd, hl, ha⟩ := h.cursor
    rw [cursor_observe, cursor_observe others]
    exact ⟨hp, hh, hd, hl, ha⟩
  stack := by
    rw [stack_observe, stack_observe]
    exact h.stack
  moves := by
    rw [moves_observe hc, moves_observe ho]
    exact h.moves

theorem act (h : t.Congruent u) (p : Params) (increment : Float) (a : Action) :
    let q := { p with widthIncrement := increment }
    (∃ f, t.act p a = .error f ∧ u.act q a = .error f) ∨
      ∃ next other, t.act p a = .ok next ∧ u.act q a = .ok other ∧ next.Congruent other := by
  intro q
  rcases h.cursor.step h.stack p increment a with ⟨f, ht, hu⟩ | ⟨e, f, ht, hu, he⟩
  · exact .inl ⟨f, by rw [Turtle.act, ht], by rw [Turtle.act, hu]⟩
  · refine .inr ⟨_, _, act_eq_ok_iff.mpr ⟨e, ht, rfl⟩, act_eq_ok_iff.mpr ⟨f, hu, rfl⟩,
      he.cursor, he.stack, ?_⟩
    calc Command.moves (Surface.performAll t.surface e.commands).surface.log
      _ = t.moves ++ Command.moves e.commands := moves_performAll _ _
      _ = u.moves ++ Command.moves f.commands := by rw [h.moves, he.moves]
      _ = Command.moves (Surface.performAll u.surface f.commands).surface.log :=
        (moves_performAll _ _).symm

end Congruent
end Turtle

/-- Steps at one symbol, from congruent turtles to congruent ones. -/
structure Step.Congruent (s : Step (Noted (Logged σ) ν)) (r : Step (Noted (Logged τ) μ)) : Prop
    where
  symbol : s.symbol = r.symbol
  before : s.before.Congruent r.before
  after : s.after.Congruent r.after

namespace Interpreter

private theorem walk_congruent (i : Interpreter) (increment : Float)
    {hooks : List (Hook (Noted (Logged σ) ν))}
    (hc : ∀ k ∈ hooks, k.IsCosmeticThrough Noted.surface)
    {others : List (Hook (Noted (Logged τ) μ))}
    (ho : ∀ k ∈ others, k.IsCosmeticThrough Noted.surface) (n : Nat) (w : Word)
    {t : Turtle (Noted (Logged σ) ν)} {u : Turtle (Noted (Logged τ) μ)} (h : t.Congruent u) :
    let j : Interpreter := ⟨i.bindings, { i.params with widthIncrement := increment }⟩
    (i.walk hooks n w t).fault = (j.walk others n w u).fault ∧
      List.Forall₂ Step.Congruent (i.steps hooks n w t) (j.steps others n w u) ∧
      (i.walk hooks n w t).turtle.Congruent (j.walk others n w u).turtle := by
  intro j
  induction w generalizing n t u with
  | nil => exact ⟨rfl, .nil, h⟩
  | cons c cs ih =>
    have hw := h.observe hc ho n c
    rcases hw.act i.params increment (i.bindings.action c) with
      ⟨f, ht, hu⟩ | ⟨next, other, ht, hu, hn⟩
    · have hj : (u.observe others n c).act j.params (j.bindings.action c) = .error f := hu
      rw [walk_cons_of_error ht, walk_cons_of_error hj, steps_cons_of_error ht,
        steps_cons_of_error hj]
      exact ⟨rfl, .nil, hw⟩
    · have hj : (u.observe others n c).act j.params (j.bindings.action c) = .ok other := hu
      obtain ⟨hf, hs, hl⟩ := ih (n + 1) hn
      rw [walk_cons_of_ok ht, walk_cons_of_ok hj, steps_cons_of_ok ht, steps_cons_of_ok hj]
      exact ⟨hf, .cons ⟨rfl, hw, hn⟩ hs, hl⟩

/-- Looks never decide where a turtle goes. Take two runs of one word from one place, heading and
step length, on any two surfaces, with any pen widths, width increments and cosmetic hooks. They
have the same fault or none, at the same symbol. Step by step, and where they stop, their cursors
are one apart from the pen width, their stacks have one depth, and their surfaces have been given
the same moves. -/
theorem run_congruent (i : Interpreter) (increment : Float) (pose : Pose) (width : Option Float)
    (w : Word) (surface : σ) (other : τ) (notes : List ν) (others : List μ)
    (hooks : List (Hook (Noted (Logged σ) ν))) (hooks' : List (Hook (Noted (Logged τ) μ)))
    (hc : ∀ k ∈ hooks, k.IsCosmeticThrough Noted.surface)
    (ho : ∀ k ∈ hooks', k.IsCosmeticThrough Noted.surface) :
    let j : Interpreter := ⟨i.bindings, { i.params with widthIncrement := increment }⟩
    let pose' := { pose with penWidth := width }
    let s : Noted (Logged σ) ν := ⟨⟨surface, []⟩, notes⟩
    let r : Noted (Logged τ) μ := ⟨⟨other, []⟩, others⟩
    let start := Turtle.start i.params pose s
    let start' := Turtle.start j.params pose' r
    let run := i.run hooks pose w s
    let run' := j.run hooks' pose' w r
    run.fault = run'.fault ∧
      start.Congruent start' ∧
      List.Forall₂ Step.Congruent (i.steps hooks 0 w start) (j.steps hooks' 0 w start') ∧
      run.turtle.Congruent run'.turtle := by
  intro j pose' s r start start' run run'
  have hs : start.Congruent start' :=
    .start i.params increment pose width surface other notes others
  obtain ⟨hf, hsteps, hl⟩ := i.walk_congruent increment hc ho 0 w hs
  exact ⟨hf, hs, hsteps, hl⟩

/-- A canvas under a taper and a hook that counts, and a recorder with another pen and without
hooks: both runs fail at the seventh symbol, after the same moves. -/
theorem run_congruent_tapered :
    let i : Interpreter := ⟨.standard, .ofAngle 90⟩
    let j : Interpreter := ⟨i.bindings, { i.params with widthIncrement := 3 }⟩
    let count : Hook (Noted (Logged Canvas) Nat) := fun m s => s.note m.index
    let hooks : List (Hook (Noted (Logged Canvas) Nat)) := [(Decoration.taper ⟨3⟩).hook, count]
    let w : Word := ['F', '[', '#', '+', 'F', ']', ']', 'F']
    let s : Noted (Logged Canvas) Nat := ⟨⟨.blank 1 .black, []⟩, []⟩
    let r : Noted (Logged Recorder) Nat := ⟨⟨.blank false 2, []⟩, []⟩
    let run := i.run hooks .standard w s
    let run' := j.run [] { Pose.standard with penWidth := some 5 } w r
    run.fault = some ⟨.nothingSaved, some 6, .fatal⟩ ∧
      run'.fault = some ⟨.nothingSaved, some 6, .fatal⟩ ∧
      run.turtle.moves = run'.turtle.moves := by
  intro i j count hooks w s r run run'
  have hc : ∀ k ∈ hooks, k.IsCosmeticThrough Noted.surface := by
    refine List.forall_mem_cons.mpr ⟨fun m s => ?_, List.forall_mem_singleton.mpr fun m s => ?_⟩
    · exact ⟨[(Decoration.taper ⟨3⟩).command m], List.forall_mem_singleton.mpr rfl, rfl⟩
    · exact ⟨[], nofun, rfl⟩
  obtain ⟨hf, _, _, hl⟩ := run_congruent i 3 .standard (some 5) w (Canvas.blank 1 .black)
    (Recorder.blank false 2) [] [] hooks ([] : List (Hook (Noted (Logged Recorder) Nat))) hc nofun
  have hfault : run'.fault = some ⟨.nothingSaved, some 6, .fatal⟩ := rfl
  exact ⟨hf.trans hfault, hfault, hl.moves⟩

end Interpreter
end Lindenmayer
