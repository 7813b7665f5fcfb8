import Lindenmayer.Proofs.Turtle.Congruence

/-! The order of the commands that a run gives. The pen is lifted before every move and put down
before every line, and a line starts where the surface was led last. -/
namespace Lindenmayer

section Splits
variable {α : Type} {P : List α → α → Prop}

/-- A property of every element of a list with the elements before it. -/
def AtEach (P : List α → α → Prop) (l : List α) : Prop :=
  ∀ before m after, l = before ++ m :: after → P before m

theorem atEach_nil : AtEach P [] := by
  intro before m after h
  simp at h

theorem atEach_cons {x : α} {l : List α} :
    AtEach P (x :: l) ↔ P [] x ∧ AtEach (fun before => P (x :: before)) l := by
  constructor
  · intro h
    exact ⟨h [] x l rfl, fun before m after hl => h (x :: before) m after (by rw [hl]; rfl)⟩
  · rintro ⟨hx, h⟩ before m after hl
    cases before with
    | nil =>
      cases hl
      exact hx
    | cons y before =>
      obtain ⟨rfl, htail⟩ := List.cons.inj hl
      exact h before m after htail

theorem atEach_append {l k : List α} :
    AtEach P (l ++ k) ↔ AtEach P l ∧ AtEach (fun before => P (l ++ before)) k := by
  induction l generalizing P with
  | nil => simp [atEach_nil]
  | cons x l ih => simp only [List.cons_append, atEach_cons, ih, and_assoc]

theorem AtEach.imp {Q : List α → α → Prop} {l : List α} (h : AtEach P l)
    (hi : ∀ before, ∀ m ∈ l, P before m → Q before m) : AtEach Q l := by
  intro before m after hl
  exact hi before m (by simp [hl]) (h before m after hl)

end Splits

namespace Command

/-- The state that a command gives to the pen, if it is for the pen. -/
def pen? : Command → Option Bool
  | penUp => some false
  | penDown => some true
  | _ => none

/-- The place that a command leads to, if it leads to one. -/
def target? : Command → Option Point
  | moveTo p | lineTo p => some p
  | _ => none

/-- The end of the line that a command asks for, if it asks for one. -/
def lineEnd? : Command → Option Point
  | lineTo p => some p
  | _ => none

/-- The state of the pen that was asked for last. -/
def lastPen? (commands : List Command) : Option Bool := (commands.filterMap pen?).getLast?

/-- The place that was asked for last, by a move or by a line. -/
def lastTarget? (commands : List Command) : Option Point := (commands.filterMap target?).getLast?

theorem lastPen?_append (ms ns : List Command) :
    lastPen? (ms ++ ns) = (lastPen? ns).or (lastPen? ms) := by
  simp [lastPen?]

theorem lastTarget?_append (ms ns : List Command) :
    lastTarget? (ms ++ ns) = (lastTarget? ns).or (lastTarget? ms) := by
  simp [lastTarget?]

theorem lastTarget?_cosmetic {ms : List Command} (h : ∀ m ∈ ms, m.isCosmetic) :
    lastTarget? ms = none := by
  have hnone : ms.filterMap target? = [] := by
    refine List.filterMap_eq_nil_iff.mpr fun m hm => ?_
    have hc := h m hm
    cases m <;> first | rfl | contradiction
  simp [lastTarget?, hnone]

theorem lineEnds_cosmetic {ms : List Command} (h : ∀ m ∈ ms, m.isCosmetic) :
    ms.filterMap lineEnd? = [] := by
  refine List.filterMap_eq_nil_iff.mpr fun m hm => ?_
  have hc := h m hm
  cases m <;> first | rfl | contradiction

end Command
open Command

namespace Cursor
variable {c : Cursor} {p : Params} {stack : Stack} {a : Action} {e : Effect}

/-- The commands of an action lead to the new place of the cursor, or nowhere if it stays. -/
theorem lastTarget?_step (h : c.step p stack a = .ok e) :
    (lastTarget? e.commands).or (some c.position) = some e.cursor.position := by
  cases a with
  | pop =>
    cases stack with
    | nil => cases h
    | cons s rest => cases h; rfl
  | _ => cases h; rfl

/-- Only drawing asks for a line, and the line ends at the new place of the cursor. -/
theorem lineEnds_step (h : c.step p stack a = .ok e) :
    e.commands.filterMap lineEnd? = if a.isDraw then [e.cursor.position] else [] := by
  cases a with
  | pop =>
    cases stack with
    | nil => cases h
    | cons s rest => cases h; rfl
  | _ => cases h; rfl

/-- Within the commands of an action, a move comes after a lift of the pen, and a line right after
the pen is put down. -/
theorem commands_step (h : c.step p stack a = .ok e) :
    AtEach (fun before m => (∀ q, m = .moveTo q → lastPen? before = some false) ∧
      ∀ q, m = .lineTo q → a.isDraw ∧ before = [.penDown] ∧ q = e.cursor.position) e.commands := by
  cases a with
  | pop =>
    cases stack with
    | nil => cases h
    | cons s rest =>
      cases h
      simp [atEach_cons, atEach_nil, lastPen?, pen?]
  | _ =>
    cases h
    simp [atEach_cons, atEach_nil, lastPen?, pen?, turn, Action.isDraw]

end Cursor

variable {σ ν : Type} [Surface σ]

/-- The commands that the surface was given, in order. -/
def Turtle.given (t : Turtle (Noted (Logged σ) ν)) : List Command := t.surface.surface.log

namespace Turtle
variable {t next : Turtle (Noted (Logged σ) ν)}

theorem given_performAll (s : Noted (Logged σ) ν) (ms : List Command) :
    (Surface.performAll s ms).surface.log = s.surface.log ++ ms := by
  let log (s : Noted (Logged σ) ν) := s.surface.log
  have hlog : ∀ s m, log (Surface.perform s m) = log s ++ [m] := fun _ _ => rfl
  exact Surface.log_performAll hlog s ms

/-- Cosmetic hooks give the surface some cosmetic commands. -/
theorem given_observe {hooks : List (Hook (Noted (Logged σ) ν))}
    (hc : ∀ k ∈ hooks, k.IsCosmeticThrough Noted.surface) (n : Nat) (c : Char)
    (t : Turtle (Noted (Logged σ) ν)) : ∃ looks : List Command, (∀ m ∈ looks, m.isCosmetic) ∧
      (t.observe hooks n c).given = t.given ++ looks := by
  obtain ⟨looks, hl, he⟩ := surface_observe_through hc n c t
  refine ⟨looks, hl, ?_⟩
  rw [given, he]
  exact Surface.log_performAll (fun _ _ => rfl) t.surface.surface looks

theorem given_act {p : Params} {a : Action} (h : t.act p a = .ok next) :
    ∃ e, t.cursor.step p t.stack a = .ok e ∧ next.cursor = e.cursor ∧
      next.given = t.given ++ e.commands := by
  obtain ⟨e, he, rfl⟩ := act_eq_ok_iff.mp h
  exact ⟨e, he, rfl, given_performAll t.surface e.commands⟩

/-- The surface was led last to where the cursor is. -/
def Led (t : Turtle (Noted (Logged σ) ν)) : Prop := lastTarget? t.given = some t.cursor.position

theorem Led.observe (h : t.Led) {hooks : List (Hook (Noted (Logged σ) ν))}
    (hc : ∀ k ∈ hooks, k.IsCosmeticThrough Noted.surface) (n : Nat) (c : Char) :
    (t.observe hooks n c).Led := by
  obtain ⟨looks, hl, he⟩ := given_observe hc n c t
  rw [Led, he, lastTarget?_append, lastTarget?_cosmetic hl, Option.none_or, h, cursor_observe]

theorem Led.act (h : t.Led) {p : Params} {a : Action} (ha : t.act p a = .ok next) : next.Led := by
  obtain ⟨e, he, hcursor, hgiven⟩ := given_act ha
  rw [Led, hgiven, lastTarget?_append, h, hcursor]
  exact Cursor.lastTarget?_step he

end Turtle

namespace Interpreter
open Turtle

/-- A command in its order, after the commands before it in a run that takes these steps. A move
comes with the pen lifted. A line comes with the pen down; it belongs to a step that draws, right
after the pen was put down for it, and it leads from the place of the cursor before the step, where
the surface was led last, to the place after it. -/
structure InOrder (b : Bindings) (steps : List (Step (Noted (Logged σ) ν)))
    (before : List Command) (m : Command) : Prop where
  move : ∀ q, m = .moveTo q → lastPen? before = some false
  line : ∀ q, m = .lineTo q → lastPen? before = some true ∧
    ∃ s ∈ steps, (b.action s.symbol).isDraw ∧ before = s.before.given ++ [.penDown] ∧
      lastTarget? before = some s.before.cursor.position ∧ q = s.after.cursor.position

variable {i : Interpreter} {steps : List (Step (Noted (Logged σ) ν))}
  {t next : Turtle (Noted (Logged σ) ν)} {hooks : List (Hook (Noted (Logged σ) ν))}

omit [Surface σ] in
private theorem inOrder_cosmetic {b : Bindings} {m : Command} (h : m.isCosmetic)
    (before : List Command) : InOrder b steps before m where
  move q hm := by
    rw [hm] at h
    cases h
  line q hm := by
    rw [hm] at h
    cases h

private theorem inOrder_observe (hc : ∀ k ∈ hooks, k.IsCosmeticThrough Noted.surface)
    {b : Bindings} (h : AtEach (InOrder b steps) t.given) (n : Nat) (c : Char) :
    AtEach (InOrder b steps) (t.observe hooks n c).given := by
  obtain ⟨looks, hl, he⟩ := given_observe hc n c t
  rw [he, atEach_append]
  refine ⟨h, fun before m after hm => inOrder_cosmetic (hl m ?_) _⟩
  simp [hm]

private theorem inOrder_act {b : Bindings} {c : Char} (hled : t.Led)
    (ha : t.act i.params (b.action c) = .ok next) (hs : ⟨c, t, next⟩ ∈ steps)
    (h : AtEach (InOrder b steps) t.given) : AtEach (InOrder b steps) next.given := by
  obtain ⟨e, he, hcursor, hgiven⟩ := given_act ha
  rw [hgiven, atEach_append]
  refine ⟨h, (Cursor.commands_step he).imp fun before m _ ⟨hmove, hline⟩ => ⟨?_, ?_⟩⟩
  · intro q hq
    rw [lastPen?_append, hmove q hq, Option.some_or]
  · intro q hq
    obtain ⟨hdraw, rfl, rfl⟩ := hline q hq
    refine ⟨by rw [lastPen?_append]; rfl, _, hs, hdraw, rfl, ?_, by rw [hcursor]⟩
    rw [lastTarget?_append]
    exact hled

private theorem inOrder_walk (hc : ∀ k ∈ hooks, k.IsCosmeticThrough Noted.surface) (n : Nat)
    (w : Word) (hled : t.Led) (hs : ∀ s ∈ i.steps hooks n w t, s ∈ steps)
    (h : AtEach (InOrder i.bindings steps) t.given) :
    AtEach (InOrder i.bindings steps) (i.walk hooks n w t).turtle.given := by
  induction w generalizing n t with
  | nil => exact h
  | cons c cs ih =>
    have ho := inOrder_observe hc h n c
    cases ha : (t.observe hooks n c).act i.params (i.bindings.action c) with
    | error f =>
      rw [walk_cons_of_error ha]
      exact ho
    | ok next =>
      rw [steps_cons_of_ok ha, List.forall_mem_cons] at hs
      rw [walk_cons_of_ok ha]
      have hl := hled.observe hc n c
      exact ih (n + 1) (hl.act ha) hs.2 (inOrder_act hl ha hs.1 ho)

/-- Surfaces see a disciplined pen. In all that a run gives to a surface, up to its end or to where
it fails, the pen was lifted last before every move, and put down last before every line. A line
starts where the surface was led last, which is where the cursor was before the step that draws
it. The hooks give cosmetic commands and may note what they like. -/
theorem run_inOrder (i : Interpreter) (hooks : List (Hook (Noted (Logged σ) ν)))
    (hc : ∀ k ∈ hooks, k.IsCosmeticThrough Noted.surface) (pose : Pose) (w : Word) (surface : σ)
    (notes : List ν) :
    let s : Noted (Logged σ) ν := ⟨⟨surface, []⟩, notes⟩
    let steps := i.steps hooks 0 w (.start i.params pose s)
    ∀ before m after, (i.run hooks pose w s).turtle.given = before ++ m :: after →
      InOrder i.bindings steps before m := by
  intro s steps
  have hgiven : (Turtle.start i.params pose s).given = opening pose _ := given_performAll s _
  refine inOrder_walk hc 0 w ?_ (fun _ h => h) ?_
  · rw [Led, hgiven]
    rfl
  · rw [hgiven]
    simp only [opening, atEach_cons, atEach_nil, and_true]
    refine ⟨⟨nofun, nofun⟩, ⟨fun _ _ => rfl, nofun⟩, ⟨nofun, nofun⟩, ⟨nofun, nofun⟩⟩

/-- A canvas under a taper and a hook that counts. The run fails at the second closing bracket; the
line inside the brackets is in its order. -/
theorem run_inOrder_tapered :
    let i : Interpreter := ⟨.standard, .ofAngle 90⟩
    let count : Hook (Noted (Logged Canvas) Nat) := fun m s => s.note m.index
    let hooks : List (Hook (Noted (Logged Canvas) Nat)) := [(Decoration.taper ⟨3⟩).hook, count]
    let w : Word := ['F', '[', 'F', ']', ']', 'F']
    let s : Noted (Logged Canvas) Nat := ⟨⟨.blank 1 .black, []⟩, []⟩
    let run := i.run hooks .standard w s
    run.fault = some ⟨.nothingSaved, some 4, .fatal⟩ ∧
      ∃ before q after, run.turtle.given = before ++ .lineTo q :: after ∧ before.length = 10 ∧
        InOrder i.bindings (i.steps hooks 0 w (.start i.params .standard s)) before (.lineTo q) := by
  intro i count hooks w s run
  have hc : ∀ k ∈ hooks, k.IsCosmeticThrough Noted.surface := by
    refine List.forall_mem_cons.mpr ⟨fun m s => ?_, List.forall_mem_singleton.mpr fun m s => ?_⟩
    · exact ⟨[(Decoration.taper ⟨3⟩).command m], List.forall_mem_singleton.mpr rfl, rfl⟩
    · exact ⟨[], nofun, rfl⟩
  have hline : (run.turtle.given[10]?.bind lineEnd?).isSome := by decide +kernel
  obtain ⟨m, hm, q, hq⟩ : ∃ m, run.turtle.given[10]? = some m ∧ ∃ q, m = .lineTo q := by
    revert hline
    cases run.turtle.given[10]? with
    | none => exact nofun
    | some m => cases m <;> simp [lineEnd?]
  obtain ⟨hlt, hget⟩ := List.getElem?_eq_some_iff.mp hm
  have hsplit : run.turtle.given =
      run.turtle.given.take 10 ++ .lineTo q :: run.turtle.given.drop 11 := by
    rw [← hq, ← hget, ← List.drop_eq_getElem_cons, List.take_append_drop]
  refine ⟨rfl, _, q, _, hsplit, List.length_take_of_le (Nat.le_of_lt hlt), ?_⟩
  exact run_inOrder i hooks hc .standard w (.blank 1 .black) [] _ _ _ hsplit

/-- The lines that a turtle adds on its way end where its drawing steps lead, in order. -/
theorem lineEnds_walk (i : Interpreter) {hooks : List (Hook (Noted (Logged σ) ν))}
    (hc : ∀ k ∈ hooks, k.IsCosmeticThrough Noted.surface) (n : Nat) (w : Word)
    (t : Turtle (Noted (Logged σ) ν)) :
    (i.walk hooks n w t).turtle.given.filterMap lineEnd? =
      t.given.filterMap lineEnd? ++
        ((i.steps hooks n w t).filter fun s => (i.bindings.action s.symbol).isDraw).map
          fun s => s.after.cursor.position := by
  induction w generalizing n t with
  | nil => exact (List.append_nil _).symm
  | cons c cs ih =>
    obtain ⟨looks, hl, hgiven⟩ := given_observe hc n c t
    have hobserve : (t.observe hooks n c).given.filterMap lineEnd? =
        t.given.filterMap lineEnd? := by
      rw [hgiven, List.filterMap_append, lineEnds_cosmetic hl, List.append_nil]
    cases ha : (t.observe hooks n c).act i.params (i.bindings.action c) with
    | error f =>
      rw [walk_cons_of_error ha, steps_cons_of_error ha, hobserve]
      exact (List.append_nil _).symm
    | ok next =>
      obtain ⟨e, he, hcursor, hnext⟩ := given_act ha
      rw [walk_cons_of_ok ha, steps_cons_of_ok ha, ih, hnext, List.filterMap_append, hobserve,
        Cursor.lineEnds_step he, List.append_assoc, List.filter_cons]
      congr 1
      split <;> simp [hcursor]

/-- The lines of a run end where its drawing steps lead, in order. -/
theorem lineEnds_run (i : Interpreter) {hooks : List (Hook (Noted (Logged σ) ν))}
    (hc : ∀ k ∈ hooks, k.IsCosmeticThrough Noted.surface) (pose : Pose) (w : Word) (surface : σ)
    (notes : List ν) :
    let s : Noted (Logged σ) ν := ⟨⟨surface, []⟩, notes⟩
    (i.run hooks pose w s).turtle.given.filterMap lineEnd? =
      ((i.steps hooks 0 w (.start i.params pose s)).filter
        fun s => (i.bindings.action s.symbol).isDraw).map fun s => s.after.cursor.position := by
  intro s
  have hstart : (Turtle.start i.params pose s).given = opening pose _ := given_performAll s _
  rw [run, lineEnds_walk i hc, hstart]
  rfl

end Interpreter
end Lindenmayer
