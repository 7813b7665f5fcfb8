import Lindenmayer.Preset.Config
import Lindenmayer.Proofs.Turtle.Bindings
import Lindenmayer.Proofs.Turtle.Steps

/-! Divisors. Whatever a built system divides by is finite, and its scale factor is not zero. An
argument of an action may be: then, and only then, a run divides by zero. -/
namespace Lindenmayer

/-- What an adjustment divides by, if it divides. -/
def Adjustment.divisor? (a : Adjustment) (scale : Float) : Option Float :=
  match a with
  | .div amount => some (amount.getD scale)
  | _ => none

/-- What an action divides a width, a length or an angle by, if it does. -/
def Action.divisor? (a : Action) (scale : Float) : Option Float :=
  match a with
  | .width change | .length change | .angle change => change.divisor? scale
  | _ => none

/-- The cursor with the number divided that an action adjusts. -/
def Cursor.dividedBy (c : Cursor) (a : Action) (d : Float) : Cursor :=
  match a with
  | .width _ => { c with penWidth := c.penWidth / d }
  | .length _ => { c with stepLength := c.stepLength / d }
  | .angle _ => { c with turningAngle := c.turningAngle / d }
  | _ => c

theorem Adjustment.apply_of_divisor? {a : Adjustment} {scale d : Float}
    (h : a.divisor? scale = some d) (value increment : Float) :
    a.apply value increment scale = value / d := by
  cases a with
  | div amount => cases h; rfl
  | _ => cases h

/-- An action that divides does so, with its divisor, and does nothing else to the cursor. -/
theorem Cursor.step_of_divisor? {c : Cursor} {p : Params} {stack : Stack} {a : Action} {e : Effect}
    {d : Float} (hd : a.divisor? p.scaleFactor = some d) (h : c.step p stack a = .ok e) :
    e.cursor = c.dividedBy a d := by
  cases a with
  | width change | length change | angle change =>
    cases h
    simp only [dividedBy, Adjustment.apply_of_divisor? hd]
  | _ => cases hd

theorem Params.scaleFactor_of_fault? {p : Params} (h : p.fault? = none) :
    p.scaleFactor.isFinite = true ∧ (p.scaleFactor == 0) = false := by
  unfold fault? at h
  split at h
  · cases h
  · rename_i hf
    refine ⟨?_, by simpa using h⟩
    simpa using List.find?_eq_none.mp hf ("scale_factor", p.scaleFactor) (by simp [named])

namespace NamedAction

/-- An action that divides, with a zero of its own to divide by. -/
def DividesByZero (a : NamedAction) : Prop :=
  (a.name = "width_div" ∨ a.name = "length_div") ∧ ∃ x, a.arguments = [x] ∧ (x == 0) = true

theorem divisor?_of_action? {name : String} {amount : Option Float} {action : Action}
    {scale d : Float} (h : action? name amount = some action)
    (hd : action.divisor? scale = some d) :
    (name = "width_div" ∨ name = "length_div") ∧ d = amount.getD scale := by
  unfold action? at h
  split at h <;> cases h <;> first | cases hd; simp | cases hd

/-- The divisor of an action that has been looked up is the scale factor or its one argument. -/
theorem divisor?_of_resolve {a : NamedAction} {action : Action} {scale d : Float}
    (h : a.resolve = .ok action) (hd : action.divisor? scale = some d) :
    (a.name = "width_div" ∨ a.name = "length_div") ∧
      (a.arguments = [] ∧ d = scale ∨ a.arguments = [d] ∧ d.isFinite = true) := by
  unfold resolve at h
  extract_lets arity bound at h
  have hbound {amount : Option Float} (hb : bound amount = .ok action) :
      (a.name = "width_div" ∨ a.name = "length_div") ∧ d = amount.getD scale := by
    unfold bound at hb
    split at hb
    · cases hb
    · split at hb
      · cases hb
      · cases hb
        exact divisor?_of_action? ‹_› hd
  split at h
  · obtain ⟨hn, rfl⟩ := hbound h
    exact ⟨hn, .inl ⟨‹_›, rfl⟩⟩
  · split at h
    · obtain ⟨hn, rfl⟩ := hbound h
      exact ⟨hn, .inr ⟨‹_›, ‹_›⟩⟩
    · cases h
  · cases h

theorem exists_resolve_of_dividesByZero {a : NamedAction} (h : a.DividesByZero) (scale : Float) :
    ∃ action d, a.resolve = .ok action ∧ action.divisor? scale = some d ∧ (d == 0) = true := by
  obtain ⟨name, arguments⟩ := a
  obtain ⟨hn, x, rfl, hx⟩ := h
  have hf : x.isFinite = true := isFinite_of_beq_zero hx
  rcases hn with rfl | rfl
  · exact ⟨.width (.div (some x)), x, by simp [resolve, action?, takesAmount, hf], rfl, hx⟩
  · exact ⟨.length (.div (some x)), x, by simp [resolve, action?, takesAmount, hf], rfl, hx⟩

end NamedAction

namespace Bindings

theorem divisor?_standard {c : Char} {scale d : Float}
    (h : (standard.action c).divisor? scale = some d) : d = scale := by
  have hs : ∀ e ∈ standard.entries, e.2.divisor? scale = some d → d = scale := by
    simp [standard, Action.divisor?, Adjustment.divisor?, eq_comm]
  unfold action at h
  cases ha : standard.entries.lookup c with
  | none =>
    rw [ha] at h
    cases h
  | some a =>
    obtain ⟨_, _, he, _⟩ := List.lookup_eq_some_iff.mp ha
    rw [ha] at h
    exact hs (c, a) (by simp [he]) h

/-- What a symbol divides by once the standard bindings are extended: the scale factor, unless its
binding gives an argument. -/
theorem divisor?_extend {bindings : List (Char × NamedAction)} {c : Char} {scale d : Float}
    (h : ((standard.extend bindings).1.action c).divisor? scale = some d) :
    d = scale ∨ d.isFinite = true ∧ ∃ named, last? bindings c = some named ∧
      (named.name = "width_div" ∨ named.name = "length_div") ∧ named.arguments = [d] := by
  rw [action_extend_last?] at h
  split at h
  · exact .inl (divisor?_standard h)
  · rename_i named hl
    split at h
    · obtain ⟨hn, ⟨_, hd⟩ | ⟨ha, hf⟩⟩ := NamedAction.divisor?_of_resolve ‹_› h
      · exact .inl hd
      · exact .inr ⟨hf, named, hl, hn, ha⟩
    · cases h

end Bindings

theorem Interpreter.act_of_mem_steps {σ : Type} [Surface σ] {i : Interpreter}
    {hooks : List (Hook σ)} {n : Nat} {w : Word} {t : Turtle σ} {s : Step σ}
    (h : s ∈ i.steps hooks n w t) :
    s.before.act i.params (i.bindings.action s.symbol) = .ok s.after := by
  induction w generalizing n t with
  | nil => cases h
  | cons c cs ih =>
    cases ha : (t.observe hooks n c).act i.params (i.bindings.action c) with
    | error f =>
      rw [steps_cons_of_error ha] at h
      cases h
    | ok next =>
      rw [steps_cons_of_ok ha] at h
      rcases List.mem_cons.mp h with rfl | h
      · exact ha
      · exact ih h

namespace System

/-- The systems that are built with some bindings, from their parts or from a description. -/
inductive BuiltWith (bindings : List (Char × NamedAction)) (s : System) : Prop
  | parts (g : Grammar) (p : Params) : build g p bindings = .ok s → BuiltWith bindings s
  | described (c : SystemConfig) : SystemConfig.bindings c.actions = .ok bindings →
      c.build = .ok s → BuiltWith bindings s

theorem of_build {g : Grammar} {p : Params} {bindings : List (Char × NamedAction)} {s : System}
    (h : build g p bindings = .ok s) :
    s.interpreter.params.fault? = none ∧
      s.interpreter.bindings = (Bindings.standard.extend bindings).1 := by
  unfold build at h
  split at h
  · cases h
  · cases h
    exact ⟨‹_›, rfl⟩

namespace BuiltWith
variable {bindings : List (Char × NamedAction)} {s : System}

theorem interpreter (h : s.BuiltWith bindings) :
    s.interpreter.params.fault? = none ∧
      s.interpreter.bindings = (Bindings.standard.extend bindings).1 := by
  cases h with
  | parts g p h => exact of_build h
  | described c hb h =>
    unfold SystemConfig.build at h
    cases hg : Grammar.ofRules c.start c.rules with
    | error f =>
      rw [hg] at h
      cases h
    | ok g =>
      rw [hg, hb] at h
      exact of_build (g := g) (p := c.params) h

/-- The divisor of a symbol is finite, and it is zero exactly when the binding that counts for the
symbol divides by zero. -/
theorem divisor? (h : s.BuiltWith bindings) {c : Char} {d : Float}
    (hd : (s.interpreter.bindings.action c).divisor? s.interpreter.params.scaleFactor = some d) :
    d.isFinite = true ∧ ((d == 0) = true ↔
      ∃ named, Bindings.last? bindings c = some named ∧ named.DividesByZero) := by
  obtain ⟨hp, hb⟩ := h.interpreter
  obtain ⟨hf, hz⟩ := Params.scaleFactor_of_fault? hp
  rw [hb] at hd
  have hzero {named : NamedAction} (hl : Bindings.last? bindings c = some named)
      (hn : named.DividesByZero) : (d == 0) = true := by
    obtain ⟨action, x, hr, hx, hx0⟩ :=
      named.exists_resolve_of_dividesByZero hn s.interpreter.params.scaleFactor
    rw [Bindings.action_extend_last?, hl] at hd
    simp only [hr] at hd
    obtain rfl : x = d := Option.some.inj (hx.symm.trans hd)
    exact hx0
  rcases Bindings.divisor?_extend hd with rfl | ⟨hdf, named, hl, hn, ha⟩
  · refine ⟨hf, fun h0 => ?_, fun ⟨named, hl, hn⟩ => hzero hl hn⟩
    rw [h0] at hz
    cases hz
  · exact ⟨hdf, fun h0 => ⟨named, hl, hn, d, ha, h0⟩, fun ⟨named, hl, hn⟩ => hzero hl hn⟩

/-- A symbol whose binding divides by zero does so in a run of its own. -/
theorem exists_step {σ : Type} [Surface σ] (h : s.BuiltWith bindings) {c : Char}
    {named : NamedAction} (hl : Bindings.last? bindings c = some named) (hn : named.DividesByZero)
    (hooks : List (Hook σ)) (t : Turtle σ) :
    ∃ step ∈ s.interpreter.steps hooks 0 [c] t, step.symbol = c ∧ ∃ d,
      (s.interpreter.bindings.action c).divisor? s.interpreter.params.scaleFactor = some d ∧
      (d == 0) = true := by
  obtain ⟨-, hb⟩ := h.interpreter
  obtain ⟨action, d, hr, hd, h0⟩ :=
    named.exists_resolve_of_dividesByZero hn s.interpreter.params.scaleFactor
  have ha : s.interpreter.bindings.action c = action := by
    rw [hb, Bindings.action_extend_last?, hl]
    simp only [hr]
  cases hact : (t.observe hooks 0 c).act s.interpreter.params (s.interpreter.bindings.action c) with
  | error f =>
    obtain ⟨hpop, -⟩ := Turtle.act_eq_error_iff.mp hact
    rw [← ha, hpop] at hd
    cases hd
  | ok next =>
    rw [Interpreter.steps_cons_of_ok hact]
    exact ⟨_, List.mem_cons_self, rfl, d, ha ▸ hd, h0⟩

/-- Divisors of built systems. Whenever a run divides a width, a length or an angle, it divides by
a finite number, which is the divisor of the symbol, and this is zero exactly when the binding that
counts for the symbol has a zero as its argument; the scale factor never is. So no run of a system
divides by zero exactly when none of its symbols is bound to a division by zero. -/
theorem divisors_of_runs {σ : Type} [Surface σ] (h : s.BuiltWith bindings) (hooks : List (Hook σ))
    (pose : Pose) (surface : σ) :
    let i := s.interpreter
    let steps (w : Word) := i.steps hooks 0 w (.start i.params pose surface)
    let divisor? (step : Step σ) :=
      (i.bindings.action step.symbol).divisor? i.params.scaleFactor
    (∀ w, ∀ step ∈ steps w, ∀ d, divisor? step = some d →
      step.after.cursor = step.before.cursor.dividedBy (i.bindings.action step.symbol) d ∧
      d.isFinite = true ∧
      ((d == 0) = true ↔ ∃ named,
        Bindings.last? bindings step.symbol = some named ∧ named.DividesByZero)) ∧
    ((∀ w, ∀ step ∈ steps w, ∀ d, divisor? step = some d → (d == 0) = false) ↔
      ∀ c named, Bindings.last? bindings c = some named → ¬ named.DividesByZero) := by
  intro i steps divisor?
  refine ⟨fun w step hs d hd => ⟨?_, h.divisor? hd⟩, fun hw c named hl hn => ?_,
    fun hc w step hs d hd => ?_⟩
  · obtain ⟨e, he, hafter⟩ := Turtle.act_eq_ok_iff.mp (Interpreter.act_of_mem_steps hs)
    rw [hafter]
    exact Cursor.step_of_divisor? hd he
  · obtain ⟨step, hs, rfl, d, hd, h0⟩ :=
      h.exists_step hl hn hooks (.start i.params pose surface)
    rw [hw _ step hs d hd] at h0
    cases h0
  · refine Bool.eq_false_iff.mpr fun h0 => ?_
    obtain ⟨named, hl, hn⟩ := (h.divisor? hd).2.mp h0
    exact hc step.symbol named hl hn

/-- A described system whose `/` thins the pen to a quarter never divides by zero. -/
theorem divisors_of_runs_quarter :
    let bindings : List (Char × NamedAction) := [('/', ⟨"width_div", [4]⟩)]
    ∃ s : System, s.BuiltWith bindings ∧
      ∀ w, ∀ step ∈ s.interpreter.steps [] 0 w (.start s.interpreter.params .standard Canvas.empty),
        ∀ d, (s.interpreter.bindings.action step.symbol).divisor?
          s.interpreter.params.scaleFactor = some d → (d == 0) = false := by
  intro bindings
  have h : System.BuiltWith bindings ⟨⟨['F'], []⟩,
      ⟨⟨('/', .width (.div (some 4))) :: Bindings.standard.entries⟩, .ofAngle 90⟩, []⟩ :=
    .described ⟨['F'], [], .ofAngle 90, [(['/'], ⟨"width_div", [4]⟩)]⟩ rfl rfl
  refine ⟨_, h, (divisors_of_runs h [] .standard Canvas.empty).2.mpr fun c named hl hn => ?_⟩
  obtain ⟨_, _, he, -⟩ := List.lookup_eq_some_iff.mp hl
  have hm : (c, named) ∈ bindings := List.mem_reverse.mp (he ▸ by simp)
  cases List.mem_singleton.mp hm
  obtain ⟨-, x, hx, h0⟩ := hn
  cases hx
  exact absurd h0 (by decide)

end BuiltWith

/-- A symbol may be bound to a division by zero. The system is built without a warning, and a step
of its run divides the width 1 of the pen by zero. -/
theorem divides_width_by_zero :
    ∃ s, build ⟨['/', 'F'], []⟩ (.ofAngle 90) [('/', ⟨"width_div", [0]⟩)] = .ok s ∧
      s.warnings = [] ∧
      let i := s.interpreter
      ∃ step ∈ i.steps [] 0 ['/', 'F'] (.start i.params .standard Canvas.empty),
        (i.bindings.action step.symbol).divisor? i.params.scaleFactor = some 0 ∧
        step.before.cursor.penWidth = 1 ∧ step.after.cursor.penWidth.isInf = true :=
  ⟨_, rfl, rfl, _, List.mem_cons_self, rfl, rfl, by decide⟩

end System
end Lindenmayer
