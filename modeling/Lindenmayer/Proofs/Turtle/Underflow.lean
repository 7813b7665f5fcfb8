import Lindenmayer.Proofs.Turtle.Nesting
import Lindenmayer.Proofs.Turtle.Steps
import Lindenmayer.Turtle.Canvas

/-! When runs fail. The number of saved states follows the nesting of the word, whatever the surface
and the hooks do, and a run stops where the word takes back more than it has saved. -/
namespace Lindenmayer

/-- A surface with a log of the commands that it was given, in order. -/
structure Logged (σ : Type) where
  surface : σ
  log : List Command

instance {σ : Type} [Surface σ] : Surface (Logged σ) where
  perform l m := ⟨Surface.perform l.surface m, l.log ++ [m]⟩
  position l := Surface.position l.surface
  heading l := Surface.heading l.surface
  penWidth l := Surface.penWidth l.surface

/-- On a surface that keeps a log, what some commands add to it. -/
theorem Surface.log_performAll {σ : Type} [Surface σ] {log : σ → List Command}
    (h : ∀ s m, log (Surface.perform s m) = log s ++ [m]) (s : σ) (ms : List Command) :
    log (Surface.performAll s ms) = log s ++ ms := by
  induction ms generalizing s with
  | nil => simp
  | cons m ms ih => rw [Surface.performAll_cons, ih, h, List.append_assoc, List.singleton_append]

namespace Run
variable {σ : Type} {r : Run σ}

theorem result_eq_ok_iff {c : Cursor} : r.result = .ok c ↔ r.fault = none ∧ r.turtle.cursor = c := by
  unfold result
  cases r.fault <;> simp

theorem result_eq_error_iff {f : Fault} : r.result = .error f ↔ r.fault = some f := by
  unfold result
  cases r.fault <;> simp

end Run

variable {σ : Type} [Surface σ]

/-- The number of saved states follows the action alone. -/
theorem Turtle.depth?_act (p : Params) (a : Action) (t : Turtle σ) :
    (t.act p a).toOption.map (·.stack.length) = a.depth? t.stack.length := by
  cases a with
  | pop =>
    cases hs : t.stack <;>
      simp [act, Cursor.step, Stack.pop, Action.depth?, hs, Except.toOption]
  | _ => rfl

namespace Interpreter
variable {i : Interpreter} {hooks : List (Hook σ)} {n : Nat} {w : Word} {t : Turtle σ}

/-- A run that reaches the end leaves as many saved states as the nesting of the word says. Another
run has nothing to take back somewhere in the word. -/
theorem depth?_walk (i : Interpreter) (hooks : List (Hook σ)) (n : Nat) (w : Word) (t : Turtle σ) :
    (i.walk hooks n w t).fault = none ∧
      i.bindings.depth? t.stack.length w = some (i.walk hooks n w t).turtle.stack.length ∨
    (i.walk hooks n w t).fault ≠ none ∧ i.bindings.depth? t.stack.length w = none := by
  induction w generalizing n t with
  | nil => exact .inl ⟨rfl, rfl⟩
  | cons c cs ih =>
    have hd := (t.observe hooks n c).depth?_act i.params (i.bindings.action c)
    rw [Turtle.stack_observe] at hd
    rw [Bindings.depth?_cons, ← hd]
    cases ha : (t.observe hooks n c).act i.params (i.bindings.action c) with
    | error f =>
      rw [walk_cons_of_error ha]
      exact .inr ⟨by simp, rfl⟩
    | ok next =>
      rw [walk_cons_of_ok ha]
      exact ih (n + 1) next

/-- A run reaches the end exactly when no beginning of the word takes back more states than were
saved before it and in it. -/
theorem fault_walk_eq_none_iff :
    (i.walk hooks n w t).fault = none ↔
      ∀ p, p <+: w → i.bindings.pops p ≤ t.stack.length + i.bindings.pushes p := by
  rw [← Bindings.exists_depth?_iff]
  rcases depth?_walk i hooks n w t with ⟨hf, hd⟩ | ⟨hf, hd⟩ <;> simp [hf, hd]

/-- A run that fails does so at a symbol that takes a state back when none is left. It reaches that
symbol, and of what belongs to it only the hooks are called. -/
theorem exists_stop {f : Fault} (h : (i.walk hooks n w t).fault = some f) :
    ∃ u c v, w = u ++ c :: v ∧
      (i.walk hooks n u t).fault = none ∧
      (i.walk hooks n u t).turtle.stack = [] ∧
      i.bindings.action c = .pop ∧
      f = ⟨.nothingSaved, some (n + u.length), .fatal⟩ ∧
      (i.walk hooks n w t).turtle =
        (i.walk hooks n u t).turtle.observe hooks (n + u.length) c := by
  induction w generalizing n t with
  | nil => cases h
  | cons c cs ih =>
    cases ha : (t.observe hooks n c).act i.params (i.bindings.action c) with
    | error g =>
      obtain ⟨hp, hs, rfl⟩ := Turtle.act_eq_error_iff.mp ha
      rw [walk_cons_of_error ha] at h ⊢
      cases h
      rw [Turtle.stack_observe] at hs
      exact ⟨[], c, cs, rfl, rfl, hs, hp, rfl, rfl⟩
    | ok next =>
      rw [walk_cons_of_ok ha] at h ⊢
      obtain ⟨u, d, v, rfl, hn, hs, hp, hf, he⟩ := ih h
      refine ⟨c :: u, d, v, rfl, ?_⟩
      rw [walk_cons_of_ok ha, List.length_cons, ← Nat.add_assoc, Nat.add_right_comm]
      exact ⟨hn, hs, hp, hf, he⟩

/-- The run of a whole word reaches the end exactly when no beginning of the word takes back more
states than it saves. -/
theorem fault_run_eq_none_iff {pose : Pose} {surface : σ} :
    (i.run hooks pose w surface).fault = none ↔
      ∀ p, p <+: w → i.bindings.pops p ≤ i.bindings.pushes p := by
  have h : (i.run hooks pose w surface).fault = none ↔
      ∀ p, p <+: w → i.bindings.pops p ≤ ([] : Stack).length + i.bindings.pushes p :=
    fault_walk_eq_none_iff
  simp only [List.length_nil, Nat.zero_add] at h
  exact h

theorem depth?_run {pose : Pose} {surface : σ} (h : (i.run hooks pose w surface).fault = none) :
    i.bindings.depth? 0 w = some (i.run hooks pose w surface).turtle.stack.length := by
  rcases depth?_walk i hooks 0 w (.start i.params pose surface) with ⟨_, hd⟩ | ⟨hf, _⟩
  · exact hd
  · exact absurd h hf

/-- A run fails exactly when some beginning of the word takes back more states than it saves. The
fault is at the first symbol that does so, counted in symbols. What the surface has been given then
is all that the run of the symbols before gives it and, after that, what the hooks give before that
symbol; on a surface with a log, the log tells so. -/
theorem run_underflow (i : Interpreter) (hooks : List (Hook σ)) (pose : Pose) (w : Word)
    (surface : σ) :
    let run := i.run hooks pose w surface
    ((∃ f, run.result = .error f) ↔
      ∃ p, p <+: w ∧ i.bindings.pushes p < i.bindings.pops p) ∧
    ∀ f, run.result = .error f → ∃ u c v, w = u ++ c :: v ∧
      (∀ p, p <+: u → i.bindings.pops p ≤ i.bindings.pushes p) ∧
      i.bindings.pushes (u ++ [c]) < i.bindings.pops (u ++ [c]) ∧
      f = ⟨.nothingSaved, some u.length, .fatal⟩ ∧ f.kind = .stackUnderflow ∧
      let before := i.run hooks pose u surface
      let hooked := hooks.foldl (fun s hook => hook (before.turtle.moment u.length c) s)
        before.turtle.surface
      (∃ cursor, before.result = .ok cursor) ∧
      run.turtle.surface = hooked ∧
      ∀ log : σ → List Command, (∀ s m, log (Surface.perform s m) = log s ++ [m]) →
        ∀ given, hooked = Surface.performAll before.turtle.surface given →
          log run.turtle.surface = log before.turtle.surface ++ given := by
  intro run
  have hstop : ∀ f, run.result = .error f → _ := fun f hf =>
    exists_stop (Run.result_eq_error_iff.mp hf)
  simp only [Nat.zero_add] at hstop
  have hend {u : Word} {c : Char} (hn : (i.run hooks pose u surface).fault = none)
      (hs : (i.run hooks pose u surface).turtle.stack = []) (hp : i.bindings.action c = .pop) :
      i.bindings.pushes (u ++ [c]) < i.bindings.pops (u ++ [c]) := by
    have hd := depth?_run hn
    rw [hs, List.length_nil] at hd
    have hsettled := (Bindings.balanced_iff_depth?.mpr hd).settled
    simp [Bindings.pushes_cons, Bindings.pops_cons, hp, hsettled, Action.isPush, Action.isPop]
  refine ⟨⟨?_, ?_⟩, fun f hf => ?_⟩
  · rintro ⟨f, hf⟩
    obtain ⟨u, c, v, rfl, hn, hs, hp, _⟩ := hstop f hf
    exact ⟨u ++ [c], by simp, hend hn hs hp⟩
  · rintro ⟨p, hp, hlt⟩
    cases hr : run.result with
    | ok cursor =>
      have := fault_run_eq_none_iff.mp (Run.result_eq_ok_iff.mp hr).1 p hp
      omega
    | error f => exact ⟨f, rfl⟩
  · obtain ⟨u, c, v, hw, hn, hs, hp, hfault, ht⟩ := hstop f hf
    have hsurface := Turtle.surface_observe hooks u.length c (i.run hooks pose u surface).turtle
    refine ⟨u, c, v, hw, fault_run_eq_none_iff.mp hn, hend hn hs hp, hfault,
      by rw [hfault]; rfl, ⟨_, Run.result_eq_ok_iff.mpr ⟨hn, rfl⟩⟩,
      (congrArg Turtle.surface ht).trans hsurface, ?_⟩
    intro log hlog given hgiven
    rw [← Surface.log_performAll hlog, ← hgiven, ← hsurface]
    exact congrArg (fun t => log t.surface) ht

/-- Any symbols can be the brackets, the usual ones can be without meaning, and a fault is placed by
symbols. The hook is still called before the symbol that fails. -/
theorem run_underflow_rebound :
    let bindings := ((Bindings.standard.bind '[' .noop).bind 'λ' .push).bind 'é' .pop
    let i : Interpreter := ⟨bindings, .ofAngle 90⟩
    let ink : Hook (Logged Canvas) := fun _ s => Surface.perform s (.setColor .black)
    let w : Word := ['[', 'λ', 'F', 'é', 'é', 'F']
    let run := i.run [ink] .standard w ⟨.empty, []⟩
    run.result = .error ⟨.nothingSaved, some 4, .fatal⟩ ∧
      run.turtle.surface.log =
        (i.run [ink] .standard (w.take 4) ⟨.empty, []⟩).turtle.surface.log ++
          [.setColor .black] := by
  intro bindings i ink w run
  have hf : run.result = .error ⟨.nothingSaved, some 4, .fatal⟩ := rfl
  obtain ⟨u, c, v, hw, _, _, hfault, _, _, _, hlog⟩ :=
    (run_underflow i [ink] .standard w ⟨.empty, []⟩).2 _ hf
  have hl : 4 = u.length := Option.some.inj (congrArg Fault.position hfault)
  have hu : w.take 4 = u := by rw [hl, hw, List.take_left]
  refine ⟨hf, ?_⟩
  rw [hu]
  exact hlog Logged.log (fun _ _ => rfl) [.setColor .black] rfl

end Interpreter
end Lindenmayer
