import Lindenmayer.Proofs.System.Condensation
import Lindenmayer.Proofs.Turtle.Underflow
import Lindenmayer.System.Basic

/-! Runs without hooks. A word and what condensation leaves of it are the same to the surface,
command by command, and to the cursor. Only a fault tells them apart, by its place among the
symbols. -/
namespace Lindenmayer
variable {σ : Type} [Surface σ]

namespace Interpreter

/-- Without hooks, a run without some of the symbols that do nothing leaves the same turtle. Both
runs fail at the same symbol, if they do, and each counts the symbols that it has come over. -/
theorem walk_filter_unobserved (i : Interpreter) {keep : Char → Bool}
    (hk : ∀ c, keep c = false → i.bindings.isNoop c = true) (n m : Nat) (w : Word)
    (t : Turtle σ) :
    let full := i.walk [] n w t
    let short := i.walk [] m (w.filter keep) t
    full.turtle = short.turtle ∧
      (full.fault = none ∧ short.fault = none ∨
        ∃ u c v, w = u ++ c :: v ∧ keep c = true ∧
          full.fault = some ⟨.nothingSaved, some (n + u.length), .fatal⟩ ∧
          short.fault = some ⟨.nothingSaved, some (m + (u.filter keep).length), .fatal⟩) := by
  induction w generalizing n m t with
  | nil => exact ⟨rfl, .inl ⟨rfl, rfl⟩⟩
  | cons c cs ih =>
    cases hc : keep c with
    | false =>
      -- Only the full run takes a step here, and it changes nothing.
      have ha : (t.observe [] n c).act i.params (i.bindings.action c) = .ok t :=
        Turtle.act_of_isNoop (hk c hc) i.params t
      obtain ⟨ht, hf⟩ := ih (n + 1) m t
      simp only [List.filter_cons, hc, Bool.false_eq_true, if_false, walk_cons_of_ok ha]
      refine ⟨ht, hf.imp_right ?_⟩
      rintro ⟨u, d, v, rfl, hd, hfull, hshort⟩
      refine ⟨c :: u, d, v, rfl, hd, ?_, ?_⟩
      · rw [hfull, List.length_cons, Nat.add_assoc, Nat.add_comm 1]
      · simpa [List.filter_cons, hc] using hshort
    | true =>
      simp only [List.filter_cons, hc, if_true]
      cases ha : (t.observe [] n c).act i.params (i.bindings.action c) with
      | error f =>
        obtain ⟨-, -, rfl⟩ := Turtle.act_eq_error_iff.mp ha
        have hs : (t.observe [] m c).act i.params (i.bindings.action c) = .error _ := ha
        rw [walk_cons_of_error ha, walk_cons_of_error hs]
        exact ⟨rfl, .inr ⟨[], c, cs, rfl, hc, rfl, rfl⟩⟩
      | ok next =>
        have hs : (t.observe [] m c).act i.params (i.bindings.action c) = .ok next := ha
        obtain ⟨ht, hf⟩ := ih (n + 1) (m + 1) next
        rw [walk_cons_of_ok ha, walk_cons_of_ok hs]
        refine ⟨ht, hf.imp_right ?_⟩
        rintro ⟨u, d, v, rfl, hd, hfull, hshort⟩
        refine ⟨c :: u, d, v, rfl, hd, ?_, ?_⟩
        · rw [hfull, List.length_cons, Nat.add_assoc, Nat.add_comm 1]
        · rw [hshort, List.filter_cons_of_pos hc, List.length_cons, Nat.add_assoc, Nat.add_comm 1]

/-- The same of whole runs, by their results. -/
theorem run_filter_unobserved (i : Interpreter) {keep : Char → Bool}
    (hk : ∀ c, keep c = false → i.bindings.isNoop c = true) (pose : Pose) (w : Word)
    (surface : σ) :
    let full := i.run [] pose w surface
    let short := i.run [] pose (w.filter keep) surface
    full.turtle = short.turtle ∧
      ((∃ cursor, full.result = .ok cursor ∧ short.result = .ok cursor) ∨
        ∃ u c v, w = u ++ c :: v ∧ keep c = true ∧
          full.result = .error ⟨.nothingSaved, some u.length, .fatal⟩ ∧
          short.result = .error ⟨.nothingSaved, some (u.filter keep).length, .fatal⟩) := by
  intro full short
  obtain ⟨ht, hf⟩ := i.walk_filter_unobserved hk 0 0 w (.start i.params pose surface)
  simp only [Nat.zero_add] at hf
  refine ⟨ht, hf.imp ?_ ?_⟩
  · rintro ⟨hfull, hshort⟩
    exact ⟨short.turtle.cursor, Run.result_eq_ok_iff.mpr ⟨hfull, congrArg (·.cursor) ht⟩,
      Run.result_eq_ok_iff.mpr ⟨hshort, rfl⟩⟩
  · rintro ⟨u, c, v, hw, hc, hfull, hshort⟩
    exact ⟨u, c, v, hw, hc, Run.result_eq_error_iff.mpr hfull, Run.result_eq_error_iff.mpr hshort⟩

end Interpreter

namespace System

/-- Without hooks, condensation shows in the place of a fault only. On every surface, a run of the
condensed word gives the same commands as a run of the word and leaves the same turtle. One of them
fails if the other does, at the same symbol and with the same fault, but for the place: in the
condensed word, the symbols do not count that condensation removed before. What it removes from the
first symbols of a word does not depend on those after them. -/
theorem run_condensation (s : System) (pose : Pose) (w : Word) (surface : σ) :
    let i := s.interpreter
    let condense := s.condensation.apply
    let removed (v : Word) := v.length - (condense v).length
    let full := i.run [] pose w surface
    let short := i.run [] pose (condense w) surface
    let logged : Logged σ := ⟨surface, []⟩
    full.turtle = short.turtle ∧
    (i.run [] pose w logged).turtle.surface.log =
      (i.run [] pose (condense w) logged).turtle.surface.log ∧
    short.result = full.result.mapError (fun f =>
      { f with position := f.position.map fun k => k - removed (w.take k) }) ∧
    (∀ f, full.result = .error f → ∃ k c, f.position = some k ∧ w[k]? = some c ∧
      (condense w)[k - removed (w.take k)]? = some c) ∧
    ∀ k, condense w = condense (w.take k) ++ condense (w.drop k) := by
  intro i condense removed full short logged
  let keep := s.grammar.keeps i.bindings
  have hk : ∀ c, keep c = false → i.bindings.isNoop c = true := fun c hc =>
    (Grammar.keeps_eq_false_iff.mp hc).2
  have hcondense (v : Word) : condense v = v.filter keep :=
    s.grammar.apply_condensation i.bindings v
  have hlog := (i.run_filter_unobserved hk pose w logged).1
  obtain ⟨ht, hr⟩ := i.run_filter_unobserved hk pose w surface
  rw [← hcondense] at hlog ht hr
  have hplace {u v : Word} (hw : w = u ++ v) :
      u.length - removed (w.take u.length) = (u.filter keep).length := by
    rw [hw, List.take_left]
    simp only [removed, hcondense]
    exact Nat.sub_sub_self (List.length_filter_le keep u)
  refine ⟨ht, congrArg (·.surface.log) hlog, ?_, fun f hf => ?_, fun k => ?_⟩
  · rcases hr with ⟨cursor, hfull, hshort⟩ | ⟨u, c, v, hw, -, hfull, hshort⟩
    · rw [hshort, hfull]
      rfl
    · rw [hshort, hfull, ← hplace hw]
      rfl
  · rcases hr with ⟨cursor, hfull, -⟩ | ⟨u, c, v, hw, hc, hfull, -⟩
    · cases hfull.symm.trans hf
    · cases hfull.symm.trans hf
      refine ⟨u.length, c, rfl, by simp [hw], ?_⟩
      rw [hplace hw, hcondense, hw, List.filter_append, List.filter_cons_of_pos hc]
      simp
  · rw [hcondense, hcondense, hcondense, ← List.filter_append, List.take_append_drop]

/-- A rule that shrinks over several symbols, and a fault that moves from the sixth symbol to the
third. -/
theorem run_condensation_stump :
    let g : Grammar := ⟨['A'], [(['A', 'F'], .fixed ['F']), (['X', 'Y'], .fixed ['A'])]⟩
    let s : System := ⟨g, ⟨.standard, .ofAngle 90⟩, []⟩
    let w : Word := ['X', 'Y', 'A', 'F', '+', ']', 'F']
    let full := s.interpreter.run [] .standard w Canvas.empty
    let short := s.interpreter.run [] .standard (s.condensation.apply w) Canvas.empty
    full.result = .error ⟨.nothingSaved, some 5, .fatal⟩ ∧
      short.result = .error ⟨.nothingSaved, some 2, .fatal⟩ ∧
      full.turtle.surface.picture = short.turtle.surface.picture := by
  intro g s w full short
  obtain ⟨ht, -, hr, -⟩ := s.run_condensation .standard w Canvas.empty
  have hf : full.result = .error ⟨.nothingSaved, some 5, .fatal⟩ := rfl
  have hplace : 5 - ((w.take 5).length - (s.condensation.apply (w.take 5)).length) = 2 := by
    decide +kernel
  refine ⟨hf, ?_, congrArg (·.surface.picture) ht⟩
  rw [← hplace, hr, hf]
  rfl

end System
end Lindenmayer
