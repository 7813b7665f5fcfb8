import Lindenmayer.Proofs.Grammar.Acceptance
import Lindenmayer.Proofs.System.Condensation
import Lindenmayer.Proofs.Turtle.Drawing
import Lindenmayer.System.Basic

/-! Drawings with and without condensation. Symbols that do nothing only give the decorations more
rounds, and these make no difference to the picture. -/
namespace Lindenmayer
open Decoration (hook)

/-- Two turtles that a round of decorations makes one, on canvases with the same picture. -/
structure Turtle.Alike (ds : List Decoration) (t u : Turtle Canvas) : Prop where
  observe : ∀ n c n' c', t.observe (ds.map hook) n c = u.observe (ds.map hook) n' c'
  picture : t.surface.picture = u.surface.picture

namespace Turtle.Alike
variable {ds : List Decoration} {t u : Turtle Canvas}

theorem refl (ds : List Decoration) (t : Turtle Canvas) : t.Alike ds t :=
  ⟨fun n c n' c' => Decoration.observe_congr ds n n' c c' t, rfl⟩

/-- A round more on one side is made up for by the next one. -/
theorem observe_left (h : t.Alike ds u) (n : Nat) (c : Char) :
    (t.observe (ds.map hook) n c).Alike ds u where
  observe n' c' n'' c'' := by
    rw [Decoration.observe_observe]
    exact h.observe n c n'' c''
  picture := by
    rw [Turtle.picture_observe (Decoration.isCosmetic_hooks ds)]
    exact h.picture

end Turtle.Alike

namespace Interpreter

/-- A run without some of the symbols that do nothing draws the same picture, and it fails when the
run with them does. -/
theorem walk_filter (i : Interpreter) (ds : List Decoration) {keep : Char → Bool}
    (hk : ∀ c, keep c = false → i.bindings.isNoop c = true) (n n' : Nat) (w : Word)
    {t u : Turtle Canvas} (h : t.Alike ds u) :
    let full := i.walk (ds.map hook) n w t
    let short := i.walk (ds.map hook) n' (w.filter keep) u
    full.turtle.surface.picture = short.turtle.surface.picture ∧
      full.fault.isSome = short.fault.isSome := by
  induction w generalizing n n' t u with
  | nil => exact ⟨h.picture, rfl⟩
  | cons c cs ih =>
    cases hc : keep c with
    | false =>
      -- Only the full run takes a step here, which is a round of the decorations.
      have ha := Turtle.act_of_isNoop (hk c hc) i.params (t.observe (ds.map hook) n c)
      simp only [List.filter_cons, hc, Bool.false_eq_true, if_false, walk_cons_of_ok ha]
      exact ih (n + 1) n' (h.observe_left n c)
    | true =>
      have ho := h.observe n c n' c
      simp only [List.filter_cons, hc, if_true]
      cases ha : (t.observe (ds.map hook) n c).act i.params (i.bindings.action c) with
      | error f =>
        rw [walk_cons_of_error ha, walk_cons_of_error (ho ▸ ha), ho]
        exact ⟨rfl, rfl⟩
      | ok next =>
        rw [walk_cons_of_ok ha, walk_cons_of_ok (ho ▸ ha)]
        exact ih (n + 1) (n' + 1) (.refl ds next)

end Interpreter

private theorem result_ok {σ : Type} {r : Run σ} (h : r.fault.isSome = false) :
    ∃ cursor, r.result = .ok cursor := by
  rw [Option.isSome_eq_false_iff, Option.isNone_iff_eq_none] at h
  exact ⟨r.turtle.cursor, by rw [Run.result, h]⟩

private theorem result_error {σ : Type} [Surface σ] {i : Interpreter} {hooks : List (Hook σ)}
    {pose : Pose} {w : Word} {surface : σ} (h : (i.run hooks pose w surface).fault.isSome = true) :
    ∃ f, (i.run hooks pose w surface).result = .error f ∧ f.kind = .stackUnderflow := by
  rcases i.fault_walk hooks 0 w (.start i.params pose surface) with ⟨hn, _⟩ | hf
  · rw [Interpreter.run, hn] at h
    cases h
  · exact ⟨_, by rw [Run.result, Interpreter.run, hf], rfl⟩

namespace System

/-- Condensation never changes a drawing. With it and without it, from the same canvas and the same
random source, the pictures are the same, and either both drawings succeed or both fail for want of
a saved state. Expansion comes before both: without a stable word there is nothing to draw. -/
theorem picture_draw_condense {ρ : Type} [WordSource ρ] (s : System) (hg : s.grammar.Accepted)
    (passes : Passes) (pose : Pose) (decorations : List Decoration) (canvas : Canvas)
    (source : ρ) :
    let full := s.draw ⟨passes, pose, false⟩ (decorations.map hook) canvas source
    let short := s.draw ⟨passes, pose, true⟩ (decorations.map hook) canvas source
    full.2.picture = short.2.picture ∧
    ((∃ c c', full.1 = .ok c ∧ short.1 = .ok c') ∨
      (∃ f f', full.1 = .error f ∧ short.1 = .error f' ∧
        f.kind = .stackUnderflow ∧ f'.kind = .stackUnderflow) ∨
      ∃ limit, passes = .untilStable limit ∧
        full.1 = .error (.of (.notStable limit)) ∧ short.1 = .error (.of (.notStable limit))) := by
  intro full short
  rcases hg.expand_ok_or passes source with ⟨w, rest, he⟩ | ⟨limit, hp, he⟩
  · let keep := s.grammar.keeps s.interpreter.bindings
    let r := s.interpreter.run (decorations.map hook) pose w canvas
    let r' := s.interpreter.run (decorations.map hook) pose (w.filter keep) canvas
    have hfull : full = (r.result, r.turtle.surface) := by
      simp only [full, draw, produce, he]
      rfl
    have hshort : short = (r'.result, r'.turtle.surface) := by
      simp only [short, draw, produce, he, if_true, condensation, Grammar.apply_condensation]
      rfl
    obtain ⟨hpic, hsame⟩ := s.interpreter.walk_filter decorations
      (fun c hc => (Grammar.keeps_eq_false_iff.mp hc).2) 0 0 w (.refl decorations
        (.start s.interpreter.params pose canvas))
    have hsome : r.fault.isSome = r'.fault.isSome := hsame
    rw [hfull, hshort]
    refine ⟨hpic, ?_⟩
    cases hb : r.fault.isSome with
    | false =>
      obtain ⟨c, hc⟩ := result_ok hb
      obtain ⟨c', hc'⟩ := result_ok (hsome ▸ hb)
      exact .inl ⟨c, c', hc, hc'⟩
    | true =>
      obtain ⟨f, hf, hu⟩ := result_error hb
      obtain ⟨f', hf', hu'⟩ := result_error (hsome ▸ hb)
      exact .inr (.inl ⟨f, f', hf, hf', hu, hu'⟩)
  · have hfull : full = (.error (.of (.notStable limit)), canvas) := by
      simp only [full, draw, produce, he]
    have hshort : short = (.error (.of (.notStable limit)), canvas) := by
      simp only [short, draw, produce, he]
    rw [hfull, hshort]
    exact ⟨rfl, .inr (.inr ⟨limit, hp, rfl, rfl⟩)⟩

/-- The system of a rule that leaves its key at the end draws the same without these keys. -/
theorem picture_draw_sprout :
    let g : Grammar := ⟨['X'], [(['X'], .fixed ['F', '+', 'X'])]⟩
    let s : System := ⟨g, ⟨.standard, .ofAngle 90⟩, []⟩
    let taper : List (Hook Canvas) := [hook (.taper ⟨3⟩)]
    g.Accepted ∧
      (s.draw ⟨.exactly 2, .standard, false⟩ taper .empty (Cycle.ofList [])).2.picture =
        (s.draw ⟨.exactly 2, .standard, true⟩ taper .empty (Cycle.ofList [])).2.picture := by
  intro g s taper
  have hg : g.Accepted := ⟨['X'], [(['X'], .fixed ['F', '+', 'X'])], rfl⟩
  exact ⟨hg, (s.picture_draw_condense hg (.exactly 2) .standard [.taper ⟨3⟩] .empty _).1⟩

end System
end Lindenmayer
