import Lindenmayer.Preset.Config
import Lindenmayer.Proofs.Grammar.Acceptance
import Lindenmayer.Proofs.Grammar.Weights
import Lindenmayer.Proofs.Turtle.Underflow

/-! Built systems. What is checked when a system is built is all that its expansions rely on, so that
nothing is left to fail but the drawing, for want of a saved state. -/
namespace Lindenmayer
variable {ρ σ : Type} [WordSource ρ] [Surface σ]

/-- The weights of a production without fault have a sampler, which for every word picks one of the
alternatives. A choice is what is picked for the next word of the source. -/
theorem Production.exists_sampler {key : Word} {as : List Alternative}
    (h : (weighted as).fault? key = none) (hl : as.length ≠ 1) :
    ∃ sampler, Weighted.Sampler.ofWeights (as.map (·.weight)) = .ok sampler ∧
      (∀ word, sampler.pick word < as.length) ∧
      ∀ source : ρ, ∃ a, as[sampler.pick (WordSource.next source).1]? = some a ∧
        (weighted as).choose source = .ok (a.replacement, (WordSource.next source).2) := by
  match as with
  | [] => cases h
  | a :: as =>
    have hf : weightFault? (some key) (a :: as) = none := h
    exact exists_sampler_of_weightFault? hf nofun hl

namespace SystemConfig
variable {c : SystemConfig} {s : System}

/-- The grammar of a built system has passed its checks. -/
theorem accepted_of_build (h : c.build = .ok s) : s.grammar.Accepted := by
  unfold build at h
  cases hg : Grammar.ofRules c.start c.rules with
  | error f =>
    rw [hg] at h
    cases h
  | ok g =>
    cases hb : bindings c.actions with
    | error f =>
      rw [hg, hb] at h
      cases h
    | ok b =>
      rw [hg, hb] at h
      have hs : System.build g c.params b = .ok s := h
      unfold System.build at hs
      split at hs
      · cases hs
      · cases hs
        exact ⟨c.start, c.rules, hg⟩

/-- A built system expands and produces a word for every number of passes, on any source of words.
Each choice on the way is one that a sampler makes which refuses nothing and picks one of the
alternatives for every word. The drawing, on any surface and with any hooks, comes to its end or
fails for want of a saved state. -/
theorem draw_of_build (h : c.build = .ok s) (n : Nat) (pose : Pose) (condense : Bool)
    (hooks : List (Hook σ)) (surface : σ) (source : ρ) :
    let plan : Plan := ⟨.exactly n, pose, condense⟩
    (∃ w rest, s.grammar.expand (.exactly n) source = .ok (w, rest)) ∧
    (∃ w rest, s.produce plan source = .ok (w, rest)) ∧
    (∀ rule ∈ s.grammar.rules, ∀ as, rule.2 = .weighted as → as.length ≠ 1 →
      ∃ sampler, Weighted.Sampler.ofWeights (as.map (·.weight)) = .ok sampler ∧
        (∀ word, sampler.pick word < as.length) ∧
        ∀ source : ρ, ∃ a, as[sampler.pick (WordSource.next source).1]? = some a ∧
          rule.2.choose source = .ok (a.replacement, (WordSource.next source).2)) ∧
    ((∃ cursor, (s.draw plan hooks surface source).1 = .ok cursor) ∨
      ∃ f, (s.draw plan hooks surface source).1 = .error f ∧ f.kind = .stackUnderflow) := by
  intro plan
  have hg := accepted_of_build h
  obtain ⟨expanded, rest, he⟩ := hg.exists_expand n source
  let w := if condense then s.condensation.apply expanded else expanded
  have hproduce : s.produce plan source = .ok (w, rest) := by
    simp only [System.produce, plan, he, w]
  refine ⟨⟨expanded, rest, he⟩, ⟨w, rest, hproduce⟩, ?_, ?_⟩
  · intro rule hrule as has hl
    have hf := (hg.wellFormed rule hrule).2
    rw [has] at hf ⊢
    exact Production.exists_sampler hf hl
  · have hdraw : (s.draw plan hooks surface source).1 =
        (s.interpreter.run hooks pose w surface).result := by
      simp only [System.draw, hproduce, plan]
    rw [hdraw]
    cases hr : (s.interpreter.run hooks pose w surface).result with
    | ok cursor => exact .inl ⟨cursor, rfl⟩
    | error f =>
      obtain ⟨_, _, _, _, _, _, _, rfl, _⟩ :=
        Interpreter.exists_stop (Run.result_eq_error_iff.mp hr)
      exact .inr ⟨_, rfl, rfl⟩

/-- A hedge whose branches may end more often than they begin. -/
theorem draw_of_build_hedge :
    ∃ s, build ⟨['X'], [(['X'], .weighted [⟨['F', '[', 'X'], 1⟩, ⟨['F', ']', 'X'], 0.5⟩])],
        .ofAngle 90, []⟩ = .ok s ∧
      (∃ sampler, Weighted.Sampler.ofWeights [1, 0.5] = .ok sampler ∧
        ∀ word, sampler.pick word < 2) ∧
      let result := (s.draw ⟨.exactly 3, .standard, true⟩ [] Canvas.empty (Cycle.ofList [7])).1
      (∃ cursor, result = .ok cursor) ∨ ∃ f, result = .error f ∧ f.kind = .stackUnderflow := by
  have hb : build ⟨['X'], [(['X'], .weighted [⟨['F', '[', 'X'], 1⟩, ⟨['F', ']', 'X'], 0.5⟩])],
      .ofAngle 90, []⟩ = .ok ⟨⟨['X'], _⟩, ⟨.standard, .ofAngle 90⟩, []⟩ := rfl
  obtain ⟨-, -, hs, hd⟩ := draw_of_build hb 3 .standard true [] Canvas.empty (Cycle.ofList [7])
  obtain ⟨sampler, ho, hp, -⟩ := hs _ (List.mem_singleton_self _) _ rfl (by decide)
  exact ⟨_, hb, ⟨sampler, ho, hp⟩, hd⟩

end SystemConfig
end Lindenmayer
