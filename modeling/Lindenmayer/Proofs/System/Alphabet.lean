import Lindenmayer.Proofs.Grammar.Expansion
import Lindenmayer.Proofs.System.Condensation
import Lindenmayer.Proofs.Turtle.Bindings
import Lindenmayer.System.Basic

/-! Alphabets. Every expansion of a grammar stays within its alphabet, so that a condensed word has
no symbol left that does nothing, however the symbol came to do nothing. -/
namespace Lindenmayer

namespace Grammar
variable {ρ : Type} [WordSource ρ] {g : Grammar}

private theorem start_subset_alphabet (g : Grammar) : ∀ c ∈ g.start, c ∈ g.alphabet := by
  intro c hc
  rw [mem_alphabet, symbols]
  exact List.mem_append_left _ hc

private theorem replacement_subset_alphabet {rule : Word × Production} (hr : rule ∈ g.rules)
    {w : Word} (hw : w ∈ rule.2.replacements) : ∀ c ∈ w, c ∈ g.alphabet := by
  intro c hc
  have hf : c ∈ rule.2.replacements.flatten := List.mem_flatten.mpr ⟨w, hw, hc⟩
  rw [mem_alphabet, symbols, List.mem_append, List.mem_flatMap]
  exact .inr ⟨rule, hr, List.mem_append_right _ hf⟩

/-- The alphabet of a grammar has every symbol of every expansion. -/
theorem Accepted.expand_subset_alphabet (h : g.Accepted) {passes : Passes} {w : Word}
    {source rest : ρ} (he : g.expand passes source = .ok (w, rest)) :
    ∀ c ∈ w, c ∈ g.alphabet := by
  refine expand_induction (motive := fun w => ∀ c ∈ w, c ∈ g.alphabet) he g.start_subset_alphabet
    fun w next source rest hp hw => ?_
  obtain ⟨r, hr, rfl, hm, -⟩ := h.rules_of_pass hp
  refine Rules.forall_mem_apply hr (fun e hmem => ?_) hw
  obtain ⟨rule, hrule, _, hreplacement⟩ := hm e hmem
  exact replacement_subset_alphabet hrule hreplacement

end Grammar

namespace System
variable {ρ : Type} [WordSource ρ]

/-- Condensed words. Only passes up to a stable word may have no word, when there is no stable one
within their limit. Every other expansion has symbols of the alphabet only, and the word that is
condensed from it is the expansion without the symbols that do nothing. None of these is left, and
so none whose last binding asks for no action or names none. -/
theorem produce_condensed (s : System) (hg : s.grammar.Accepted) (passes : Passes) (pose : Pose)
    (source : ρ) :
    ((∃ w rest, s.grammar.expand passes source = .ok (w, rest)) ∨
      ∃ limit, passes = .untilStable limit ∧
        s.grammar.expand passes source = .error (.of (.notStable limit))) ∧
    ∀ w rest, s.grammar.expand passes source = .ok (w, rest) →
      let condensed := w.filter fun c => !s.interpreter.bindings.isNoop c
      (∀ c ∈ w, c ∈ s.grammar.alphabet) ∧
      s.produce ⟨passes, pose, true⟩ source = .ok (condensed, rest) ∧
      (∀ c ∈ condensed, s.interpreter.bindings.isNoop c = false) ∧
      ∀ (b : Bindings) earlier c named later,
        s.interpreter.bindings = (b.extend (earlier ++ (c, named) :: later)).1 →
        (∀ e ∈ later, e.1 ≠ c) →
        (named.resolve = .ok .noop ∨ ∃ cause, named.resolve = .error cause) → c ∉ condensed := by
  refine ⟨hg.expand_ok_or passes source, fun w rest he => ?_⟩
  intro condensed
  have halphabet := hg.expand_subset_alphabet he
  have hleft : ∀ c ∈ condensed, s.interpreter.bindings.isNoop c = false :=
    fun c hc => by simpa using (List.mem_filter.mp hc).2
  refine ⟨halphabet, ?_, hleft, ?_⟩
  · have hfilter : s.condensation.apply w = condensed := by
      rw [condensation, Grammar.apply_condensation]
      exact s.grammar.filter_keeps s.interpreter.bindings halphabet
    simp only [produce, he, if_true, hfilter]
  · intro b earlier c named later hb hlater hnamed hc
    have haction := b.action_extend earlier c named hlater
    rw [← hb] at haction
    have hn := hleft c hc
    rcases hnamed with hr | ⟨cause, hr⟩ <;>
      simp [Bindings.isNoop, haction, hr, Action.isNoop] at hn

/-- A fern with a symbol whose action has no meaning and one that is told to do nothing. -/
theorem produce_condensed_fern :
    let g : Grammar := ⟨['X'], [(['F'], .fixed ['F', 'Q']),
      (['X'], .weighted [⟨['F', '[', '+', 'X', ']'], 1⟩, ⟨['F', '|', 'X'], 2⟩])]⟩
    let bindings : List (Char × NamedAction) :=
      [('Q', ⟨"forward", []⟩), ('Q', ⟨"spin", []⟩), ('|', ⟨"noop", []⟩)]
    let s : System := ⟨g, ⟨(Bindings.standard.extend bindings).1, .ofAngle 25⟩, []⟩
    g.Accepted ∧ ∃ w rest,
      s.produce ⟨.exactly 3, .standard, true⟩ (Cycle.ofList [7]) = .ok (w, rest) ∧
      'Q' ∉ w ∧ '|' ∉ w ∧ 'X' ∉ w := by
  intro g bindings s
  have hg : g.Accepted := ⟨g.start, g.rules, rfl⟩
  obtain ⟨hw, hcondensed⟩ := s.produce_condensed hg (.exactly 3) .standard (Cycle.ofList [7])
  rcases hw with ⟨w, rest, hw⟩ | ⟨_, hp, _⟩
  · obtain ⟨-, hproduce, hleft, hnamed⟩ := hcondensed w rest hw
    refine ⟨hg, _, rest, hproduce, ?_, ?_, fun hx => absurd (hleft 'X' hx) (by decide)⟩
    · exact hnamed .standard [('Q', ⟨"forward", []⟩)] 'Q' ⟨"spin", []⟩ [('|', ⟨"noop", []⟩)] rfl
        (by decide) (.inr ⟨_, rfl⟩)
    · exact hnamed .standard [('Q', ⟨"forward", []⟩), ('Q', ⟨"spin", []⟩)] '|' ⟨"noop", []⟩ [] rfl
        (by decide) (.inl rfl)
  · cases hp

end System
end Lindenmayer
