import Lindenmayer.Proofs.Grammar.Expansion
import Lindenmayer.Proofs.System.Condensation
import Lindenmayer.Proofs.Turtle.Underflow
import Lindenmayer.System.Basic

/-! Balance: systems whose words are balanced after any number of passes, so that their drawings never
take back what was not saved. -/
namespace Lindenmayer

namespace Bindings
variable {b : Bindings} {w : Word} {d : Nat}

/-- Symbols that neither save nor take back leave the depth as it is. -/
theorem depth?_of_not_bracket
    (h : ∀ c ∈ w, (b.action c).isPush = false ∧ (b.action c).isPop = false) (d : Nat) :
    b.depth? d w = some d := by
  induction w with
  | nil => rfl
  | cons c cs ih =>
    obtain ⟨⟨hs, hp⟩, hcs⟩ := List.forall_mem_cons.mp h
    have hc : (b.action c).depth? d = some d := Action.depth?_eq_some_iff.mpr (by rw [hs, hp])
    rw [depth?_cons, hc, Option.bind_some, ih hcs]

/-- Symbols that do nothing have no part in the nesting of a word. -/
theorem depth?_filter {keep : Char → Bool} (hk : ∀ c, keep c = false → b.isNoop c = true)
    (d : Nat) (w : Word) : b.depth? d (w.filter keep) = b.depth? d w := by
  induction w generalizing d with
  | nil => rfl
  | cons c cs ih =>
    cases hc : keep c with
    | true => simp [hc, ih]
    | false =>
      have hn : (b.action c).depth? d = some d := by
        have hc := hk c hc
        unfold isNoop at hc
        cases ha : b.action c <;> simp [ha, Action.isNoop] at hc ⊢
        rfl
      rw [List.filter_cons_of_neg (by simp [hc]), ih, depth?_cons, hn, Option.bind_some]

/-- A pass keeps the nesting of a word when each key has the nesting of its replacement. -/
theorem depth?_apply {r : Rules} (hr : r.Proper)
    (he : ∀ e ∈ r.entries, ∀ d, b.depth? d e.2 = b.depth? d e.1) (d : Nat) (w : Word) :
    b.depth? d (r.apply w) = b.depth? d w := by
  induction w using Rules.pass_induction hr generalizing d with
  | nil => simp
  | fits key replacement rest hm ih =>
    have hd := he _ (Rules.mem_of_match hm) d
    rw [Rules.apply_of_match hr hm, depth?_append, depth?_append, hd]
    cases b.depth? d key with
    | none => rfl
    | some e => exact ih e
  | stays c cs hm ih =>
    rw [Rules.apply_of_no_match hm, depth?_cons, depth?_cons]
    cases (b.action c).depth? d with
    | none => rfl
    | some e => exact ih e

end Bindings

/-- A system with brackets in balance: no key has a symbol that saves or takes back, and the start
word and every replacement are balanced. -/
structure System.BracketSafe (s : System) : Prop where
  keys : ∀ rule ∈ s.grammar.rules, ∀ c ∈ rule.1,
    (s.interpreter.bindings.action c).isPush = false ∧
      (s.interpreter.bindings.action c).isPop = false
  start : s.interpreter.bindings.Balanced s.grammar.start
  replacements : ∀ rule ∈ s.grammar.rules, ∀ w ∈ rule.2.replacements,
    s.interpreter.bindings.Balanced w

namespace System
variable {ρ σ : Type} [WordSource ρ] [Surface σ] {s : System}

private theorem depth?_pass (hg : s.grammar.Accepted) (hb : s.BracketSafe) {w next : Word}
    {source rest : ρ} (h : s.grammar.pass w source = .ok (next, rest)) (d : Nat) :
    s.interpreter.bindings.depth? d next = s.interpreter.bindings.depth? d w := by
  obtain ⟨r, hr, rfl, he, -⟩ := hg.rules_of_pass h
  refine Bindings.depth?_apply hr (fun e hm d => ?_) d w
  obtain ⟨rule, hrule, hkey, hw⟩ := he e hm
  rw [(hb.replacements rule hrule e.2 hw).depth?, hkey,
    Bindings.depth?_of_not_bracket (hb.keys rule hrule)]

/-- Every expansion of a system with brackets in balance is balanced. -/
theorem BracketSafe.balanced_expand (hb : s.BracketSafe) (hg : s.grammar.Accepted)
    {passes : Passes} {w : Word} {source rest : ρ}
    (h : s.grammar.expand passes source = .ok (w, rest)) :
    s.interpreter.bindings.Balanced w := by
  refine Grammar.expand_induction h hb.start fun w next source rest hp hw => ?_
  rw [Bindings.balanced_iff_depth?] at hw ⊢
  rw [depth?_pass hg hb hp, hw]

/-- Condensation keeps words balanced. -/
theorem balanced_condensation {w : Word} (h : s.interpreter.bindings.Balanced w) :
    s.interpreter.bindings.Balanced (s.condensation.apply w) := by
  rw [condensation, Grammar.apply_condensation]
  rw [Bindings.balanced_iff_depth?] at h ⊢
  rw [Bindings.depth?_filter fun c hc => (Grammar.keeps_eq_false_iff.mp hc).2, h]

/-- A system with brackets in balance produces balanced words, with condensation and without, and
its drawings come to their end on any surface and with any hooks, with nothing left saved. Passes up
to a stable word may find none within their limit; then there is no word to draw. -/
theorem draw_bracketSafe (hg : s.grammar.Accepted) (hb : s.BracketSafe) (plan : Plan)
    (hooks : List (Hook σ)) (surface : σ) (source : ρ) :
    (∃ w rest, s.produce plan source = .ok (w, rest) ∧
      s.interpreter.bindings.Balanced w ∧
      let run := s.interpreter.run hooks plan.pose w surface
      s.draw plan hooks surface source = (.ok run.turtle.cursor, run.turtle.surface) ∧
      run.turtle.stack = []) ∨
    ∃ limit, plan.passes = .untilStable limit ∧
      s.produce plan source = .error (.of (.notStable limit)) := by
  rcases hg.expand_ok_or plan.passes source with ⟨expanded, rest, he⟩ | ⟨limit, hp, he⟩
  · let w := if plan.condense then s.condensation.apply expanded else expanded
    have hproduce : s.produce plan source = .ok (w, rest) := by simp only [produce, he, w]
    have hw : s.interpreter.bindings.Balanced w := by
      have hx := hb.balanced_expand hg he
      cases hc : plan.condense with
      | false => simpa only [w, hc, Bool.false_eq_true, if_false] using hx
      | true => simpa only [w, hc, if_true] using balanced_condensation hx
    have hn : (s.interpreter.run hooks plan.pose w surface).fault = none :=
      Interpreter.fault_run_eq_none_iff.mpr hw.covered
    have hd := Interpreter.depth?_run hn
    rw [hw.depth?] at hd
    refine .inl ⟨w, rest, hproduce, hw, ?_, List.length_eq_zero_iff.mp (Option.some.inj hd).symm⟩
    simp only [draw, hproduce, Run.result_eq_ok_iff.mpr ⟨hn, rfl⟩]
  · exact .inr ⟨limit, hp, by simp only [produce, he]⟩

/-- A bush whose shoots branch or do not. -/
theorem draw_bracketSafe_bush :
    let g : Grammar := ⟨['X'], [(['F'], .fixed ['F', 'F']),
      (['X'], .weighted [⟨['F', '[', '+', '[', 'X', ']', '-', 'X', ']'], 1⟩, ⟨['F'], 2⟩])]⟩
    let s : System := ⟨g, ⟨.standard, .ofAngle 25⟩, []⟩
    g.Accepted ∧ s.BracketSafe ∧
      ∃ cursor, (s.draw ⟨.exactly 3, .standard, true⟩ [] Canvas.empty (Cycle.ofList [7])).1 =
        .ok cursor := by
  intro g s
  have hg : g.Accepted := ⟨g.start, g.rules, rfl⟩
  have hb : s.BracketSafe := by
    refine ⟨?_, Bindings.balanced_iff_depth?.mpr rfl, ?_⟩
    · simp only [s, g, List.forall_mem_cons, List.not_mem_nil, false_imp_iff, implies_true]
      decide
    · simp only [s, g, Production.replacements, List.forall_mem_cons, List.map_cons, List.map_nil,
        Bindings.balanced_iff_depth?]
      decide
  refine ⟨hg, hb, ?_⟩
  rcases draw_bracketSafe hg hb ⟨.exactly 3, .standard, true⟩ [] Canvas.empty (Cycle.ofList [7])
    with ⟨w, _, _, _, hd, _⟩ | ⟨_, hp, _⟩
  · exact ⟨_, congrArg Prod.fst hd⟩
  · cases hp

end System
end Lindenmayer
