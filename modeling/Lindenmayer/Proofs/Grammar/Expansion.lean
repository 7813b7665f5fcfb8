import Lindenmayer.Proofs.Grammar.Acceptance
import Lindenmayer.Proofs.Grammar.Rewriting

/-! Expansions pass by pass: what the start word has and every pass keeps, every expansion has. -/
namespace Lindenmayer.Grammar
variable {ρ : Type} [WordSource ρ] {g : Grammar} {motive : Word → Prop}

/-- A pass of an accepted grammar rewrites by rules that give each key, and nothing else, one of its
replacements. -/
theorem Accepted.rules_of_pass (h : g.Accepted) {w next : Word} {source rest : ρ}
    (hp : g.pass w source = .ok (next, rest)) :
    ∃ r : Rules, r.Proper ∧ next = r.apply w ∧
      (∀ e ∈ r.entries, ∃ rule ∈ g.rules, e.1 = rule.1 ∧ e.2 ∈ rule.2.replacements) ∧
      ∀ rule ∈ g.rules, ∃ e ∈ r.entries, e.1 = rule.1 := by
  obtain ⟨chosen, _, hc, hm⟩ := exists_choices h.wellFormed source
  have hk := keys_choices hc
  rw [pass, resolve, hc] at hp
  cases hp
  refine ⟨.ofList chosen, Rules.proper_ofList chosen, rfl,
    fun e he => hm e (Rules.mem_ofList.mp he).1, fun rule hr => ?_⟩
  have hkey := List.mem_map_of_mem (f := Prod.fst) hr
  rw [← hk] at hkey
  obtain ⟨e, he, hek⟩ := List.mem_map.mp hkey
  exact ⟨e, Rules.mem_ofList.mpr ⟨he, hek ▸ (h.wellFormed rule hr).1⟩, hek⟩

private theorem repeated_induction
    (step : ∀ (w next : Word) (source rest : ρ),
      g.pass w source = .ok (next, rest) → motive w → motive next)
    {n : Nat} {w final : Word} {source rest : ρ} (hw : motive w)
    (h : g.repeated n w source = .ok (final, rest)) : motive final := by
  induction n generalizing w source with
  | zero =>
    cases h
    exact hw
  | succ n ih =>
    unfold repeated at h
    split at h
    · cases h
    · rename_i next middle hp
      exact ih (step w next source middle hp hw) h

private theorem settled_induction
    (step : ∀ (w next : Word) (source rest : ρ),
      g.pass w source = .ok (next, rest) → motive w → motive next)
    {limit n : Nat} {w final : Word} {source rest : ρ} (hw : motive w)
    (h : g.settled limit n w source = .ok (final, rest)) : motive final := by
  induction n generalizing w source with
  | zero => cases h
  | succ n ih =>
    unfold settled at h
    split at h
    · cases h
    · rename_i next middle hp
      split at h
      · cases h
        exact hw
      · exact ih (step w next source middle hp hw) h

/-- Induction along an expansion, for any number of passes and any choices in them. -/
theorem expand_induction {passes : Passes} {w : Word} {source rest : ρ}
    (h : g.expand passes source = .ok (w, rest)) (start : motive g.start)
    (step : ∀ (w next : Word) (source rest : ρ),
      g.pass w source = .ok (next, rest) → motive w → motive next) : motive w := by
  unfold expand at h
  split at h
  · cases h
    exact start
  · cases passes with
    | exactly n => exact repeated_induction step start h
    | untilStable limit => exact settled_induction step start h

end Lindenmayer.Grammar
