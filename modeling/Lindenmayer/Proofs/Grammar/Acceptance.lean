import Lindenmayer.Proofs.Grammar.Choice
import Lindenmayer.Proofs.Keyed

/-! Accepted grammars. Their rules are well formed, so that a replacement can be chosen for every
key in every pass, whatever words the source yields. -/
namespace Lindenmayer

namespace Grammar
variable {ρ : Type} [WordSource ρ]

/-- A grammar that some start word and some rules make. -/
def Accepted (g : Grammar) : Prop := ∃ start rules, ofRules start rules = .ok g

/-- What is checked of a rule before it is gathered. -/
theorem gather_cons {key : Word} {p : Production} {rules : List (Word × Production)}
    {seen final : Keyed Production} (h : gather ((key, p) :: rules) seen = .ok final) :
    key ≠ [] ∧ p.fault? key = none ∧ seen.contains key = false ∧
      gather rules (seen.insert key p) = .ok final := by
  unfold gather at h
  split at h
  · cases h
  · rename_i hk
    split at h
    · cases h
    · rename_i hf
      split at h
      · cases h
      · rename_i hc
        exact ⟨by simpa using hk, hf, by simpa using hc, h⟩

theorem wellFormed_gather {rules : List (Word × Production)} {seen final : Keyed Production}
    (hs : WellFormed seen) (h : gather rules seen = .ok final) : WellFormed final := by
  induction rules generalizing seen with
  | nil => cases h; exact hs
  | cons r rules ih =>
    obtain ⟨hk, hf, -, hg⟩ := gather_cons h
    refine ih ?_ hg
    intro e he
    rcases Keyed.mem_insert.mp he with rfl | he
    · exact ⟨hk, hf⟩
    · exact hs e he

theorem pairwise_gather {rules : List (Word × Production)} {seen final : Keyed Production}
    (hs : seen.Pairwise fun r r' => r.1 < r'.1) (h : gather rules seen = .ok final) :
    final.Pairwise fun r r' => r.1 < r'.1 := by
  induction rules generalizing seen with
  | nil => cases h; exact hs
  | cons r rules ih =>
    obtain ⟨-, -, hc, hg⟩ := gather_cons h
    exact ih (Keyed.pairwise_insert hs hc r.2) hg

private theorem Accepted.exists_gather {g : Grammar} (h : g.Accepted) :
    ∃ rules, gather rules [] = .ok g.rules := by
  obtain ⟨start, rules, h⟩ := h
  unfold ofRules at h
  split at h
  · cases h
  · rename_i accepted hg
    split at h
    · cases h
    · cases h
      exact ⟨rules, hg⟩

theorem Accepted.wellFormed {g : Grammar} (h : g.Accepted) : WellFormed g.rules := by
  obtain ⟨rules, hg⟩ := h.exists_gather
  exact wellFormed_gather (by intro r hr; cases hr) hg

/-- The keys of an accepted grammar ascend. -/
theorem Accepted.pairwise_keys {g : Grammar} (h : g.Accepted) :
    g.rules.Pairwise fun r r' => r.1 < r'.1 := by
  obtain ⟨rules, hg⟩ := h.exists_gather
  exact pairwise_gather .nil hg

/-- A choice for well formed rules gives each key one of the replacements of its rule. -/
theorem exists_choices {rules : Keyed Production} (h : WellFormed rules) (source : ρ) :
    ∃ chosen next, choices rules source = .ok (chosen, next) ∧
      ∀ e ∈ chosen, ∃ r ∈ rules, e.1 = r.1 ∧ e.2 ∈ r.2.replacements := by
  obtain ⟨chosen, hc, hm⟩ := choices_eq h source
  refine ⟨chosen, _, hc, fun e he => ?_⟩
  have hs := List.mem_map_of_mem (f := some) he
  rw [hm, List.mem_mapIdx] at hs
  obtain ⟨i, hi, hs⟩ := hs
  obtain ⟨w, hw, rfl⟩ := Option.map_eq_some_iff.mp hs
  exact ⟨_, List.getElem_mem hi, rfl, Production.mem_of_pick? hw⟩

namespace Accepted
variable {g : Grammar} (h : g.Accepted)

include h in
private theorem exists_pass (w : Word) (source : ρ) :
    ∃ next rest, g.pass w source = .ok (next, rest) := by
  obtain ⟨chosen, rest, hc, _⟩ := exists_choices h.wellFormed source
  exact ⟨_, rest, by rw [pass, resolve, hc]; rfl⟩

include h in
private theorem exists_repeated (n : Nat) (w : Word) (source : ρ) :
    ∃ final rest, g.repeated n w source = .ok (final, rest) := by
  induction n generalizing w source with
  | zero => exact ⟨w, source, rfl⟩
  | succ n ih =>
    obtain ⟨next, rest, hp⟩ := h.exists_pass w source
    simp only [repeated, hp]
    exact ih next rest

include h in
private theorem settled_ok_or (limit n : Nat) (w : Word) (source : ρ) :
    (∃ final rest, g.settled limit n w source = .ok (final, rest)) ∨
      g.settled limit n w source = .error (.of (.notStable limit)) := by
  induction n generalizing w source with
  | zero => exact .inr rfl
  | succ n ih =>
    obtain ⟨next, rest, hp⟩ := h.exists_pass w source
    simp only [settled, hp]
    split
    · exact .inl ⟨w, rest, rfl⟩
    · exact ih next rest

include h in
/-- An accepted grammar expands for every number of passes. Only passes up to a stable word can
fail, when there is none within the limit. -/
theorem expand_ok_or (passes : Passes) (source : ρ) :
    (∃ final rest, g.expand passes source = .ok (final, rest)) ∨
      ∃ limit, passes = .untilStable limit ∧
        g.expand passes source = .error (.of (.notStable limit)) := by
  unfold expand
  split
  · exact .inl ⟨g.start, source, rfl⟩
  · cases passes with
    | exactly n => exact .inl (h.exists_repeated n g.start source)
    | untilStable limit =>
      rcases h.settled_ok_or limit limit g.start source with ho | he
      · exact .inl ho
      · exact .inr ⟨limit, rfl, he⟩

include h in
theorem exists_expand (n : Nat) (source : ρ) :
    ∃ final rest, g.expand (.exactly n) source = .ok (final, rest) := by
  rcases h.expand_ok_or (.exactly n) source with ho | ⟨_, hp, _⟩
  · exact ho
  · cases hp

end Accepted
end Grammar
end Lindenmayer
