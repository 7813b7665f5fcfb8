import Lindenmayer.Proofs.Grammar.Acceptance

/-! Expansions and their sources. An expansion of one more pass is the expansion before it with a
pass more, and each pass draws one word for each rule that leaves a choice, in the order of the
keys. So the words of an expansion are told by counting. -/
namespace Lindenmayer

open WordSource (drop word)

namespace Grammar
variable {ρ : Type} [WordSource ρ] {g : Grammar}

/-- A pass of an accepted grammar, by the words that it draws. -/
private theorem Accepted.resolve_eq (h : g.Accepted) (source : ρ) :
    ∃ chosen, g.resolve source = .ok (.ofList chosen, drop source (choiceCount g.rules)) ∧
      chosen.map some = g.rules.mapIdx fun i r =>
        (r.2.pick? (word source (choiceCount (g.rules.take i)))).map (r.1, ·) := by
  obtain ⟨chosen, hc, hm⟩ := choices_eq h.wellFormed source
  exact ⟨chosen, by rw [resolve, hc]; rfl, hm⟩

/-- Passes can be counted from the other end. -/
theorem repeated_succ {n : Nat} {w v : Word} {source rest : ρ}
    (h : g.repeated n w source = .ok (v, rest)) : g.repeated (n + 1) w source = g.pass v rest := by
  induction n generalizing w source with
  | zero =>
    cases h
    rw [repeated]
    cases g.pass v rest with
    | error f => rfl
    | ok next => rfl
  | succ n ih =>
    rw [repeated] at h ⊢
    split at h
    · cases h
    · exact ih h

theorem Accepted.repeated_eq (h : g.Accepted) (n : Nat) (w : Word) (source : ρ) :
    ∃ v, g.repeated n w source = .ok (v, drop source (n * choiceCount g.rules)) := by
  induction n with
  | zero => exact ⟨w, by rw [Nat.zero_mul]; rfl⟩
  | succ n ih =>
    obtain ⟨v, hv⟩ := ih
    obtain ⟨chosen, hc, _⟩ := h.resolve_eq (drop source (n * choiceCount g.rules))
    refine ⟨(Rules.ofList chosen).apply v, ?_⟩
    rw [repeated_succ hv, pass, hc, Nat.succ_mul, WordSource.drop_add]
    rfl

/-- Without rules a pass does nothing. -/
theorem pass_of_rules_nil (h : g.rules = []) (w : Word) (source : ρ) :
    g.pass w source = .ok (w, source) := by
  rw [pass, resolve, h]
  rfl

/-- Without rules an expansion is the start word, for any number of passes. -/
theorem expand_of_rules_nil (h : g.rules = []) (passes : Passes) (source : ρ) :
    g.expand passes source = .ok (g.start, source) :=
  if_pos (List.isEmpty_iff.mpr h)

/-- Without rules, too, an expansion is so many passes over the start word. -/
theorem expand_exactly (g : Grammar) (n : Nat) (source : ρ) :
    g.expand (.exactly n) source = g.repeated n g.start source := by
  unfold expand
  split
  · rename_i he
    induction n with
    | zero => rfl
    | succ n ih => rw [repeated, pass_of_rules_nil (List.isEmpty_iff.mp he)]; exact ih
  · rfl

/-- Without weights a pass has no use for its source, and its rules are always the same. -/
private theorem exists_resolve (h : g.isDeterministic = true) :
    ∃ rules, ∀ source : ρ, g.resolve source = .ok (rules, source) := by
  have hc : ∀ rules : Keyed Production, (∀ r ∈ rules, r.2.isWeighted = false) →
      ∃ chosen, ∀ source : ρ, choices rules source = .ok (chosen, source) := by
    intro rules hr
    induction rules with
    | nil => exact ⟨[], fun _ => rfl⟩
    | cons r rules ih =>
      obtain ⟨hw, hrs⟩ := List.forall_mem_cons.mp hr
      obtain ⟨chosen, hc⟩ := ih hrs
      obtain ⟨key, w | as⟩ := r
      · exact ⟨(key, w) :: chosen, fun source => by simp only [choices, Production.choose, hc]⟩
      · cases hw
  obtain ⟨chosen, hc⟩ := hc g.rules (by simpa [isDeterministic] using h)
  exact ⟨.ofList chosen, fun source => by rw [resolve, hc]; rfl⟩

theorem choiceCount_eq_zero (h : g.isDeterministic = true) : choiceCount g.rules = 0 := by
  refine List.countP_eq_zero.mpr fun r hr hc => ?_
  have hw : r.2.isWeighted = false := by
    simp only [isDeterministic, Bool.not_eq_true', List.any_eq_false] at h
    simpa using h r hr
  cases hp : r.2 <;> simp [hp, Production.hasChoice, Production.isWeighted] at hc hw

/-- A grammar without weights chooses its rules once and for all, and its expansions repeat them. -/
theorem exists_rules (hd : g.isDeterministic = true) (source : ρ) :
    ∃ rules, g.resolve source = .ok (rules, source) ∧
      ∀ n, g.expand (.exactly n) source = .ok (Nat.repeat rules.apply n g.start, source) := by
  obtain ⟨rules, hr⟩ := exists_resolve (ρ := ρ) hd
  refine ⟨rules, hr source, fun n => ?_⟩
  rw [expand_exactly]
  induction n with
  | zero => rfl
  | succ n ih =>
    rw [repeated_succ ih, pass, hr]
    rfl

/-- Expansions are composed of passes, and so are the words that they draw. With `k` rules that
leave a choice, an expansion of `n` passes draws `n * k` words. The expansion of one pass more is
one pass over its word, by rules that are chosen from the source as it has left it: the keys ascend,
and each rule in turn takes the next word if it leaves a choice. A grammar without weights draws
none. Its rules are the same in all passes. -/
theorem expand_add_one (h : g.Accepted) (n : Nat) (source : ρ) :
    let k := choiceCount g.rules
    let rest := drop source (n * k)
    ∃ w chosen,
      g.expand (.exactly n) source = .ok (w, rest) ∧
      g.resolve rest = .ok (.ofList chosen, drop source ((n + 1) * k)) ∧
      g.expand (.exactly (n + 1)) source =
        .ok ((Rules.ofList chosen).apply w, drop source ((n + 1) * k)) ∧
      g.rules.Pairwise (fun r r' => r.1 < r'.1) ∧
      chosen.map some = g.rules.mapIdx (fun i r =>
        (r.2.pick? (word source (n * k + choiceCount (g.rules.take i)))).map (r.1, ·)) ∧
      (g.isDeterministic = true → k = 0 ∧ ∃ rules, g.resolve source = .ok (rules, source) ∧
        ∀ m, g.expand (.exactly m) source = .ok (Nat.repeat rules.apply m g.start, source)) := by
  intro k rest
  obtain ⟨w, hw⟩ := h.repeated_eq n g.start source
  obtain ⟨chosen, hc, hm⟩ := h.resolve_eq rest
  rw [← WordSource.drop_add, ← Nat.succ_mul] at hc
  simp only [rest, WordSource.word_drop] at hm
  refine ⟨w, chosen, by rw [expand_exactly, hw], hc, ?_, h.pairwise_keys, hm, fun hd => ⟨?_, ?_⟩⟩
  · rw [expand_exactly, repeated_succ hw, pass, hc]
    rfl
  · exact choiceCount_eq_zero hd
  · exact exists_rules hd source

/-- A meadow of three rules. The one with a lone alternative draws no word, so that a pass takes two
and the third pass begins at the fifth. -/
theorem expand_add_one_meadow :
    let g : Grammar := ⟨['A'],
      [(['A'], .weighted [⟨['A', 'B'], 1⟩, ⟨['B', 'C'], 2⟩]), (['B'], .weighted [⟨['C', 'A'], 1⟩]),
        (['C'], .weighted [⟨['A'], 1⟩, ⟨['B'], 1⟩, ⟨[], 3⟩])]⟩
    let source := Cycle.ofList [5, 9223372036854775808, 11]
    g.Accepted ∧ ∃ w v,
      g.expand (.exactly 2) source = .ok (w, drop source 4) ∧
      g.expand (.exactly 3) source = .ok (v, drop source 6) ∧
      g.pass w (drop source 4) = .ok (v, drop source 6) := by
  intro g source
  have hg : g.Accepted := ⟨g.start, g.rules, rfl⟩
  obtain ⟨w, chosen, hw, hr, hv, -⟩ := expand_add_one hg 2 source
  exact ⟨hg, w, (Rules.ofList chosen).apply w, hw, hv, by rw [pass]; exact congrArg _ hr⟩

end Grammar
end Lindenmayer
