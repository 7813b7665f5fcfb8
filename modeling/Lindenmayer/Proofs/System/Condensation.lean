import Lindenmayer.Proofs.Grammar.Rewriting
import Lindenmayer.System.Condense

/-! Condensation as a filter: whatever keys of a grammar shrink, a pass deletes the symbols of its
alphabet that do nothing, and no others. -/
namespace Lindenmayer
namespace Grammar

private theorem mem_insertSymbol {c d : Char} {cs : List Char} :
    c ∈ insertSymbol d cs ↔ c = d ∨ c ∈ cs := by
  induction cs with
  | nil => simp [insertSymbol]
  | cons e es ih =>
    unfold insertSymbol
    split
    · exact List.mem_cons
    · split
      · rename_i he
        rw [beq_iff_eq.mp he, List.mem_cons]
        exact (or_self_left).symm
      · rw [List.mem_cons, ih, List.mem_cons]
        exact or_left_comm

/-- The alphabet of a grammar has the symbols of the start word, of the keys and of all
replacements. -/
theorem mem_alphabet {g : Grammar} {c : Char} : c ∈ g.alphabet ↔ c ∈ g.symbols := by
  have hf : ∀ (w : Word) (cs : List Char),
      c ∈ w.foldl (fun cs c => insertSymbol c cs) cs ↔ c ∈ cs ∨ c ∈ w := by
    intro w
    induction w with
    | nil => simp
    | cons d ds ih =>
      intro cs
      rw [List.foldl_cons, ih, mem_insertSymbol, List.mem_cons, or_comm (a := c = d), or_assoc]
  rw [alphabet, hf]
  simp

private theorem key_subset_alphabet {g : Grammar} {key : Word} {p : Production}
    (h : (key, p) ∈ g.rules) : ∀ c ∈ key, c ∈ g.alphabet := by
  intro c hc
  rw [mem_alphabet, symbols, List.mem_append, List.mem_flatMap]
  exact .inr ⟨(key, p), h, List.mem_append_left _ hc⟩

/-- Whether condensation keeps a symbol. Outside of the alphabet it keeps all. -/
def keeps (g : Grammar) (b : Bindings) (c : Char) : Bool := !(g.alphabet.contains c && b.isNoop c)

theorem keeps_eq_false_iff {g : Grammar} {b : Bindings} {c : Char} :
    g.keeps b c = false ↔ c ∈ g.alphabet ∧ b.isNoop c = true := by
  simp [keeps]

theorem filter_keeps {g : Grammar} (b : Bindings) {w : Word}
    (h : ∀ c ∈ w, c ∈ g.alphabet) : w.filter (g.keeps b) = b.drawn w := by
  refine List.filter_congr fun c hc => ?_
  simp [keeps, h c hc]

end Grammar

/-- A shrinking key is that of its rule, and it is replaced by what it draws. -/
theorem Bindings.shrinking?_eq_some {b : Bindings} {rule : Word × Production} {e : Word × Word}
    (h : b.shrinking? rule = some e) : e.1 = rule.1 ∧ e.2 = b.drawn e.1 := by
  obtain ⟨key, p⟩ := rule
  cases p with
  | weighted _ => cases h
  | fixed w =>
    simp only [shrinking?] at h
    split at h
    · cases h
      exact ⟨rfl, rfl⟩
    · cases h

namespace Grammar

/-- The rules that delete the symbols of the alphabet that do nothing. -/
private def deletions (g : Grammar) (b : Bindings) : List (Word × Word) :=
  (g.alphabet.filter b.isNoop).map fun c => ([c], [])

private theorem eq_filter_of_mem_deletions {g : Grammar} {b : Bindings} {e : Word × Word}
    (h : e ∈ g.deletions b) : e.2 = e.1.filter (g.keeps b) := by
  obtain ⟨c, hc, rfl⟩ := List.mem_map.mp h
  obtain ⟨ha, hn⟩ := List.mem_filter.mp hc
  simp [keeps_eq_false_iff.mpr ⟨ha, hn⟩]

private theorem eq_filter_of_mem_shrinking {g : Grammar} {b : Bindings} {e : Word × Word}
    (h : e ∈ g.rules.filterMap b.shrinking?) : e.2 = e.1.filter (g.keeps b) := by
  obtain ⟨rule, hr, he⟩ := List.mem_filterMap.mp h
  obtain ⟨hk, hd⟩ := Bindings.shrinking?_eq_some he
  rw [hd, filter_keeps b]
  rw [hk]
  exact key_subset_alphabet hr

private theorem apply_deletions (g : Grammar) (b : Bindings) {shrinking : List (Word × Word)}
    (hs : shrinking ⊆ g.rules.filterMap b.shrinking?) (w : Word) :
    (Rules.ofList (g.deletions b ++ shrinking)).apply w = w.filter (g.keeps b) := by
  refine Rules.apply_eq_filter (Rules.proper_ofList _) ?_ ?_ w
  · intro e he
    rcases List.mem_append.mp (Rules.mem_ofList.mp he).1 with h | h
    · exact eq_filter_of_mem_deletions h
    · exact eq_filter_of_mem_shrinking (hs h)
  · intro c hc
    obtain ⟨ha, hn⟩ := keeps_eq_false_iff.mp hc
    refine Rules.mem_ofList.mpr ⟨List.mem_append_left _ ?_, by simp⟩
    exact List.mem_map.mpr ⟨c, List.mem_filter.mpr ⟨ha, hn⟩, rfl⟩

/-- A pass of condensation deletes the symbols that are not kept. -/
theorem apply_condensation (g : Grammar) (b : Bindings) (w : Word) :
    (g.condensation b).apply w = w.filter (g.keeps b) :=
  g.apply_deletions b (List.Subset.refl _) w

/-- Condensation is a filter. It deletes the symbols of the alphabet that do nothing and keeps all
others in order, so that it draws the same and a second pass changes nothing. Which of the shrinking
keys of the grammar are among its rules makes no difference. -/
theorem condensation_eq_filter (g : Grammar) (b : Bindings) (w : Word) :
    let condensed := (g.condensation b).apply w
    condensed = w.filter (fun c => !(g.alphabet.contains c && b.isNoop c)) ∧
    b.drawn condensed = b.drawn w ∧
    (g.condensation b).apply condensed = condensed ∧
    ∀ among : Word × Word → Bool,
      (Rules.ofList ((g.alphabet.filter b.isNoop).map (fun c => ([c], [])) ++
        (g.rules.filterMap b.shrinking?).filter among)).apply w = condensed := by
  intro condensed
  have hc : condensed = w.filter (g.keeps b) := g.apply_condensation b w
  refine ⟨hc, ?_, ?_, fun among => ?_⟩
  · -- A symbol that does something is kept.
    rw [hc, Bindings.drawn, Bindings.drawn, List.filter_filter]
    refine List.filter_congr fun c _ => ?_
    cases hn : b.isNoop c <;> simp [keeps, hn]
  · rw [apply_condensation, hc, List.filter_filter]
    simp
  · rw [hc]
    exact g.apply_deletions b (fun _ he => (List.mem_filter.mp he).1) w

end Grammar
end Lindenmayer
