import Lindenmayer.Grammar.Expand

/-! Choices: which words the rules of a grammar draw from a source, and what they make of them. Each
rule that leaves a choice draws one word, in the order of the keys, and no other rule draws any. -/
namespace Lindenmayer

namespace WordSource
variable {ρ : Type} [WordSource ρ]

/-- A source after some words were drawn from it. -/
def drop (source : ρ) : Nat → ρ
  | 0 => source
  | n + 1 => drop (next source).2 n

/-- The word at an index of a source, counted from the next one to be drawn. -/
def word (source : ρ) (n : Nat) : UInt64 := (next (drop source n)).1

@[simp] theorem drop_zero (source : ρ) : drop source 0 = source := rfl

theorem drop_add (source : ρ) (m n : Nat) : drop source (m + n) = drop (drop source m) n := by
  induction m generalizing source with
  | zero => rw [Nat.zero_add, drop_zero]
  | succ m ih =>
    rw [Nat.add_right_comm]
    exact ih (next source).2

theorem word_drop (source : ρ) (m n : Nat) : word (drop source m) n = word source (m + n) := by
  rw [word, word, drop_add]

end WordSource

open WordSource (drop word)

namespace Weighted

private theorem length_sums (s : Float) (weights : List Float) :
    (sums s weights).length = weights.length := by
  induction weights generalizing s with
  | nil => rfl
  | cons w ws ih => exact congrArg (· + 1) (ih (s + w))

/-- The index is that of a weight, whatever the word and the weights. -/
theorem index_lt {weights : List Float} (h : weights ≠ []) (word : UInt64) :
    index weights word < weights.length := by
  have hp := List.length_pos_iff.mpr h
  have hl : index weights word ≤ (sums 0 weights).dropLast.length := List.length_filter_le _ _
  rw [List.length_dropLast, length_sums] at hl
  omega

end Weighted

namespace Production
variable {ρ : Type} [WordSource ρ]

/-- Weights are without fault when each is finite and positive and their sum is finite. The rule
that they belong to is for the message only. -/
theorem weightFault?_eq_none_iff {rule : Option Word} {as : List Alternative} :
    weightFault? rule as = none ↔
      (∀ a ∈ as, (a.weight.isFinite && a.weight > 0) = true) ∧
        (Weighted.total (as.map (·.weight))).isFinite = true := by
  have hp : (∀ a ∈ as, (a.weight.isFinite && a.weight > 0) = true) ↔
      as.find? (fun a => !(a.weight.isFinite && a.weight > 0)) = none := by
    rw [List.find?_eq_none]
    simp only [Bool.not_eq_true', Bool.not_eq_false]
  rw [hp, weightFault?]
  cases as.find? fun a => !(a.weight.isFinite && a.weight > 0) <;> simp

/-- Whether a production leaves a choice: it has two alternatives at least. -/
def hasChoice : Production → Bool
  | weighted (_ :: _ :: _) => true
  | _ => false

/-- The replacement that a word stands for. Without a choice it is the same one for all words. -/
def pick? : Production → UInt64 → Option Word
  | fixed w, _ => some w
  | weighted [a], _ => some a.replacement
  | weighted as, word => as[Weighted.index (as.map (·.weight)) word]?.map (·.replacement)

/-- A production draws one word if it leaves a choice and none if it does not. -/
theorem choose_eq_pick {key : Word} {p : Production} (h : p.fault? key = none) (source : ρ) :
    ∃ w, p.pick? (word source 0) = some w ∧
      p.choose source = .ok (w, drop source p.hasChoice.toNat) := by
  match p with
  | .fixed w => exact ⟨w, rfl, rfl⟩
  | .weighted [] => cases h
  | .weighted [a] => exact ⟨a.replacement, rfl, rfl⟩
  | .weighted (a :: b :: as) =>
    have hk : weightFault? (some key) (a :: b :: as) = none := h
    have hf : weightFault? none (a :: b :: as) = none :=
      weightFault?_eq_none_iff.mpr (weightFault?_eq_none_iff.mp hk)
    have hn : (a :: b :: as).map (·.weight) ≠ [] := nofun
    have hi := Weighted.index_lt hn (word source 0)
    rw [List.length_map] at hi
    obtain ⟨c, hc⟩ : ∃ c, (a :: b :: as)[Weighted.index ((a :: b :: as).map (·.weight))
        (word source 0)]? = some c := ⟨_, List.getElem?_eq_getElem hi⟩
    refine ⟨c.replacement, by simp only [pick?, hc, Option.map_some], ?_⟩
    change (a :: b :: as)[Weighted.index _ (WordSource.next source).1]? = some c at hc
    simp only [choose, hf, hc]
    rfl

theorem mem_of_pick? {p : Production} {word : UInt64} {w : Word} (h : p.pick? word = some w) :
    w ∈ p.replacements := by
  match p with
  | .fixed _ =>
    cases h
    exact List.mem_singleton_self _
  | .weighted [] => cases h
  | .weighted [_] =>
    cases h
    exact List.mem_singleton_self _
  | .weighted (a :: b :: as) =>
    obtain ⟨c, hc, rfl⟩ := Option.map_eq_some_iff.mp h
    exact List.mem_map_of_mem (List.mem_of_getElem? hc)

end Production

namespace Grammar
variable {ρ : Type} [WordSource ρ]

/-- Rules with keys that are not empty and with productions without fault. -/
def WellFormed (rules : Keyed Production) : Prop :=
  ∀ r ∈ rules, r.1 ≠ [] ∧ r.2.fault? r.1 = none

/-- The number of rules that leave a choice. -/
def choiceCount (rules : Keyed Production) : Nat := rules.countP (·.2.hasChoice)

theorem choiceCount_cons (r : Word × Production) (rules : Keyed Production) :
    choiceCount (r :: rules) = r.2.hasChoice.toNat + choiceCount rules := by
  cases h : r.2.hasChoice <;> simp [choiceCount, h, Nat.add_comm]

/-- A choice keeps the keys. -/
theorem keys_choices {rules : Keyed Production} {source rest : ρ} {chosen : List (Word × Word)}
    (h : choices rules source = .ok (chosen, rest)) : chosen.map (·.1) = rules.map (·.1) := by
  induction rules generalizing source chosen with
  | nil =>
    cases h
    rfl
  | cons r rules ih =>
    unfold choices at h
    split at h
    · cases h
    · split at h
      · cases h
      · rename_i hc
        cases h
        rw [List.map_cons, List.map_cons, ih hc]

/-- The choices for well formed rules draw one word for each rule that leaves a choice, in the order
of the rules. -/
theorem choices_eq {rules : Keyed Production} (h : WellFormed rules) (source : ρ) :
    ∃ chosen, choices rules source = .ok (chosen, drop source (choiceCount rules)) ∧
      chosen.map some = rules.mapIdx fun i r =>
        (r.2.pick? (word source (choiceCount (rules.take i)))).map (r.1, ·) := by
  induction rules generalizing source with
  | nil => exact ⟨[], rfl, rfl⟩
  | cons r rules ih =>
    obtain ⟨hr, hrs⟩ := List.forall_mem_cons.mp h
    obtain ⟨w, hp, hw⟩ := Production.choose_eq_pick hr.2 source
    obtain ⟨chosen, hc, hm⟩ := ih hrs (drop source r.2.hasChoice.toNat)
    refine ⟨(r.1, w) :: chosen, ?_, ?_⟩
    · rw [choiceCount_cons, WordSource.drop_add]
      simp only [choices, hw, hc]
    · rw [List.map_cons, hm, List.mapIdx_cons, List.take_zero]
      have hfirst : (r.2.pick? (word source (choiceCount []))).map (r.1, ·) = some (r.1, w) := by
        rw [show choiceCount [] = 0 from rfl, hp, Option.map_some]
      rw [hfirst]
      simp only [List.take_succ_cons, choiceCount_cons, WordSource.word_drop]

end Grammar
end Lindenmayer
