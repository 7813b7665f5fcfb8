import Lindenmayer.Proofs.Grammar.Choice
import Lindenmayer.Proofs.Random.Sampler

/-! Choices from productions that nothing has checked. A choice between several alternatives checks
their weights itself and hands them to a sampler that then has nothing to refuse. A lone alternative
is taken before any check. -/
namespace Lindenmayer

/-- What is said about refused weights. Nothing is said where the sampler aborts. -/
def Weighted.Refusal.message? : Weighted.Refusal → Option String
  | noWeights => some "No weights provided in distribution."
  | badWeight => some "A weight is invalid in distribution."
  | zeroTotal => some "All weights are zero in distribution."
  | badRange _ => none

namespace Production
variable {ρ : Type} [WordSource ρ] {as : List Alternative}

/-- A choice by way of a sampler, with the kind and the text of what is refused. `none` is an abort:
a sampler that has no range to draw from, or an index past the alternatives. -/
def sample? (p : Production) (source : ρ) : Option (Except (Kind × String) (Word × ρ)) :=
  match p with
  | fixed w => some (.ok (w, source))
  | weighted [a] => some (.ok (a.replacement, source))
  | weighted as =>
    match weightFault? none as with
    | some cause => some (.error (.invalidWeight, cause.message))
    | none =>
      match Weighted.Sampler.ofWeights (as.map (·.weight)) with
      | .error refusal => refusal.message?.map fun text => .error (.invalidWeight, text)
      | .ok sampler =>
        let (word, source) := WordSource.next source
        as[sampler.pick word]?.map fun a => .ok (a.replacement, source)

/-- Whatever is wrong with weights is a fault of weights. -/
theorem kind_of_weightFault? {rule : Option Word} {cause : Cause}
    (h : weightFault? rule as = some cause) : cause.kind = .invalidWeight := by
  unfold weightFault? at h
  split at h
  · cases h
    rfl
  · dsimp only at h
    split at h
    · cases h
    · cases h
      rfl

/-- Weights without fault have a sampler, which for every word picks one of the alternatives. A
choice between several is what is picked for the next word of the source. -/
theorem exists_sampler_of_weightFault? {rule : Option Word} (h : weightFault? rule as = none)
    (hn : as ≠ []) (hl : as.length ≠ 1) :
    ∃ sampler, Weighted.Sampler.ofWeights (as.map (·.weight)) = .ok sampler ∧
      (∀ word, sampler.pick word < as.length) ∧
      ∀ source : ρ, ∃ a, as[sampler.pick (WordSource.next source).1]? = some a ∧
        (weighted as).choose source = .ok (a.replacement, (WordSource.next source).2) := by
  match as with
  | [] => exact absurd rfl hn
  | [a] => exact absurd rfl hl
  | a :: b :: as =>
    have hm : (a :: b :: as).map (·.weight) ≠ [] := nofun
    obtain ⟨hw, ht⟩ := weightFault?_eq_none_iff.mp h
    have hpos : ∀ w ∈ (a :: b :: as).map (·.weight), 0 < w :=
      List.forall_mem_map.mpr fun c hc => of_decide_eq_true (Bool.and_eq_true_iff.mp (hw c hc)).2
    obtain ⟨sampler, hs, hp⟩ := Weighted.exists_sampler hm hpos ht
    have hlt (word : UInt64) : sampler.pick word < (a :: b :: as).length := by
      rw [hp, ← List.length_map (·.weight)]
      exact Weighted.index_lt hm word
    refine ⟨sampler, hs, hlt, fun source => ?_⟩
    obtain ⟨chosen, hc⟩ : ∃ chosen, (a :: b :: as)[sampler.pick (WordSource.next source).1]? =
        some chosen := ⟨_, List.getElem?_eq_getElem (hlt _)⟩
    refine ⟨chosen, hc, ?_⟩
    rw [hp] at hc
    simp only [choose, weightFault?_eq_none_iff.mpr ⟨hw, ht⟩, hc]

/-- Nothing is wrong with the weights where there are none. -/
theorem weightFault?_nil : weightFault? none [] = none :=
  weightFault?_eq_none_iff.mpr ⟨nofun, by decide⟩

theorem choose_nil (source : ρ) : (weighted []).choose source = .error (.of .nothingToChoose) := by
  simp only [choose, weightFault?_nil, List.getElem?_nil]

/-- Choices are those that the sampler makes, which never aborts. -/
theorem sample?_eq_choose (p : Production) (source : ρ) :
    p.sample? source = some ((p.choose source).mapError fun f => (f.kind, f.message)) := by
  obtain w | as := p
  · rfl
  obtain _ | ⟨a, _ | ⟨b, as⟩⟩ := as
  · rw [choose_nil]
    simp only [sample?, weightFault?_nil]
    rfl
  · rfl
  · cases hf : weightFault? none (a :: b :: as) with
    | some cause =>
      simp only [sample?, choose, hf, ← kind_of_weightFault? hf]
      rfl
    | none =>
      obtain ⟨sampler, hs, -, hc⟩ :=
        exists_sampler_of_weightFault? (ρ := ρ) hf (List.cons_ne_nil a _) (by simp)
      obtain ⟨chosen, hp, hc⟩ := hc source
      rw [hc]
      simp only [sample?, hf, hs, hp]
      rfl

/-- Alternatives that cannot be sampled: there are none of them, or a weight is no positive number,
or the weights sum to none. -/
def Unfit (as : List Alternative) : Prop :=
  as = [] ∨ (∃ a ∈ as, ¬ (a.weight.isFinite ∧ 0 < a.weight)) ∨
    ¬ (Weighted.total (as.map (·.weight))).isFinite

theorem unfit_iff : Unfit as ↔ as = [] ∨ ∃ cause, weightFault? none as = some cause := by
  have hw (a : Alternative) :
      (a.weight.isFinite && a.weight > 0) = true ↔ a.weight.isFinite ∧ 0 < a.weight := by
    rw [Bool.and_eq_true, decide_eq_true_iff]
  rw [← Option.ne_none_iff_exists', ne_eq, weightFault?_eq_none_iff]
  simp only [Unfit, hw, not_and_or, not_forall, exists_prop]

/-- Several alternatives, or none, that cannot be sampled are refused for their weights. -/
theorem exists_error_of_unfit (h : Unfit as) (hl : as.length ≠ 1) (source : ρ) :
    ∃ f, (weighted as).choose source = .error f ∧ f.kind = .invalidWeight := by
  match as with
  | [] => exact ⟨_, choose_nil source, rfl⟩
  | [a] => exact absurd rfl hl
  | a :: b :: as =>
    obtain ⟨cause, hf⟩ := (unfit_iff.mp h).resolve_left nofun
    refine ⟨.of cause, ?_, kind_of_weightFault? hf⟩
    simp only [choose, hf]

/-- From alternatives that can be sampled one is chosen. -/
theorem exists_ok_of_not_unfit (h : ¬ Unfit as) (hl : as.length ≠ 1) (source : ρ) :
    ∃ a ∈ as, (weighted as).choose source = .ok (a.replacement, (WordSource.next source).2) := by
  rw [unfit_iff, not_or, ← Option.ne_none_iff_exists', not_not] at h
  obtain ⟨sampler, -, -, hc⟩ := exists_sampler_of_weightFault? (ρ := ρ) h.2 h.1 hl
  obtain ⟨a, ha, hc⟩ := hc source
  exact ⟨a, List.mem_of_getElem? ha, hc⟩

/-- A production that nothing has checked is chosen from without an abort, on any source of words. A
fixed one leaves the source as it was. So does a lone alternative, which is taken whatever its
weight. Any other alternatives are refused for their weights exactly when they cannot be sampled,
and else one of them is taken. -/
theorem choose_unchecked (source : ρ) :
    (∀ p : Production,
      p.sample? source = some ((p.choose source).mapError fun f => (f.kind, f.message))) ∧
    (∀ w, (fixed w).choose source = .ok (w, source)) ∧
    (∀ a, (weighted [a]).choose source = .ok (a.replacement, source)) ∧
    ∀ as, as.length ≠ 1 →
      ((∃ f, (weighted as).choose source = .error f ∧ f.kind = .invalidWeight) ↔ Unfit as) ∧
      (¬ Unfit as → ∃ a ∈ as,
        (weighted as).choose source = .ok (a.replacement, (WordSource.next source).2)) := by
  refine ⟨fun p => sample?_eq_choose p source, fun _ => rfl, fun _ => rfl, fun as hl => ?_⟩
  refine ⟨⟨?_, fun h => exists_error_of_unfit h hl source⟩,
    fun h => exists_ok_of_not_unfit h hl source⟩
  rintro ⟨f, hf, -⟩
  by_contra h
  obtain ⟨a, -, ha⟩ := exists_ok_of_not_unfit h hl source
  rw [hf] at ha
  cases ha

/-- Two weights that are fine, and then a third one with which their sum is not. -/
theorem choose_unchecked_huge :
    let fit : List Alternative := [⟨['F', 'F'], 1e308⟩, ⟨['F'], 0.5⟩]
    let unfit : List Alternative := ⟨[], 1e308⟩ :: fit
    fit.length ≠ 1 ∧ unfit.length ≠ 1 ∧ ¬ Unfit fit ∧ Unfit unfit ∧
      (∃ a ∈ fit, (weighted fit).choose (Cycle.ofList [1]) =
        .ok (a.replacement, (Cycle.ofList [1]).next.2)) ∧
      ∃ f, (weighted unfit).choose (Cycle.ofList [1]) = .error f ∧ f.kind = .invalidWeight := by
  intro fit unfit
  have hf : weightFault? none fit = none := weightFault?_eq_none_iff.mpr
    ⟨by decide +kernel, by decide +kernel⟩
  have hfit : ¬ Unfit fit := unfit_iff.not.mpr (by simp [hf, fit])
  have hunfit : Unfit unfit := .inr (.inr (by decide +kernel))
  obtain ⟨-, -, -, h⟩ := choose_unchecked (Cycle.ofList [1])
  exact ⟨by decide, by decide, hfit, hunfit, (h fit (by decide)).2 hfit,
    (h unfit (by decide)).1.mpr hunfit⟩

/-- A weight below zero, and yet the alternative is taken, since there is no other. -/
theorem choose_lone_negative :
    Unfit [⟨['F'], -1⟩] ∧
      (weighted [⟨['F'], -1⟩]).choose (Cycle.ofList [5]) = .ok (['F'], Cycle.ofList [5]) :=
  ⟨.inr (.inl ⟨_, List.mem_singleton_self _, by decide +kernel⟩), rfl⟩

end Production
end Lindenmayer
