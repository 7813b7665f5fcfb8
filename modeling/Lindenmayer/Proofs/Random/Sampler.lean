import Lindenmayer.Proofs.Numeric.Sums
import Lindenmayer.Random.Weighted

/-! Samplers of weights with all that they may refuse. A sampler adds the weights up once, from the
first one on, and then finds an index for each word by halving. Positive weights with a finite total
are never refused, and the index found is the one that counting the sums gives. -/
namespace Lindenmayer.Weighted

/-- Why there is no sampler for some weights. The last of these is no answer but an abort. -/
inductive Refusal where
  | noWeights
  | badWeight
  | zeroTotal
  | badRange (total : Float)
  deriving Repr

/-- The sums before each weight but the first, and the scale of the points. -/
structure Sampler where
  bounds : List Float
  scale : Float
  deriving Repr

/-- The sums before each of the weights, on top of a start, and the sum of all. -/
def gather (sum : Float) : List Float → Except Refusal (List Float × Float)
  | [] => .ok ([], sum)
  | w :: ws =>
    if w ≥ 0 then
      match gather (sum + w) ws with
      | .error refusal => .error refusal
      | .ok (bounds, total) => .ok (sum :: bounds, total)
    else .error .badWeight

/-- The sampler for some weights. Points are drawn from between zero and the total, which has to
be a range. -/
def Sampler.ofWeights : List Float → Except Refusal Sampler
  | [] => .error .noWeights
  | w :: ws =>
    if w ≥ 0 then
      match gather w ws with
      | .error refusal => .error refusal
      | .ok (bounds, total) =>
        if total == 0 then .error .zeroTotal
        else if 0 < total && total.isFinite then
          .ok ⟨bounds, fitScale total total.toBits.toNat⟩
        else .error (.badRange total)
    else .error .badWeight

/-- The place between two others up to which a property holds, by halving. -/
def search (holds : Nat → Bool) (low high : Nat) : Nat :=
  if low < high then
    if holds ((low + high) / 2) then search holds ((low + high) / 2 + 1) high
    else search holds low ((low + high) / 2)
  else low
termination_by high - low

/-- The index for a word: the place of the first bound above its point. -/
def Sampler.pick (s : Sampler) (word : UInt64) : Nat :=
  search (fun i => s.bounds[i]?.any (· ≤ point word s.scale)) 0 s.bounds.length

/-- Where a property holds up to a place, halving finds the place. -/
theorem search_eq {holds : Nat → Bool} {low high k : Nat} (hl : low ≤ k) (hh : k ≤ high)
    (h : ∀ i < high, holds i = true ↔ i < k) : search holds low high = k := by
  induction low, high using search.induct holds with
  | case1 low high hlt hm ih =>
    rw [search, if_pos hlt, if_pos hm]
    exact ih (Nat.succ_le_of_lt ((h _ (by omega)).mp hm)) hh h
  | case2 low high hlt hm ih =>
    rw [search, if_pos hlt, if_neg hm]
    have hk : k ≤ (low + high) / 2 := by
      have := (h ((low + high) / 2) (by omega)).not.mp hm
      omega
    exact ih hl hk fun i hi => h i (by omega)
  | case3 low high hlt =>
    rw [search, if_neg hlt]
    omega

/-- In an ascending list the numbers up to a point come first. -/
private theorem any_le_iff_lt_length_filter {bounds : List Float} (h : bounds.Pairwise (· ≤ ·))
    (x : Float) {i : Nat} (hi : i < bounds.length) :
    bounds[i]?.any (· ≤ x) = true ↔ i < (bounds.filter (· ≤ x)).length := by
  induction bounds generalizing i with
  | nil => exact absurd hi (Nat.not_lt_zero i)
  | cons b bs ih =>
    obtain ⟨hb, hbs⟩ := List.pairwise_cons.mp h
    by_cases hx : b ≤ x
    · cases i with
      | zero => simp [hx]
      | succ i => simpa [hx] using ih hbs (Nat.lt_of_succ_lt_succ hi)
    · have hnone : ∀ c ∈ b :: bs, ¬ c ≤ x := by
        rw [List.forall_mem_cons]
        exact ⟨hx, fun c hc hcx => hx (float_le_trans (hb c hc) hcx)⟩
      have hfilter : (b :: bs).filter (· ≤ x) = [] := by simpa using hnone
      rw [hfilter, List.getElem?_eq_getElem hi]
      simpa using hnone _ (List.getElem_mem hi)

variable {s : Float} {weights : List Float}

/-- Sums of positive weights are not below their start. -/
private theorem le_of_mem_sums (hs : 0 < s) (hw : ∀ w ∈ weights, 0 < w) :
    ∀ t ∈ sums s weights, s ≤ t := by
  induction weights generalizing s with
  | nil => exact nofun
  | cons w ws ih =>
    obtain ⟨hw, hws⟩ := List.forall_mem_cons.mp hw
    have hle := le_add_of_pos hs hw
    have hpos := float_lt_of_lt_of_le hs hle
    exact List.forall_mem_cons.mpr ⟨hle, fun t ht => float_le_trans hle (ih hpos hws t ht)⟩

/-- The sums of positive weights ascend. -/
private theorem pairwise_sums (hs : 0 < s) (hw : ∀ w ∈ weights, 0 < w) :
    (s :: sums s weights).Pairwise (· ≤ ·) := by
  induction weights generalizing s with
  | nil => exact List.pairwise_singleton _ _
  | cons w ws ih =>
    refine List.pairwise_cons.mpr ⟨le_of_mem_sums hs hw, ?_⟩
    obtain ⟨hw, hws⟩ := List.forall_mem_cons.mp hw
    exact ih (float_lt_of_lt_of_le hs (le_add_of_pos hs hw)) hws

private theorem foldl_pos (hs : 0 < s) (hw : ∀ w ∈ weights, 0 < w) :
    0 < weights.foldl (· + ·) s := by
  induction weights generalizing s with
  | nil => exact hs
  | cons w ws ih =>
    obtain ⟨hw, hws⟩ := List.forall_mem_cons.mp hw
    exact ih (float_lt_of_lt_of_le hs (le_add_of_pos hs hw)) hws

/-- Positive weights are gathered without refusal. -/
private theorem gather_eq (hw : ∀ w ∈ weights, 0 < w) :
    gather s weights = .ok ((s :: sums s weights).dropLast, weights.foldl (· + ·) s) := by
  induction weights generalizing s with
  | nil => rfl
  | cons w ws ih =>
    obtain ⟨hw, hws⟩ := List.forall_mem_cons.mp hw
    rw [gather, if_pos (float_le_of_lt hw), ih hws]
    rfl

private theorem beq_zero_of_pos (hs : 0 < s) : (s == 0) = false := by
  change s.toModel.unpack.beq (0 : Float).toModel.unpack = false
  have hz : (0 : Float).toModel.unpack = .zero .positive := rfl
  obtain hx | ⟨m, e, hm, hx⟩ := zero_lt_iff.mp hs <;> rw [hx, hz] <;> rfl

/-- Positive weights with a finite total have a sampler. The index it picks is found by counting
too. -/
theorem exists_sampler (hne : weights ≠ []) (hw : ∀ w ∈ weights, 0 < w)
    (ht : (total weights).isFinite) :
    ∃ sampler, Sampler.ofWeights weights = .ok sampler ∧
      ∀ word, sampler.pick word = index weights word := by
  obtain ⟨w, ws, rfl⟩ := List.exists_cons_of_ne_nil hne
  obtain ⟨hpos, hws⟩ := List.forall_mem_cons.mp hw
  have hzero : 0 + w = w := zero_add_of_pos hpos
  have htotal : total (w :: ws) = ws.foldl (· + ·) w := congrArg (ws.foldl (· + ·)) hzero
  have hsums : sums 0 (w :: ws) = w :: sums w ws := by rw [sums, hzero]
  rw [htotal] at ht
  refine ⟨⟨(w :: sums w ws).dropLast, fitScale (total (w :: ws)) (total (w :: ws)).toBits.toNat⟩,
    ?_, fun word => ?_⟩
  · simp only [Sampler.ofWeights, if_pos (float_le_of_lt hpos), gather_eq hws,
      beq_zero_of_pos (foldl_pos hpos hws), decide_eq_true (foldl_pos hpos hws), ht, htotal]
    rfl
  · have hsorted := (pairwise_sums hpos hws).sublist (List.dropLast_sublist _)
    rw [index, hsums]
    exact search_eq (Nat.zero_le _) (List.length_filter_le _ _)
      fun i hi => any_le_iff_lt_length_filter hsorted _ hi

end Lindenmayer.Weighted
