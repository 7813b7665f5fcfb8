import Mathlib.Data.Nat.Find
import Mathlib.Order.Bounds.Basic
import Lindenmayer.Proofs.Grammar.Composition
import Lindenmayer.Proofs.Grammar.Expansion

/-! Stable words. Passes up to the first that changes nothing give the first word that a pass leaves
as it is, whenever there is one, and there is one when every rule shortens what it replaces. -/
namespace Lindenmayer

namespace Rules

/-- Where every rule shortens its key, a pass shortens the word, or else no key occurs in it. -/
theorem length_apply_lt_or {r : Rules} (hr : r.Proper)
    (hs : ∀ e ∈ r.entries, e.2.length < e.1.length) (w : Word) :
    (r.apply w).length < w.length ∨ r.apply w = w ∧ ∀ e ∈ r.entries, ¬ e.1 <:+: w := by
  induction w using pass_induction hr with
  | nil => exact .inr ⟨apply_nil r, fun e he h => hr e he (List.infix_nil.mp h)⟩
  | fits key replacement rest hm ih =>
    have hl : replacement.length < key.length := hs _ (mem_of_match hm)
    have hrest : (r.apply rest).length ≤ rest.length := by
      rcases ih with hlt | ⟨heq, -⟩
      · exact Nat.le_of_lt hlt
      · rw [heq]
    left
    rw [apply_of_match hr hm, List.length_append, List.length_append]
    omega
  | stays c cs hm ih =>
    rw [apply_of_no_match hm]
    rcases ih with hlt | ⟨heq, hn⟩
    · exact .inl (Nat.succ_lt_succ hlt)
    · refine .inr ⟨by rw [heq], fun e he hi => ?_⟩
      rcases List.infix_cons_iff.mp hi with hp | hi
      · exact absurd (List.isPrefixOf_iff_prefix.mpr hp) (List.find?_eq_none.mp hm e he)
      · exact hn e he hi

end Rules

open WordSource (drop)

namespace Grammar
variable {ρ : Type} [WordSource ρ] {g : Grammar}

/-- Words and sources that follow each other by passes. -/
def Course (g : Grammar) (word : Nat → Word) (source : Nat → ρ) : Prop :=
  ∀ n, g.pass (word n) (source n) = .ok (word (n + 1), source (n + 1))

namespace Course
variable {word : Nat → Word} {source : Nat → ρ}

private theorem tail (h : g.Course word source) :
    g.Course (fun j => word (j + 1)) fun j => source (j + 1) := fun j => h (j + 1)

private theorem settled_of_first_ne (h : g.Course word source) (limit n : Nat)
    (hne : word 1 ≠ word 0) :
    g.settled limit (n + 1) (word 0) (source 0) = g.settled limit n (word 1) (source 1) := by
  have hfirst : (word 1 == word 0) = false := beq_eq_false_iff_ne.mpr hne
  rw [settled, h 0]
  simp only [Nat.zero_add, hfirst, Bool.false_eq_true, if_false]

/-- While every pass changes the word, the passes go on. -/
theorem settled_of_ne (h : g.Course word source) (limit : Nat) {n : Nat}
    (hne : ∀ j < n, word (j + 1) ≠ word j) :
    g.settled limit n (word 0) (source 0) = .error (.of (.notStable limit)) := by
  induction n generalizing word source with
  | zero => rfl
  | succ n ih =>
    rw [h.settled_of_first_ne limit n (hne 0 n.succ_pos)]
    exact ih h.tail fun j hj => hne (j + 1) (Nat.succ_lt_succ hj)

/-- They end with the first word that a pass leaves as it is. -/
theorem settled_of_eq (h : g.Course word source) (limit : Nat) {k n : Nat}
    (hne : ∀ j < k, word (j + 1) ≠ word j) (heq : word (k + 1) = word k) (hk : k < n) :
    g.settled limit n (word 0) (source 0) = .ok (word k, source (k + 1)) := by
  induction k generalizing n word source with
  | zero =>
    obtain ⟨n, rfl⟩ := Nat.exists_eq_succ_of_ne_zero (Nat.ne_of_gt hk)
    have hfirst : (word 1 == word 0) = true := beq_iff_eq.mpr heq
    rw [settled, h 0]
    simp only [Nat.zero_add, hfirst, if_true]
  | succ k ih =>
    obtain ⟨n, rfl⟩ := Nat.exists_eq_succ_of_ne_zero (Nat.ne_of_gt (Nat.zero_lt_of_lt hk))
    rw [h.settled_of_first_ne limit n (hne 0 k.succ_pos)]
    exact ih h.tail (fun j hj => hne (j + 1) (Nat.succ_lt_succ hj)) heq (Nat.lt_of_succ_lt_succ hk)

private theorem eq_of_rules_nil (h : g.Course word source) (hr : g.rules = []) :
    word 1 = word 0 ∧ source 1 = source 0 :=
  Prod.mk.inj (Except.ok.inj ((h 0).symm.trans (pass_of_rules_nil hr _ _)))

private theorem expand_eq_settled (hstart : word 0 = g.start) (hr : g.rules ≠ []) (limit : Nat) :
    g.expand (.untilStable limit) (source 0) = g.settled limit limit (word 0) (source 0) := by
  rw [hstart]
  exact if_neg fun he => hr (List.isEmpty_iff.mp he)

/-- While no word of the course is stable, there is nothing to tell but the limit. -/
theorem expand_of_ne (h : g.Course word source) (hstart : word 0 = g.start)
    (hne : ∀ j, word (j + 1) ≠ word j) (limit : Nat) :
    g.expand (.untilStable limit) (source 0) = .error (.of (.notStable limit)) := by
  have hr : g.rules ≠ [] := fun hr => hne 0 (h.eq_of_rules_nil hr).1
  rw [expand_eq_settled hstart hr]
  exact h.settled_of_ne limit fun j _ => hne j

/-- The expansion is the first stable word of the course, as soon as the limit lets it be seen that
it is one. -/
theorem expand_of_isLeast (h : g.Course word source) (hstart : word 0 = g.start) {k : Nat}
    (hk : IsLeast {n | word (n + 1) = word n} k) (limit : Nat) :
    g.expand (.untilStable limit) (source 0) =
      if g.rules = [] ∨ k < limit then .ok (word k, source (k + 1))
      else .error (.of (.notStable limit)) := by
  by_cases hr : g.rules = []
  · obtain ⟨hword, hsource⟩ := h.eq_of_rules_nil hr
    obtain rfl : k = 0 := Nat.le_zero.mp (hk.2 hword)
    rw [expand_of_rules_nil hr, if_pos (.inl hr), hstart, hsource]
  · have hne : ∀ j < k, word (j + 1) ≠ word j := fun j hj he => Nat.not_le.mpr hj (hk.2 he)
    rw [expand_eq_settled hstart hr]
    by_cases hlt : k < limit
    · rw [if_pos (.inr hlt)]
      exact h.settled_of_eq limit hne hk.1 hlt
    · rw [if_neg (not_or.mpr ⟨hr, hlt⟩)]
      exact h.settled_of_ne limit fun j hj => hne j (Nat.lt_of_lt_of_le hj (Nat.not_lt.mp hlt))

/-- Over a source that stays as it is, a stable word stays, too. -/
theorem eq_of_stable {source : ρ} (h : g.Course word fun _ => source) {k : Nat}
    (heq : word (k + 1) = word k) (i : Nat) : word (k + i) = word k := by
  induction i with
  | zero => rfl
  | succ i ih =>
    have hnext := h (k + i)
    rw [ih, h k, heq] at hnext
    exact (Prod.mk.inj (Except.ok.inj hnext)).1.symm

theorem exists_isLeast (h : ∃ n, word (n + 1) = word n) :
    ∃ k, IsLeast {n | word (n + 1) = word n} k :=
  ⟨Nat.find h, Nat.find_spec h, fun _ hn => Nat.find_min' h hn⟩

end Course

/-- The words of an expansion, pass by pass. -/
theorem Accepted.exists_course (h : g.Accepted) (source : ρ) :
    ∃ word, g.Course word (fun n => drop source (n * choiceCount g.rules)) ∧
      word 0 = g.start ∧
      ∀ n, g.expand (.exactly n) source = .ok (word n, drop source (n * choiceCount g.rules)) := by
  obtain ⟨word, hw⟩ := Classical.skolem.mp fun n => h.repeated_eq n g.start source
  refine ⟨word, fun n => ?_, ?_, fun n => by rw [expand_exactly, hw]⟩
  · rw [← repeated_succ (hw n), hw]
  · exact (Prod.mk.inj (Except.ok.inj (hw 0))).1.symm

/-- Passes up to a stable word, in a grammar without weights. For some limit they come to an end if
and only if some number of passes and one pass more give the same expansion. Then the least such
number gives the word: with any limit above it, it is the expansion, and with any other the limit is
told, unless there are no rules and so no passes. One pass more leaves the word as it is, and so
does any number of them. -/
theorem expand_untilStable (h : g.Accepted) (hd : g.isDeterministic = true) (source : ρ) :
    ((∃ limit w rest, g.expand (.untilStable limit) source = .ok (w, rest)) ↔
      ∃ n, g.expand (.exactly n) source = g.expand (.exactly (n + 1)) source) ∧
    ∀ k, IsLeast {n | g.expand (.exactly n) source = g.expand (.exactly (n + 1)) source} k →
      (∀ limit, g.expand (.untilStable limit) source =
        if g.rules = [] ∨ k < limit then g.expand (.exactly k) source
        else .error (.of (.notStable limit))) ∧
      (∃ w, g.expand (.exactly k) source = .ok (w, source) ∧
        g.pass w source = .ok (w, source)) ∧
      ∀ m ≥ k, g.expand (.exactly m) source = g.expand (.exactly k) source := by
  obtain ⟨word, hc, hstart, hw⟩ := h.exists_course source
  simp only [choiceCount_eq_zero hd, Nat.mul_zero, WordSource.drop_zero] at hc hw
  have hstable (n : Nat) : g.expand (.exactly n) source = g.expand (.exactly (n + 1)) source ↔
      word (n + 1) = word n := by
    rw [hw, hw]
    exact ⟨fun he => (Prod.mk.inj (Except.ok.inj he)).1.symm, fun he => by rw [he]⟩
  simp only [hstable]
  refine ⟨⟨?_, ?_⟩, fun k hk => ⟨?_, ?_, ?_⟩⟩
  · rintro ⟨limit, w, rest, he⟩
    refine Classical.byContradiction fun hn => ?_
    rw [hc.expand_of_ne hstart (not_exists.mp hn)] at he
    cases he
  · intro hn
    obtain ⟨k, hk⟩ := Course.exists_isLeast hn
    refine ⟨k + 1, word k, source, ?_⟩
    rw [hc.expand_of_isLeast hstart hk, if_pos (.inr (Nat.lt_succ_self k))]
  · intro limit
    rw [hc.expand_of_isLeast hstart hk, hw]
  · refine ⟨word k, hw k, ?_⟩
    rw [hc k, hk.1]
  · intro m hm
    obtain ⟨i, rfl⟩ := Nat.exists_eq_add_of_le hm
    rw [hw, hw, hc.eq_of_stable hk.1]

/-- A grammar in which whatever replaces a key is shorter than the key. -/
def Shrinking (g : Grammar) : Prop :=
  ∀ rule ∈ g.rules, ∀ w ∈ rule.2.replacements, w.length < rule.1.length

theorem Accepted.length_lt_or_of_pass (h : g.Accepted) (hs : g.Shrinking) {w next : Word}
    {source rest : ρ} (hp : g.pass w source = .ok (next, rest)) :
    next.length < w.length ∨ next = w ∧ ∀ rule ∈ g.rules, ¬ rule.1 <:+: w := by
  obtain ⟨r, hr, rfl, he, hkeys⟩ := h.rules_of_pass hp
  have hlt : ∀ e ∈ r.entries, e.2.length < e.1.length := fun e hm => by
    obtain ⟨rule, hrule, hkey, hw⟩ := he e hm
    exact hkey ▸ hs rule hrule e.2 hw
  refine (Rules.length_apply_lt_or hr hlt w).imp id fun ⟨heq, hn⟩ => ⟨heq, fun rule hrule => ?_⟩
  obtain ⟨e, hm, hkey⟩ := hkeys rule hrule
  exact hkey ▸ hn e hm

/-- Passes that shorten a word can go on only as often as it has symbols. -/
private theorem Course.exists_eq {word : Nat → Word} {source : Nat → ρ} (hc : g.Course word source)
    (h : g.Accepted) (hs : g.Shrinking) : ∃ n ≤ (word 0).length, word (n + 1) = word n := by
  refine Classical.byContradiction fun hn => ?_
  have hlt : ∀ n ≤ (word 0).length, (word (n + 1)).length < (word n).length := fun n hle =>
    (h.length_lt_or_of_pass hs (hc n)).resolve_right fun heq => hn ⟨n, hle, heq.1⟩
  have hle : ∀ n ≤ (word 0).length + 1, (word n).length + n ≤ (word 0).length := by
    intro n hn
    induction n with
    | zero => exact Nat.le_refl _
    | succ n ih =>
      have hstep := hlt n (Nat.le_of_succ_le_succ hn)
      have hsum := ih (Nat.le_of_succ_le hn)
      omega
  have hlast := hle _ (Nat.le_refl _)
  omega

/-- Peeling: each pass takes two letters away, or one. -/
theorem expand_untilStable_peeled :
    let g : Grammar := ⟨['A', 'A', 'A', 'B'],
      [(['A', 'A'], .fixed ['A']), (['A', 'B'], .fixed ['B'])]⟩
    let source := Cycle.ofList []
    g.Accepted ∧ g.isDeterministic = true ∧
      IsLeast {n | g.expand (.exactly n) source = g.expand (.exactly (n + 1)) source} 2 ∧
      g.expand (.untilStable 3) source = .ok (['B'], source) ∧
      g.expand (.exactly 7) source = .ok (['B'], source) := by
  intro g source
  have hg : g.Accepted := ⟨g.start, g.rules, rfl⟩
  have hd : g.isDeterministic = true := rfl
  have hk : IsLeast {n | g.expand (.exactly n) source = g.expand (.exactly (n + 1)) source} 2 := by
    refine ⟨rfl, fun n hn => ?_⟩
    match n with
    | 0 => exact absurd (Prod.mk.inj (Except.ok.inj hn)).1 (by decide)
    | 1 => exact absurd (Prod.mk.inj (Except.ok.inj hn)).1 (by decide)
    | n + 2 => exact Nat.le_add_left 2 n
  obtain ⟨hsettled, -, hlater⟩ := (expand_untilStable hg hd source).2 2 hk
  exact ⟨hg, hd, hk, hsettled 3, hlater 7 (by decide)⟩

/-- Where every replacement is shorter than its key, passes up to a stable word end after one pass
more than the start word has symbols, at the latest, whatever replacements are chosen. With a limit
that allows for these passes the expansion is their word, and no key occurs in it. -/
theorem expand_shrinking (h : g.Accepted) (hs : g.Shrinking) (source : ρ) :
    ∃ n ≤ g.start.length + 1, ∃ w rest,
      g.expand (.exactly n) source = .ok (w, rest) ∧
      (∀ limit, g.expand (.untilStable limit) source =
        if n ≤ limit then .ok (w, rest) else .error (.of (.notStable limit))) ∧
      ∀ rule ∈ g.rules, ¬ rule.1 <:+: w := by
  obtain ⟨word, hc, hstart, hw⟩ := h.exists_course source
  obtain ⟨n, hn, heq⟩ := hc.exists_eq h hs
  obtain ⟨k, hk⟩ := Course.exists_isLeast ⟨n, heq⟩
  by_cases hr : g.rules = []
  · refine ⟨0, Nat.zero_le _, g.start, source, expand_of_rules_nil hr _ _, fun limit => ?_, ?_⟩
    · rw [expand_of_rules_nil hr, if_pos (Nat.zero_le limit)]
    · rw [hr]
      nofun
  · have hle : k ≤ g.start.length := Nat.le_trans (hk.2 heq) (hstart ▸ hn)
    refine ⟨k + 1, Nat.succ_le_succ hle, word k, drop source ((k + 1) * choiceCount g.rules), ?_,
      fun limit => ?_, ?_⟩
    · rw [hw, hk.1]
    · have he := hc.expand_of_isLeast hstart hk limit
      simpa only [Nat.zero_mul, WordSource.drop_zero, hr, false_or, Nat.lt_iff_add_one_le] using he
    · have hend := h.length_lt_or_of_pass hs (hc k)
      rw [hk.1] at hend
      exact (hend.resolve_left (Nat.lt_irrefl _)).2

/-- Weighted rules that shorten: whatever is chosen, seven passes are enough for six symbols. -/
theorem expand_shrinking_mown :
    let g : Grammar := ⟨['a', 'b', 'a', 'a', 'b', 'b'],
      [(['a', 'b'], .weighted [⟨['b'], 1⟩, ⟨['a'], 2⟩, ⟨[], 1⟩]), (['b', 'b'], .fixed ['a'])]⟩
    let source := Cycle.ofList [5, 9223372036854775808, 11]
    g.Accepted ∧ g.Shrinking ∧ ∃ w rest, g.expand (.untilStable 7) source = .ok (w, rest) ∧
      ¬ ['a', 'b'] <:+: w := by
  intro g source
  have hg : g.Accepted := ⟨g.start, g.rules, rfl⟩
  have hs : g.Shrinking := by unfold Grammar.Shrinking; decide
  obtain ⟨n, hn, w, rest, -, hsettled, hfree⟩ := expand_shrinking hg hs source
  exact ⟨hg, hs, w, rest, (hsettled 7).trans (if_pos hn), hfree _ List.mem_cons_self⟩

end Grammar
end Lindenmayer
