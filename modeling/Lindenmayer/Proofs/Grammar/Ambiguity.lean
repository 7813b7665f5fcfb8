import Mathlib.Data.List.Nodup
import Lindenmayer.Proofs.Grammar.Acceptance

/-! Which rules make a grammar. The keys are compared in ascending order and with their neighbours
only, which finds every key that begins another one. So rules are accepted or refused in any order
alike. -/
namespace Lindenmayer

namespace Word
variable {u v w : Word}

/-- A word does not come after a word that it begins. -/
theorem not_lt_of_prefix (h : v <+: w) : ¬ w < v := by
  obtain ⟨t, rfl⟩ := h
  exact List.not_lt.mpr List.le_append_left

/-- The words that begin with a given one stand together in ascending order. -/
theorem prefix_of_between (huv : u < v) (hvw : v < w) (h : u <+: w) : u <+: v := by
  induction u generalizing v w with
  | nil => exact List.nil_prefix
  | cons a u ih =>
    obtain ⟨t, rfl⟩ := h
    cases v with
    | nil => exact absurd huv (List.not_lt_nil _)
    | cons b v =>
      rw [List.cons_append, List.cons_lt_cons_iff] at hvw
      rcases List.cons_lt_cons_iff.mp huv with hab | ⟨rfl, hu⟩
      · rcases hvw with hba | ⟨rfl, -⟩
        · exact absurd (Char.lt_trans hab hba) (Char.lt_irrefl a)
        · exact absurd hab (Char.lt_irrefl b)
      · rcases hvw with hba | ⟨-, hv⟩
        · exact absurd hba (Char.lt_irrefl a)
        · exact List.cons_prefix_cons.mpr ⟨rfl, ih hu hv (List.prefix_append u t)⟩

end Word

namespace Production

/-- Weights that leave a choice: there are some, each is positive and finite, and they have a finite
sum, taken from left to right. -/
def Sound : Production → Prop
  | fixed _ => True
  | weighted as => as ≠ [] ∧ (∀ a ∈ as, a.weight.isFinite = true ∧ 0 < a.weight) ∧
      (Weighted.total (as.map (·.weight))).isFinite = true

theorem fault?_eq_none_iff {key : Word} {p : Production} : p.fault? key = none ↔ p.Sound := by
  cases p with
  | fixed w => exact ⟨fun _ => trivial, fun _ => rfl⟩
  | weighted as =>
    rw [fault?, Sound]
    split
    · rename_i he
      exact ⟨fun hn => absurd hn (Option.some_ne_none _),
        fun hs => absurd (List.isEmpty_iff.mp he) hs.1⟩
    · rename_i he
      have hne : as ≠ [] := fun hn => he (List.isEmpty_iff.mpr hn)
      simp only [weightFault?_eq_none_iff, Bool.and_eq_true, decide_eq_true_eq]
      exact ⟨fun hs => ⟨hne, hs⟩, fun hs => hs.2⟩

end Production

namespace Grammar
variable {start : Word} {rules : List (Word × Production)} {g : Grammar}

/-- Rules of which one at most applies at any place. -/
structure Unambiguous (rules : List (Word × Production)) : Prop where
  ne_nil : ∀ r ∈ rules, r.1 ≠ []
  nodup : (rules.map (·.1)).Nodup
  prefixFree : ∀ r ∈ rules, ∀ r' ∈ rules, r.1 <+: r'.1 → r.1 = r'.1
  sound : ∀ r ∈ rules, r.2.Sound

/-- It is enough to compare neighbours. -/
theorem overlap?_eq_none_iff {t : Keyed Production} (h : t.Pairwise fun r r' => r.1 < r'.1) :
    overlap? t = none ↔ ∀ r ∈ t, ∀ r' ∈ t, r.1 <+: r'.1 → r.1 = r'.1 := by
  fun_induction overlap? t with
  | case1 a b rest hab =>
    refine ⟨nofun, fun hp => ?_⟩
    have hlt : a.1 < b.1 := (List.pairwise_cons.mp h).1 b List.mem_cons_self
    have he := hp a List.mem_cons_self b (List.mem_cons_of_mem a List.mem_cons_self)
      (List.isPrefixOf_iff_prefix.mp hab)
    exact absurd hlt (he ▸ List.lt_irrefl a.1)
  | case2 a b rest hab ih =>
    obtain ⟨ha, hbs⟩ := List.pairwise_cons.mp h
    have hb := (List.pairwise_cons.mp hbs).1
    rw [ih hbs]
    constructor
    · intro hp r hr r' hr' hrr
      rcases List.mem_cons.mp hr with rfl | hm <;> rcases List.mem_cons.mp hr' with rfl | hm'
      · rfl
      · -- What begins a later key begins the key after it.
        have hrb : r.1 <+: b.1 := by
          rcases List.mem_cons.mp hm' with rfl | hlater
          · exact hrr
          · exact Word.prefix_of_between (ha b List.mem_cons_self) (hb r' hlater) hrr
        exact absurd (List.isPrefixOf_iff_prefix.mpr hrb) hab
      · exact absurd (ha r hm) (Word.not_lt_of_prefix hrr)
      · exact hp r hm r' hm' hrr
    · intro hp r hr r' hr'
      exact hp r (List.mem_cons_of_mem a hr) r' (List.mem_cons_of_mem a hr')
  | case3 t ht =>
    refine ⟨fun _ r hr r' hr' _ => ?_, fun _ => rfl⟩
    match t, ht with
    | [], _ => cases hr
    | [a], _ => rw [List.mem_singleton.mp hr, List.mem_singleton.mp hr']
    | a :: b :: rest, ht => exact absurd rfl (ht a b rest)

theorem ofRules_eq_ok_iff :
    ofRules start rules = .ok g ↔
      g.start = start ∧ gather rules [] = .ok g.rules ∧ overlap? g.rules = none := by
  unfold ofRules
  cases hg : gather rules [] with
  | error f => simp
  | ok accepted =>
    dsimp only
    cases ho : overlap? accepted with
    | some pair =>
      refine ⟨nofun, ?_⟩
      rintro ⟨-, h, hn⟩
      cases h
      rw [ho] at hn
      cases hn
    | none =>
      obtain ⟨s, rs⟩ := g
      constructor
      · intro h
        cases h
        exact ⟨rfl, rfl, ho⟩
      · rintro ⟨rfl, h, -⟩
        cases h
        rfl

theorem perm_gather {seen final : Keyed Production} (h : gather rules seen = .ok final) :
    final.Perm (rules ++ seen) := by
  induction rules generalizing seen with
  | nil =>
    cases h
    exact .refl _
  | cons r rules ih =>
    obtain ⟨-, -, -, hg⟩ := gather_cons h
    exact (ih hg).trans (((Keyed.insert_perm r.1 r.2 seen).append_left rules).trans
      List.perm_middle)

theorem exists_gather {seen : Keyed Production} (hw : WellFormed rules)
    (hn : (rules.map (·.1)).Nodup) (hd : ∀ r ∈ rules, seen.contains r.1 = false) :
    ∃ final, gather rules seen = .ok final := by
  induction rules generalizing seen with
  | nil => exact ⟨seen, rfl⟩
  | cons r rules ih =>
    obtain ⟨hr, hrs⟩ := List.forall_mem_cons.mp hw
    obtain ⟨hc, hcs⟩ := List.forall_mem_cons.mp hd
    obtain ⟨hnew, hns⟩ := List.nodup_cons.mp hn
    have hd' : ∀ s ∈ rules, (seen.insert r.1 r.2).contains s.1 = false := by
      intro s hs
      have hne : r.1 ≠ s.1 := fun he => hnew (List.mem_map.mpr ⟨s, hs, he.symm⟩)
      rw [Keyed.contains_insert, beq_eq_false_iff_ne.mpr hne, hcs s hs]
      rfl
    obtain ⟨final, hf⟩ := ih hrs hns hd'
    refine ⟨final, ?_⟩
    rw [gather, if_neg (by simpa using hr.1), hr.2]
    simp only [hc]
    exact hf

/-- Unambiguous rules pass every check. -/
private theorem ofRules_of_unambiguous (start : Word) (h : Unambiguous rules) :
    ∃ g, ofRules start rules = .ok g := by
  have hw : WellFormed rules := fun r hr =>
    ⟨h.ne_nil r hr, Production.fault?_eq_none_iff.mpr (h.sound r hr)⟩
  have hd : ∀ r ∈ rules, Keyed.contains ([] : Keyed Production) r.1 = false := fun _ _ => rfl
  obtain ⟨final, hf⟩ := exists_gather hw h.nodup hd
  have hp : final.Perm rules := by simpa using perm_gather hf
  refine ⟨⟨start, final⟩, ofRules_eq_ok_iff.mpr ⟨rfl, hf, ?_⟩⟩
  rw [overlap?_eq_none_iff (pairwise_gather .nil hf)]
  intro r hr r' hr'
  exact h.prefixFree r (hp.mem_iff.mp hr) r' (hp.mem_iff.mp hr')

/-- A grammar holds the rules that it was given. -/
private theorem perm_of_ofRules (h : ofRules start rules = .ok g) : g.rules.Perm rules := by
  simpa using perm_gather (ofRules_eq_ok_iff.mp h).2.1

private theorem unambiguous_of_ofRules (h : ofRules start rules = .ok g) :
    Unambiguous rules := by
  have hp := perm_of_ofRules h
  obtain ⟨-, hg, ho⟩ := ofRules_eq_ok_iff.mp h
  have hs := pairwise_gather .nil hg
  have hw := wellFormed_gather (by intro r hr; cases hr) hg
  rw [overlap?_eq_none_iff hs] at ho
  exact {
    ne_nil := fun r hr => (hw r (hp.mem_iff.mpr hr)).1
    nodup := (hp.map (·.1)).nodup_iff.mp (Keyed.keys_nodup hs)
    prefixFree := fun r hr r' hr' => ho r (hp.mem_iff.mpr hr) r' (hp.mem_iff.mpr hr')
    sound := fun r hr => Production.fault?_eq_none_iff.mp (hw r (hp.mem_iff.mpr hr)).2 }

theorem Unambiguous.perm {rules' : List (Word × Production)} (h : Unambiguous rules)
    (hp : rules'.Perm rules) : Unambiguous rules' where
  ne_nil r hr := h.ne_nil r (hp.mem_iff.mp hr)
  nodup := (hp.map (·.1)).nodup_iff.mpr h.nodup
  prefixFree r hr r' hr' := h.prefixFree r (hp.mem_iff.mp hr) r' (hp.mem_iff.mp hr')
  sound r hr := h.sound r (hp.mem_iff.mp hr)

/-- Tables with ascending keys are equal when they hold the same entries. -/
theorem eq_of_perm {t t' : Keyed Production} (h : t.Pairwise fun r r' => r.1 < r'.1)
    (h' : t'.Pairwise fun r r' => r.1 < r'.1) (hp : t.Perm t') : t = t' :=
  List.Perm.eq_of_pairwise (fun _ _ _ _ hlt hgt => absurd hgt (List.lt_asymm hlt)) h h' hp

private theorem ofRules_perm {rules' : List (Word × Production)} (h : ofRules start rules = .ok g)
    (hp : rules'.Perm rules) : ofRules start rules' = .ok g := by
  obtain ⟨g', h'⟩ := ofRules_of_unambiguous start ((unambiguous_of_ofRules h).perm hp)
  obtain ⟨hs, hg, -⟩ := ofRules_eq_ok_iff.mp h
  obtain ⟨hs', hg', -⟩ := ofRules_eq_ok_iff.mp h'
  have hr : g'.rules = g.rules := eq_of_perm (pairwise_gather .nil hg') (pairwise_gather .nil hg)
    ((perm_of_ofRules h').trans (hp.trans (perm_of_ofRules h).symm))
  obtain ⟨s, rs⟩ := g
  obtain ⟨s', rs'⟩ := g'
  rw [h']
  cases hs
  cases hs'
  cases hr
  rfl

/-- At most one of the keys begins a word. -/
private theorem Unambiguous.eq_of_begins (h : Unambiguous rules) {r r' : Word × Production}
    {w : Word} (hr : r ∈ rules) (hr' : r' ∈ rules) (hw : r.1 <+: w) (hw' : r'.1 <+: w) :
    r = r' := by
  have hk : r.1 = r'.1 := by
    rcases List.prefix_or_prefix_of_prefix hw hw' with hp | hp
    · exact h.prefixFree r hr r' hr' hp
    · exact (h.prefixFree r' hr' r hr hp).symm
  exact List.inj_on_of_nodup_map h.nodup hr hr' hk

/-- Rules make a grammar if and only if they are well formed and unambiguous: no key is empty, given
twice, or the beginning of another one, and the weights of every rule can be chosen by. The grammar
then holds these rules and no others, the rules in any other order make the same grammar, and at any
place in any word at most one key fits. -/
theorem ofRules_isOk_iff (start : Word) (rules : List (Word × Production)) :
    ((∃ g, ofRules start rules = .ok g) ↔ Unambiguous rules) ∧
      ∀ g, ofRules start rules = .ok g →
        g.start = start ∧ g.rules.Perm rules ∧
        (∀ rules', rules'.Perm rules → ofRules start rules' = .ok g) ∧
        ∀ (w : Word) (i : Nat), ∀ r ∈ g.rules, ∀ r' ∈ g.rules,
          r.1 <+: w.drop i → r'.1 <+: w.drop i → r = r' := by
  refine ⟨⟨fun ⟨g, h⟩ => unambiguous_of_ofRules h, ofRules_of_unambiguous start⟩, fun g h => ?_⟩
  have hp := perm_of_ofRules h
  refine ⟨(ofRules_eq_ok_iff.mp h).1, hp, fun _ hp' => ofRules_perm h hp', ?_⟩
  intro w i r hr r' hr' hw hw'
  exact (unambiguous_of_ofRules h).eq_of_begins (hp.mem_iff.mp hr) (hp.mem_iff.mp hr') hw hw'

/-- A hedge, whose rules are given out of order. -/
theorem ofRules_isOk_hedge :
    let rules : List (Word × Production) :=
      [(['λ', 'b'], .fixed ['b']), (['b'], .weighted [⟨['λ', 'a'], 1⟩, ⟨[], 2⟩]),
        (['λ', 'a'], .fixed ['λ', 'b', 'b'])]
    let g : Grammar := ⟨['b'],
      [(['b'], .weighted [⟨['λ', 'a'], 1⟩, ⟨[], 2⟩]), (['λ', 'a'], .fixed ['λ', 'b', 'b']),
        (['λ', 'b'], .fixed ['b'])]⟩
    ofRules ['b'] rules = .ok g ∧ ofRules ['b'] rules.reverse = .ok g := by
  intro rules g
  have hg : ofRules ['b'] rules = .ok g := rfl
  exact ⟨hg, ((ofRules_isOk_iff ['b'] rules).2 g hg).2.2.1 rules.reverse (List.reverse_perm rules)⟩

end Grammar
end Lindenmayer
