import Lindenmayer.Proofs.Grammar.Rewriting

/-! Segmentations: words cut into keys and single symbols, the longest key at each place. Rules and
a word have exactly one, and a pass puts the images of its tokens together. -/
namespace Lindenmayer

/-- A part of a word: a key that is replaced, or a symbol that stays. -/
inductive Token where
  | key (key : Word)
  | symbol (c : Char)

namespace Token

/-- The part of the word that a token is. -/
def word : Token → Word
  | key k => k
  | symbol c => [c]

/-- What stands for a token after the pass: for a key the replacement of the first rule with it, for
a symbol the symbol. -/
def image (rules : List (Word × Word)) : Token → Word
  | key k => ((rules.find? (·.1 == k)).map (·.2)).getD []
  | symbol c => [c]

end Token

namespace Rules
variable {rules : List (Word × Word)} {w key : Word}

/-- The longest key that a word begins with. The empty key counts for nothing. -/
structure IsLongestKey (rules : List (Word × Word)) (w key : Word) : Prop where
  mem : key ∈ rules.map (·.1)
  ne_nil : key ≠ []
  begins : key <+: w
  length_le : ∀ r ∈ rules, r.1 <+: w → r.1.length ≤ key.length

/-- A word cut from left to right. -/
inductive Segmented (rules : List (Word × Word)) : Word → List Token → Prop where
  | nil : Segmented rules [] []
  | key {w key rest : Word} {tokens : List Token} : IsLongestKey rules w key →
      w = key ++ rest → Segmented rules rest tokens → Segmented rules w (.key key :: tokens)
  | symbol {c : Char} {cs : Word} {tokens : List Token} :
      (∀ r ∈ rules, r.1 <+: c :: cs → r.1 = []) → Segmented rules cs tokens →
      Segmented rules (c :: cs) (.symbol c :: tokens)

theorem IsLongestKey.unique {key' : Word} (h : IsLongestKey rules w key)
    (h' : IsLongestKey rules w key') : key = key' := by
  obtain ⟨r, hr, rfl⟩ := List.mem_map.mp h.mem
  obtain ⟨r', hr', rfl⟩ := List.mem_map.mp h'.mem
  have hle := h'.length_le r hr h.begins
  have hge := h.length_le r' hr' h'.begins
  exact (List.prefix_of_prefix_length_le h.begins h'.begins hle).eq_of_length
    (Nat.le_antisymm hle hge)

theorem IsLongestKey.fits (h : IsLongestKey rules w key) :
    ¬ ∀ r ∈ rules, r.1 <+: w → r.1 = [] := fun hn => by
  obtain ⟨r, hr, rfl⟩ := List.mem_map.mp h.mem
  exact h.ne_nil (hn r hr h.begins)

/-- The tokens are the word. -/
theorem Segmented.flatMap_word {tokens : List Token} (h : Segmented rules w tokens) :
    tokens.flatMap Token.word = w := by
  induction h with
  | nil => rfl
  | key _ hw _ ih => rw [List.flatMap_cons, ih, hw]; rfl
  | symbol _ _ ih => rw [List.flatMap_cons, ih]; rfl

theorem Segmented.unique {tokens tokens' : List Token} (h : Segmented rules w tokens)
    (h' : Segmented rules w tokens') : tokens = tokens' := by
  induction h generalizing tokens' with
  | nil =>
    cases h' with
    | nil => rfl
    | key hk hw => exact absurd (List.append_eq_nil_iff.mp hw.symm).1 hk.ne_nil
  | @key w key rest tokens hk hw _ ih =>
    cases h' with
    | nil => exact absurd (List.append_eq_nil_iff.mp hw.symm).1 hk.ne_nil
    | key hk' hw' hrest =>
      obtain rfl := hk.unique hk'
      obtain rfl := List.append_cancel_left (hw.symm.trans hw')
      rw [ih hrest]
    | symbol hn => exact absurd hn hk.fits
  | symbol hn _ ih =>
    cases h' with
    | key hk' => exact absurd hn hk'.fits
    | symbol _ hcs => rw [ih hcs]

/-- Of the entries with one key there is a first. -/
private theorem exists_find? {es : List (Word × Word)} {r : Word × Word} (hr : r ∈ es) :
    ∃ e, es.find? (·.1 == r.1) = some e ∧ e.1 = r.1 := by
  have hs : (es.find? (·.1 == r.1)).isSome = true :=
    List.find?_isSome.mpr ⟨r, hr, beq_self_eq_true r.1⟩
  obtain ⟨e, he⟩ := Option.isSome_iff_exists.mp hs
  exact ⟨e, he, beq_iff_eq.mp (List.find?_some (p := fun d : Word × Word => d.1 == r.1) he)⟩

/-- Entries in which the first key that a word begins with is the longest one: it comes before the
shorter ones, and of the rules with one key the first is met first. -/
structure Arranged (rules entries : List (Word × Word)) (w : Word) : Prop where
  ne_nil : ∀ e ∈ entries, e.1 ≠ []
  first : ∀ key, key ≠ [] → key <+: w →
    entries.find? (·.1 == key) = rules.find? (·.1 == key)
  descending : entries.Pairwise fun e e' => e.1 <+: w → e'.1 <+: w → e'.1.length ≤ e.1.length

namespace Arranged
variable {entries : List (Word × Word)} (h : Arranged rules entries w)

include h in
private theorem exists_entry {r : Word × Word} (hr : r ∈ rules) (hn : r.1 ≠ []) (hw : r.1 <+: w) :
    ∃ e ∈ entries, e.1 = r.1 := by
  obtain ⟨e, he, hk⟩ := exists_find? hr
  rw [← h.first r.1 hn hw] at he
  exact ⟨e, List.mem_of_find?_eq_some he, hk⟩

include h in
theorem isLongestKey_of_find? {e : Word × Word}
    (hf : entries.find? (·.1.isPrefixOf w) = some e) :
    IsLongestKey rules w e.1 ∧ rules.find? (·.1 == e.1) = some e := by
  obtain ⟨hw, before, after, rfl, hb⟩ := List.find?_eq_some_iff_append.mp hf
  have hw : e.1 <+: w := List.isPrefixOf_iff_prefix.mp hw
  have hb : ∀ d ∈ before, ¬ d.1 <+: w := fun d hd hp => by
    have hd := hb d hd
    rw [List.isPrefixOf_iff_prefix.mpr hp] at hd
    cases hd
  have hn := h.ne_nil e (by simp)
  have hr : rules.find? (·.1 == e.1) = some e := by
    rw [← h.first e.1 hn hw]
    refine List.find?_eq_some_iff_append.mpr ⟨beq_self_eq_true e.1, before, after, rfl, ?_⟩
    intro d hd
    have hne : d.1 ≠ e.1 := fun he => hb d hd (he ▸ hw)
    simpa using hne
  refine ⟨⟨List.mem_map_of_mem (List.mem_of_find?_eq_some hr), hn, hw, ?_⟩, hr⟩
  intro r hm hp
  by_cases hr : r.1 = []
  · rw [hr]
    exact Nat.zero_le _
  · obtain ⟨d, hd, hk⟩ := h.exists_entry hm hr hp
    rw [← hk] at hp ⊢
    rcases List.mem_append.mp hd with hd | hd
    · exact absurd hp (hb d hd)
    · rcases List.mem_cons.mp hd with rfl | hd
      · exact Nat.le_refl _
      · exact (List.pairwise_cons.mp (List.pairwise_append.mp h.descending).2.1).1 d hd hw hp

include h in
/-- What is found first is the longest key, with its first rule. -/
theorem find?_eq_some_iff {e : Word × Word} :
    entries.find? (·.1.isPrefixOf w) = some e ↔
      IsLongestKey rules w e.1 ∧ rules.find? (·.1 == e.1) = some e := by
  refine ⟨h.isLongestKey_of_find?, fun ⟨hk, he⟩ => ?_⟩
  obtain ⟨r, hr, hrk⟩ := List.mem_map.mp hk.mem
  obtain ⟨d, hd, hdk⟩ := h.exists_entry hr (hrk ▸ hk.ne_nil) (hrk ▸ hk.begins)
  have hs : (entries.find? (·.1.isPrefixOf w)).isSome = true :=
    List.find?_isSome.mpr ⟨d, hd, List.isPrefixOf_iff_prefix.mpr (hdk ▸ hrk ▸ hk.begins)⟩
  obtain ⟨f, hf⟩ := Option.isSome_iff_exists.mp hs
  obtain ⟨hk', he'⟩ := h.isLongestKey_of_find? hf
  rw [← hk.unique hk', he] at he'
  rw [hf, ← he']

include h in
theorem find?_eq_none_iff :
    entries.find? (·.1.isPrefixOf w) = none ↔ ∀ r ∈ rules, r.1 <+: w → r.1 = [] := by
  rw [List.find?_eq_none]
  constructor
  · intro hn r hr hw
    refine Classical.byContradiction fun hne => ?_
    obtain ⟨e, he, hk⟩ := h.exists_entry hr hne hw
    exact hn e he (List.isPrefixOf_iff_prefix.mpr (hk ▸ hw))
  · intro hn e he hp
    have hw := List.isPrefixOf_iff_prefix.mp hp
    obtain ⟨r, hr, hk⟩ := exists_find? he
    rw [h.first e.1 (h.ne_nil e he) hw] at hr
    exact h.ne_nil e he (hk ▸ hn r (List.mem_of_find?_eq_some hr) (hk ▸ hw))

end Arranged

private theorem find?_place {r : Word × Word} {es : List (Word × Word)} :
    (place r es).find? (·.1 == key) = (r :: es).find? (·.1 == key) := by
  induction es with
  | nil => rfl
  | cons e es ih =>
    unfold place
    split
    · rename_i hl
      -- The longer key that stays in front is not the key of the rule.
      have hne : r.1 = key → (e.1 == key) = false := fun hr => beq_eq_false_iff_ne.mpr fun he => by
        rw [hr, he] at hl
        exact Nat.lt_irrefl _ hl
      rw [List.find?_cons, ih]
      by_cases hr : r.1 = key
      · simp [hr, hne hr]
      · simp [hr, List.find?_cons]
    · rfl

private theorem pairwise_place {r : Word × Word} {es : List (Word × Word)}
    (h : es.Pairwise fun e e' => e'.1.length ≤ e.1.length) :
    (place r es).Pairwise fun e e' => e'.1.length ≤ e.1.length := by
  induction es with
  | nil => exact List.pairwise_singleton _ _
  | cons e es ih =>
    obtain ⟨he, hes⟩ := List.pairwise_cons.mp h
    unfold place
    split
    · rename_i hl
      refine List.pairwise_cons.mpr ⟨fun d hd => ?_, ih hes⟩
      rcases mem_place.mp hd with rfl | hd
      · exact Nat.le_of_lt hl
      · exact he d hd
    · rename_i hl
      have hr : e.1.length ≤ r.1.length := Nat.not_lt.mp hl
      exact List.pairwise_cons.mpr
        ⟨List.forall_mem_cons.mpr ⟨hr, fun d hd => Nat.le_trans (he d hd) hr⟩, h⟩

/-- The rules of one key, in a list from which others are taken out. -/
theorem find?_filter_of_imp {p q : Word × Word → Bool} (h : ∀ r, q r = true → p r = true)
    (rules : List (Word × Word)) : (rules.filter p).find? q = rules.find? q := by
  rw [List.find?_filter]
  congr 1
  funext r
  cases hq : q r with
  | false => simp
  | true => simp [h r hq]

/-- A rule set is arranged for every word. -/
theorem arranged_ofList (rules : List (Word × Word)) (w : Word) :
    Arranged rules (ofList rules).entries w := by
  refine ⟨proper_ofList rules, fun key hne _ => ?_, ?_⟩
  · rw [← find?_filter_of_imp (p := fun r => !r.1.isEmpty) (fun r hr => ?_) rules]
    · unfold ofList
      induction rules.filter (fun r => !r.1.isEmpty) with
      | nil => rfl
      | cons r rs ih =>
        rw [List.foldr_cons, find?_place, List.find?_cons, ih, List.find?_cons]
    · simpa [beq_iff_eq.mp hr] using hne
  · suffices hp : ∀ rs : List (Word × Word),
        (rs.foldr place []).Pairwise fun e e' => e'.1.length ≤ e.1.length from
      (hp _).imp fun hl _ _ => hl
    intro rs
    induction rs with
    | nil => exact .nil
    | cons r rs ih => exact pairwise_place ih

theorem match?_ofList_eq_some_iff {e : Word × Word} :
    (ofList rules).match? w = some e ↔
      IsLongestKey rules w e.1 ∧ rules.find? (·.1 == e.1) = some e :=
  (arranged_ofList rules w).find?_eq_some_iff

theorem match?_ofList_eq_none_iff :
    (ofList rules).match? w = none ↔ ∀ r ∈ rules, r.1 <+: w → r.1 = [] :=
  (arranged_ofList rules w).find?_eq_none_iff

/-- The image of the key of a rule that is found first. -/
theorem image_of_find? {e : Word × Word} (h : rules.find? (·.1 == e.1) = some e) :
    (Token.key e.1).image rules = e.2 := by
  rw [Token.image, h]
  rfl

/-- A longest key has a rule. -/
theorem IsLongestKey.find? (h : IsLongestKey rules w key) :
    rules.find? (·.1 == key) = some (key, (Token.key key).image rules) := by
  obtain ⟨r, hr, rfl⟩ := List.mem_map.mp h.mem
  obtain ⟨e, he, hk⟩ := exists_find? hr
  rw [← hk] at he ⊢
  rw [he, image_of_find? he]

/-- Every word has a segmentation. -/
theorem exists_segmented (rules : List (Word × Word)) (w : Word) :
    ∃ tokens, Segmented rules w tokens := by
  induction w using pass_induction (proper_ofList rules) with
  | nil => exact ⟨[], .nil⟩
  | fits key replacement rest hm ih =>
    obtain ⟨tokens, ht⟩ := ih
    exact ⟨_, .key (match?_ofList_eq_some_iff.mp hm).1 rfl ht⟩
  | stays c cs hm ih =>
    obtain ⟨tokens, ht⟩ := ih
    exact ⟨_, .symbol (match?_ofList_eq_none_iff.mp hm) ht⟩

/-- A pass puts the images of the tokens together. -/
theorem Segmented.apply_eq {tokens : List Token} (h : Segmented rules w tokens) :
    (ofList rules).apply w = tokens.flatMap (Token.image rules) := by
  induction h with
  | nil => exact apply_nil _
  | key hk hw _ ih =>
    subst hw
    rw [apply_of_match (proper_ofList rules) (match?_ofList_eq_some_iff.mpr ⟨hk, hk.find?⟩), ih]
    rfl
  | symbol hn _ ih =>
    rw [apply_of_no_match (match?_ofList_eq_none_iff.mpr hn), ih]
    rfl

end Rules
end Lindenmayer
