import Lindenmayer.Proofs.Grammar.Segmentation

/-! Passes over the bytes of a text. Rules are looked up by the first symbol of their keys, and the
place in the text is counted in bytes. Such a pass always ends, it never cuts a symbol, and it does
what a pass over the symbols does. -/
namespace Lindenmayer

namespace Scanner

/-- The length of a word as a text. -/
def bytes (w : Word) : Nat := w.text.utf8ByteSize

/-- Whether a key may come before another one: it is longer, or as long and not greater. -/
def before (key other : Word) : Bool :=
  decide (bytes other < bytes key) || (bytes key == bytes other && !decide (other < key))

/-- The rules whose keys begin with a symbol, in the order in which they are tried. Rules with one
key keep their order. -/
def group (rules : List (Word × Word)) (c : Char) : List (Word × Word) :=
  (rules.filter (·.1.head? == some c)).mergeSort fun r s => before r.1 s.1

def match? (rules : List (Word × Word)) (rest : Word) : Option (Word × Word) :=
  match rest.head? with
  | none => none
  | some c => (group rules c).find? (·.1.isPrefixOf rest)

/-- The rest of a text from a byte on. There is none from within a symbol. -/
def rest? (text : String) (pos : String.Pos.Raw) : Option Word :=
  if h : pos.IsValid text then some (text.sliceFrom ⟨pos, h⟩).copy.toList else none

/-- The pass from a byte on, in so many rounds at most, with the text that is made so far. A pass
that cuts a symbol or needs more rounds gives nothing. -/
def scanFrom (rules : List (Word × Word)) (text : String) (rounds : Nat) (pos : String.Pos.Raw)
    (out : String) : Option String :=
  if pos < text.rawEndPos then
    match rounds with
    | 0 => none
    | rounds + 1 =>
      match rest? text pos with
      | none => none
      | some rest =>
        match match? rules rest, rest.head? with
        | some (key, replacement), _ =>
          scanFrom rules text rounds (pos + key.text) (out ++ replacement.text)
        | none, some c => scanFrom rules text rounds (pos + c) (out.push c)
        | none, none => scanFrom rules text rounds pos out
  else some out

/-- The pass over a text. Without a key that is not empty it is the text at once. -/
def scan (rules : List (Word × Word)) (text : String) (rounds : Nat) : Option String :=
  if rules.all (·.1.isEmpty) then some text else scanFrom rules text rounds 0 ""

theorem bytes_append (v w : Word) : bytes (v ++ w) = bytes v + bytes w := by
  simp only [bytes, Word.text, String.ofList_append, String.utf8ByteSize_append]

theorem bytes_pos {w : Word} (h : w ≠ []) : 0 < bytes w := by
  refine Nat.pos_of_ne_zero fun hz => h ?_
  have ht : w.text = "" := String.utf8ByteSize_eq_zero_iff.mp hz
  rw [← String.toList_ofList (l := w)]
  exact congrArg String.toList ht

/-- A key that begins another one is the shorter of them in bytes, too. -/
theorem bytes_lt_of_prefix {v w : Word} (h : v <+: w) (hl : v.length < w.length) :
    bytes v < bytes w := by
  obtain ⟨t, rfl⟩ := h
  have ht : t ≠ [] := by
    rintro rfl
    simp at hl
  have hp := bytes_pos ht
  rw [bytes_append]
  omega

theorem before_iff {v w : Word} :
    before v w = true ↔ bytes w < bytes v ∨ bytes v = bytes w ∧ ¬ w < v := by
  simp only [before, Bool.or_eq_true, Bool.and_eq_true, decide_eq_true_eq, beq_iff_eq,
    Bool.not_eq_true', decide_eq_false_iff_not]

private theorem before_trans (q r s : Word × Word) (hqr : before q.1 r.1 = true)
    (hrs : before r.1 s.1 = true) : before q.1 s.1 = true := by
  rw [before_iff] at hqr hrs ⊢
  rcases hqr with hqr | ⟨hqr, hq⟩ <;> rcases hrs with hrs | ⟨hrs, hr⟩
  · exact .inl (Nat.lt_trans hrs hqr)
  · exact .inl (hrs ▸ hqr)
  · exact .inl (hqr ▸ hrs)
  · have hle := List.le_trans (List.not_lt.mp hq) (List.not_lt.mp hr)
    exact .inr ⟨hqr.trans hrs, List.not_lt.mpr hle⟩

private theorem before_total (r s : Word × Word) :
    (before r.1 s.1 || before s.1 r.1) = true := by
  rw [Bool.or_eq_true, before_iff, before_iff]
  rcases Nat.lt_trichotomy (bytes r.1) (bytes s.1) with h | h | h
  · exact .inr (.inl h)
  · by_cases hl : s.1 < r.1
    · exact .inr (.inr ⟨h.symm, List.lt_asymm hl⟩)
    · exact .inl (.inr ⟨h, hl⟩)
  · exact .inl (.inl h)

/-- Sorting keeps the rules of one key in their order. -/
private theorem find?_mergeSort (rules : List (Word × Word)) (key : Word) :
    (rules.mergeSort fun r s => before r.1 s.1).find? (·.1 == key) =
      rules.find? (·.1 == key) := by
  have hp := List.mergeSort_perm rules fun r s => before r.1 s.1
  have hk : (rules.filter (·.1 == key)).Pairwise fun r s => before r.1 s.1 = true := by
    refine List.pairwise_of_forall_mem_list fun r hr s hs => ?_
    have hr := beq_iff_eq.mp (List.mem_filter.mp hr).2
    have hs := beq_iff_eq.mp (List.mem_filter.mp hs).2
    exact before_iff.mpr (.inr (by rw [hr, hs]; exact ⟨rfl, List.lt_irrefl _⟩))
  have hs := (List.sublist_mergeSort before_trans before_total hk List.filter_sublist).filter
    (·.1 == key)
  simp only [List.filter_filter, Bool.and_self] at hs
  rw [← List.head?_filter, ← List.head?_filter,
    hs.eq_of_length (hp.filter _).length_eq.symm]

/-- The group of a symbol is arranged for every word that begins with it. -/
theorem arranged_group (rules : List (Word × Word)) (c : Char) (cs : Word) :
    Rules.Arranged rules (group rules c) (c :: cs) := by
  have hd : ∀ e ∈ group rules c, e.1.head? = some c := fun e he =>
    beq_iff_eq.mp (List.mem_filter.mp (List.mem_mergeSort.mp he)).2
  refine ⟨fun e he hn => ?_, fun key hne hk => ?_, ?_⟩
  · have hc := hd e he
    rw [hn] at hc
    cases hc
  · have hc : key.head? = some c := by
      cases key with
      | nil => exact absurd rfl hne
      | cons d ds => rw [(List.cons_prefix_cons.mp hk).1, List.head?_cons]
    rw [group, find?_mergeSort, Rules.find?_filter_of_imp]
    intro r hr
    rw [beq_iff_eq.mp hr, hc]
    exact beq_self_eq_true _
  · refine (List.pairwise_mergeSort before_trans before_total _).imp fun {r s} hrs hr hs => ?_
    refine Nat.not_lt.mp fun hl => ?_
    have hb := bytes_lt_of_prefix (List.prefix_of_prefix_length_le hr hs (Nat.le_of_lt hl)) hl
    rcases before_iff.mp hrs with h | ⟨h, -⟩ <;> omega

/-- What is found in the group of its first symbol is what the rule set finds. -/
theorem match?_eq (rules : List (Word × Word)) (w : Word) :
    match? rules w = (Rules.ofList rules).match? w := by
  cases w with
  | nil => exact (Rules.match?_ofList_eq_none_iff.mpr fun _ _ h => List.prefix_nil.mp h).symm
  | cons c cs =>
    exact Option.ext fun _ =>
      (arranged_group rules c cs).find?_eq_some_iff.trans Rules.match?_ofList_eq_some_iff.symm

theorem rest?_append (s t : String) : rest? (s ++ t) s.rawEndPos = some t.toList := by
  have hv : s.rawEndPos.IsValid (s ++ t) :=
    String.Pos.Raw.isValid_iff_exists_append.mpr ⟨s, t, rfl, rfl⟩
  have hs : String.Pos.Splits (s := s ++ t) ⟨s.rawEndPos, hv⟩ s t := ⟨rfl, rfl⟩
  rw [rest?, dif_pos hv, (String.Pos.splits _).eq_right hs]

theorem text_append (v w : Word) : Word.text (v ++ w) = v.text ++ w.text := String.ofList_append

private theorem rawEndPos_add (s t : String) : s.rawEndPos + t = (s ++ t).rawEndPos := by
  refine String.Pos.Raw.ext ?_
  simp

private theorem rawEndPos_lt {s : String} {w : Word} (h : w ≠ []) :
    s.rawEndPos < (s ++ w.text).rawEndPos := by
  have hp : 0 < w.text.utf8ByteSize := bytes_pos h
  rw [String.Pos.Raw.lt_iff]
  simp only [String.byteIdx_rawEndPos, String.utf8ByteSize_append]
  omega

/-- Where a key is found, its replacement is written and the pass goes on after it. -/
private theorem scanFrom_of_match {rules : List (Word × Word)} {key rest replacement : Word}
    (hne : key ≠ []) (h : match? rules (key ++ rest) = some (key, replacement))
    (rounds : Nat) (done out : String) :
    scanFrom rules (done ++ Word.text (key ++ rest)) (rounds + 1) done.rawEndPos out =
      scanFrom rules (done ++ key.text ++ rest.text) rounds (done ++ key.text).rawEndPos
        (out ++ replacement.text) := by
  have hw : key ++ rest ≠ [] := fun hn => hne (List.append_eq_nil_iff.mp hn).1
  have ht : (Word.text (key ++ rest)).toList = key ++ rest := String.toList_ofList
  rw [scanFrom, if_pos (rawEndPos_lt hw), rest?_append, ht]
  simp only [h, rawEndPos_add]
  rw [text_append, String.append_assoc]

/-- Where none is found, the symbol is written and the pass goes on after it. -/
private theorem scanFrom_of_no_match {rules : List (Word × Word)} {c : Char} {cs : Word}
    (h : match? rules (c :: cs) = none) (rounds : Nat) (done out : String) :
    scanFrom rules (done ++ Word.text (c :: cs)) (rounds + 1) done.rawEndPos out =
      scanFrom rules (done.push c ++ Word.text cs) rounds (done.push c).rawEndPos
        (out.push c) := by
  have ht : (Word.text (c :: cs)).toList = c :: cs := String.toList_ofList
  have hc : Word.text (c :: cs) = String.singleton c ++ Word.text cs := by
    rw [String.singleton_eq_ofList]
    exact text_append [c] cs
  rw [scanFrom, if_pos (rawEndPos_lt (List.cons_ne_nil c cs)), rest?_append, ht]
  simp only [h, List.head?_cons, ← String.rawEndPos_push]
  rw [hc, String.push_eq_append, String.append_assoc]

/-- From the end of a token on, the pass writes the images of the tokens that follow, one in each
round. -/
private theorem scanFrom_eq {rules : List (Word × Word)} {w : Word} {tokens : List Token}
    (h : Rules.Segmented rules w tokens) {rounds : Nat} (hle : tokens.length ≤ rounds)
    (done out : String) :
    scanFrom rules (done ++ w.text) rounds done.rawEndPos out =
      some (out ++ Word.text (tokens.flatMap (Token.image rules))) := by
  induction h generalizing rounds done out with
  | nil =>
    have hn : Word.text [] = "" := rfl
    have hlt : ¬ done.rawEndPos < done.rawEndPos := Nat.lt_irrefl _
    unfold scanFrom
    rw [hn, String.append_empty, if_neg hlt, List.flatMap_nil, hn, String.append_empty]
  | @key w key rest tokens hk hw _ ih =>
    subst hw
    obtain ⟨rounds, rfl⟩ := Nat.exists_eq_succ_of_ne_zero (Nat.ne_zero_of_lt hle)
    have hm : match? rules (key ++ rest) = some (key, (Token.key key).image rules) := by
      rw [match?_eq, Rules.match?_ofList_eq_some_iff]
      exact ⟨hk, hk.find?⟩
    rw [scanFrom_of_match hk.ne_nil hm, ih (Nat.le_of_succ_le_succ hle), List.flatMap_cons, text_append, String.append_assoc]
  | @symbol c cs tokens hn _ ih =>
    obtain ⟨rounds, rfl⟩ := Nat.exists_eq_succ_of_ne_zero (Nat.ne_zero_of_lt hle)
    have hm : match? rules (c :: cs) = none := by
      rw [match?_eq, Rules.match?_ofList_eq_none_iff]
      exact hn
    rw [scanFrom_of_no_match hm, ih (Nat.le_of_succ_le_succ hle), List.flatMap_cons, text_append, String.push_eq_append,
      String.append_assoc, String.singleton_eq_ofList]
    rfl

/-- The pass over the bytes of a text writes the images of its tokens, in no more rounds than there
are tokens. -/
theorem scan_eq {rules : List (Word × Word)} {w : Word} {tokens : List Token}
    (h : Rules.Segmented rules w tokens) {rounds : Nat} (hle : tokens.length ≤ rounds) :
    scan rules w.text rounds = some (Word.text (tokens.flatMap (Token.image rules))) := by
  unfold scan
  split
  · rename_i he
    have hf : rules.filter (!·.1.isEmpty) = [] := by
      refine List.filter_eq_nil_iff.mpr fun r hr => ?_
      rw [List.all_eq_true.mp he r hr]
      exact Bool.false_ne_true
    have hr : (Rules.ofList rules).isEmpty = true := by
      rw [Rules.ofList, hf]
      rfl
    rw [← h.apply_eq, Rules.apply, if_pos hr]
  · have hs := scanFrom_eq h hle "" ""
    rwa [String.empty_append, String.empty_append] at hs

end Scanner

namespace Rules

/-- A pass is a segmentation. Whatever the rules of a list (their keys may be empty, repeated, or
begin one another) and the word, there is exactly one way to cut the word from left to right into
tokens, each the longest key that what is left begins with, or one symbol where no key fits. The
tokens make up the word. A pass by the rules gives the images of the tokens, where the first of the
rules with one key counts. The pass over the bytes of the text, with the rules in groups by first
symbol, comes to the same end: it stops after at most one round for each token, and every place at
which it takes the text apart is between two symbols. -/
theorem apply_ofList (rules : List (Word × Word)) (w : Word) :
    ∃ tokens : List Token,
      (∀ ts, Segmented rules w ts ↔ ts = tokens) ∧
      tokens.flatMap Token.word = w ∧
      (ofList rules).apply w = tokens.flatMap (Token.image rules) ∧
      ∀ rounds ≥ tokens.length, Scanner.scan rules w.text rounds =
        some (Word.text (tokens.flatMap (Token.image rules))) := by
  obtain ⟨tokens, h⟩ := exists_segmented rules w
  refine ⟨tokens, fun ts => ⟨fun ht => ht.unique h, ?_⟩, h.flatMap_word, h.apply_eq,
    fun _ hle => Scanner.scan_eq h hle⟩
  rintro rfl
  exact h

end Rules
end Lindenmayer
