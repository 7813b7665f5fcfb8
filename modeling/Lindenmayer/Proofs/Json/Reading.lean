import Lindenmayer.Proofs.Json.Grammar

/-! The reader keeps to the grammar: a tree without a failure is that of the text it is read
from. -/
namespace Lindenmayer.Json
open Reading

/-- A computation after another one has a result if both do. -/
theorem bind_eq_ok {ε α β : Type} {x : Except ε α} {f : α → Except ε β} {b : β} :
    x >>= f = .ok b ↔ ∃ a, x = .ok a ∧ f a = .ok b := by
  cases x with
  | error e => exact ⟨nofun, nofun⟩
  | ok a => exact ⟨fun h => ⟨a, rfl, h⟩, fun ⟨_, rfl, h⟩ => h⟩

theorem map_eq_ok {ε α β : Type} {x : Except ε α} {f : α → β} {b : β} :
    x.map f = .ok b ↔ ∃ a, x = .ok a ∧ f a = b := by
  cases x with
  | error e => exact ⟨nofun, nofun⟩
  | ok a => exact ⟨fun h => ⟨a, rfl, Except.ok.inj h⟩, fun ⟨_, rfl, h⟩ => congrArg Except.ok h⟩

theorem ok_of_isOk {ε α : Type} {x : Except ε α} (h : x.isOk = true) : ∃ a, x = .ok a := by
  cases x with
  | error e => cases h
  | ok a => exact ⟨a, rfl⟩

section Marks
variable {r r' : Reading}

@[simp] theorem Reading.drop_rest (r : Reading) : r.drop.rest = r.rest.tail := by
  unfold drop
  split <;> simp_all

theorem Reading.skip_blanks (r : Reading) : Blanks r.rest r.skip.rest := by
  have from_ (cs : List Char) (p : Place) : Blanks cs (skipFrom cs p).rest := by
    induction cs generalizing p with
    | nil => exact .none []
    | cons c cs ih =>
      rw [skipFrom]
      split
      · exact .more ‹_› (ih _)
      · exact .none _
  exact from_ r.rest r.place

theorem keyword_eq {ks : List Char} (h : keyword ks r = .ok r') : r.rest = ks ++ r'.rest := by
  induction ks generalizing r with
  | nil =>
    cases h
    rfl
  | cons k ks ih =>
    rw [keyword] at h
    split at h
    · cases h
    · next c cs hr =>
      split at h
      · next hc =>
        have ht := ih h
        rw [drop_rest, hr, List.tail_cons] at ht
        rw [hr, ht, beq_iff_eq.mp hc, List.cons_append]
      · cases h

theorem keyword_drop {c : Char} {cs ks : List Char} (hr : r.rest = c :: cs)
    (h : keyword ks r.drop = .ok r') : r.rest = c :: (ks ++ r'.rest) := by
  have hk := keyword_eq h
  rw [drop_rest, hr, List.tail_cons] at hk
  rw [hr, hk]

end Marks

section Numbers
variable {negative : Bool} {significand : Nat} {exponent : Int} {r r' : Reading} {x : Number}
  {cs : List Char}

theorem Run.takeWhile (kind : Char → Bool) (cs : List Char) :
    Run kind cs (cs.drop (cs.takeWhile kind).length) := by
  induction cs with
  | nil => exact .none []
  | cons c cs ih =>
    rw [List.takeWhile_cons]
    split
    · exact .more ‹_› ih
    · exact .none _

theorem leadingDigits_digits (h : ¬ (leadingDigits r).1.isEmpty) :
    Digits r.rest (leadingDigits r).2.rest := by
  obtain ⟨rest, place⟩ := r
  cases rest with
  | nil => exact absurd rfl h
  | cons c cs =>
    cases hc : c.isDigit with
    | false => exact absurd (by simp [leadingDigits, hc]) h
    | true => exact ⟨c, cs, rfl, hc, by simpa [leadingDigits, hc] using .takeWhile Char.isDigit cs⟩

theorem leadingDigits_whole (h : (leadingDigits r).1 ≠ [])
    (hz : ∀ d ds, (leadingDigits r).1 ≠ '0' :: d :: ds) :
    Whole r.rest (leadingDigits r).2.rest := by
  by_cases hr : r.rest.head? = some '0'
  · obtain ⟨rest, place⟩ := r
    obtain ⟨cs, rfl⟩ := List.head?_eq_some_iff.mp hr
    left
    cases hd : cs.takeWhile Char.isDigit with
    | nil => simp [leadingDigits, hd]
    | cons d ds => exact absurd (by simp [leadingDigits, hd]) (hz d ds)
  · exact .inr ⟨hr, leadingDigits_digits (by rwa [List.isEmpty_iff])⟩

theorem realNumber_after (h : realNumber negative significand exponent r = .ok (x, r')) :
    r' = r := by
  unfold realNumber at h
  split at h <;> cases h
  rfl

theorem withExponent_exponent (hr : r.rest = 'e' :: cs ∨ r.rest = 'E' :: cs)
    (h : withExponent negative significand exponent r = .ok (x, r')) :
    Exponent r.rest r'.rest := by
  have ht : r.drop.rest = cs := by rcases hr with hr | hr <;> simp [hr]
  unfold withExponent at h
  extract_lets marked at h
  split at h
  next down signed hm =>
  have hs : cs = signed.rest ∨ cs = '+' :: signed.rest ∨ cs = '-' :: signed.rest := by
    rw [← ht]
    split at hm <;> cases hm <;> simp_all [marked]
  split at h
  next ds after hd =>
  split at h
  · cases h
  next hne =>
  have hn := leadingDigits_digits (r := signed) (by rwa [hd])
  have ha : r' = after := by
    split at h
    · exact realNumber_after h
    · split at h <;> cases h
      rfl
  rw [hd, ← ha] at hn
  exact .inr ⟨cs, signed.rest, hr, hs, hn⟩

theorem withFraction_fraction (hr : r.rest = '.' :: cs)
    (h : withFraction negative significand exponent r = .ok (x, r')) :
    ∃ es, Fraction r.rest es ∧ Exponent es r'.rest := by
  have ht : r.drop.rest = cs := by simp [hr]
  unfold withFraction at h
  extract_lets pointed at h
  split at h
  next ds after hd =>
  split at h
  · cases h
  next hne =>
  have hn := leadingDigits_digits (r := pointed) (by rwa [hd])
  rw [hd, ht] at hn
  refine ⟨after.rest, .inr ⟨cs, hr, hn⟩, ?_⟩
  split at h
  next s left _ =>
  extract_lets e at h
  split at h
  · exact withExponent_exponent (.inl ‹_›) h
  · exact withExponent_exponent (.inr ‹_›) h
  · exact .inl (by rw [realNumber_after h])

theorem unsignedNumber_parts (h : unsignedNumber negative r = .ok (x, r')) :
    ∃ es fs, Whole r.rest es ∧ Fraction es fs ∧ Exponent fs r'.rest := by
  unfold unsignedNumber at h
  split at h
  next ds after hd =>
  split at h
  · cases h
  · cases h
  next hne hz =>
  have hw := leadingDigits_whole (r := r) (by rwa [hd]) (by rwa [hd])
  rw [hd] at hw
  split at h
  next s left _ =>
  split at h
  · next hr =>
    obtain ⟨es, hf, he⟩ := withFraction_fraction hr h
    exact ⟨after.rest, es, hw, hf, he⟩
  · exact ⟨after.rest, after.rest, hw, .inl rfl, withExponent_exponent (.inl ‹_›) h⟩
  · exact ⟨after.rest, after.rest, hw, .inl rfl, withExponent_exponent (.inr ‹_›) h⟩
  · refine ⟨after.rest, after.rest, hw, .inl rfl, .inl ?_⟩
    split at h
    · rw [realNumber_after h]
    · split at h
      · cases h
        rfl
      · split at h <;> cases h <;> rfl

/-- What is read as a number is a numeral. -/
theorem number_numeral (h : number r = .ok (x, r')) : Numeral r.rest r'.rest := by
  unfold number at h
  split at h
  · next cs hr =>
    obtain ⟨es, fs, hw, hf, he⟩ := unsignedNumber_parts h
    exact ⟨cs, es, fs, .inr hr, by simpa [hr] using hw, hf, he⟩
  · obtain ⟨es, fs, hw, hf, he⟩ := unsignedNumber_parts h
    exact ⟨r.rest, es, fs, .inl rfl, hw, hf, he⟩

end Numbers

section Texts
variable {r r' : Reading} {n : Nat} {c : Char}

theorem fourHex_unit (h : fourHex r = .ok (n, r')) : CodeUnit n r.rest r'.rest := by
  unfold fourHex at h
  extract_lets bad at h
  split at h
  · next a b c d cs hr =>
    split at h
    · next w x y z hw hx hy hz =>
      cases h
      exact ⟨a, b, c, d, w, x, y, z, hr, hw, hx, hy, hz, rfl⟩
    · cases h
  · cases h

theorem pairMark_eq (h : pairMark c r = .ok r') : r.rest = c :: r'.rest := by
  unfold pairMark at h
  split at h
  · cases h
  · next d cs hr =>
    split at h
    · next hd =>
      cases h
      simpa [hr] using hd
    · cases h

theorem numberedEscape_escape (h : numberedEscape r = .ok (c, r')) :
    Escape c ('u' :: r.rest) r'.rest := by
  unfold numberedEscape at h
  obtain ⟨⟨n, r₁⟩, h₁, h⟩ := bind_eq_ok.mp h
  have hn := fourHex_unit h₁
  dsimp only at h
  split at h
  · cases h
  next hlow =>
  split at h
  · next hout =>
    cases h
    exact .unit hn (by omega)
  next hhigh =>
  obtain ⟨r₂, h₂, h⟩ := bind_eq_ok.mp h
  obtain ⟨r₃, h₃, h⟩ := bind_eq_ok.mp h
  obtain ⟨⟨m, r₄⟩, h₄, h⟩ := bind_eq_ok.mp h
  rw [pairMark_eq h₂, pairMark_eq h₃] at hn
  dsimp only at h
  split at h
  · cases h
  · obtain ⟨rfl, rfl⟩ := Prod.mk.inj (Except.ok.inj h)
    exact .pair hn (fourHex_unit h₄) (by omega) (by omega)

theorem escape_escape (h : escape r = .ok (c, r')) : Escape c r.rest r'.rest := by
  unfold escape at h
  split at h
  case h_10 cs hr =>
    have he := numberedEscape_escape h
    rw [drop_rest, hr, List.tail_cons] at he
    rwa [hr]
  case h_1 | h_11 => cases h
  all_goals
    next hr =>
    obtain ⟨rfl, rfl⟩ := Prod.mk.inj (Except.ok.inj h)
    rw [drop_rest, hr]
    exact .short rfl

theorem characters_quoted {fuel : Nat} {done : List Char} {s : String}
    (h : characters fuel done r = .ok (s, r')) :
    ∃ cs, s = String.ofList (done.reverse ++ cs) ∧ Quoted cs r.rest r'.rest := by
  induction fuel generalizing done r with
  | zero => cases h
  | succ fuel ih =>
    rw [characters] at h
    split at h
    · cases h
    · next hr =>
      cases h
      exact ⟨[], by simp, by simpa [hr] using .close _⟩
    · next cs hr =>
      obtain ⟨⟨c, r₁⟩, he, h⟩ := bind_eq_ok.mp h
      obtain ⟨cs, rfl, hq⟩ := ih h
      have he := escape_escape he
      rw [drop_rest, hr, List.tail_cons] at he
      exact ⟨c :: cs, by simp, hr ▸ .escaped he hq⟩
    · next c cs hq hb hr =>
      split at h
      · cases h
      · next hc =>
        obtain ⟨ds, rfl, hd⟩ := ih h
        rw [drop_rest, hr, List.tail_cons] at hd
        refine ⟨c :: ds, by simp, hr ▸ .plain ?_ ?_ (by omega) hd⟩
        · exact hq
        · exact hb


theorem text_quoted {fuel : Nat} {s : String} (h : text fuel r = .ok (s, r')) :
    Quoted s.toList r.rest.tail r'.rest := by
  obtain ⟨cs, rfl, hq⟩ := characters_quoted h
  simpa using hq

end Texts

section Trees

theorem Separated.blanks {first : Bool} {cs ds es : List Char} (h : Separated first cs ds)
    (k : Blanks ds es) : Separated first cs es := by
  cases first with
  | true => exact Run.trans h k
  | false =>
    obtain ⟨gs, hg, hd⟩ := h
    exact ⟨gs, hg, hd.trans k⟩

/-- A value that is read without a failure stands after blanks where reading begins, up to where
reading goes on. -/
private def ReadsValue (n : Nat) : Prop :=
  ∀ depth r v after, value n depth r = (v, after) → v.failure? = none →
    ∃ r' cs, after = some r' ∧ Blanks r.rest cs ∧ v.Written cs r'.rest

private def ReadsItems (n : Nat) : Prop :=
  ∀ depth first r is after, items n depth first r = (is, after) → is.failure? = none →
    ∃ r', after = some r' ∧ is.Written first r.rest r'.rest

private def ReadsMembers (n : Nat) : Prop :=
  ∀ depth first r ms after, members n depth first r = (ms, after) → ms.failure? = none →
    ∃ r', after = some r' ∧ ms.Written first r.rest r'.rest

private theorem scalar_eq {α : Type} {make : α → Place → Node} {read : Except Failure (α × Reading)}
    {v : Node} {after : Option Reading} (h : scalar make read = (v, after))
    (hv : v.failure? = none) :
    ∃ a r', read = .ok (a, r') ∧ v = make a r'.place ∧ after = some r' := by
  unfold scalar at h
  split at h
  · cases h
    cases hv
  · cases h
    exact ⟨_, _, rfl, rfl, rfl⟩

private theorem readsValue_succ {n : Nat} (hi : ReadsItems n) (hm : ReadsMembers n) :
    ReadsValue (n + 1) := by
  intro depth before v after h hv
  have hb := before.skip_blanks
  unfold value at h
  extract_lets r at h
  split at h
  · cases h
    cases hv
  · next cs hr =>
    split at h
    · cases h
      cases hv
    · split at h
      next is last hr' =>
      cases h
      obtain ⟨r', rfl, hw⟩ := hi _ _ _ _ _ hr' hv
      rw [drop_rest, hr] at hw
      exact ⟨r', _, rfl, hb, cs, hr, hw⟩
  · next cs hr =>
    split at h
    · cases h
      cases hv
    · split at h
      next ms last hr' =>
      cases h
      obtain ⟨r', rfl, hw⟩ := hm _ _ _ _ _ hr' hv
      rw [drop_rest, hr] at hw
      exact ⟨r', _, rfl, hb, cs, hr, hw⟩
  · next cs hr =>
    obtain ⟨s, r', ht, rfl, rfl⟩ := scalar_eq h hv
    have hq := text_quoted ht
    rw [hr] at hq
    exact ⟨r', _, rfl, hb, cs, hr, hq⟩
  · next cs hr =>
    obtain ⟨_, r', hk, rfl, rfl⟩ := scalar_eq h hv
    obtain ⟨r', hk, ⟨⟩⟩ := map_eq_ok.mp hk
    exact ⟨r', _, rfl, hb, keyword_drop hr hk⟩
  · next cs hr =>
    obtain ⟨_, r', hk, rfl, rfl⟩ := scalar_eq h hv
    obtain ⟨r', hk, ⟨⟩⟩ := map_eq_ok.mp hk
    exact ⟨r', _, rfl, hb, keyword_drop hr hk⟩
  · next cs hr =>
    obtain ⟨_, r', hk, rfl, rfl⟩ := scalar_eq h hv
    obtain ⟨r', hk, ⟨⟩⟩ := map_eq_ok.mp hk
    exact ⟨r', _, rfl, hb, keyword_drop hr hk⟩
  · split at h
    · obtain ⟨x, r', hx, rfl, rfl⟩ := scalar_eq h hv
      exact ⟨r', _, rfl, hb, number_numeral hx⟩
    · cases h
      cases hv

private theorem readsItems_succ {n : Nat} (hv : ReadsValue n) (hi : ReadsItems n) :
    ReadsItems (n + 1) := by
  intro depth first before is after h hf
  have hb := before.skip_blanks
  unfold items at h
  extract_lets r unread one s at h
  -- An item is read in one way, after blanks if it is the first and after a comma if it is not.
  have hone (s : Reading) (hs : Separated first before.rest s.rest) (h : one s = (is, after)) :
      ∃ r', after = some r' ∧ is.Written first before.rest r'.rest := by
    unfold one at h
    split at h
    · cases h
      simp [Items.failure?, unread] at hf
    · next v mid hr =>
      split at h
      next more last hm =>
      cases h
      obtain ⟨hvf, hmf⟩ : v.failure? = none ∧ more.failure? = none := by
        simpa [Items.failure?] using hf
      obtain ⟨_, cs, ⟨⟩, hb, hw⟩ := hv _ _ _ _ hr hvf
      obtain ⟨r', rfl, hmw⟩ := hi _ _ _ _ _ hm hmf
      exact ⟨r', rfl, cs, _, hs.blanks hb, hw, hmw⟩
  split at h
  · cases h
    cases hf
  · next cs hr =>
    cases h
    refine ⟨_, rfl, ?_⟩
    change Run isBlank before.rest (']' :: r.drop.rest)
    rw [drop_rest, hr, List.tail_cons]
    exact hr ▸ hb
  · next c cs hne hr =>
    split at h
    · next hfirst =>
      exact hone r (by rwa [Separated, if_pos hfirst]) h
    · next hfirst =>
      split at h
      · next hc =>
        have hs : Separated first before.rest s.rest := by
          have hd := r.drop.skip_blanks
          rw [drop_rest, hr, List.tail_cons] at hd
          rw [Separated, if_neg hfirst]
          exact ⟨cs, beq_iff_eq.mp hc ▸ hr ▸ hb, hd⟩
        split at h
        · cases h
          cases hf
        · cases h
          cases hf
        · exact hone s hs h
      · cases h
        cases hf

private theorem readsMembers_succ {n : Nat} (hv : ReadsValue n) (hm : ReadsMembers n) :
    ReadsMembers (n + 1) := by
  intro depth first before ms after h hf
  have hb := before.skip_blanks
  unfold members at h
  extract_lets start unread one stop s at h
  have hone (s : Reading) (ds : List Char) (hq : s.rest = '"' :: ds)
      (hs : Separated first before.rest s.rest) (h : one s = (ms, after)) :
      ∃ r', after = some r' ∧ ms.Written first before.rest r'.rest := by
    unfold one at h
    split at h
    · cases h
      cases hf
    next key keyed hkey =>
    have hkey := text_quoted hkey
    have hk := keyed.skip_blanks
    extract_lets r refused at h
    rw [hq] at hkey hs
    split at h
    · cases h
      simp [Members.failure?, unread] at hf
    · next cs hr =>
      split at h
      · cases h
        simp [Members.failure?, unread] at hf
      · next v mid hvr =>
        split at h
        next more last hmr =>
        cases h
        obtain ⟨hvf, hmf⟩ : v.failure? = none ∧ more.failure? = none := by
          simpa [Members.failure?] using hf
        obtain ⟨_, gs, ⟨⟩, hb, hw⟩ := hv _ _ _ _ hvr hvf
        obtain ⟨r', rfl, hmw⟩ := hm _ _ _ _ _ hmr hmf
        rw [drop_rest, hr, List.tail_cons] at hb
        exact ⟨r', rfl, ds, _, cs, gs, _, hs, hkey, hr ▸ hk, hb, hw, hmw⟩
    · cases h
      simp [Members.failure?, unread] at hf
  have hstop (s : Reading) (p : Problem) : stop s p ≠ (ms, after) := by
    rintro ⟨⟩
    cases hf
  split at h
  · exact absurd h (hstop _ _)
  · next cs hr =>
    cases h
    refine ⟨_, rfl, ?_⟩
    change Run isBlank before.rest ('\x7d' :: start.drop.rest)
    rw [drop_rest, hr, List.tail_cons]
    exact hr ▸ hb
  · next c cs hne hr =>
    split at h
    · next hfirst =>
      split at h
      · next hc => exact hone start cs (beq_iff_eq.mp hc ▸ hr) (by rwa [Separated, if_pos hfirst]) h
      · exact absurd h (hstop _ _)
    · next hfirst =>
      split at h
      · next hc =>
        have hs : Separated first before.rest s.rest := by
          have hd := start.drop.skip_blanks
          rw [drop_rest, hr, List.tail_cons] at hd
          rw [Separated, if_neg hfirst]
          exact ⟨cs, beq_iff_eq.mp hc ▸ hr ▸ hb, hd⟩
        split at h
        · exact absurd h (hstop _ _)
        · next ds hq => exact hone s ds hq hs h
        · exact absurd h (hstop _ _)
        · exact absurd h (hstop _ _)
      · exact absurd h (hstop _ _)

/-- By the fuel, for all three readers at once. -/
private theorem reads (n : Nat) : ReadsValue n ∧ ReadsItems n ∧ ReadsMembers n := by
  induction n with
  | zero =>
    refine ⟨?_, ?_, ?_⟩
    · rintro _ _ _ _ ⟨⟩ ⟨⟩
    · rintro _ _ _ _ _ ⟨⟩ ⟨⟩
    · rintro _ _ _ _ _ ⟨⟩ ⟨⟩
  | succ n ih =>
    obtain ⟨hv, hi, hm⟩ := ih
    exact ⟨readsValue_succ hi hm, readsItems_succ hv hi, readsMembers_succ hv hm⟩

end Trees

/-- A text that is read without a failure up to its end is a document of what is read. -/
theorem read_isDocument {s : String} (hr : (read s).root.failure? = none)
    (ht : (read s).tail = .ok ()) : (read s).root.IsDocument s := by
  unfold read at hr ht ⊢
  dsimp only at hr ht ⊢
  cases hv : value (2 * s.toList.length + 2) depthLimit ⟨s.toList, .start⟩ with
  | mk root after =>
    rw [hv] at hr ht
    cases after with
    | none =>
      obtain ⟨_, _, h, -⟩ := (reads _).1 _ _ _ _ hv hr
      cases h
    | some last =>
      obtain ⟨_, ds, ⟨⟩, hb, hw⟩ := (reads _).1 _ _ _ _ hv hr
      refine ⟨ds, last.rest, hb, hw, ?_⟩
      have hl := last.skip_blanks
      dsimp only at ht
      split at ht
      · next he => rwa [List.isEmpty_iff.mp he] at hl
      · cases ht

end Lindenmayer.Json
