import Mathlib.Data.List.Induction
import Lindenmayer.Proofs.Preset.Tables

/-! The depths of a table of colors. The texts of an accepted table are distinct, but distinct texts
may denote one depth, and then the greatest of them has the say. -/
namespace Lindenmayer
open Json

/-- A text of decimal digits for a number: perhaps a plus sign, perhaps zeros, and then the digits
of the number. -/
def Word.Numeral (w : Word) (n : Nat) : Prop :=
  ∃ sign zeros, (sign = [] ∨ sign = ['+']) ∧
    w = sign ++ (List.replicate zeros '0' ++ Nat.toDigits 10 n)

section Numerals
variable {bits n : Nat} {w digits : Word}

/-- Digits are those of their value with zeros in front. -/
private theorem eq_zeros_append (hn : digits ≠ []) (hd : ∀ c ∈ digits, c.isDigit) :
    ∃ zeros, digits =
      List.replicate zeros '0' ++ Nat.toDigits 10 (Nat.ofDigitChars 10 digits 0) := by
  -- The induction is from the right, where a numeral goes on.
  induction digits using List.reverseRecOn with
  | nil => exact absurd rfl hn
  | append_singleton digits c ih =>
    obtain ⟨hdigits, hc⟩ := List.forall_mem_append.mp hd
    have hc := Char.isDigit_iff_toNat.mp (hc c (List.mem_singleton_self c))
    have hlt : c.toNat - '0'.toNat < 10 := by
      have : '0'.toNat = 48 := rfl
      have : '9'.toNat = 57 := rfl
      omega
    have hlast : Nat.toDigits 10 (c.toNat - '0'.toNat) = [c] := by
      rw [Nat.toDigits_of_lt_base hlt]
      congr 1
      apply Char.toNat_inj.mp
      rw [Nat.toNat_digitChar_of_lt_ten hlt]
      exact Nat.add_sub_cancel' hc.1
    rw [Nat.ofDigitChars_append, Nat.ofDigitChars_cons, Nat.ofDigitChars_nil]
    by_cases hz : digits = []
    · subst hz
      exact ⟨0, by simpa using hlast.symm⟩
    obtain ⟨zeros, he⟩ := ih hz hdigits
    generalize Nat.ofDigitChars 10 digits 0 = n at he ⊢
    rcases Nat.eq_zero_or_pos n with rfl | hp
    · -- The numeral so far is a lone zero, which now is one of those in front.
      refine ⟨zeros + 1, ?_⟩
      rw [he, Nat.mul_zero, Nat.zero_add, hlast, Nat.toDigits_zero, List.replicate_succ']
    · refine ⟨zeros, ?_⟩
      rw [← Nat.toDigits_append_toDigits (by decide) hp hlt, hlast, ← List.append_assoc, ← he]

/-- The texts of digits with a value are its digits with zeros in front. -/
private theorem digits_iff :
    (digits ≠ [] ∧ (∀ c ∈ digits, c.isDigit) ∧ Nat.ofDigitChars 10 digits 0 = n) ↔
      ∃ zeros, digits = List.replicate zeros '0' ++ Nat.toDigits 10 n := by
  constructor
  · rintro ⟨hn, hd, rfl⟩
    exact eq_zeros_append hn hd
  · rintro ⟨zeros, rfl⟩
    refine ⟨?_, ?_, ?_⟩
    · exact List.append_ne_nil_of_right_ne_nil _ Nat.toDigits_ne_nil
    · refine List.forall_mem_append.mpr ⟨?_, fun c hc => ?_⟩
      · intro c hc
        rw [List.eq_of_mem_replicate hc]
        rfl
      · exact Nat.isDigit_of_mem_toDigits (by decide) (by decide) hc
    · rw [Nat.ofDigitChars_append, Nat.ofDigitChars_replicate_zero, Nat.mul_zero,
        Nat.ofDigitChars_ten_toDigits]

/-- A plus sign in front changes nothing where there is none. -/
private theorem decimal?_of_unsigned (h : ∀ rest, w ≠ '+' :: rest) :
    decimal? bits w = decimal? bits ('+' :: w) := by
  rw [decimal?, decimal?]
  exact h

/-- What stands after a plus sign is read if it is digits of a number in the range. -/
private theorem decimal?_plus_eq_some : decimal? bits ('+' :: digits) = some n ↔
    (digits ≠ [] ∧ (∀ c ∈ digits, c.isDigit) ∧ Nat.ofDigitChars 10 digits 0 = n) ∧
      n < Nat.pow 2 bits := by
  have hv : digits.foldl (fun n d => n * 10 + (d.toNat - '0'.toNat)) 0 =
      Nat.ofDigitChars 10 digits 0 := by
    simp only [Nat.ofDigitChars_eq_foldl, Nat.mul_comm]
  have hd : (digits.isEmpty || !digits.all Char.isDigit) = true ↔
      ¬ (digits ≠ [] ∧ ∀ c ∈ digits, c.isDigit) := by
    simp only [Bool.or_eq_true, List.isEmpty_iff, Bool.not_eq_true', List.all_eq_false,
      not_and_or, not_not, not_forall, exists_prop]
  simp only [decimal?, hv, hd]
  grind

private theorem decimal?_eq_some :
    decimal? bits w = some n ↔ ∃ sign digits, (sign = [] ∨ sign = ['+']) ∧ w = sign ++ digits ∧
      (digits ≠ [] ∧ (∀ c ∈ digits, c.isDigit) ∧ Nat.ofDigitChars 10 digits 0 = n) ∧
      n < Nat.pow 2 bits := by
  constructor
  · intro h
    by_cases hs : ∃ rest, w = '+' :: rest
    · obtain ⟨rest, rfl⟩ := hs
      exact ⟨['+'], rest, .inr rfl, rfl, decimal?_plus_eq_some.mp h⟩
    · rw [decimal?_of_unsigned (not_exists.mp hs)] at h
      exact ⟨[], w, .inl rfl, rfl, decimal?_plus_eq_some.mp h⟩
  · rintro ⟨_, digits, rfl | rfl, rfl, h⟩
    · have hs (rest : Word) (he : w = '+' :: rest) : False :=
        absurd (h.1.2.1 '+' (he ▸ List.mem_cons_self)) (by decide)
      exact (decimal?_of_unsigned hs).trans (decimal?_plus_eq_some.mpr h)
    · exact decimal?_plus_eq_some.mpr h

/-- What is read as a number in a range are the numerals of the numbers of the range. -/
theorem decimal?_eq_some_iff : decimal? bits w = some n ↔ w.Numeral n ∧ n < Nat.pow 2 bits := by
  rw [decimal?_eq_some]
  constructor
  · rintro ⟨sign, digits, hs, rfl, hd, hn⟩
    obtain ⟨zeros, rfl⟩ := digits_iff.mp hd
    exact ⟨⟨sign, zeros, hs, rfl⟩, hn⟩
  · rintro ⟨⟨sign, zeros, hs, rfl⟩, hn⟩
    exact ⟨sign, _, hs, rfl, digits_iff.mpr ⟨zeros, rfl⟩, hn⟩

end Numerals

/-- A text is a numeral of one number only. -/
theorem Word.Numeral.inj {w : Word} {m n : Nat} (hm : w.Numeral m) (hn : w.Numeral n) : m = n := by
  have hlt {k : Nat} (hk : k ≤ m + n) : k < Nat.pow 2 (m + n) :=
    Nat.lt_of_le_of_lt hk Nat.lt_two_pow_self
  have hm := decimal?_eq_some_iff.mpr ⟨hm, hlt (Nat.le_add_right m n)⟩
  have hn := decimal?_eq_some_iff.mpr ⟨hn, hlt (Nat.le_add_left n m)⟩
  exact Option.some.inj (hm.symm.trans hn)

theorem Word.numeral_toDigits (n : Nat) : Word.Numeral (Nat.toDigits 10 n) n :=
  ⟨[], 0, .inl rfl, rfl⟩

/-- A key of a table denotes a depth when it is a numeral of it. Depths are numbers of 64 bits. -/
def Word.Denotes (key : Word) (depth : Nat) : Prop := key.Numeral depth ∧ depth < Nat.pow 2 64

instance (key : Word) (depth : Nat) : Decidable (key.Denotes depth) :=
  decidable_of_iff (decimal? 64 key = some depth) decimal?_eq_some_iff

namespace DecorationConfig
variable {t : Keyed Rgb} {colors : List (Nat × Color)} {depth : Nat}

theorem depths_cons_eq_ok {e : Word × Rgb} (h : depths (e :: t) = .ok colors) :
    ∃ d rest, e.1.Denotes d ∧ depths t = .ok rest ∧ colors = (d, e.2.color) :: rest := by
  rw [depths] at h
  split at h
  · cases h
  · next d hd =>
    obtain ⟨rest, hr, rfl⟩ := map_eq_ok.mp h
    exact ⟨d, rest, decimal?_eq_some_iff.mp hd, hr, rfl⟩

theorem denotes_of_depths (h : depths t = .ok colors) : ∀ e ∈ t, ∃ depth, e.1.Denotes depth := by
  induction t generalizing colors with
  | nil => exact nofun
  | cons e t ih =>
    obtain ⟨d, rest, hd, hr, -⟩ := depths_cons_eq_ok h
    exact List.forall_mem_cons.mpr ⟨⟨d, hd⟩, ih hr⟩

/-- Depths are refused for a key that denotes none. -/
theorem depths_eq_error {f : Fault} (h : depths t = .error f) :
    ∃ e ∈ t, (∀ depth, ¬ e.1.Denotes depth) ∧ f = .of (.depthKey e.1) := by
  induction t with
  | nil => cases h
  | cons e t ih =>
    rw [depths] at h
    split at h
    · next hd =>
      cases h
      refine ⟨e, List.mem_cons_self, fun depth hn => ?_, rfl⟩
      rw [decimal?_eq_some_iff.mpr hn] at hd
      cases hd
    · cases ht : depths t with
      | ok rest =>
        rw [ht] at h
        cases h
      | error g =>
        rw [ht] at h
        cases h
        obtain ⟨e', he', hn⟩ := ih ht
        exact ⟨e', List.mem_cons_of_mem e he', hn⟩

private theorem lookup_reverse_cons (d : Nat) (c : Color) (depth : Nat) :
    ((d, c) :: colors).reverse.lookup depth =
      (colors.reverse.lookup depth).or (if depth == d then some c else none) := by
  rw [List.reverse_cons, List.lookup_append, List.lookup_cons]
  cases depth == d <;> rfl

theorem lookup_depths_none (h : depths t = .ok colors) (hn : ∀ e ∈ t, ¬ e.1.Denotes depth) :
    colors.reverse.lookup depth = none := by
  induction t generalizing colors with
  | nil =>
    cases h
    rfl
  | cons e t ih =>
    obtain ⟨he, ht⟩ := List.forall_mem_cons.mp hn
    obtain ⟨d, rest, hd, hr, rfl⟩ := depths_cons_eq_ok h
    have hne : depth ≠ d := by
      rintro rfl
      exact he hd
    rw [lookup_reverse_cons, ih hr ht, Option.none_or, if_neg (by simpa using hne)]

/-- Where keys ascend, the greatest key that denotes a depth gives its color. -/
theorem lookup_depths_some (h : depths t = .ok colors)
    (hk : t.Pairwise fun e e' => e.1 < e'.1) {e : Word × Rgb} (he : e ∈ t)
    (hd : e.1.Denotes depth) (hg : ∀ l ∈ t, e.1 < l.1 → ¬ l.1.Denotes depth) :
    colors.reverse.lookup depth = some e.2.color := by
  induction t generalizing colors with
  | nil => cases he
  | cons a t ih =>
    obtain ⟨ha, ht⟩ := List.pairwise_cons.mp hk
    obtain ⟨-, hgt⟩ := List.forall_mem_cons.mp hg
    obtain ⟨d, rest, hda, hr, rfl⟩ := depths_cons_eq_ok h
    rw [lookup_reverse_cons]
    cases he with
    | head =>
      -- The keys after the first one are greater, so that none of them denotes the depth.
      have hnone := lookup_depths_none hr fun l hl => hgt l hl (ha l hl)
      cases hd.1.inj hda.1
      rw [hnone, Option.none_or, if_pos BEq.rfl]
    | tail _ he => rw [ih hr ht he hgt, Option.some_or]

/-- Where each key of a table is written as the digits of its depth and no more, no two keys denote
the same depth. -/
theorem eq_of_denotes (hk : t.Pairwise fun e e' => e.1 < e'.1)
    (hp : ∀ e ∈ t, ∃ depth, e.1 = Nat.toDigits 10 depth) {e l : Word × Rgb} (he : e ∈ t)
    (hl : l ∈ t) (hed : e.1.Denotes depth) (hld : l.1.Denotes depth) : l = e := by
  have hkey (a : Word × Rgb) (ha : a ∈ t) (hd : a.1.Denotes depth) :
      a.1 = Nat.toDigits 10 depth := by
    obtain ⟨n, hn⟩ := hp a ha
    have hnum : a.1.Numeral n := hn ▸ Word.numeral_toDigits n
    rw [hn, hnum.inj hd.1]
  exact List.inj_on_of_nodup_map (Keyed.keys_nodup hk) hl he
    ((hkey l hl hld).trans (hkey e he hed).symm)

/-- In an accepted table, a depth that several keys denote has the color of the greatest of them.
Such a table is built when all its keys denote depths, and is otherwise refused for one that denotes
none. Built, it has white for every depth that no key denotes. Where each key is written as the
digits of its depth and no more, no two keys denote the same depth, and each depth has the color of
its key. -/
theorem build_table {n : Node} (h : decode n = .ok (.table t)) :
    ((∃ d, build (.table t) = .ok d) ↔ ∀ e ∈ t, ∃ depth, e.1.Denotes depth) ∧
    (∀ f, build (.table t) = .error f →
      ∃ e ∈ t, (∀ depth, ¬ e.1.Denotes depth) ∧ f = .of (.depthKey e.1)) ∧
    ∀ d, build (.table t) = .ok d → ∃ colors : DepthColors, d = .table colors ∧
      (∀ depth, (∀ e ∈ t, ¬ e.1.Denotes depth) → colors.color depth = .white) ∧
      (∀ e ∈ t, ∀ depth, e.1.Denotes depth → (∀ l ∈ t, e.1 < l.1 → ¬ l.1.Denotes depth) →
        colors.color depth = e.2.color) ∧
      ((∀ e ∈ t, ∃ depth, e.1 = Nat.toDigits 10 depth) →
        ∀ e ∈ t, ∀ depth, e.1.Denotes depth →
          colors.color depth = e.2.color ∧ ∀ l ∈ t, l.1.Denotes depth → l = e) := by
  obtain ⟨_, _, _, -, -, _, _, _, -, -, -, hk⟩ := (described_of_decode h).2 t rfl
  have hbuild : build (.table t) = (depths t).map fun colors => .table ⟨colors, .white⟩ := rfl
  rw [hbuild]
  cases hd : depths t with
  | error f =>
    obtain ⟨e, he, hn, rfl⟩ := depths_eq_error hd
    refine ⟨⟨nofun, fun hall => ?_⟩, ?_, nofun⟩
    · obtain ⟨depth, hdepth⟩ := hall e he
      exact absurd hdepth (hn depth)
    · rintro _ ⟨⟩
      exact ⟨e, he, hn, rfl⟩
  | ok colors =>
    refine ⟨⟨fun _ => denotes_of_depths hd, fun _ => ⟨_, rfl⟩⟩, nofun, ?_⟩
    rintro _ ⟨⟩
    have hsome (e : Word × Rgb) (he : e ∈ t) (depth : Nat) (hed : e.1.Denotes depth)
        (hg : ∀ l ∈ t, e.1 < l.1 → ¬ l.1.Denotes depth) :
        DepthColors.color ⟨colors, .white⟩ depth = e.2.color := by
      rw [DepthColors.color, lookup_depths_some hd hk he hed hg, Option.getD_some]
    refine ⟨_, rfl, fun depth hn => ?_, hsome, fun hp e he depth hed => ?_⟩
    · rw [DepthColors.color, lookup_depths_none hd hn, Option.getD_none]
    · have hone (l : Word × Rgb) (hl : l ∈ t) (hld : l.1.Denotes depth) : l = e :=
        eq_of_denotes hk hp he hl hed hld
      refine ⟨hsome e he depth hed fun l hl hlt hld => ?_, hone⟩
      exact List.lt_irrefl e.1 (hone l hl hld ▸ hlt)

private theorem eq_table {x : Except Failure DecorationConfig}
    (h : (match x with
      | .ok (.table u) => some u
      | _ => none) = some t) : x = .ok (.table t) := by
  split at h
  · cases h
    rfl
  · cases h

/-- Keys out of order, one of them with a plus sign. Each has a depth to itself. -/
theorem build_table_forest :
    let n := (read ("\x7b\"table\": \x7b\"7\": [0, 128, 0], \"+1\": [99, 66, 33]\x7d, " ++
      "\"hook\": \"colour_table\"\x7d")).root
    let t : Keyed Rgb := [(['+', '1'], ⟨99, 66, 33⟩), (['7'], ⟨0, 128, 0⟩)]
    decode n = .ok (.table t) ∧ ∃ colors, build (.table t) = .ok (.table colors) ∧
      colors.color 0 = .white ∧ colors.color 1 = Rgb.color ⟨99, 66, 33⟩ := by
  intro n t
  have h : decode n = .ok (.table t) := eq_table (by decide +kernel)
  have hall : ∀ e ∈ t, ∃ depth, e.1.Denotes depth :=
    List.forall_mem_cons.mpr ⟨⟨1, by decide⟩, List.forall_mem_singleton.mpr ⟨7, by decide⟩⟩
  obtain ⟨hbuild, -, hbuilt⟩ := build_table h
  obtain ⟨d, hd⟩ := hbuild.mpr hall
  obtain ⟨colors, rfl, hwhite, hcolor, -⟩ := hbuilt d hd
  exact ⟨h, colors, hd, hwhite 0 (by decide),
    hcolor _ List.mem_cons_self 1 (by decide) (by decide)⟩

/-- Two keys that denote one depth, and the color of the first of them is lost. -/
theorem build_table_repeated_depth :
    let n := (read ("\x7b\"hook\": \"colour_table\", " ++
      "\"table\": \x7b\"0\": [255, 0, 0], \"00\": [0, 0, 255]\x7d\x7d")).root
    let t : Keyed Rgb := [(['0'], ⟨255, 0, 0⟩), (['0', '0'], ⟨0, 0, 255⟩)]
    decode n = .ok (.table t) ∧ (∀ e ∈ t, e.1.Denotes 0) ∧
      ∃ colors, build (.table t) = .ok (.table colors) ∧ colors.color 0 = Rgb.color ⟨0, 0, 255⟩ ∧
        colors.color 0 ≠ Rgb.color ⟨255, 0, 0⟩ := by
  intro n t
  have hne : Rgb.color ⟨0, 0, 255⟩ ≠ Rgb.color ⟨255, 0, 0⟩ := fun h =>
    absurd (congrArg (fun c => c.red == 0) h) (by decide +kernel)
  exact ⟨eq_table (by decide +kernel), by decide, _, rfl, rfl, hne⟩

end DecorationConfig
end Lindenmayer
