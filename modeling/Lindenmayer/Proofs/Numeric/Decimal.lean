import Lindenmayer.Numeric.Decimal
import Lindenmayer.Proofs.Numeric.Nearest

/-! Decimals of a fixed number of places: the digits that a number is written with. -/
namespace Lindenmayer.Decimal

private theorem toList_pushn (s : String) (n : ℕ) :
    (s.pushn '0' n).toList = s.toList ++ List.replicate n '0' := by
  rw [String.pushn_eq_repeat_push]
  induction n with
  | zero => simp [Nat.repeat]
  | succ n ih => rw [Nat.repeat, String.toList_push, ih, List.append_assoc, List.replicate_succ']

theorem toList_digits (n width : ℕ) : (digits n width).toList =
    List.replicate (width - (Nat.toDigits 10 n).length) '0' ++ Nat.toDigits 10 n := by
  have hlength : (Nat.repr n).length = (Nat.toDigits 10 n).length := by
    rw [← String.length_toList, Nat.toList_repr]
  simp only [Decimal.digits, String.toList_append, toList_pushn, Nat.toList_repr, hlength]
  rfl

theorem isDigit_of_mem_digits {n width : ℕ} :
    ∀ c ∈ (digits n width).toList, c.isDigit := by
  rw [toList_digits]
  refine List.forall_mem_append.mpr ⟨fun c hc => ?_, fun c hc => ?_⟩
  · rw [List.eq_of_mem_replicate hc]
    rfl
  · exact Nat.isDigit_of_mem_toDigits (by decide) (by decide) hc

theorem ofDigitChars_digits (n width : ℕ) :
    Nat.ofDigitChars 10 (digits n width).toList 0 = n := by
  rw [toList_digits, Nat.ofDigitChars_append, Nat.ofDigitChars_replicate_zero, Nat.mul_zero,
    Nat.ofDigitChars_ten_toDigits]

theorem length_digits {n width : ℕ} (hw : 0 < width) (hn : n < 10 ^ width) :
    (digits n width).toList.length = width := by
  have hle := Nat.toDigits_length 10 n width hw hn
  rw [toList_digits, List.length_append, List.length_replicate]
  omega

theorem toList_pointed (n places : ℕ) : (pointed n places).toList =
    if places = 0 then Nat.toDigits 10 n
    else Nat.toDigits 10 (n / 10 ^ places) ++ '.' :: (digits (n % 10 ^ places) places).toList := by
  unfold pointed
  split
  · exact Nat.toList_repr
  · simp only [String.toList_append, Nat.toList_repr, Nat.pow_eq, List.append_assoc]
    rfl

/-- Only the numeral of zero starts with a zero. -/
theorem toDigits_of_head {n : ℕ} (h : (Nat.toDigits 10 n).head? = some '0') :
    Nat.toDigits 10 n = ['0'] := by
  induction n using Nat.strongRecOn with
  | ind n ih =>
    rw [Nat.toDigits_eq_if (by decide)] at h ⊢
    split at h
    case isTrue hlt =>
      rw [if_pos hlt]
      exact congrArg (fun c => [c]) (Option.some.inj h)
    case isFalse hge =>
      -- The numeral goes on from that of a tenth, which is not zero.
      rw [List.head?_append_of_ne_nil _ Nat.toDigits_ne_nil] at h
      have htenth := congrArg (fun l => Nat.ofDigitChars 10 l 0) (ih (n / 10) (by omega) h)
      rw [Nat.ofDigitChars_ten_toDigits] at htenth
      have hzero : Nat.ofDigitChars 10 ['0'] 0 = 0 := rfl
      omega

end Lindenmayer.Decimal
