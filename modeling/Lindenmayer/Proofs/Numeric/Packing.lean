import Mathlib

/-! The bits of doubles: what a double stands for, and the bits that stand for it. -/
namespace Lindenmayer
open Float.Model (UnpackedFloat Format)
open Float.Model.UnpackedFloat

/-- A mantissa and an exponent as doubles hold them: 53 bits, and fewer only with the smallest
exponent. -/
structure Canonical (m : Nat) (e : Int) : Prop where
  pos : 0 < m
  lt : m < 2 ^ 53
  exponent : -1074 ≤ e
  full : 2 ^ 52 ≤ m ∨ e = -1074

/-- The exponent bits of a number that has the given mantissa and exponent. -/
private def exponentCode (m : Nat) (e : Int) : Nat :=
  if m < 2 ^ 52 then 0 else (e + 1075).toNat

theorem toNat_append_one (v : BitVec 52) : (1#1 ++ v).toNat = 2 ^ 52 + v.toNat := by
  rw [BitVec.toNat_append, ← Nat.shiftLeft_add_eq_or_of_lt v.isLt]
  rfl

theorem toNat_unpackMantissa (b : BitVec Format.binary64.numBits) :
    (unpackMantissa b).toNat = b.toNat % 2 ^ 52 := by
  simp [unpackMantissa]

theorem toNat_unpackExponent (b : BitVec Format.binary64.numBits) :
    (unpackExponent b).toNat = b.toNat / 2 ^ 52 % 2 ^ 11 := by
  simp [unpackExponent, Nat.shiftRight_eq_div_pow]

theorem toNat_unpackSign (b : BitVec Format.binary64.numBits) :
    (unpackSign b).toNat = b.toNat / 2 ^ 63 := by
  have hlt : b.toNat < 2 ^ 64 := b.isLt
  simp [unpackSign, Nat.shiftRight_eq_div_pow]
  omega

/-- The parts of a double that is finite and not zero. -/
theorem unpack_eq_finite_iff (b : BitVec Format.binary64.numBits) (s : Sign) (m : Nat)
    (e : Int) (hm : 0 < m) :
    unpack .binary64 b = .finite s m e hm ↔
      Canonical m e ∧ e ≤ 971 ∧ Sign.ofBitVec (unpackSign b) = s ∧
        (unpackExponent b).toNat = exponentCode m e ∧ (unpackMantissa b).toNat = m % 2 ^ 52 := by
  have hM : (unpackMantissa b).toNat < 2 ^ 52 := (unpackMantissa b).isLt
  have hE : (unpackExponent b).toNat < 2 ^ 11 := (unpackExponent b).isLt
  have htop : unpackExponent b = -1#_ ↔ (unpackExponent b).toNat = 2047 := BitVec.toNat_inj.symm
  have hbottom : unpackExponent b = 0#_ ↔ (unpackExponent b).toNat = 0 := BitVec.toNat_inj.symm
  have hzero : unpackMantissa b = 0#_ ↔ (unpackMantissa b).toNat = 0 := BitVec.toNat_inj.symm
  have hone := toNat_append_one (unpackMantissa b)
  have hbias : ((Format.binary64.exponentBias : Nat) : Int) = 1023 := rfl
  have hwidth : ((Format.binary64.mantissaBitsWithoutImplicit : Nat) : Int) = 52 := rfl
  simp only [unpack, exponentCode]
  by_cases ht : unpackExponent b = -1#_
  · -- No canonical number has the bits of the infinities.
    rw [if_pos ht]
    rw [htop] at ht
    refine iff_of_false (by split <;> exact nofun) ?_
    rintro ⟨hc, he, -, hx, -⟩
    split at hx <;> omega
  rw [if_neg ht]
  rw [htop] at ht
  by_cases hb : unpackExponent b = 0#_
  · rw [if_pos hb]
    rw [hbottom] at hb
    by_cases hz : unpackMantissa b = 0#_
    · rw [dif_pos hz]
      rw [hzero] at hz
      refine iff_of_false nofun ?_
      rintro ⟨hc, -, -, hx, hy⟩
      have := hc.exponent
      split at hx <;> omega
    · rw [dif_neg hz, UnpackedFloat.finite.injEq, hb, hbias, hwidth]
      rw [hzero] at hz
      constructor
      · rintro ⟨hs, rfl, rfl⟩
        exact ⟨⟨hm, by omega, by omega, .inr (by omega)⟩, by omega, hs, (if_pos hM).symm, by omega⟩
      · rintro ⟨hc, -, hs, hx, hy⟩
        have := hc.full
        have := hc.exponent
        refine ⟨hs, ?_, ?_⟩ <;> split at hx <;> omega
  · rw [if_neg hb, UnpackedFloat.finite.injEq, hone, hbias, hwidth]
    rw [hbottom] at hb
    constructor
    · rintro ⟨hs, rfl, rfl⟩
      refine ⟨⟨hm, by omega, by omega, .inl (by omega)⟩, by omega, hs, ?_, by omega⟩
      rw [if_neg (by omega)]
      omega
    · rintro ⟨hc, -, hs, hx, hy⟩
      have := hc.lt
      have := hc.exponent
      refine ⟨hs, ?_, ?_⟩ <;> split at hx <;> omega

/-- Bits stand for a finite number when, its sign aside, they are its exponent and its mantissa, one
after the other. The mantissa's leading bit counts into the exponent. -/
theorem unpack_eq_finite {b : BitVec Format.binary64.numBits} (s : Sign) {m : Nat} {e : Int}
    (hc : Canonical m e) (he : e ≤ 971) (hs : Sign.ofBitVec (unpackSign b) = s)
    (hb : b.toNat % 2 ^ 63 = (e + 1074).toNat * 2 ^ 52 + m) :
    unpack .binary64 b = .finite s m e hc.pos := by
  have := hc.lt
  have := hc.full
  have := hc.exponent
  rw [unpack_eq_finite_iff, toNat_unpackMantissa, toNat_unpackExponent, exponentCode]
  refine ⟨hc, he, hs, ?_, by omega⟩
  split <;> omega

private theorem pack_finite (s : Sign) {m : Nat} {e : Int} (hc : Canonical m e) :
    pack .binary64 (.finite s m e hc.pos) =
      if e ≤ 971 then
        packComponents .binary64 s (BitVec.ofNat _ (exponentCode m e)) (BitVec.ofNat _ m)
      else packedInfinity .binary64 s := by
  have hm : m ≠ 0 := Nat.ne_of_gt hc.pos
  have hbias : ((Format.binary64.exponentBias : Nat) : Int) = 1023 := rfl
  have hwidth : ((Format.binary64.mantissaBitsWithoutImplicit : Nat) : Int) = 52 := rfl
  have hbits : Format.binary64.mantissaBits = 53 := rfl
  have hlog : m.log2 + 1 = 53 ↔ ¬ m < 2 ^ 52 := by
    have := Nat.le_log2 (k := 52) hm
    have := (Nat.log2_lt hm).mpr hc.lt
    omega
  have := hc.exponent
  simp only [pack, exponentCode, hbias, hwidth, hbits, hlog]
  by_cases he : e ≤ 971
  · rw [if_pos he, if_neg (by omega)]
    by_cases hl : m < 2 ^ 52
    · rw [if_neg (not_not_intro hl), if_pos hl]
    · rw [if_pos hl, if_neg hl]
      congr 2
      omega
  · rw [if_neg he, if_pos (by omega)]

/-- What is read back of a number with 53 bits: itself, or infinity when it is too large. -/
theorem unpack_pack (s : Sign) {m : Nat} {e : Int} (hc : Canonical m e) :
    (Float.Model.pack (.finite s m e hc.pos)).unpack =
      if e ≤ 971 then .finite s m e hc.pos else .infinity s := by
  change unpack .binary64 (pack .binary64 (.finite s m e hc.pos)) = _
  rw [pack_finite s hc]
  by_cases he : e ≤ 971
  · rw [if_pos he, if_pos he, unpack_eq_finite_iff, unpackExponent_packComponents,
      unpackMantissa_packComponents, unpackSign_packComponents]
    refine ⟨hc, he, by cases s <;> rfl, ?_, BitVec.toNat_ofNat _ _⟩
    rw [BitVec.toNat_ofNat, Nat.mod_eq_of_lt]
    have := hc.exponent
    change exponentCode m e < 2 ^ 11
    unfold exponentCode
    split <;> omega
  · rw [if_neg he, if_neg he]
    cases s <;> rfl

private theorem pack_finite_cases (s : Sign) (m : Nat) (e : Int) (hm : 0 < m) :
    pack .binary64 (.finite s m e hm) = packedInfinity .binary64 s ∨
      ∃ code v, code ≠ -1#11 ∧
        pack .binary64 (.finite s m e hm) = packComponents .binary64 s code v := by
  simp only [pack]
  split
  · exact .inl rfl
  rename_i hcode
  split
  · refine .inr ⟨_, _, fun h => hcode ?_, rfl⟩
    have htop := congrArg BitVec.toNat h
    rw [BitVec.toNat_ofNat] at htop
    have hbits : Format.binary64.exponentBits = 11 := rfl
    have hall : (-1#11).toNat = 2047 := rfl
    omega
  · exact .inr ⟨_, _, by decide, rfl⟩

/-- Whatever its mantissa and its exponent, a number is packed as one of its sign. -/
theorem unpack_pack_cases (s : Sign) (m : Nat) (e : Int) (hm : 0 < m) :
    (Float.Model.pack (.finite s m e hm)).unpack = .infinity s ∨
      (Float.Model.pack (.finite s m e hm)).unpack = .zero s ∨
        ∃ n f hn, (Float.Model.pack (.finite s m e hm)).unpack = .finite s n f hn := by
  have hsign : Sign.ofBitVec s.toBitVec = s := by cases s <;> rfl
  change unpack .binary64 (pack .binary64 (.finite s m e hm)) = _ ∨
    unpack .binary64 (pack .binary64 (.finite s m e hm)) = _ ∨
      ∃ n f hn, unpack .binary64 (pack .binary64 (.finite s m e hm)) = _
  obtain h | ⟨code, v, hcode, h⟩ := pack_finite_cases s m e hm
  · left
    rw [h]
    cases s <;> rfl
  · right
    rw [h]
    generalize hu : unpack .binary64 (packComponents .binary64 s code v) = u
    simp only [unpack, unpackExponent_packComponents, unpackMantissa_packComponents,
      unpackSign_packComponents, hsign] at hu
    rw [if_neg hcode] at hu
    split at hu
    · split at hu
      · exact .inl hu.symm
      · exact .inr ⟨_, _, _, hu.symm⟩
    · exact .inr ⟨_, _, _, hu.symm⟩

/-- A finite double that is not zero has 53 bits, and an exponent below the greatest. -/
theorem canonical_of_unpack {x : Float.Model} {s : Sign} {m : Nat} {e : Int} {hm : 0 < m}
    (h : x.unpack = .finite s m e hm) : Canonical m e ∧ e ≤ 971 := by
  obtain ⟨hc, he, -⟩ := (unpack_eq_finite_iff x.toBits.toBitVec s m e hm).mp h
  exact ⟨hc, he⟩

/-- A double is what its reading is packed to. -/
theorem model_pack_unpack (x : Float.Model) : Float.Model.pack x.unpack = x := by
  rw [Float.Model.mk.injEq]
  exact congrArg UInt64.ofBitVec (pack_unpack_of_valid x.valid)

theorem eq_of_unpack_eq {x y : Float} (h : x.toModel.unpack = y.toModel.unpack) : x = y := by
  have hmodel : x.toModel = y.toModel := by
    rw [← model_pack_unpack x.toModel, h, model_pack_unpack]
  exact congrArg Float.ofModel hmodel

end Lindenmayer
