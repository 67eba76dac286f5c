/-
  GeometricAlgebra.Proofs.Binary64.Integers

  Integer parts of floating point numbers of 64 bits.  Clearing the bits behind the point rounds a
  magnitude down to an integer, over all exponents: below one nothing is left, and from `2 ^ 52` on
  nothing is cleared.

    * `magnitude_wholeBits`: the bits of the integer part stand for it.
    * `value_truncate`, `value_floor`: the integer part of a number that is not negative.
    * `AtLeast.floor`: infinities and numbers above a whole number stay above it.
    * `toNat_toUInt64`: whole numbers below `2 ^ 53` as natural numbers.
-/

import GeometricAlgebra.Proofs.Binary64.Rounding

namespace GeometricAlgebra.Binary64

open Float.Model (Format UnpackedFloat)
open Float.Model.UnpackedFloat
open Numeral (value)

/-! ## Cleared bits -/

variable {n c low count : Nat}

/-- Bits above the cleared ones stay. -/
theorem field_clear (n : Nat) (h : c ≤ low) :
    field (n >>> c <<< c) low count = field n low count := by
  obtain ⟨l, rfl⟩ := Nat.exists_eq_add_of_le h
  rw [field, field, Nat.shiftRight_add, Nat.shiftLeft_shiftRight, ← Nat.shiftRight_add]

/-- Of the last bits, the cleared ones are lost. -/
theorem field_clear_zero (n c count : Nat) :
    field (n >>> c <<< c) 0 count = field n 0 count >>> c <<< c := by
  apply Nat.eq_of_testBit_eq
  intro i
  simp only [field, Nat.shiftRight_zero, Nat.one_shiftLeft, Nat.testBit_mod_two_pow,
    Nat.testBit_shiftLeft, Nat.testBit_shiftRight]
  by_cases hi : c ≤ i
  · simp [hi]
  · simp [hi]

/-- Nothing is left of cleared bits. -/
theorem field_clear_eq_zero (n : Nat) (h : low + count ≤ c) :
    field (n >>> c <<< c) low count = 0 := by
  obtain ⟨l, rfl⟩ := Nat.exists_eq_add_of_le h
  apply Nat.eq_of_testBit_eq
  intro i
  simp only [field, Nat.one_shiftLeft, Nat.testBit_mod_two_pow, Nat.testBit_shiftRight,
    Nat.testBit_shiftLeft, Nat.zero_testBit]
  by_cases hi : i < count
  · have hlt : ¬ low + count + l ≤ low + i := by omega
    simp [hlt]
  · simp [hi]

theorem wholeBits_of_lt (h : field n 52 11 < 1023) : wholeBits n = n >>> 63 <<< 63 := by
  rw [wholeBits]
  simp only [h, if_true]

theorem wholeBits_of_le (h : 1023 ≤ field n 52 11) :
    wholeBits n = n >>> (1075 - field n 52 11) <<< (1075 - field n 52 11) := by
  rw [wholeBits]
  simp only [Nat.not_lt.mpr h, if_false]

/-- From `2 ^ 52` on, and in an infinity, nothing is cleared. -/
theorem wholeBits_eq_self (h : 1075 ≤ field n 52 11) : wholeBits n = n := by
  rw [wholeBits_of_le (by omega), Nat.sub_eq_zero_of_le h, Nat.shiftRight_zero, Nat.shiftLeft_zero]

theorem wholeBits_le (n : Nat) : wholeBits n ≤ n := by
  have hclear : ∀ c, n >>> c <<< c ≤ n := fun c => by
    rw [Nat.shiftLeft_eq, Nat.shiftRight_eq_div_pow]
    exact Nat.div_mul_le_self _ _
  exact hclear _

/-- The exponent of the integer part. -/
theorem exponent_wholeBits (n : Nat) :
    field (wholeBits n) 52 11 = if field n 52 11 < 1023 then 0 else field n 52 11 := by
  split
  · rename_i h
    rw [wholeBits_of_lt h, field_clear_eq_zero n (by decide : 52 + 11 ≤ 63)]
  · rename_i h
    rw [wholeBits_of_le (Nat.not_lt.mp h), field_clear n (by omega)]

/-- The integer part of a finite number is finite. -/
theorem exponent_wholeBits_ne (h : field n 52 11 ≠ 2047) : field (wholeBits n) 52 11 ≠ 2047 := by
  rw [exponent_wholeBits]
  split_ifs
  · decide
  · exact h

theorem isNegative_wholeBits (n : Nat) : isNegative (wholeBits n) = isNegative n := by
  rw [isNegative, isNegative]
  rcases Nat.lt_or_ge (field n 52 11) 1023 with h | h
  · rw [wholeBits_of_lt h, field_clear n le_rfl]
  · rw [wholeBits_of_le h, field_clear n (by omega)]

/-! ## Integer parts of magnitudes -/

/-- The magnitude of the number behind bits. -/
def magnitude (n : Nat) : ℚ := (parts n).mantissa * 2 ^ (parts n).exponent

theorem toRat_expandBits (h : field n 52 11 ≠ 2047) :
    (expandBits n).toRat = if isNegative n then -magnitude n else magnitude n := by
  have hnegative : (parts n).negative = isNegative n := by
    rw [parts]
    split
    · rfl
    · rfl
  rw [expandBits, if_neg h, magnitude, ← powerRatio_div]
  simp only [hnegative]
  cases isNegative n
  · rfl
  · rfl

theorem parts_of_zero (h : field n 52 11 = 0) :
    (parts n).mantissa = field n 0 52 ∧ (parts n).exponent = -1074 := by
  simp [parts, h]

theorem parts_of_pos (h : field n 52 11 ≠ 0) :
    (parts n).mantissa = 2 ^ 52 + field n 0 52 ∧ (parts n).exponent = field n 52 11 - 1075 := by
  simp [parts, h]

theorem field_lt (n low count : Nat) : field n low count < 2 ^ count := by
  rw [field, Nat.one_shiftLeft]
  exact Nat.mod_lt _ (Nat.two_pow_pos count)

/-- Magnitudes with a small exponent are below one. -/
theorem magnitude_lt_one (h : field n 52 11 < 1023) : magnitude n < 1 := by
  have hfraction := field_lt n 0 52
  have hone : (1 : ℚ) = (2 ^ 52 : Nat) * 2 ^ (-52 : Int) := by norm_num
  rw [magnitude, hone]
  by_cases hzero : field n 52 11 = 0
  · obtain ⟨hmantissa, hexponent⟩ := parts_of_zero hzero
    rw [hmantissa, hexponent]
    exact mul_two_zpow_lt (by omega) le_rfl (by decide)
  · obtain ⟨hmantissa, hexponent⟩ := parts_of_pos hzero
    rw [hmantissa, hexponent]
    exact mul_two_zpow_lt (by omega) le_rfl (by omega)

theorem magnitude_nonneg (n : Nat) : 0 ≤ magnitude n := by
  rw [magnitude]
  positivity

/-- The leading bit of a mantissa is not among the cleared ones. -/
theorem clear_add_two_pow {m : Nat} (h : c ≤ 52) :
    (2 ^ 52 + m) >>> c <<< c = 2 ^ 52 + m >>> c <<< c := by
  obtain ⟨j, hj⟩ := Nat.exists_eq_add_of_le h
  rw [hj, Nat.shiftRight_eq_div_pow, Nat.shiftRight_eq_div_pow, Nat.pow_add,
    Nat.mul_add_div (Nat.two_pow_pos c), Nat.shiftLeft_eq, Nat.shiftLeft_eq, Nat.add_mul,
    Nat.mul_comm (2 ^ c)]

theorem floor_mul_two_zpow_neg (m c : Nat) : ⌊(m * 2 ^ (-c : Int) : ℚ)⌋ = (m >>> c : Nat) := by
  rw [zpow_neg, zpow_natCast, ← div_eq_mul_inv, Nat.shiftRight_eq_div_pow]
  simpa using Rat.floor_intCast_div_natCast (m : Int) (2 ^ c)

/-- The bits of the integer part stand for it. -/
theorem magnitude_wholeBits (n : Nat) : magnitude (wholeBits n) = ⌊magnitude n⌋ := by
  rcases Nat.lt_or_ge (field n 52 11) 1023 with hlt | hge
  · -- nothing is left
    have hexponent : field (wholeBits n) 52 11 = 0 := by rw [exponent_wholeBits, if_pos hlt]
    have hfraction : field (wholeBits n) 0 52 = 0 := by
      rw [wholeBits_of_lt hlt, field_clear_eq_zero n (by decide : 0 + 52 ≤ 63)]
    have hfloor : ⌊magnitude n⌋ = 0 :=
      Int.floor_eq_zero_iff.mpr ⟨magnitude_nonneg n, magnitude_lt_one hlt⟩
    rw [hfloor, magnitude, (parts_of_zero hexponent).1, hfraction]
    simp
  · obtain ⟨hmantissa, hexponent⟩ := parts_of_pos (by omega : field n 52 11 ≠ 0)
    rcases Nat.lt_or_ge (field n 52 11) 1075 with hsmall | hlarge
    · -- `c` bits stand behind the point
      obtain ⟨c, hc⟩ : ∃ c, 1075 - field n 52 11 = c := ⟨_, rfl⟩
      have hwhole := wholeBits_of_le hge
      rw [hc] at hwhole
      have hfield : field (wholeBits n) 52 11 = field n 52 11 := by
        rw [exponent_wholeBits, if_neg (Nat.not_lt.mpr hge)]
      have hfraction : field (wholeBits n) 0 52 = field n 0 52 >>> c <<< c := by
        rw [hwhole, field_clear_zero]
      obtain ⟨hmantissa', hexponent'⟩ := parts_of_pos (n := wholeBits n) (by omega)
      have hpoint : ((field n 52 11 : Int) - 1075) = -c := by omega
      rw [magnitude, magnitude, hmantissa, hmantissa', hexponent, hexponent', hfield, hpoint,
        hfraction, ← clear_add_two_pow (by omega), floor_mul_two_zpow_neg, Nat.shiftLeft_eq,
        zpow_neg, zpow_natCast, Nat.cast_mul, Nat.cast_pow, Nat.cast_ofNat, mul_assoc,
        mul_inv_cancel₀ (by positivity), mul_one, Int.cast_natCast]
    · -- nothing is cleared
      obtain ⟨k, hk⟩ := Nat.exists_eq_add_of_le hlarge
      have hinteger : magnitude n = ((2 ^ 52 + field n 0 52) * 2 ^ k : Nat) := by
        have hk' : ((field n 52 11 : Int) - 1075) = k := by omega
        rw [magnitude, hmantissa, hexponent, hk', zpow_natCast]
        push_cast
        rfl
      rw [wholeBits_eq_self hlarge, hinteger, Int.floor_natCast, Int.cast_natCast]

/-! ## Integer parts of numbers -/

variable {x : Float}

/-- Bits that stand for a number are those of the number. -/
theorem toBits_ofBits {b : UInt64} (h : field b.toNat 52 11 ≠ 2047) :
    (Float.ofBits b).toBits = b := by
  have hnumber : ¬ @isNaNBits .binary64 b.toBitVec := by
    rw [isNaNBits, decide_eq_true_iff]
    rintro ⟨hones, -⟩
    exact h ((toNat_unpackExponent b.toBitVec).symm.trans (congrArg BitVec.toNat hones))
  refine UInt64.toBitVec_inj.mp ?_
  change UnpackedFloat.pack .binary64 (UnpackedFloat.unpack .binary64 b.toBitVec) = b.toBitVec
  rw [pack_unpack, if_neg hnumber]

/-- A scalar is finite if its exponent is not the largest. -/
theorem isFinite_iff_field (x : Float) :
    Numeral.isFinite x = true ↔ field x.toBits.toNat 52 11 ≠ 2047 := by
  have hexpand : Numeral.expand x = expandBits x.toBits.toNat := rfl
  rw [Numeral.isFinite, hexpand, expandBits]
  by_cases h : field x.toBits.toNat 52 11 = 2047
  · rw [if_pos h]
    split_ifs <;> simp [h]
  · rw [if_neg h]
    simp [h]

theorem value_eq_magnitude (hx : Numeral.isFinite x = true) : value x =
    if isNegative x.toBits.toNat then -magnitude x.toBits.toNat else magnitude x.toBits.toNat :=
  toRat_expandBits ((isFinite_iff_field x).mp hx)

theorem toNat_toBits_truncate (hx : Numeral.isFinite x = true) :
    (truncate x).toBits.toNat = wholeBits x.toBits.toNat := by
  rw [isFinite_iff_field] at hx
  have hsize : wholeBits x.toBits.toNat < 2 ^ 64 :=
    Nat.lt_of_le_of_lt (wholeBits_le _) x.toBits.toNat_lt
  have htoNat : (UInt64.ofNat (wholeBits x.toBits.toNat)).toNat = wholeBits x.toBits.toNat :=
    UInt64.toNat_ofNat_of_lt' hsize
  rw [truncate, toBits_ofBits (by rw [htoNat]; exact exponent_wholeBits_ne hx), htoNat]

/-- The integer part of a number that is not negative. -/
theorem value_truncate (hx : Numeral.isFinite x = true) (hnonneg : 0 ≤ value x) :
    Numeral.isFinite (truncate x) = true ∧ value (truncate x) = ⌊value x⌋ := by
  have hbits := toNat_toBits_truncate hx
  have hfinite : Numeral.isFinite (truncate x) = true := by
    rw [isFinite_iff_field, hbits]
    exact exponent_wholeBits_ne ((isFinite_iff_field x).mp hx)
  refine ⟨hfinite, ?_⟩
  rw [value_eq_magnitude hx] at hnonneg
  rw [value_eq_magnitude hfinite, value_eq_magnitude hx, hbits, isNegative_wholeBits,
    magnitude_wholeBits]
  split_ifs with hsign
  · -- only a zero has a minus and is not negative
    rw [if_pos hsign] at hnonneg
    have hzero : magnitude x.toBits.toNat = 0 :=
      le_antisymm (neg_nonneg.mp hnonneg) (magnitude_nonneg _)
    simp [hzero]
  · rfl

/-- Whole bounds are passed by a number exactly if by its integer part. -/
theorem natCast_le_truncate_iff (hx : Numeral.isFinite x = true) (hnonneg : 0 ≤ value x) {n : Nat}
    {y : Float} (hy : Numeral.isFinite y = true) (hvalue : value y = n) :
    y ≤ truncate x ↔ (n : ℚ) ≤ value x := by
  obtain ⟨hfinite, htruncate⟩ := value_truncate hx hnonneg
  rw [le_iff_value_le hy hfinite, hvalue, htruncate]
  exact_mod_cast Int.le_floor (a := value x) (z := n)

/-- A number that is not negative is rounded down by taking the integer part. -/
theorem floor_eq_truncate (hx : Numeral.isFinite x = true) (hnonneg : 0 ≤ value x) :
    floor x = truncate x := by
  obtain ⟨hfinite, hvalue⟩ := value_truncate hx hnonneg
  refine if_neg ?_
  rw [lt_iff_value_lt hx hfinite, hvalue, not_lt]
  exact Int.floor_le _

theorem value_floor (hx : Numeral.isFinite x = true) (hnonneg : 0 ≤ value x) :
    Numeral.isFinite (floor x) = true ∧ value (floor x) = ⌊value x⌋ := by
  rw [floor_eq_truncate hx hnonneg]
  exact value_truncate hx hnonneg

theorem floor_of_infinity (h : unpacked x = .infinity .positive) : floor x = x := by
  obtain rfl : x = .ofBits 0x7FF0000000000000 := ext (h.trans (by rfl))
  rfl

/-- Infinities and numbers above a whole number stay above it. -/
theorem AtLeast.floor {n : Nat} (h : AtLeast n x) : AtLeast n (floor x) := by
  rcases h with hinfinity | ⟨hx, hle⟩
  · rw [floor_of_infinity hinfinity]
    exact .inl hinfinity
  · obtain ⟨hfinite, hvalue⟩ := value_floor hx ((Nat.cast_nonneg n).trans hle)
    refine .inr ⟨hfinite, ?_⟩
    rw [hvalue]
    exact_mod_cast Int.le_floor.mpr (by exact_mod_cast hle)

/-! ## Whole numbers -/

/-- The integer part of a whole number is the number. -/
theorem roundToInt_exact {m n : Nat} {e : Int} (h : (m * 2 ^ e : ℚ) = n) :
    roundToInt .positive m e = n := by
  obtain ⟨i, hi⟩ : ∃ i, (e - 0).toNat = i := ⟨_, rfl⟩
  obtain ⟨j, hj⟩ : ∃ j, (0 - (e - (i : Int))).toNat = j := ⟨_, rfl⟩
  have hshift : m * 2 ^ i = n * 2 ^ j := by
    obtain rfl : e = i - j := by omega
    rw [zpow_sub₀ two_ne_zero, zpow_natCast, zpow_natCast] at h
    field_simp at h
    rw [Nat.mul_comm n]
    exact_mod_cast h
  have hmantissa :
      ((ExtendedMantissa.ofMantissaAndAccuracy (m <<< i) .exact) >>> j).mantissa = n := by
    rw [shiftRight_mantissa, Nat.shiftLeft_eq]
    change m * 2 ^ i / 2 ^ j = n
    rw [hshift, Nat.mul_div_cancel _ (Nat.two_pow_pos j)]
  simp only [roundToInt, decreaseExponent, shiftToExponent, hi, hj, hmantissa]
  rfl

/-- A whole number below `2 ^ 53` as a natural number. -/
theorem toNat_toUInt64 {n : Nat} (hx : Numeral.isFinite x = true) (hvalue : value x = n)
    (hlt : n < 2 ^ 53) : x.toUInt64.toNat = n := by
  have hparts : toInt 0 (UInt64.size - 1 : Int) (unpacked x) = n := by
    rcases Nat.eq_zero_or_pos n with rfl | hpos
    · obtain ⟨s, hu⟩ := exists_unpacked_of_value_zero hx (by rw [hvalue, Nat.cast_zero])
      rw [hu]
      rfl
    · obtain ⟨m, e, hm, hu, -⟩ := exists_unpacked_of_value_pos hx (by rw [hvalue]; positivity)
      rw [value_of_unpacked hu] at hvalue
      rw [hu]
      exact roundToInt_exact hvalue
  change (UInt64.ofNatClamp (toInt 0 (UInt64.size - 1 : Int) (unpacked x)).toNat).toNat = n
  rw [hparts, Int.toNat_natCast]
  exact UInt64.toNat_ofNatClamp_of_lt (hlt.trans (by decide))

/-- Natural numbers below `2 ^ 53` are numbers of the format. -/
theorem value_natCast {n : Nat} (hlt : n < 2 ^ 53) :
    Numeral.isFinite (n : Float) = true ∧ value (n : Float) = n := by
  have htoNat : n.toUInt64.toNat = n := Nat.mod_eq_of_lt (hlt.trans (by decide))
  have hpacked : (n : Float) = ⟨Float.Model.pack (UnpackedFloat.ofNat .binary64 n)⟩ := by
    have hproduct : Float.ofScientific n false 0 = n.toUInt64.toFloat * 1 := by
      rw [Float.ofScientific, dif_pos ⟨hlt, Nat.zero_le 22⟩]
      rfl
    have hfloat : n.toUInt64.toFloat =
        ⟨Float.Model.pack (UnpackedFloat.ofNat .binary64 n.toUInt64.toNat)⟩ := rfl
    change Float.ofScientific n false 0 = _
    rw [hproduct, Scalar.ExactSigns.mul_one, hfloat, htoNat]
  rcases Nat.eq_zero_or_pos n with rfl | hpos
  · have hu : unpacked ((0 : Nat) : Float) = .zero .positive := by
      rw [hpacked]
      rfl
    rw [isFinite_iff, value_eq, hu]
    exact ⟨trivial, Nat.cast_zero.symm⟩
  · obtain ⟨k, d, hk, hfits, hn⟩ := exists_fits_nat hpos hlt
    have hround : UnpackedFloat.ofNat .binary64 n = .finite .positive k d hk := by
      have hgt : compare (n : Int) 0 = .gt := Int.compare_eq_gt.mpr (by exact_mod_cast hpos)
      simp only [UnpackedFloat.ofNat, UnpackedFloat.ofInt, UnpackedFloat.normalize, hgt,
        Int.toNat_natCast]
      exact round_exact hk hfits.normalized (by rw [zpow_zero, mul_one, hn])
    have hu : unpacked (n : Float) = .finite .positive k d hk := by
      rw [hpacked, hround]
      exact unpacked_pack (u := .finite .positive k d hk) hfits
    rw [hn]
    exact ⟨isFinite_of_unpacked hu, value_of_unpacked hu⟩

theorem value_ofInt {i : Int} (hlt : i.natAbs < 2 ^ 53) :
    Numeral.isFinite (Float.ofInt i) = true ∧ value (Float.ofInt i) = i := by
  cases i with
  | ofNat n => exact value_natCast hlt
  | negSucc n =>
    obtain ⟨hfinite, hvalue⟩ := value_natCast (n := n + 1) hlt
    obtain ⟨hfinite', hvalue'⟩ := value_neg hfinite
    refine ⟨hfinite', hvalue'.trans ?_⟩
    rw [hvalue, Int.cast_negSucc]

end GeometricAlgebra.Binary64
