/-
  GeometricAlgebra.Proofs.Binary64.Rounding

  Rounding of floating point numbers of 64 bits.  A number of the format is its own rounding, from
  whatever mantissa and exponent it comes; and a number of the format that is not above another
  number is not above its rounding, either.

    * `round_exact`: numbers of the format are not rounded.
    * `exists_round`: the rounding is the integer part of the mantissa, or one more.
    * `le_round`: numbers of the format bound roundings from below.
    * `value_add_one`, `AtLeast.add_one`: adding one to whole numbers, and to any numbers.
-/

import GeometricAlgebra.Proofs.Binary64.Values

namespace GeometricAlgebra.Binary64

open Float.Model (Format UnpackedFloat)
open Float.Model.UnpackedFloat
open Numeral (value)

variable {M m k : Nat} {s e d : Int}

/-! ## Exact roundings -/

theorem two_pow_natCast_sub (j : Nat) (e : Int) : (2 ^ j * 2 ^ (e - j) : ℚ) = 2 ^ e := by
  rw [zpow_sub₀ two_ne_zero, zpow_natCast]
  field_simp

/-- A number of the format is its own rounding. -/
theorem round_exact (hk : 0 < k) (h : Normalized k d) (hM : (M * 2 ^ s : ℚ) = k * 2 ^ d) :
    UnpackedFloat.round .binary64 .positive M s = .finite .positive k d hk := by
  rcases le_total s d with hle | hle
  · -- zeros behind the mantissa
    obtain ⟨j, hj⟩ := Int.le.dest hle
    obtain rfl : s = d - j := by omega
    have hmantissa : M = 2 ^ j * k := by
      rw [← two_pow_natCast_sub j d, ← mul_assoc] at hM
      have hM' := mul_right_cancel₀ (by positivity) hM
      rw [Nat.mul_comm]
      exact_mod_cast hM'
    have hamount : (d - (j : Int) - d).toNat = 0 := by omega
    rw [UnpackedFloat.round, hmantissa, totalExponent_exact hk, targetExponent_eq hk h,
      decreaseExponent, hamount, Nat.shiftLeft_zero]
    simpa using roundWithAccuracy_exact .positive hk h j
  · -- zeros missing
    obtain ⟨j, hj⟩ := Int.le.dest hle
    obtain rfl : d = s - j := by omega
    have hmantissa : k = 2 ^ j * M := by
      rw [← two_pow_natCast_sub j s, ← mul_assoc] at hM
      have hM' := mul_right_cancel₀ (by positivity) hM
      rw [Nat.mul_comm]
      exact_mod_cast hM'.symm
    have hpos : 0 < M := Nat.pos_of_mul_pos_left (hmantissa ▸ hk)
    have htotal : Float.Model.totalExponent M s = Float.Model.totalExponent k (s - j) := by
      rw [hmantissa, totalExponent_exact hpos]
    have hamount : (s - (s - (j : Int))).toNat = j := by omega
    rw [UnpackedFloat.round, htotal, targetExponent_eq hk h, decreaseExponent, hamount,
      Nat.shiftLeft_eq, Nat.mul_comm, ← hmantissa]
    simpa using roundWithAccuracy_exact .positive hk h 0

/-! ## Roundings in general -/

theorem shiftRight_mantissa (x : ExtendedMantissa) (j : Nat) :
    (x >>> j).mantissa = x.mantissa / 2 ^ j := by
  change (j.repeat ExtendedMantissa.shiftRightOne x).mantissa = _
  induction j with
  | zero => rw [Nat.pow_zero, Nat.div_one, Nat.repeat]
  | succ j ih =>
    rw [Nat.repeat, ExtendedMantissa.shiftRightOne, ih, Nat.div_div_eq_div_mul, Nat.pow_succ]

/-- Rounding keeps a mantissa or adds one to it. -/
theorem roundedMantissa_cases (x : ExtendedMantissa) :
    x.roundedMantissa = x.mantissa ∨ x.roundedMantissa = x.mantissa + 1 := by
  rw [ExtendedMantissa.roundedMantissa]
  cases x.accuracy with
  | exact => exact .inl rfl
  | inexact o =>
    cases o with
    | lt => exact .inl rfl
    | gt => exact .inr rfl
    | eq =>
      -- a tie goes to the even one
      simp only [Accuracy.roundToNearestEven]
      omega

/-- The integer part of a number in units of an exponent, with all the bits that the format has for
    it. -/
structure Truncates (M : Nat) (s : Int) (q : Nat) (t : Int) : Prop where
  le : (q * 2 ^ t : ℚ) ≤ M * 2 ^ s
  lt : (M * 2 ^ s : ℚ) < (q + 1) * 2 ^ t
  normalized : Normalized q t

/-- Numbers of the format pass no integer part. -/
theorem Truncates.le_of_le {q : Nat} {t : Int} (h : Truncates M s q t) (hm : Normalized m e)
    (hle : (m * 2 ^ e : ℚ) ≤ M * 2 ^ s) : (m * 2 ^ e : ℚ) ≤ q * 2 ^ t := by
  rcases lt_or_ge e t with hlt | hge
  · have hq : 2 ^ 52 ≤ q := h.normalized.2.2.resolve_right (by have := hm.2.1; omega)
    exact (mul_two_zpow_lt hm.1 hq hlt).le
  · -- a multiple of the unit
    obtain ⟨i, rfl⟩ := Int.le.dest hge
    have hmul : (m * 2 ^ (t + i) : ℚ) = (m * 2 ^ i : Nat) * 2 ^ t := by
      rw [zpow_add₀ two_ne_zero, zpow_natCast]
      push_cast
      ring
    rw [hmul] at hle ⊢
    have hlt := lt_of_mul_lt_mul_right (hle.trans_lt h.lt) (by positivity)
    have hlt' : m * 2 ^ i < q + 1 := by exact_mod_cast hlt
    gcongr
    exact Nat.le_of_lt_succ hlt'

/-- A mantissa with one added is normalized, up to a zero behind it. -/
theorem exists_normalized {q r : Nat} {t : Int} (h : Normalized q t) (hq : 0 < q)
    (hr : r = q ∨ r = q + 1) :
    ∃ k d, 0 < k ∧ Normalized k d ∧ ∃ j : Nat, t = d - j ∧ r = 2 ^ j * k := by
  obtain ⟨hhigh, hlow, hnormal⟩ := h
  by_cases hlt : r < 2 ^ 53
  · exact ⟨r, t, by omega, ⟨hlt, hlow, by omega⟩, 0, by simp, by simp⟩
  · obtain rfl : r = 2 ^ 53 := by omega
    exact ⟨2 ^ 52, t + 1, by decide, ⟨by decide, by omega, .inl le_rfl⟩, 1, by simp, by decide⟩

/-- The exponent that the format wants leaves a normalized mantissa, whether the mantissa is shifted
    to the left by `i` or to the right by `j`. -/
theorem truncates_shift {t : Int} {i j : Nat} (hM : 0 < M)
    (ht : Format.binary64.targetExponent (Float.Model.totalExponent M s) = t) (hj : t = s - i + j) :
    Truncates M s (2 ^ i * M / 2 ^ j) t := by
  have hM' : 2 ^ i * M ≠ 0 := by positivity
  have hunit : (2 ^ t : ℚ) = 2 ^ j * 2 ^ (s - i) := by
    rw [hj, zpow_add₀ two_ne_zero, zpow_natCast, mul_comm]
  have hvalue : (M * 2 ^ s : ℚ) = (2 ^ i * M : Nat) * 2 ^ (s - i) := by
    rw [← two_pow_natCast_sub i s]
    push_cast
    ring
  have hlog := totalExponent_exact hM s i
  rw [← hlog] at ht
  change max (((2 ^ i * M).log2 : Int) + 1 + (s - i) - 53) (-1074) = t at ht
  refine ⟨?_, ?_, ?_, ?_, ?_⟩
  · have hdiv : 2 ^ i * M / 2 ^ j * 2 ^ j ≤ 2 ^ i * M := Nat.div_mul_le_self _ _
    rw [hunit, hvalue, ← mul_assoc]
    gcongr
    exact_mod_cast hdiv
  · have hdiv := Nat.lt_mul_div_succ (2 ^ i * M) (Nat.two_pow_pos j)
    rw [Nat.mul_comm (2 ^ j)] at hdiv
    rw [hunit, hvalue, ← mul_assoc]
    gcongr
    exact_mod_cast hdiv
  · rw [Nat.div_lt_iff_lt_mul (Nat.two_pow_pos j), ← Nat.pow_add, ← Nat.log2_lt hM']
    omega
  · omega
  · rw [Nat.le_div_iff_mul_le (Nat.two_pow_pos j), ← Nat.pow_add, ← Nat.le_log2 hM']
    omega

/-- Rounding a number whose integer part is positive keeps the integer part or adds one to it. -/
theorem exists_round (hM : 0 < M) : ∃ q t, Truncates M s q t ∧
    (0 < q → ∃ k d, ∃ hk : 0 < k, Normalized k d ∧ (q * 2 ^ t : ℚ) ≤ k * 2 ^ d ∧
      UnpackedFloat.round .binary64 .positive M s = .finite .positive k d hk) := by
  obtain ⟨t, ht⟩ : ∃ t, Format.binary64.targetExponent (Float.Model.totalExponent M s) = t :=
    ⟨_, rfl⟩
  obtain ⟨i, hi⟩ : ∃ i, (s - t).toNat = i := ⟨_, rfl⟩
  obtain ⟨j, hj⟩ : ∃ j : Nat, t = s - i + j := ⟨(t - s).toNat, by omega⟩
  obtain ⟨x, hx⟩ : ∃ x, (ExtendedMantissa.ofMantissaAndAccuracy (2 ^ i * M) .exact) >>> j = x :=
    ⟨_, rfl⟩
  have hmantissa : x.mantissa = 2 ^ i * M / 2 ^ j := by
    rw [← hx, shiftRight_mantissa]
    rfl
  have hshift : shiftToTargetExponent .binary64 (2 ^ i * M) (s - i) .exact = (x, t) := by
    have hamount : (t - (s - (i : Int))).toNat = j := by omega
    rw [shiftToTargetExponent, totalExponent_exact hM, ht, shiftToExponent, hamount, hx, hj]
  have htruncates : Truncates M s x.mantissa t := hmantissa ▸ truncates_shift hM ht hj
  refine ⟨x.mantissa, t, htruncates, fun hq => ?_⟩
  obtain ⟨k, d, hk, hnormalized, l, hl, hr⟩ :=
    exists_normalized htruncates.normalized hq (roundedMantissa_cases x)
  refine ⟨k, d, hk, hnormalized, ?_, ?_⟩
  · have hle : x.mantissa ≤ 2 ^ l * k := by
      have hcases := roundedMantissa_cases x
      omega
    calc (x.mantissa * 2 ^ t : ℚ) ≤ (2 ^ l * k : Nat) * 2 ^ t := by gcongr
      _ = k * 2 ^ d := by
        rw [hl, ← two_pow_natCast_sub l d]
        push_cast
        ring
  · rw [UnpackedFloat.round, ht, decreaseExponent, hi, Nat.shiftLeft_eq, Nat.mul_comm M]
    exact roundWithAccuracy_of_rounded .positive hk hnormalized l hshift hl hr

theorem pos_of_mul_two_zpow_pos {q : Nat} {t : Int} (h : (0 : ℚ) < q * 2 ^ t) : 0 < q := by
  have hq : (0 : ℚ) < q := (pos_iff_pos_of_mul_pos h).mpr (by positivity)
  exact_mod_cast hq

/-- A number of the format that is not above a number is not above its rounding. -/
theorem le_round (hm : 0 < m) (h : Normalized m e) (hle : (m * 2 ^ e : ℚ) ≤ M * 2 ^ s) :
    ∃ k d, ∃ hk : 0 < k, Normalized k d ∧ (m * 2 ^ e : ℚ) ≤ k * 2 ^ d ∧
      UnpackedFloat.round .binary64 .positive M s = .finite .positive k d hk := by
  have hpos : (0 : ℚ) < m * 2 ^ e := by positivity
  obtain ⟨q, t, htruncates, hround⟩ := exists_round (s := s) <|
    pos_of_mul_two_zpow_pos (hpos.trans_le hle)
  have hleq := htruncates.le_of_le h hle
  obtain ⟨k, d, hk, hnormalized, hqk, hround⟩ := hround <|
    pos_of_mul_two_zpow_pos (hpos.trans_le hleq)
  exact ⟨k, d, hk, hnormalized, hleq.trans hqk, hround⟩

/-- Exponents that are too large for the format are packed to an infinity. -/
theorem unpacked_pack_overflow (hk : 0 < k) (hd : 971 < d) :
    unpacked ⟨Float.Model.pack (.finite .positive k d hk)⟩ = .infinity .positive := by
  have hbias : Format.binary64.exponentBias = 1023 := by decide
  have hlarge : 2 ^ Format.binary64.exponentBits ≤ (d + (Format.binary64.exponentBias : Nat) +
      (Format.binary64.mantissaBitsWithoutImplicit : Nat)).toNat + 1 := by
    rw [hbias]
    change 2048 ≤ (d + (1023 : Nat) + (52 : Nat)).toNat + 1
    omega
  change unpack .binary64 (UnpackedFloat.pack .binary64 (.finite .positive k d hk)) = _
  rw [UnpackedFloat.pack, if_pos hlarge]
  exact unpack_components_infinity .positive

/-! ## Sums -/

/-- The sum of positive numbers is rounded once. -/
theorem exists_add (hm : 0 < m) (e : Int) (hk : 0 < k) (d : Int) : ∃ M s,
    UnpackedFloat.add .binary64 (.finite .positive m e hm) (.finite .positive k d hk) =
      UnpackedFloat.round .binary64 .positive M s ∧
    (M * 2 ^ s : ℚ) = m * 2 ^ e + k * 2 ^ d := by
  obtain ⟨i, hi⟩ : ∃ i : Nat, (e - min e d).toNat = i := ⟨_, rfl⟩
  obtain ⟨j, hj⟩ : ∃ j : Nat, (d - min e d).toNat = j := ⟨_, rfl⟩
  have he : min e d = e - i := by omega
  have hd : min e d = d - j := by omega
  refine ⟨m <<< i + k <<< j, min e d, ?_, ?_⟩
  · have hpos : 0 < m <<< i + k <<< j := by
      rw [Nat.shiftLeft_eq]
      positivity
    have hsum : (UnpackedFloat.Sign.positive.apply (m <<< i : Nat) +
        UnpackedFloat.Sign.positive.apply (k <<< j : Nat) : Int) = (m <<< i + k <<< j : Nat) := rfl
    have hgt : compare ((m <<< i + k <<< j : Nat) : Int) 0 = .gt :=
      Int.compare_eq_gt.mpr (by exact_mod_cast hpos)
    simp only [UnpackedFloat.add, decreaseExponent, hi, hj, UnpackedFloat.normalize, hsum, hgt,
      Int.toNat_natCast]
  · rw [Nat.shiftLeft_eq, Nat.shiftLeft_eq]
    push_cast
    rw [add_mul, mul_assoc, mul_assoc]
    nth_rewrite 1 [he]
    rw [hd, two_pow_natCast_sub, two_pow_natCast_sub]

variable {x : Float}

/-- A whole number below `2 ^ 53` has a mantissa and an exponent. -/
theorem exists_fits_nat {n : Nat} (hpos : 0 < n) (hlt : n < 2 ^ 53) :
    ∃ k d, 0 < k ∧ Fits k d ∧ (n : ℚ) = k * 2 ^ d := by
  have hne : n ≠ 0 := Nat.ne_of_gt hpos
  have hlog : n.log2 < 53 := (Nat.log2_lt hne).mpr hlt
  obtain ⟨j, hj⟩ : ∃ j, n.log2 + j = 52 := ⟨52 - n.log2, by omega⟩
  refine ⟨2 ^ j * n, (0 : Int) - j, by positivity, ⟨?_, by omega, by omega, .inl ?_⟩, ?_⟩
  · calc 2 ^ j * n < 2 ^ j * 2 ^ (n.log2 + 1) := by
          gcongr
          exact Nat.lt_log2_self
      _ = 2 ^ 53 := by rw [← Nat.pow_add, ← Nat.add_assoc, Nat.add_comm j, hj]
  · calc 2 ^ 52 = 2 ^ j * 2 ^ n.log2 := by rw [← Nat.pow_add, Nat.add_comm, hj]
      _ ≤ 2 ^ j * n := by
          gcongr
          exact Nat.log2_self_le hne
  · have hunit := two_pow_natCast_sub j 0
    rw [zpow_zero] at hunit
    push_cast
    rw [mul_comm ((2 : ℚ) ^ j), mul_assoc, hunit, mul_one]

/-- One more than a positive number is rounded once. -/
theorem exists_add_one (hx : Numeral.isFinite x = true) (hpos : 0 < value x) : ∃ M s,
    unpacked (x + 1) =
      unpacked ⟨Float.Model.pack (UnpackedFloat.round .binary64 .positive M s)⟩ ∧
    (M * 2 ^ s : ℚ) = value x + 1 := by
  obtain ⟨m, e, hm, hu, -⟩ := exists_unpacked_of_value_pos hx hpos
  obtain ⟨M, s, hadd, hsum⟩ := exists_add hm e (by decide : 0 < 2 ^ 52) (-52)
  refine ⟨M, s, ?_, ?_⟩
  · rw [← hadd, ← hu]
    rfl
  · rw [hsum, value_of_unpacked hu]
    norm_num

/-- One more than a whole number below `2 ^ 53 - 1`. -/
theorem value_add_one {n : Nat} (hx : Numeral.isFinite x = true) (hvalue : value x = n)
    (hlt : n + 1 < 2 ^ 53) : Numeral.isFinite (x + 1) = true ∧ value (x + 1) = (n + 1 : Nat) := by
  rcases Nat.eq_zero_or_pos n with rfl | hpos
  · obtain ⟨s, hu⟩ := exists_unpacked_of_value_zero hx (by rw [hvalue, Nat.cast_zero])
    have hone : Canonical (one .positive) := ⟨by decide, by decide, by decide, .inl le_rfl⟩
    have hsum : unpacked (x + 1) = one .positive := unpacked_add hone <| by
      rw [hu, unpacked_one]
      rfl
    refine ⟨isFinite_of_unpacked hsum, ?_⟩
    rw [value_of_unpacked hsum]
    norm_num
  · obtain ⟨M, s, hsum, hM⟩ := exists_add_one hx (by rw [hvalue]; positivity)
    obtain ⟨k, d, hk, hfits, hn⟩ := exists_fits_nat (Nat.succ_pos n) hlt
    have hexact : (M * 2 ^ s : ℚ) = k * 2 ^ d := by
      rw [hM, hvalue, ← hn, Nat.cast_succ]
    rw [round_exact hk hfits.normalized hexact,
      unpacked_pack (u := .finite .positive k d hk) hfits] at hsum
    rw [hn]
    exact ⟨isFinite_of_unpacked hsum, value_of_unpacked hsum⟩

/-- Adding one to a positive number does not make it smaller. -/
theorem AtLeast.add_one {q : ℚ} (hq : 0 < q) (h : AtLeast q x) : AtLeast q (x + 1) := by
  rcases h with hinfinity | ⟨hx, hle⟩
  · refine .inl (unpacked_add trivial ?_)
    rw [hinfinity, unpacked_one]
    rfl
  · obtain ⟨m, e, hm, hu, hfits⟩ := exists_unpacked_of_value_pos hx (hq.trans_le hle)
    obtain ⟨M, s, hsum, hM⟩ := exists_add_one hx (hq.trans_le hle)
    have hleM : (m * 2 ^ e : ℚ) ≤ M * 2 ^ s := by
      rw [hM, ← value_of_unpacked hu]
      exact le_add_of_nonneg_right zero_le_one
    obtain ⟨k, d, hk, hnormalized, hlek, hround⟩ := le_round hm hfits.normalized hleM
    rw [hround] at hsum
    rcases le_or_gt d 971 with hd | hd
    · have hfits' : Fits k d := ⟨hnormalized.1, hnormalized.2.1, hd, hnormalized.2.2⟩
      rw [unpacked_pack (u := .finite .positive k d hk) hfits'] at hsum
      refine .inr ⟨isFinite_of_unpacked hsum, ?_⟩
      rw [value_of_unpacked hsum]
      rw [value_of_unpacked hu] at hle
      exact hle.trans hlek
    · exact .inl (hsum.trans (unpacked_pack_overflow hk hd))

end GeometricAlgebra.Binary64
