/-
  GeometricAlgebra.Proofs.Multivector.Halving

  How often the exponential halves its argument, on floating point numbers of 64 bits.  The logarithm
  that counts the bits of the largest coordinate is rounded: just below a power of two it can already
  be that of the power.  Then one halving too many is counted, and never one too few.

    * `Binary64.IsLog2`: what is asked of the logarithm.
    * `Binary64.BitCount`: the logarithm counts the bits, or one too many.
    * `Binary64.BitCount.halvings_eq`, `halvings_of_atLeast`: the count, and where it is cut off.
    * `Binary64.IsLog2.halved`, `IsLog2.halvings_mono`: one number, and two.
    * `Binary64.abs_value_le_largestCoordinate`, `value_largestCoordinate_lt`: bounds on the largest
      coordinate.
    * `Binary64.leadingBit`: a logarithm of the required kind.
    * `Clifford.halvings_of_isLog2`: every coordinate ends below one.
-/

import GeometricAlgebra.Multivector.Exponential
import GeometricAlgebra.Proofs.Binary64.Integers
import GeometricAlgebra.Proofs.Multivector.LargestCoordinate

namespace GeometricAlgebra

namespace Binary64

open Numeral (value)

/-! ## Logarithms -/

/-- The elementary functions of the engine, with any logarithm to base two. -/
@[reducible] def withLog2 (log2 : Float → Float) : Elementary Float :=
  { (inferInstance : Elementary Float) with log2 := log2 }

/-- With its own logarithm, these are the functions of the engine. -/
theorem withLog2_self : withLog2 Float.log2 = (inferInstance : Elementary Float) := rfl

/-- A logarithm to base two: it is monotone, and exact at powers of two. -/
structure IsLog2 (log2 : Float → Float) : Prop where
  mono : ∀ x y, Numeral.isFinite x = true → Numeral.isFinite y = true → 0 < x → x ≤ y →
    log2 x ≤ log2 y
  exact : ∀ x, Numeral.isFinite x = true → ∀ m : Int, value x = 2 ^ m →
    Numeral.isFinite (log2 x) = true ∧ value (log2 x) = m

/-- How often a coordinate is halved. -/
abbrev halvings (log2 : Float → Float) (c : Float) : Nat :=
  @Clifford.scaleExponent Float (withLog2 log2) c

variable {log2 : Float → Float} {c d : Float}

/-! ## The count -/

/-- The count after it is cut off. -/
def cutOff (k : Float) : Float := if k < ((1023 : Nat) : Float) then k else ((1023 : Nat) : Float)

theorem halvings_def (log2 : Float → Float) (c : Float) : halvings log2 c =
    if 1 ≤ truncate c then
      (cutOff (if ((2 : Nat) : Float) ≤ truncate c then floor (log2 (truncate c)) + 1 + 1
        else floor (log2 (truncate c)) + 1)).toUInt64.toNat
    else 0 := rfl

theorem toNat_cutOff {k : Float} {n : Nat} (hk : Numeral.isFinite k = true) (hvalue : value k = n)
    (hlt : n < 2 ^ 53) : (cutOff k).toUInt64.toNat = min n 1023 := by
  obtain ⟨hfinite, hlimit⟩ := value_natCast (n := 1023) (by decide)
  have hiff : k < ((1023 : Nat) : Float) ↔ n < 1023 := by
    rw [lt_iff_value_lt hk hfinite, hvalue, hlimit, Nat.cast_lt]
  rw [cutOff]
  split_ifs with h
  · rw [toNat_toUInt64 hk hvalue hlt, min_eq_left (hiff.mp h).le]
  · rw [toNat_toUInt64 hfinite hlimit (by decide), min_eq_right (Nat.not_lt.mp (mt hiff.mpr h))]

theorem toNat_cutOff_of_atLeast {k : Float} (h : AtLeast (1023 : Nat) k) :
    (cutOff k).toUInt64.toNat = 1023 := by
  obtain ⟨hfinite, hlimit⟩ := value_natCast (n := 1023) (by decide)
  rw [← hlimit] at h
  rw [cutOff, if_neg (h.not_lt hfinite)]
  exact toNat_toUInt64 hfinite hlimit (by decide)

theorem one_le_truncate_iff (hc : Numeral.isFinite c = true) (hnonneg : 0 ≤ value c) :
    1 ≤ truncate c ↔ 1 ≤ value c := by
  rw [natCast_le_truncate_iff hc hnonneg (n := 1) value_one.1 (by simp [value_one.2]), Nat.cast_one]

theorem two_le_truncate_iff (hc : Numeral.isFinite c = true) (hnonneg : 0 ≤ value c) :
    ((2 : Nat) : Float) ≤ truncate c ↔ 2 ≤ value c := by
  obtain ⟨hfinite, hvalue⟩ := value_natCast (n := 2) (by decide)
  rw [natCast_le_truncate_iff hc hnonneg hfinite hvalue, Nat.cast_ofNat]

theorem truncate_pos (hc : Numeral.isFinite c = true) (hle : 1 ≤ value c) : 0 < truncate c := by
  obtain ⟨hfinite, hvalue⟩ := value_truncate hc (zero_le_one.trans hle)
  rw [lt_iff_value_lt value_zero.1 hfinite, value_zero.2, hvalue]
  exact_mod_cast Int.floor_pos.mpr hle

theorem truncate_mono (hc : Numeral.isFinite c = true) (hd : Numeral.isFinite d = true)
    (hnonneg : 0 ≤ value c) (hcd : value c ≤ value d) : truncate c ≤ truncate d := by
  obtain ⟨hfinite, hvalue⟩ := value_truncate hc hnonneg
  obtain ⟨hfinite', hvalue'⟩ := value_truncate hd (hnonneg.trans hcd)
  rw [le_iff_value_le hfinite hfinite', hvalue, hvalue']
  exact_mod_cast Int.floor_le_floor hcd

theorem halvings_of_lt_one (hc : Numeral.isFinite c = true) (hnonneg : 0 ≤ value c)
    (hlt : value c < 1) : halvings log2 c = 0 := by
  rw [halvings_def, if_neg]
  rw [one_le_truncate_iff hc hnonneg]
  exact hlt.not_ge

/-- Too many bits, and an infinity, are cut off. -/
theorem halvings_of_atLeast (hc : Numeral.isFinite c = true) (hle : 1 ≤ value c)
    (h : AtLeast (1023 : Nat) (log2 (truncate c))) : halvings log2 c = 1023 := by
  have hpos : (0 : ℚ) < (1023 : Nat) := by norm_num
  have hbits := h.floor.add_one hpos
  rw [halvings_def, if_pos ((one_le_truncate_iff hc (zero_le_one.trans hle)).mpr hle)]
  split_ifs
  · exact toNat_cutOff_of_atLeast (hbits.add_one hpos)
  · exact toNat_cutOff_of_atLeast hbits

/-! ## Counting bits -/

/-- The logarithm of the integer part of a number with `m + 1` bits before its point, rounded down to
    `b`. -/
structure BitCount (log2 : Float → Float) (c : Float) (m b : Nat) : Prop where
  lt : m < 1023
  le_value : 2 ^ m ≤ value c
  value_lt : value c < 2 ^ (m + 1)
  isFinite_log2 : Numeral.isFinite (log2 (truncate c)) = true
  floor_log2 : ⌊value (log2 (truncate c))⌋ = b
  -- Just below a power of two, the logarithm can be that of the power.
  le : m ≤ b
  le_succ : b ≤ m + 1

namespace BitCount

variable {m b : Nat} (h : BitCount log2 c m b)
include h

theorem one_le_value : 1 ≤ value c := (one_le_pow₀ one_le_two).trans h.le_value

/-- The count: one more than the logarithm says, two more from two on, and never more than 1023. -/
theorem halvings_eq : halvings log2 c = min (b + if value c < 2 then 1 else 2) 1023 := by
  have hc : Numeral.isFinite c = true :=
    isFinite_of_value_ne_zero (zero_lt_one.trans_le h.one_le_value).ne'
  have hnonneg : 0 ≤ value c := zero_le_one.trans h.one_le_value
  have hb : b < 1025 := by have := h.lt; have := h.le_succ; omega
  obtain ⟨hfloor, hvalue⟩ := value_floor h.isFinite_log2
    (Int.floor_nonneg.mp (h.floor_log2 ▸ Int.natCast_nonneg b))
  rw [h.floor_log2, Int.cast_natCast] at hvalue
  obtain ⟨hbits, hbitsValue⟩ := value_add_one hfloor hvalue (by omega)
  obtain ⟨hmore, hmoreValue⟩ := value_add_one hbits hbitsValue (by omega)
  rw [halvings_def, if_pos ((one_le_truncate_iff hc hnonneg).mpr h.one_le_value)]
  split_ifs with htwo hsmall hsmall
  · exact absurd hsmall ((two_le_truncate_iff hc hnonneg).mp htwo).not_gt
  · exact toNat_cutOff hmore hmoreValue (by omega)
  · exact toNat_cutOff hbits hbitsValue (by omega)
  · exact absurd ((two_le_truncate_iff hc hnonneg).mpr (not_lt.mp hsmall)) htwo

/-- Every bit is halved away. -/
theorem value_lt_pow : value c < 2 ^ halvings log2 c := by
  refine h.value_lt.trans_le (pow_le_pow_right₀ one_le_two ?_)
  have hm := h.lt
  have hb := h.le
  rw [h.halvings_eq]
  split_ifs <;> omega

/-- From two on, there is one halving to spare, unless the count is cut off. -/
theorem value_mul_two_lt_pow (htwo : 2 ≤ value c) (hlt : value c < 2 ^ 1022) :
    value c * 2 < 2 ^ halvings log2 c := by
  have hm : m < 1022 :=
    (pow_lt_pow_iff_right₀ (one_lt_two (α := ℚ))).mp (h.le_value.trans_lt hlt)
  have hb := h.le
  have hspare : m + 2 ≤ halvings log2 c := by
    rw [h.halvings_eq, if_neg htwo.not_gt]
    omega
  calc value c * 2 < 2 ^ (m + 1) * 2 := mul_lt_mul_of_pos_right h.value_lt two_pos
    _ = 2 ^ (m + 2) := (pow_succ _ _).symm
    _ ≤ 2 ^ halvings log2 c := pow_le_pow_right₀ one_le_two hspare

/-- A larger logarithm and a larger number make the count larger. -/
theorem halvings_mono {m' b' : Nat} (h' : BitCount log2 d m' b')
    (hlog : log2 (truncate c) ≤ log2 (truncate d)) (hcd : value c ≤ value d) :
    halvings log2 c ≤ halvings log2 d := by
  have hbb : b ≤ b' := by
    rw [le_iff_value_le h.isFinite_log2 h'.isFinite_log2] at hlog
    have hfloor := Int.floor_le_floor hlog
    rw [h.floor_log2, h'.floor_log2] at hfloor
    exact_mod_cast hfloor
  have hextra : (if value c < 2 then 1 else 2) ≤ if value d < 2 then 1 else 2 := by
    split_ifs with hc2 hd2 hd2
    · exact le_rfl
    · decide
    · exact absurd (hcd.trans_lt hd2) hc2
    · exact le_rfl
  rw [h.halvings_eq, h'.halvings_eq]
  omega

end BitCount

namespace IsLog2

variable (h : IsLog2 log2)
include h

/-- From a power of two on, the logarithm is at least its exponent. -/
theorem atLeast {m : Nat} (hm : m ≤ 1023) (hc : Numeral.isFinite c = true)
    (hle : (2 ^ m : Nat) ≤ value c) : AtLeast m (log2 (truncate c)) := by
  obtain ⟨y, hy, hvalue⟩ := exists_value_two_pow hm
  have hnonneg : 0 ≤ value c := (Nat.cast_nonneg _).trans hle
  have hpos : 0 < y := by
    rw [lt_iff_value_lt value_zero.1 hy, value_zero.2, hvalue]
    positivity
  have hmono := h.mono y (truncate c) hy (value_truncate hc hnonneg).1 hpos
    ((natCast_le_truncate_iff hc hnonneg hy hvalue).mpr hle)
  obtain ⟨hfinite, hexact⟩ := h.exact y hy m (by simp [hvalue])
  rw [le_iff_atLeast hfinite, hexact] at hmono
  exact_mod_cast hmono

/-- The logarithm counts the bits of the integer part, or one too many. -/
theorem exists_bitCount (hc : Numeral.isFinite c = true) (hle : 1 ≤ value c)
    (hlt : value c < 2 ^ 1023) : ∃ m b, BitCount log2 c m b := by
  obtain ⟨m, hlow, hhigh⟩ := exists_nat_pow_near hle one_lt_two
  have hm : m < 1023 := (pow_lt_pow_iff_right₀ (one_lt_two (α := ℚ))).mp (hlow.trans_lt hlt)
  have hatLeast := h.atLeast hm.le hc (by exact_mod_cast hlow)
  obtain ⟨htruncate, htruncateValue⟩ := value_truncate hc (zero_le_one.trans hle)
  -- the next power of two bounds the integer part from above
  obtain ⟨y, hy, hvalue⟩ := exists_value_two_pow (m := m + 1) hm
  obtain ⟨hfinite, hexact⟩ := h.exact y hy (m + 1 : Nat) (by
    rw [hvalue, zpow_natCast, Nat.cast_pow, Nat.cast_ofNat])
  have htop : truncate c ≤ y := by
    rw [le_iff_value_le htruncate hy, htruncateValue, hvalue]
    exact (Int.floor_le _).trans (by exact_mod_cast hhigh.le)
  have hmono := h.mono (truncate c) y htruncate hy (truncate_pos hc hle) htop
  have hlog := hatLeast.isFinite_of_le hmono hfinite
  rw [le_iff_value_le hlog hfinite, hexact] at hmono
  have hfloorLow : (m : Int) ≤ ⌊value (log2 (truncate c))⌋ :=
    Int.le_floor.mpr (by exact_mod_cast hatLeast.le_value hlog)
  have hfloorHigh : ⌊value (log2 (truncate c))⌋ ≤ (m + 1 : Nat) :=
    Int.floor_le_iff.mpr (hmono.trans_lt (lt_add_one _))
  obtain ⟨b, hb⟩ := Int.eq_ofNat_of_zero_le (by omega : 0 ≤ ⌊value (log2 (truncate c))⌋)
  exact ⟨m, b, hm, hlow, hhigh, hlog, hb, by omega, by omega⟩

/-- From `2 ^ 1023` on, the count is cut off. -/
theorem halvings_of_le (hc : Numeral.isFinite c = true) (hle : 2 ^ 1023 ≤ value c) :
    halvings log2 c = 1023 :=
  halvings_of_atLeast hc (le_trans (one_le_pow₀ one_le_two) hle)
    (h.atLeast le_rfl hc (by exact_mod_cast hle))

theorem halvings_le (hc : Numeral.isFinite c = true) (hnonneg : 0 ≤ value c) :
    halvings log2 c ≤ 1023 := by
  rcases lt_or_ge (value c) 1 with hlt | hle
  · rw [halvings_of_lt_one hc hnonneg hlt]
    exact Nat.zero_le _
  rcases lt_or_ge (value c) (2 ^ 1023) with hlt | hge
  · obtain ⟨m, b, hcount⟩ := h.exists_bitCount hc hle hlt
    rw [hcount.halvings_eq]
    exact min_le_right _ _
  · exact (h.halvings_of_le hc hge).le

/-- Larger numbers are halved as often at least. -/
theorem halvings_mono (hc : Numeral.isFinite c = true) (hd : Numeral.isFinite d = true)
    (hnonneg : 0 ≤ value c) (hcd : value c ≤ value d) : halvings log2 c ≤ halvings log2 d := by
  rcases lt_or_ge (value d) (2 ^ 1023) with hlt | hge
  · rcases lt_or_ge (value c) 1 with hone | hone
    · rw [halvings_of_lt_one hc hnonneg hone]
      exact Nat.zero_le _
    · obtain ⟨m, b, hcount⟩ := h.exists_bitCount hc hone (hcd.trans_lt hlt)
      obtain ⟨m', b', hcount'⟩ := h.exists_bitCount hd (hone.trans hcd) hlt
      exact hcount.halvings_mono hcount' (h.mono _ _ (value_truncate hc hnonneg).1
        (value_truncate hd (hnonneg.trans hcd)).1 (truncate_pos hc hone)
        (truncate_mono hc hd hnonneg hcd)) hcd
  · rw [h.halvings_of_le hd hge]
    exact h.halvings_le hc hnonneg

end IsLog2

/-! ## The largest coordinate -/

section Largest

variable {x : Multivector Float} (hx : ∀ c ∈ x.coords, Numeral.isFinite c = true)
include hx

theorem isFinite_largestCoordinate : Numeral.isFinite x.largestCoordinate = true := by
  rcases x.largestCoordinate_cases with hzero | ⟨-, c, hc, hlargest⟩
  · rw [hzero]
    exact value_zero.1
  · rw [hlargest]
    exact (value_abs (hx c hc)).1

/-- The largest coordinate bounds every coordinate. -/
theorem abs_value_le_largestCoordinate {c : Float} (hc : c ∈ x.coords) :
    |value c| ≤ value x.largestCoordinate := by
  obtain ⟨habs, hvalue⟩ := value_abs (hx c hc)
  have hle := Multivector.abs_le_largestCoordinate hc (beq_self_of_isFinite (hx c hc))
  rwa [le_iff_value_le habs (isFinite_largestCoordinate hx), hvalue] at hle

/-- The largest coordinate is below a bound if zero and all coordinates are. -/
theorem value_largestCoordinate_lt {bound : ℚ} (hbound : 0 < bound)
    (hlt : ∀ c ∈ x.coords, |value c| < bound) : value x.largestCoordinate < bound := by
  rcases x.largestCoordinate_cases with hzero | ⟨-, c, hc, hlargest⟩
  · rwa [hzero, value_zero.2]
  · rw [hlargest, (value_abs (hx c hc)).2]
    exact hlt c hc

end Largest

/-! ## Halved numbers -/

/-- What halving makes of a number that is not negative. -/
structure Halved (log2 : Float → Float) (c : Float) : Prop where
  le : halvings log2 c ≤ 1023
  lt_one : value c / 2 ^ halvings log2 c < 1
  lt_half : 2 ≤ value c → value c < 2 ^ 1022 → value c / 2 ^ halvings log2 c < 1 / 2
  eq_zero_iff : halvings log2 c = 0 ↔ value c < 1

theorem IsLog2.halved (h : IsLog2 log2) (hc : Numeral.isFinite c = true) (hnonneg : 0 ≤ value c)
    (hlt : value c < 2 ^ 1023) : Halved log2 c := by
  rcases lt_or_ge (value c) 1 with hone | hone
  · have hcount : halvings log2 c = 0 := halvings_of_lt_one hc hnonneg hone
    refine ⟨h.halvings_le hc hnonneg, ?_, ?_, iff_of_true hcount hone⟩
    · rwa [hcount, pow_zero, div_one]
    · exact fun htwo => absurd (hone.trans one_lt_two) htwo.not_gt
  · obtain ⟨m, b, hcount⟩ := h.exists_bitCount hc hone hlt
    have hlog := hcount.value_lt_pow
    have hpos : (0 : ℚ) < 2 ^ halvings log2 c := by positivity
    refine ⟨h.halvings_le hc hnonneg, ?_, fun htwo hhalf => ?_, iff_of_false ?_ hone.not_gt⟩
    · rwa [div_lt_one hpos]
    · rw [div_lt_div_iff₀ hpos two_pos, one_mul]
      exact hcount.value_mul_two_lt_pow htwo hhalf
    · intro hzero
      rw [hzero, pow_zero] at hlog
      exact hone.not_gt hlog

/-- Halved as often as the largest coordinate, every coordinate is below one. -/
theorem IsLog2.abs_coordinate_lt_one (h : IsLog2 log2) {x : Multivector Float}
    (hx : ∀ c ∈ x.coords, Numeral.isFinite c = true ∧ |value c| < 2 ^ 1023) {c : Float}
    (hc : c ∈ x.coords) : |value c / 2 ^ halvings log2 x.largestCoordinate| < 1 := by
  have hfinite : ∀ c ∈ x.coords, Numeral.isFinite c = true := fun c hc => (hx c hc).1
  have hle := abs_value_le_largestCoordinate hfinite hc
  have hlt : value x.largestCoordinate < 2 ^ 1023 :=
    value_largestCoordinate_lt hfinite (by positivity) fun c hc => (hx c hc).2
  have hhalved := h.halved (isFinite_largestCoordinate hfinite) ((abs_nonneg _).trans hle) hlt
  have hpower : (0 : ℚ) < 2 ^ halvings log2 x.largestCoordinate := by positivity
  rw [abs_div, abs_of_pos hpower]
  exact (div_le_div_of_nonneg_right hle (by positivity)).trans_lt hhalved.lt_one

/-! ## A logarithm -/

/-- The place of the leading bit of a number. -/
def leadingBit (x : Float) : Float :=
  match unpacked x with
  | .finite _ m e _ => Float.ofInt (m.log2 + e)
  | _ => 0

/-- A positive number lies between two powers of two. -/
theorem exists_leadingBit {x : Float} (hx : Numeral.isFinite x = true) (hpos : 0 < value x) :
    ∃ i : Int, Numeral.isFinite (leadingBit x) = true ∧ value (leadingBit x) = i ∧
      2 ^ i ≤ value x ∧ value x < 2 ^ (i + 1) := by
  obtain ⟨m, e, hm, hu, hhigh, hlow, htop, -⟩ := exists_unpacked_of_value_pos hx hpos
  have hne : m ≠ 0 := Nat.ne_of_gt hm
  have hlog : m.log2 < 53 := (Nat.log2_lt hne).mpr hhigh
  have hbit : leadingBit x = Float.ofInt (m.log2 + e) := by rw [leadingBit, hu]
  obtain ⟨hfinite, hvalue⟩ := value_ofInt (i := m.log2 + e) (by omega)
  have hself : (2 ^ m.log2 : ℚ) ≤ m := by exact_mod_cast Nat.log2_self_le hne
  have hself' : (m : ℚ) < 2 ^ (m.log2 + 1) := by exact_mod_cast Nat.lt_log2_self
  refine ⟨m.log2 + e, by rwa [hbit], by rw [hbit, hvalue], ?_, ?_⟩
  · rw [value_of_unpacked hu, zpow_add₀ two_ne_zero, zpow_natCast]
    gcongr
  · rw [value_of_unpacked hu, add_right_comm, zpow_add₀ two_ne_zero, ← Nat.cast_succ, zpow_natCast]
    gcongr

theorem isLog2_leadingBit : IsLog2 leadingBit where
  mono x y hx hy hpos hxy := by
    rw [lt_iff_value_lt value_zero.1 hx, value_zero.2] at hpos
    rw [le_iff_value_le hx hy] at hxy
    obtain ⟨i, hfinite, hvalue, hlow, -⟩ := exists_leadingBit hx hpos
    obtain ⟨j, hfinite', hvalue', -, hhigh⟩ := exists_leadingBit hy (hpos.trans_le hxy)
    have hlt : i < j + 1 :=
      (zpow_lt_zpow_iff_right₀ (one_lt_two (α := ℚ))).mp (hlow.trans_lt (hxy.trans_lt hhigh))
    rw [le_iff_value_le hfinite hfinite', hvalue, hvalue']
    exact_mod_cast Int.le_of_lt_add_one hlt
  exact x hx m hpower := by
    obtain ⟨i, hfinite, hvalue, hlow, hhigh⟩ := exists_leadingBit hx (by rw [hpower]; positivity)
    rw [hpower] at hlow hhigh
    have hle := (zpow_le_zpow_iff_right₀ (one_lt_two (α := ℚ))).mp hlow
    have hlt := (zpow_lt_zpow_iff_right₀ (one_lt_two (α := ℚ))).mp hhigh
    obtain rfl : i = m := by omega
    exact ⟨hfinite, hvalue⟩

end Binary64

namespace Clifford

open Binary64
open Numeral (value)

/-- Whatever the logarithm to base two, as long as it is monotone and exact at powers of two: every
    finite number that is not negative and below `2 ^ 1023` is halved until it is below one, and
    below one half if it is from two on and below `2 ^ 1022`; larger finite numbers are halved as
    often at least; and if all coordinates of a multivector are finite and below `2 ^ 1023` in
    magnitude, halving brings every one of them below one. -/
theorem halvings_of_isLog2 {log2 : Float → Float} (h : IsLog2 log2) :
    (∀ c : Float, Numeral.isFinite c = true → 0 ≤ value c → value c < 2 ^ 1023 → Halved log2 c) ∧
    (∀ c d : Float, Numeral.isFinite c = true → Numeral.isFinite d = true → 0 ≤ c → c ≤ d →
      halvings log2 c ≤ halvings log2 d) ∧
    ∀ x : Multivector Float,
      (∀ c ∈ x.coords, Numeral.isFinite c = true ∧ |value c| < 2 ^ 1023) →
      ∀ c ∈ x.coords, |value c / 2 ^ halvings log2 x.largestCoordinate| < 1 := by
  refine ⟨fun c hc hnonneg hlt => h.halved hc hnonneg hlt, fun c d hc hd hnonneg hcd => ?_,
    fun x hx c hc => h.abs_coordinate_lt_one hx hc⟩
  rw [le_iff_value_le value_zero.1 hc, value_zero.2] at hnonneg
  exact h.halvings_mono hc hd hnonneg ((le_iff_value_le hc hd).mp hcd)

/-- Powers of two, whose logarithm is the place of the leading bit, up to where the count is cut
    off. -/
theorem halvings_leadingBit :
    IsLog2 leadingBit ∧
      (halvings leadingBit (.ofBits 0x7FD0000000000000) = 1023 ∧
        Halved leadingBit (.ofBits 0x7FD0000000000000)) ∧
      halvings leadingBit 1.5 ≤ halvings leadingBit 4 ∧
      ∀ c ∈ #[0.75, -4], |value c / 2 ^ halvings leadingBit
        (Multivector.largestCoordinate ⟨2, #[0.75, -4]⟩)| < 1 := by
  have hlarge : unpacked (.ofBits 0x7FD0000000000000) =
      .finite .positive (2 ^ 52) 970 (by decide) := by rfl
  have hone : unpacked 1.5 = .finite .positive (3 * 2 ^ 51) (-52) (by decide) := by rfl
  have hfour : unpacked 4 = .finite .positive (2 ^ 52) (-50) (by decide) := by rfl
  have hless : unpacked 0.75 = .finite .positive (3 * 2 ^ 51) (-53) (by decide) := by rfl
  have hminus : unpacked (-4) = .finite .negative (2 ^ 52) (-50) (by decide) := by rfl
  have hlargeValue : value (.ofBits 0x7FD0000000000000 : Float) = 2 ^ 1022 := by
    rw [value_of_unpacked hlarge, Nat.cast_pow, Nat.cast_ofNat, ← zpow_natCast,
      ← zpow_add₀ two_ne_zero]
    rfl
  have hbound : (8 : ℚ) ≤ 2 ^ 1023 := by
    have hpower : (2 ^ 3 : ℚ) ≤ 2 ^ 1023 := pow_le_pow_right₀ one_le_two (by decide)
    exact le_trans (by norm_num) hpower
  obtain ⟨hhalved, hmono, hcoordinates⟩ := halvings_of_isLog2 isLog2_leadingBit
  refine ⟨isLog2_leadingBit, ⟨by decide +kernel, hhalved _ (isFinite_of_unpacked hlarge) ?_ ?_⟩,
    hmono 1.5 4 (isFinite_of_unpacked hone) (isFinite_of_unpacked hfour) (by decide +kernel)
      (by decide +kernel), hcoordinates ⟨2, #[0.75, -4]⟩ ?_⟩
  · rw [hlargeValue]
    positivity
  · rw [hlargeValue]
    exact pow_lt_pow_right₀ one_lt_two (by decide)
  · intro c hc
    obtain rfl | rfl : c = 0.75 ∨ c = -4 := by simpa using hc
    · refine ⟨isFinite_of_unpacked hless, lt_of_lt_of_le ?_ hbound⟩
      rw [value_of_unpacked hless]
      norm_num [abs_lt]
    · refine ⟨isFinite_of_unpacked hminus, lt_of_lt_of_le ?_ hbound⟩
      rw [value_eq, hminus, toRat]
      norm_num [abs_lt]

end Clifford

end GeometricAlgebra
