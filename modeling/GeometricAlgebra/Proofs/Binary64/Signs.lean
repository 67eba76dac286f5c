/-
  GeometricAlgebra.Proofs.Binary64.Signs

  Floating point numbers of 64 bits have exact signs: for every number, finite or not, factors and
  divisors one and minus one are exact, and decimals are read to numbers that are not negative.

    * `beq_zero_iff`, `zero_le_iff`, `lt_zero_iff`: comparisons with zero see the sign.
    * `Positive`: parts without a minus; rounding and packing keep it.
    * The instances of `Scalar.ExactSigns` and `Numeral.Readable`.
-/

import GeometricAlgebra.Proofs.Binary64.Arithmetic

namespace GeometricAlgebra.Binary64

open Float.Model (Format UnpackedFloat)
open Float.Model.UnpackedFloat

/-! ## Comparisons with zero -/

theorem beq_zero_iff (x : Float) : (x == 0) = true ↔ ∃ s, unpacked x = .zero s := by
  have hbeq : (x == 0) = (unpacked x).beq (unpacked 0) := rfl
  rw [hbeq, unpacked_zero]
  cases unpacked x with
  | zero s => simp [UnpackedFloat.beq, UnpackedFloat.compare]
  | notANumber => simp [UnpackedFloat.beq, UnpackedFloat.compare]
  | infinity s | finite s m e hm => cases s <;> simp [UnpackedFloat.beq, UnpackedFloat.compare]

theorem beq_zero_eq_false_iff (x : Float) : (x == 0) = false ↔ ∀ s, unpacked x ≠ .zero s := by
  rw [← Bool.not_eq_true, beq_zero_iff, not_exists]

/-- Parts without a minus. -/
def Positive : UnpackedFloat → Prop
  | .notANumber => False
  | .infinity s | .zero s | .finite s _ _ _ => s = .positive

/-- A scalar is at least zero if it is a zero or has no minus. -/
theorem zero_le_iff (x : Float) : 0 ≤ x ↔ (x == 0) = true ∨ Positive (unpacked x) := by
  have hle : 0 ≤ x ↔ (unpacked 0).le (unpacked x) = true :=
    decide_eq_true_iff (p := (0 : Float).toModel ≤ x.toModel)
  rw [hle, beq_zero_iff, unpacked_zero]
  cases unpacked x with
  | zero s => simp [UnpackedFloat.le, UnpackedFloat.compare]
  | notANumber => simp [UnpackedFloat.le, UnpackedFloat.compare, Positive]
  | infinity s | finite s m e hm =>
    cases s <;> simp [UnpackedFloat.le, UnpackedFloat.compare, Positive]

theorem neg_eq_positive_iff (s : UnpackedFloat.Sign) : -s = .positive ↔ s = .negative := by
  cases s with
  | positive => exact ⟨nofun, nofun⟩
  | negative => exact ⟨fun _ => rfl, fun _ => rfl⟩

/-- A scalar is below zero if it is no zero and has a minus. -/
theorem lt_zero_iff (x : Float) :
    x < 0 ↔ (x == 0) = false ∧ Positive (unpacked x).neg := by
  have hlt : x < 0 ↔ (unpacked x).lt (unpacked 0) = true :=
    decide_eq_true_iff (p := x.toModel < (0 : Float).toModel)
  rw [hlt, beq_zero_eq_false_iff, unpacked_zero]
  cases unpacked x with
  | zero s => simp [UnpackedFloat.lt, UnpackedFloat.compare]
  | notANumber => simp [UnpackedFloat.lt, UnpackedFloat.compare, Positive, neg]
  | infinity s | finite s m e hm =>
    cases s <;> simp [UnpackedFloat.lt, UnpackedFloat.compare, Positive, neg, neg_eq_positive_iff]

/-- A magnitude is at most zero if it is a zero. -/
theorem abs_le_zero_iff (x : Float) : Scalar.abs x ≤ 0 ↔ (x == 0) = true := by
  have hle : Scalar.abs x ≤ 0 ↔ (unpacked (Scalar.abs x)).le (unpacked 0) = true :=
    decide_eq_true_iff (p := (Scalar.abs x).toModel ≤ (0 : Float).toModel)
  rw [hle, beq_zero_iff, unpacked_abs, unpacked_zero]
  cases unpacked x <;> simp [UnpackedFloat.le, UnpackedFloat.compare, UnpackedFloat.abs]

/-! ## Exact signs -/

theorem unpacked_one : unpacked 1 = one .positive := by rfl

theorem unpacked_neg_one : unpacked (-1) = one .negative := by rfl

instance : Scalar.ExactSigns Float where
  one_mul x := ext <| unpacked_mul (canonical_unpacked x) <| by
    rw [unpacked_one, mul_one_left _ (canonical_unpacked x)]
    rfl
  neg_one_mul x := by
    have hneg : Canonical (unpacked (-x)) := canonical_unpacked (-x)
    refine ext (unpacked_mul hneg ?_)
    rw [unpacked_neg_one, mul_one_left _ (canonical_unpacked x), unpacked_neg]
    rfl
  mul_one x := ext <| unpacked_mul (canonical_unpacked x) <| by
    rw [unpacked_one, mul_one_right _ (canonical_unpacked x)]
    rfl
  mul_neg_one x := by
    have hneg : Canonical (unpacked (-x)) := canonical_unpacked (-x)
    refine ext (unpacked_mul hneg ?_)
    rw [unpacked_neg_one, mul_one_right _ (canonical_unpacked x), unpacked_neg]
    rfl
  div_one x := ext <| unpacked_div (canonical_unpacked x) <| by
    rw [unpacked_one, div_one_right _ (canonical_unpacked x)]
    rfl
  div_neg_one x := by
    have hneg : Canonical (unpacked (-x)) := canonical_unpacked (-x)
    refine ext (unpacked_div hneg ?_)
    rw [unpacked_neg_one, div_one_right _ (canonical_unpacked x), unpacked_neg]
    rfl
  neg_neg x := by
    apply ext
    rw [unpacked_neg, unpacked_neg]
    cases unpacked x with
    | notANumber => rfl
    | infinity s | zero s | finite s m e hm => cases s <;> rfl
  abs_neg x := by
    apply ext
    rw [unpacked_abs, unpacked_abs, unpacked_neg]
    cases unpacked x <;> rfl
  zero_beq_zero := by rfl
  one_beq_zero := by rfl
  neg_beq_zero x := by
    rw [Bool.eq_iff_iff, beq_zero_iff, beq_zero_iff, unpacked_neg]
    cases unpacked x <;> simp [neg]
  mul_beq_zero {x y} hx hy := by
    obtain ⟨s, hx⟩ := (beq_zero_iff x).mp hx
    obtain ⟨t, hy⟩ := (beq_zero_iff y).mp hy
    refine (beq_zero_iff _).mpr ⟨s * t, unpacked_mul trivial ?_⟩
    rw [hx, hy]
    rfl
  abs_le_zero_iff x := abs_le_zero_iff x
  zero_add {x} hx := ext <| unpacked_add (canonical_unpacked x) <| by
    rw [unpacked_zero, add_zero_left ((beq_zero_eq_false_iff x).mp hx)]
  zero_add_zero {x} hx := by
    obtain ⟨s, hx⟩ := (beq_zero_iff x).mp hx
    refine ext (unpacked_add (canonical_unpacked 0) ?_)
    rw [unpacked_zero, hx]
    cases s <;> rfl
  add_zero {x z} hx hz := by
    obtain ⟨s, hz⟩ := (beq_zero_iff z).mp hz
    refine ext (unpacked_add (canonical_unpacked x) ?_)
    rw [hz, add_zero_right ((beq_zero_eq_false_iff x).mp hx)]

/-! ## Decimals -/

/-- Bits without a minus that stand for a number unpack without a minus. -/
theorem positive_unpack_components {e : BitVec 11} (he : e ≠ -1#11) (m : BitVec 52) :
    Positive (unpack .binary64 (packComponents .binary64 .positive e m)) := by
  simp only [unpack, unpackExponent_packComponents, unpackMantissa_packComponents,
    unpackSign_packComponents, Sign.ofBitVec_toBitVec]
  rw [if_neg he]
  split
  · split
    · rfl
    · rfl
  · rfl

/-- Packing keeps numbers without a minus, also those that the format has no bits for. -/
theorem positive_pack {u : UnpackedFloat} (h : Positive u) :
    Positive (unpacked ⟨Float.Model.pack u⟩) := by
  change Positive (unpack .binary64 (UnpackedFloat.pack .binary64 u))
  cases u with
  | notANumber => exact h.elim
  | infinity s =>
    obtain rfl : s = .positive := h
    rfl
  | zero s =>
    obtain rfl : s = .positive := h
    rfl
  | finite s m e hm =>
    obtain rfl : s = .positive := h
    rw [UnpackedFloat.pack]
    split
    · rfl
    · rename_i hbiased
      split
      · refine positive_unpack_components ?_ _
        intro hones
        have hvalue : (BitVec.ofNat 11 _).toNat = 2047 := congrArg BitVec.toNat hones
        rw [BitVec.toNat_ofNat] at hvalue
        change ¬ 2048 ≤ _ + 1 at hbiased
        omega
      · exact positive_unpack_components (by decide) _

theorem positive_roundWithAccuracy (m : Nat) (e : Int) (accuracy : Accuracy) :
    Positive (roundWithAccuracy .binary64 .positive m e accuracy) := by
  unfold roundWithAccuracy
  dsimp only
  split
  · rfl
  · rfl

theorem positive_mul {u : UnpackedFloat} (h : Positive u) {m : Nat} {e : Int} (hm : 0 < m) :
    Positive (UnpackedFloat.mul .binary64 u (.finite .positive m e hm)) := by
  cases u with
  | notANumber => exact h.elim
  | infinity s | zero s =>
    obtain rfl : s = .positive := h
    rfl
  | finite s k d hk =>
    obtain rfl : s = .positive := h
    exact positive_roundWithAccuracy ..

theorem positive_div {u : UnpackedFloat} (h : Positive u) {m : Nat} {e : Int} (hm : 0 < m) :
    Positive (UnpackedFloat.div .binary64 u (.finite .positive m e hm)) := by
  cases u with
  | notANumber => exact h.elim
  | infinity s | zero s =>
    obtain rfl : s = .positive := h
    rfl
  | finite s k d hk =>
    obtain rfl : s = .positive := h
    exact positive_roundWithAccuracy ..

theorem positive_ofScientific (m : Nat) (e : Int) :
    Positive (UnpackedFloat.ofScientific .binary64 m e) := by
  unfold UnpackedFloat.ofScientific
  split
  · rfl
  split
  · rfl
  split
  · rfl
  split
  · exact positive_roundWithAccuracy ..
  · exact positive_roundWithAccuracy ..

/-- Whole numbers have no minus. -/
theorem positive_ofNat (n : Nat) : Positive (UnpackedFloat.ofNat .binary64 n) := by
  rw [UnpackedFloat.ofNat, UnpackedFloat.ofInt, UnpackedFloat.normalize]
  split
  · rename_i hlt
    have hneg : (n : Int) < 0 := Int.compare_eq_lt.mp hlt
    omega
  · rfl
  · exact positive_roundWithAccuracy ..

/-- Whether parts are a mantissa and an exponent without a minus. -/
def isPositiveFinite : UnpackedFloat → Bool
  | .finite .positive _ _ _ => true
  | _ => false

theorem exists_of_isPositiveFinite {u : UnpackedFloat} (h : isPositiveFinite u = true) :
    ∃ m e, ∃ hm : 0 < m, u = .finite .positive m e hm := by
  unfold isPositiveFinite at h
  split at h
  · exact ⟨_, _, _, rfl⟩
  · exact absurd h (by decide)

/-- The powers of ten that are numbers of the format. -/
theorem isPositiveFinite_powerOfTen : ∀ i : Fin 23,
    isPositiveFinite (unpacked Float.exactlyRepresentablePowersOfTen[i]) = true := by
  decide +kernel

/-- Decimals in scientific form have no minus. -/
theorem positive_scientific (m : Nat) (negative : Bool) (e : Nat) :
    Positive (unpacked (OfScientific.ofScientific m negative e)) := by
  change Positive (unpacked (Float.ofScientific m negative e))
  unfold Float.ofScientific
  split
  · rename_i h
    obtain ⟨k, d, hk, hpower⟩ := exists_of_isPositiveFinite
      (isPositiveFinite_powerOfTen ⟨e, Nat.lt_succ_of_le h.2⟩)
    have hnumber : Positive (unpacked m.toUInt64.toFloat) := positive_pack (positive_ofNat _)
    have hmul := positive_pack (positive_mul hnumber (e := d) hk)
    have hdiv := positive_pack (positive_div hnumber (e := d) hk)
    rw [← hpower] at hmul hdiv
    split
    · exact hdiv
    · exact hmul
  · exact positive_pack (positive_ofScientific ..)

theorem positive_nearestMagnitude (n : Nat) (e : Int) :
    Positive (unpacked (nearestMagnitude n e)) := by
  unfold nearestMagnitude
  dsimp only
  split
  · rfl
  split
  · rfl
  split
  · exact positive_scientific ..
  · exact positive_scientific ..

theorem nearest_eq {d : Decimal} (h : d.negative = false) :
    (Numeral.nearest d : Float) = nearestMagnitude d.significand d.exponent :=
  if_neg (by simp [h])

/-! ## Signs of numbers -/

theorem zero_le_iff_positive {x : Float} (hx : (x == 0) = false) :
    0 ≤ x ↔ Positive (unpacked x) := by
  rw [zero_le_iff, hx]
  simp

theorem zero_le_neg_iff {x : Float} (hx : (x == 0) = false) :
    0 ≤ -x ↔ Positive (unpacked x).neg := by
  rw [zero_le_iff_positive ((Scalar.ExactSigns.neg_beq_zero x).trans hx), unpacked_neg]

/-- Only one of a number and its opposite has no minus. -/
theorem not_positive_neg {u : UnpackedFloat} (h : Positive u) : ¬ Positive u.neg := by
  cases u with
  | notANumber => exact h.elim
  | infinity s | zero s | finite s m e hm =>
    obtain rfl : s = .positive := h
    exact nofun

theorem positive_of_finite {x : Float} (h : Numeral.isFinite x = true)
    (hneg : ¬ Positive (unpacked x).neg) : Positive (unpacked x) := by
  rw [Numeral.isFinite, expand_eq] at h
  cases hx : unpacked x with
  | notANumber => exact absurd h (by simp [hx, expansion])
  | infinity s => exact absurd h (by simp [hx, expansion])
  | zero s | finite s m e hm =>
    rw [hx] at hneg
    cases s with
    | positive => rfl
    | negative => exact absurd rfl hneg

instance : Numeral.Readable Float where
  expand_abs x := by
    rw [expand_eq, expand_eq, unpacked_abs]
    cases unpacked x <;> rfl
  expand_zero {x} hx := by
    obtain ⟨s, hx⟩ := (beq_zero_iff x).mp hx
    rw [expand_eq, hx, expansion]
    exact ⟨_, _, rfl⟩
  nonneg_iff {x} hfinite hx := by
    rw [zero_le_iff_positive hx, lt_zero_iff, and_iff_right hx]
    exact ⟨not_positive_neg, positive_of_finite hfinite⟩
  neg_nonneg_iff {x} hx := by
    rw [zero_le_neg_iff hx, lt_zero_iff, and_iff_right hx]
  not_neg_nonneg {x} h hx := by
    rw [zero_le_neg_iff hx]
    exact not_positive_neg ((zero_le_iff_positive hx).mp h)
  abs_of_nonneg {x} h hx := by
    have hpositive := (zero_le_iff_positive hx).mp h
    apply ext
    rw [unpacked_abs]
    cases hu : unpacked x with
    | notANumber => rfl
    | infinity s | zero s | finite s m e hm =>
      rw [hu] at hpositive
      obtain rfl : s = .positive := hpositive
      rfl
  nearest_nonneg {d} h := by
    rw [nearest_eq h, zero_le_iff]
    exact .inr (positive_nearestMagnitude ..)
  nearest_zero {d} h hd := by
    rw [nearest_eq h, nearestMagnitude, if_pos (.inl hd)]

end GeometricAlgebra.Binary64
