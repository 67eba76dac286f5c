/-
  GeometricAlgebra.Proofs.Binary64.Magnitudes

  Magnitudes of floating point numbers of 64 bits.  Rounding, packing and unpacking treat the sign
  apart from the rest, so two results that differ in their sign only have the same magnitude; and a
  difference that is taken the other way round differs in its sign only.

    * `abs_unpacked_pack`: the magnitude of packed parts is that of their magnitude.
    * `abs_sub_comm`: the distance of two numbers, infinite or not a number included.
    * `sub_zero`: a difference with zero is exact, signs of zeros included.
-/

import GeometricAlgebra.Proofs.Binary64.Signs

namespace GeometricAlgebra.Binary64

open Float.Model (Format UnpackedFloat)
open Float.Model.UnpackedFloat

/-! ## Differences of parts -/

theorem abs_round (s : UnpackedFloat.Sign) (m : Nat) (e : Int) :
    (UnpackedFloat.round .binary64 s m e).abs =
      (UnpackedFloat.round .binary64 .positive m e).abs := by
  unfold UnpackedFloat.round roundWithAccuracy
  dsimp only
  split
  · rfl
  · rfl

theorem abs_normalize_neg (m e : Int) (zeroSign : UnpackedFloat.Sign) :
    (UnpackedFloat.normalize .binary64 (-m) e zeroSign).abs =
      (UnpackedFloat.normalize .binary64 m e zeroSign).abs := by
  unfold UnpackedFloat.normalize
  rcases lt_trichotomy m 0 with hneg | rfl | hpos
  · rw [Int.compare_eq_lt.mpr hneg, Int.compare_eq_gt.mpr (show -m > 0 by omega)]
    exact (abs_round .negative _ _).symm
  · rfl
  · rw [Int.compare_eq_gt.mpr hpos, Int.compare_eq_lt.mpr (show -m < 0 by omega)]
    simp only [neg_neg]
    exact abs_round .negative _ _

/-- The other way round, a difference has another sign at most. -/
theorem abs_sub_parts_comm (u v : UnpackedFloat) :
    (UnpackedFloat.sub .binary64 u v).abs = (UnpackedFloat.sub .binary64 v u).abs := by
  cases u with
  | notANumber => cases v <;> rfl
  | infinity s =>
    cases v with
    | infinity t => cases s <;> cases t <;> rfl
    | _ => rfl
  | zero s =>
    cases v with
    | zero t => cases s <;> cases t <;> rfl
    | _ => rfl
  | finite s m e hm =>
    cases v with
    | finite t k d hk =>
      -- both mantissas stand at the smaller exponent, and only their difference changes sign
      simp only [UnpackedFloat.sub]
      rw [min_comm d e, ← abs_normalize_neg, neg_sub]
    | _ => rfl

theorem sub_parts_zero (u : UnpackedFloat) :
    UnpackedFloat.sub .binary64 u (.zero .positive) = u := by
  cases u with
  | zero s => cases s <;> rfl
  | _ => rfl

/-! ## Packing -/

theorem abs_unpack_components (s : UnpackedFloat.Sign) (e : BitVec 11) (m : BitVec 52) :
    (unpack .binary64 (packComponents .binary64 s e m)).abs =
      (unpack .binary64 (packComponents .binary64 .positive e m)).abs := by
  simp only [unpack, unpackExponent_packComponents, unpackMantissa_packComponents,
    unpackSign_packComponents, Sign.ofBitVec_toBitVec]
  split
  · split
    · rfl
    · rfl
  · split
    · split
      · rfl
      · rfl
    · rfl

/-- The sign of a mantissa and an exponent does not enter the other bits. -/
theorem exists_components {m : Nat} (hm : 0 < m) (e : Int) : ∃ k b, ∀ s,
    UnpackedFloat.pack .binary64 (.finite s m e hm) = packComponents .binary64 s k b := by
  unfold UnpackedFloat.pack
  dsimp only
  split
  · exact ⟨_, _, fun _ => rfl⟩
  · split
    · exact ⟨_, _, fun _ => rfl⟩
    · exact ⟨_, _, fun _ => rfl⟩

/-- The magnitude of packed parts is that of their magnitude. -/
theorem abs_unpacked_pack (u : UnpackedFloat) :
    (unpacked ⟨Float.Model.pack u⟩).abs = (unpacked ⟨Float.Model.pack u.abs⟩).abs := by
  show (unpack .binary64 (UnpackedFloat.pack .binary64 u)).abs =
    (unpack .binary64 (UnpackedFloat.pack .binary64 u.abs)).abs
  cases u with
  | notANumber => rfl
  | infinity s | zero s => exact abs_unpack_components s _ _
  | finite s m e hm =>
    obtain ⟨k, b, hpack⟩ := exists_components hm e
    rw [UnpackedFloat.abs, hpack s, hpack .positive]
    exact abs_unpack_components s k b

/-! ## Differences of numbers -/

/-- The distance of two numbers does not depend on their order. -/
theorem abs_sub_comm (x y : Float) : Scalar.abs (x - y) = Scalar.abs (y - x) := by
  have hsub : ∀ x y : Float, unpacked (Scalar.abs (x - y)) = (unpacked ⟨Float.Model.pack
      (UnpackedFloat.sub .binary64 (unpacked x) (unpacked y)).abs⟩).abs :=
    fun x y => (unpacked_abs (x - y)).trans (abs_unpacked_pack _)
  apply ext
  rw [hsub, hsub, abs_sub_parts_comm]

/-- Taking zero away changes nothing, whatever the sign of a zero. -/
theorem sub_zero (x : Float) : x - 0 = x := by
  have hparts : UnpackedFloat.sub .binary64 (unpacked x) (unpacked 0) = unpacked x := by
    rw [unpacked_zero, sub_parts_zero]
  have hcanonical : Canonical (UnpackedFloat.sub .binary64 (unpacked x) (unpacked 0)) := by
    rw [hparts]
    exact canonical_unpacked x
  apply ext
  rw [← hparts]
  exact unpacked_pack hcanonical

end GeometricAlgebra.Binary64
