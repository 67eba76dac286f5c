/-
  GeometricAlgebra.Proofs.Binary64.Packing

  Floating point numbers of 64 bits in parts.  Bits stand for a sign with an infinity, a zero or a
  mantissa and an exponent, or for no number; packing such parts and unpacking bits are inverse to
  each other, as long as the mantissa and the exponent are those of the format.

    * `Canonical`: parts that the format has bits for.
    * `unpack_pack`: packing canonical parts loses nothing.
    * `canonical_unpack`: the parts of bits are canonical.
    * `expandBits_pack`: the number behind packed parts.
-/

import GeometricAlgebra.Binary64
import Mathlib

namespace GeometricAlgebra.Binary64

open Float.Model (Format UnpackedFloat)
open Float.Model.UnpackedFloat

/-! ## Fields of the bits -/

theorem toNat_unpackMantissa (b : BitVec Format.binary64.numBits) :
    (unpackMantissa b).toNat = field b.toNat 0 52 := by
  simp [unpackMantissa, field]

theorem toNat_unpackExponent (b : BitVec Format.binary64.numBits) :
    (unpackExponent b).toNat = field b.toNat 52 11 := by
  simp [unpackExponent, field]

theorem toNat_unpackSign (b : BitVec Format.binary64.numBits) :
    (unpackSign b).toNat = field b.toNat 63 1 := by
  simp [unpackSign, field]

/-! ## Canonical parts -/

/-- The mantissas and exponents of the format: the leading bit of the mantissa is set, except with
    the least exponent. -/
def Fits (m : Nat) (e : Int) : Prop :=
  m < 2 ^ 53 ∧ -1074 ≤ e ∧ e ≤ 971 ∧ (2 ^ 52 ≤ m ∨ e = -1074)

/-- Parts that the format has bits for. -/
def Canonical : UnpackedFloat → Prop
  | .finite _ m e _ => Fits m e
  | _ => True

variable (s : UnpackedFloat.Sign) {m : Nat} (hm : 0 < m)

theorem pack_subnormal (h : m < 2 ^ 52) : pack .binary64 (.finite s m (-1074) hm) =
    packComponents .binary64 s 0#11 (.ofNat 52 m) := by
  have hlog : m.log2 < 52 := (Nat.log2_lt (Nat.ne_of_gt hm)).mpr h
  have hbits : ¬ m.log2 + 1 = Format.binary64.mantissaBits := by
    have hwidth : Format.binary64.mantissaBits = 53 := by decide
    omega
  rw [UnpackedFloat.pack, if_neg (by decide), if_neg hbits]

theorem pack_normal (hlow : 2 ^ 52 ≤ m) (hhigh : m < 2 ^ 53) {k : Nat} (hk : k < 2047) :
    pack .binary64 (.finite s m (k - 1075) hm) =
      packComponents .binary64 s (.ofNat 11 k) (.ofNat 52 m) := by
  have hne : m ≠ 0 := Nat.ne_of_gt hm
  have hbits : m.log2 + 1 = Format.binary64.mantissaBits := by
    have hlog : m.log2 = 52 := (Nat.log2_eq_iff hne).mpr ⟨hlow, hhigh⟩
    rw [hlog]
    decide
  have hbiased : ((k : Int) - 1075 + (Format.binary64.exponentBias : Nat) +
      (Format.binary64.mantissaBitsWithoutImplicit : Nat)).toNat = k := by
    have hbias : Format.binary64.exponentBias = 1023 := by decide
    rw [hbias]
    change ((k : Int) - 1075 + (1023 : Nat) + (52 : Nat)).toNat = k
    omega
  rw [UnpackedFloat.pack]
  simp only [hbiased]
  rw [if_neg (by change ¬ 2048 ≤ k + 1; omega), if_pos hbits]

/-! ## Unpacking -/

theorem unpack_components_zero :
    unpack .binary64 (packComponents .binary64 s 0#11 0#52) = .zero s := by
  simp only [unpack, unpackExponent_packComponents, unpackMantissa_packComponents,
    unpackSign_packComponents, UnpackedFloat.Sign.ofBitVec_toBitVec]
  rfl

theorem unpack_components_infinity :
    unpack .binary64 (packComponents .binary64 s (-1#11) 0#52) = .infinity s := by
  simp only [unpack, unpackExponent_packComponents, unpackMantissa_packComponents,
    unpackSign_packComponents, UnpackedFloat.Sign.ofBitVec_toBitVec]
  rfl

theorem unpack_components_subnormal (h : m < 2 ^ 52) :
    unpack .binary64 (packComponents .binary64 s 0#11 (.ofNat 52 m)) = .finite s m (-1074) hm := by
  have hvalue : (BitVec.ofNat 52 m).toNat = m := by
    rw [BitVec.toNat_ofNat, Nat.mod_eq_of_lt h]
  have hne : BitVec.ofNat 52 m ≠ 0#52 := by
    intro hzero
    rw [hzero] at hvalue
    exact Nat.ne_of_lt hm hvalue
  simp only [unpack, unpackExponent_packComponents, unpackMantissa_packComponents,
    unpackSign_packComponents, UnpackedFloat.Sign.ofBitVec_toBitVec, hvalue]
  rw [if_neg (by decide), if_pos trivial, dif_neg hne]
  rfl

theorem unpack_components_normal (hlow : 2 ^ 52 ≤ m) (hhigh : m < 2 ^ 53) {k : Nat} (hpos : 0 < k)
    (hk : k < 2047) : unpack .binary64 (packComponents .binary64 s (.ofNat 11 k) (.ofNat 52 m)) =
      .finite s m (k - 1075) hm := by
  have hexponent : (BitVec.ofNat 11 k).toNat = k := by
    rw [BitVec.toNat_ofNat, Nat.mod_eq_of_lt (by omega)]
  have hmantissa : (1#1 ++ BitVec.ofNat 52 m).toNat = m := by
    rw [BitVec.toNat_append, ← Nat.shiftLeft_add_eq_or_of_lt (BitVec.isLt _), BitVec.toNat_ofNat]
    change 1 <<< 52 + m % 2 ^ 52 = m
    omega
  have hones : BitVec.ofNat 11 k ≠ -1#11 := by
    intro h
    rw [h] at hexponent
    exact absurd hexponent (by change 2047 ≠ k; omega)
  have hzero : BitVec.ofNat 11 k ≠ 0#11 := by
    intro h
    rw [h] at hexponent
    exact absurd hexponent (by change 0 ≠ k; omega)
  simp only [unpack, unpackExponent_packComponents, unpackMantissa_packComponents,
    unpackSign_packComponents, UnpackedFloat.Sign.ofBitVec_toBitVec, hexponent, hmantissa]
  rw [if_neg hones, if_neg hzero]
  rfl

/-- Packing canonical parts loses nothing. -/
theorem unpack_pack {u : UnpackedFloat} (h : Canonical u) :
    unpack .binary64 (UnpackedFloat.pack .binary64 u) = u := by
  cases u with
  | notANumber => rfl
  | infinity s => exact unpack_components_infinity s
  | zero s => exact unpack_components_zero s
  | finite s m e hm =>
    obtain ⟨hhigh, hlow, htop, hnormal⟩ := h
    by_cases hsub : m < 2 ^ 52
    · obtain rfl : e = -1074 := hnormal.resolve_left (Nat.not_le.mpr hsub)
      rw [pack_subnormal s hm hsub, unpack_components_subnormal s hm hsub]
    · obtain ⟨k, rfl⟩ : ∃ k : Nat, e = k - 1075 := ⟨(e + 1075).toNat, by omega⟩
      have hmin : 2 ^ 52 ≤ m := Nat.not_lt.mp hsub
      rw [pack_normal s hm hmin hhigh (by omega),
        unpack_components_normal s hm hmin hhigh (by omega) (by omega)]

/-- The parts of bits are canonical. -/
theorem canonical_unpack (b : BitVec Format.binary64.numBits) : Canonical (unpack .binary64 b) := by
  have hbias : Format.binary64.exponentBias = 1023 := by decide
  fun_cases unpack Format.binary64 b with
  | case1 => trivial
  | case2 => trivial
  | case3 => trivial
  | case4 m e realExponent s sign hones hzero hm =>
    have hmantissa : m.toNat < 2 ^ 52 := m.isLt
    have hexponent : realExponent + 1 = -1074 := by
      have hbiased : e.toNat = 0 := by
        rw [hzero]
        rfl
      simp only [realExponent, hbiased, hbias]
      rfl
    rw [Canonical, hexponent]
    exact ⟨by omega, by decide, by decide, .inr rfl⟩
  | case5 m e realExponent s sign hones hzero =>
    have hmantissa : (1#1 ++ m).toNat = 2 ^ 52 + m.toNat := by
      rw [BitVec.toNat_append, ← Nat.shiftLeft_add_eq_or_of_lt m.isLt]
      rfl
    have hexponent : realExponent = e.toNat - 1075 := by
      simp only [realExponent, hbias]
      rfl
    have hsize : m.toNat < 2 ^ 52 := m.isLt
    have hwidth : e.toNat < 2 ^ 11 := e.isLt
    have htop : e.toNat ≠ 2047 := fun h => hones (BitVec.eq_of_toNat_eq h)
    have hpos : e.toNat ≠ 0 := fun h => hzero (BitVec.eq_of_toNat_eq h)
    rw [Canonical, hmantissa, hexponent]
    exact ⟨by omega, by omega, by omega, .inl (Nat.le_add_right ..)⟩

/-! ## The number behind the bits -/

/-- Whether a sign is negative. -/
def isMinus : UnpackedFloat.Sign → Bool
  | .negative => true
  | .positive => false

/-- The number that parts stand for. -/
def expansion : UnpackedFloat → Expansion
  | .notANumber => .nan
  | .infinity s => .infinite (isMinus s)
  | .zero s => .finite (isMinus s) 0 (1 <<< 1074)
  | .finite s m e _ => .finite (isMinus s) (powerRatio m e).1 (powerRatio m e).2

/-- The number behind the fields of bits. -/
theorem expandBits_components (e : BitVec 11) (m : BitVec 52) :
    expandBits (packComponents .binary64 s e m).toNat =
      if e.toNat = 2047 then if m.toNat = 0 then .infinite (isMinus s) else .nan
      else if e.toNat = 0 then
        .finite (isMinus s) (powerRatio m.toNat (-1074)).1 (powerRatio m.toNat (-1074)).2
      else
        .finite (isMinus s) (powerRatio (2 ^ 52 + m.toNat) (e.toNat - 1075)).1
          (powerRatio (2 ^ 52 + m.toNat) (e.toNat - 1075)).2 := by
  have hsign : isNegative (packComponents .binary64 s e m).toNat = isMinus s := by
    rw [isNegative, ← toNat_unpackSign, unpackSign_packComponents]
    cases s <;> rfl
  have hexponent := toNat_unpackExponent (packComponents .binary64 s e m)
  have hmantissa := toNat_unpackMantissa (packComponents .binary64 s e m)
  rw [unpackExponent_packComponents] at hexponent
  rw [unpackMantissa_packComponents] at hmantissa
  rw [expandBits, parts, ← hexponent, ← hmantissa, hsign]
  split
  · rfl
  · split
    · rfl
    · rfl

/-- The number behind packed parts. -/
theorem expandBits_pack {u : UnpackedFloat} (h : Canonical u) :
    expandBits (UnpackedFloat.pack .binary64 u).toNat = expansion u := by
  cases u with
  | notANumber => rfl
  | infinity s =>
    rw [UnpackedFloat.pack, packedInfinity, expandBits_components, if_pos (by decide),
      if_pos (by decide), expansion]
  | zero s =>
    rw [UnpackedFloat.pack, packedZero, expandBits_components, if_neg (by decide),
      if_pos (by decide), expansion]
    rfl
  | finite s m e hm =>
    obtain ⟨hhigh, hlow, htop, hnormal⟩ := h
    by_cases hsub : m < 2 ^ 52
    · obtain rfl : e = -1074 := hnormal.resolve_left (Nat.not_le.mpr hsub)
      have hvalue : (BitVec.ofNat 52 m).toNat = m := by
        rw [BitVec.toNat_ofNat, Nat.mod_eq_of_lt hsub]
      rw [pack_subnormal s hm hsub, expandBits_components, if_neg (by decide), if_pos (by decide),
        hvalue, expansion]
    · obtain ⟨k, rfl⟩ : ∃ k : Nat, e = k - 1075 := ⟨(e + 1075).toNat, by omega⟩
      have hmin : 2 ^ 52 ≤ m := Nat.not_lt.mp hsub
      have hexponent : (BitVec.ofNat 11 k).toNat = k := by
        rw [BitVec.toNat_ofNat, Nat.mod_eq_of_lt (by omega)]
      have hmantissa : 2 ^ 52 + (BitVec.ofNat 52 m).toNat = m := by
        rw [BitVec.toNat_ofNat]
        omega
      rw [pack_normal s hm hmin hhigh (by omega), expandBits_components, hexponent, hmantissa,
        if_neg (by omega), if_neg (by omega), expansion]

end GeometricAlgebra.Binary64
