/-
  GeometricAlgebra.Sign

  Orientation signs.  Sorting the vectors of a blade, reversing it or storing it
  in another order each change its orientation by a sign; a sign acts on
  coordinates as the scalar one or minus one.
-/

import GeometricAlgebra.Scalar

namespace GeometricAlgebra

/-- An orientation: kept or reversed. -/
inductive Sign where
  | plus
  | minus
deriving DecidableEq, Repr

namespace Sign

/-- The opposite orientation. -/
def opposite : Sign → Sign
  | plus => minus
  | minus => plus

/-- Signs multiply: two reversals cancel. -/
def mul : Sign → Sign → Sign
  | plus, s => s
  | minus, s => s.opposite

instance : Mul Sign := ⟨mul⟩

/-- The sign of an even or odd number of swaps. -/
def ofSwaps (k : Nat) : Sign := if k % 2 = 0 then plus else minus

/-- The scalar `1` or `-1`. -/
def toScalar {α : Type} [Scalar α] : Sign → α
  | plus => 1
  | minus => -1

/-! ## Signs are a group of order two -/

@[simp] theorem opposite_opposite (s : Sign) : s.opposite.opposite = s := by
  cases s <;> rfl

@[simp] theorem plus_mul (s : Sign) : plus * s = s := rfl

@[simp] theorem minus_mul (s : Sign) : minus * s = s.opposite := rfl

@[simp] theorem mul_self (s : Sign) : s * s = plus := by cases s <;> rfl

protected theorem mul_comm (s t : Sign) : s * t = t * s := by
  cases s <;> cases t <;> rfl

protected theorem mul_assoc (s t r : Sign) : s * t * r = s * (t * r) := by
  cases s <;> cases t <;> cases r <;> rfl

/-- Only the parity of a swap count matters. -/
theorem ofSwaps_congr {j k : Nat} (h : j % 2 = k % 2) : ofSwaps j = ofSwaps k := by
  rw [ofSwaps, ofSwaps, h]

/-- Swap counts add where signs multiply. -/
theorem ofSwaps_add (j k : Nat) : ofSwaps (j + k) = ofSwaps j * ofSwaps k := by
  unfold ofSwaps
  rcases Nat.mod_two_eq_zero_or_one j with hj | hj <;>
    rcases Nat.mod_two_eq_zero_or_one k with hk | hk <;>
    simp [Nat.add_mod, hj, hk, opposite]

end Sign

end GeometricAlgebra
