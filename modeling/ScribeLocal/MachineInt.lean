import Mathlib.Algebra.BigOperators.Group.List.Basic
import Mathlib.Algebra.Order.Group.Int
import Mathlib.Tactic.NormNum

/-!
# Sixty-four-bit integers

Without overflow checks the sum, the difference or the product of two `i64` keeps its lowest
sixty-four bits.
-/
namespace ScribeLocal.MachineInt

/-- The `i64` that is left of a result. -/
def i64 (a : ℤ) : ℤ := a.bmod (2 ^ 64)

/-- `i64::MAX` -/
def i64Max : ℤ := 2 ^ 63 - 1

/-- The result is an `i64`. -/
def FitsI64 (a : ℤ) : Prop := -2 ^ 63 ≤ a ∧ a < 2 ^ 63

instance (a : ℤ) : Decidable (FitsI64 a) := inferInstanceAs (Decidable (_ ∧ _))

variable {a b : ℤ}

theorem i64_eq (a : ℤ) : i64 a = (a + 2 ^ 63) % 2 ^ 64 - 2 ^ 63 := by
  have hcast : ((2 ^ 64 : ℕ) : ℤ) = 2 ^ 64 := by norm_num
  unfold i64 Int.bmod
  rw [hcast]
  dsimp only
  split <;> omega

theorem i64_eq_self_iff : i64 a = a ↔ FitsI64 a := by
  rw [i64_eq]
  unfold FitsI64
  omega

theorem FitsI64.i64_eq (h : FitsI64 a) : i64 a = a := i64_eq_self_iff.mpr h

theorem FitsI64.of_nonneg (hnonneg : 0 ≤ a) (h : a < 2 ^ 63) : FitsI64 a := by
  unfold FitsI64
  omega

/-- A sum wraps once, however it is taken. -/
theorem i64_add_i64 (a b : ℤ) : i64 (a + i64 b) = i64 (a + b) := Int.add_bmod_bmod

theorem i64_i64_add (a b : ℤ) : i64 (i64 a + b) = i64 (a + b) := Int.bmod_add_bmod

theorem i64_sub (a b : ℤ) : i64 (i64 a - i64 b) = i64 (a - b) := (Int.sub_bmod a b _).symm

theorem i64_sub_i64 (a b : ℤ) : i64 (a - i64 b) = i64 (a - b) := Int.sub_bmod_bmod

@[simp] theorem i64_zero : i64 0 = 0 := rfl

/-! ## Sums -/

@[simp] theorem toInt_ofInt (a : ℤ) : (Int64.ofInt a).toInt = i64 a := Int64.toInt_ofInt

theorem toInt_add (x y : Int64) : (x + y).toInt = i64 (x.toInt + y.toInt) := Int64.toInt_add x y

scoped instance int64AddCommMonoid : AddCommMonoid Int64 where
  add_assoc := Int64.add_assoc
  zero_add := Int64.zero_add
  add_zero := Int64.add_zero
  add_comm := Int64.add_comm
  nsmul := nsmulRec

scoped instance int64LinearOrder : LinearOrder Int64 where
  le_refl := Int64.le_refl
  le_trans _ _ _ := Int64.le_trans
  le_antisymm _ _ := Int64.le_antisymm
  le_total := Int64.le_total
  lt_iff_le_not_ge x y := by
    rw [Int64.not_le]
    exact ⟨fun h => ⟨Int64.le_of_lt h, h⟩, And.right⟩
  toDecidableLE := inferInstance

end ScribeLocal.MachineInt
