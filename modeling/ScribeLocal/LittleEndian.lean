import Mathlib.Data.Nat.Digits.Lemmas

/-!
# Little-endian numbers

A number of given width as bytes, the lowest first.
-/
namespace ScribeLocal.LittleEndian

/-- The lowest `k` bytes. -/
def toLe : ℕ → ℕ → List UInt8
  | 0, _ => []
  | k + 1, n => UInt8.ofNat n :: toLe k (n / 256)

def ofLe (bs : List UInt8) : ℕ := Nat.ofDigits 256 (bs.map UInt8.toNat)

@[simp] theorem length_toLe (k n : ℕ) : (toLe k n).length = k := by
  induction k generalizing n with
  | zero => rfl
  | succ k ih => rw [toLe, List.length_cons, ih]

theorem ofLe_cons (b : UInt8) (bs : List UInt8) : ofLe (b :: bs) = b.toNat + 256 * ofLe bs :=
  Nat.ofDigits_cons ..

theorem ofLe_lt (bs : List UInt8) : ofLe bs < 256 ^ bs.length := by
  have hlt : ∀ d ∈ bs.map UInt8.toNat, d < 256 := by
    intro d hd
    obtain ⟨b, -, rfl⟩ := List.mem_map.mp hd
    exact b.toNat_lt
  rw [← List.length_map UInt8.toNat]
  exact Nat.ofDigits_lt_base_pow_length (by decide) hlt

/-- A number that fits is read back. -/
theorem ofLe_toLe {k n : ℕ} (h : n < 256 ^ k) : ofLe (toLe k n) = n := by
  induction k generalizing n with
  | zero =>
    rw [pow_zero, Nat.lt_one_iff] at h
    rw [h]
    rfl
  | succ k ih =>
    rw [pow_succ] at h
    rw [toLe, ofLe_cons, ih (Nat.div_lt_of_lt_mul (by omega)), UInt8.toNat_ofNat']
    omega

end ScribeLocal.LittleEndian
