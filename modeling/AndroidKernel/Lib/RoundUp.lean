import Mathlib

/-!
Rounding up to a multiple, on numbers and by the masks of powers of two.
-/

namespace AndroidKernel.Lib

open BitVec

/-- The least multiple of `a` from `x` on. -/
def roundUp (x a : Nat) : Nat := (x + (a - 1)) / a * a

section RoundUp

variable {x a m : Nat}

theorem dvd_roundUp : a ∣ roundUp x a := Nat.dvd_mul_left a _

theorem roundUp_lt (positive : 0 < a) : roundUp x a < x + a := by
  have := Nat.div_mul_le_self (x + (a - 1)) a
  unfold roundUp
  omega

theorem le_roundUp (positive : 0 < a) : x ≤ roundUp x a := by
  have := Nat.lt_div_mul_add (a := x + (a - 1)) positive
  unfold roundUp
  omega

theorem roundUp_le (positive : 0 < a) (multiple : a ∣ m) (le : x ≤ m) : roundUp x a ≤ m := by
  obtain ⟨n, rfl⟩ := multiple
  have : (x + (a - 1)) / a ≤ n := by
    rw [Nat.div_le_iff_le_mul_add_pred positive]
    omega
  calc roundUp x a ≤ n * a := Nat.mul_le_mul_right a this
    _ = a * n := Nat.mul_comm ..

theorem roundUp_of_dvd (positive : 0 < a) (multiple : a ∣ x) : roundUp x a = x :=
  le_antisymm (roundUp_le positive multiple le_rfl) (le_roundUp positive)

end RoundUp

section Masks

variable {w k : Nat}

/-- The low bits are cleared. -/
theorem toNat_and_not_mask {x mask : BitVec w} (low : mask.toNat = 2 ^ k - 1) :
    (x &&& ~~~mask).toNat = x.toNat / 2 ^ k * 2 ^ k := by
  have same : x &&& ~~~mask = (x >>> k) <<< k := by
    apply eq_of_getLsbD_eq
    intro i inside
    have bit : mask.getLsbD i = decide (i < k) := by
      rw [← testBit_toNat, low, Nat.testBit_two_pow_sub_one]
    rw [getLsbD_and, getLsbD_not, bit, getLsbD_shiftLeft, getLsbD_ushiftRight]
    by_cases below : i < k
    · simp [below]
    · simp [below, inside, Nat.add_sub_cancel' (Nat.le_of_not_lt below)]
  rw [same, toNat_shiftLeft, toNat_ushiftRight, Nat.shiftLeft_eq,
    Nat.shiftRight_eq_div_pow, Nat.mod_eq_of_lt]
  exact lt_of_le_of_lt (Nat.div_mul_le_self ..) x.isLt

/-- The macro for rounding up, where nothing wraps. -/
theorem toNat_roundUp {x a : BitVec w} (power : a.toNat = 2 ^ k) (small : x.toNat + (a.toNat - 1) < 2 ^ w) :
    ((x + (a - 1)) &&& ~~~(a - 1)).toNat = roundUp x.toNat a.toNat := by
  have positive := Nat.two_pow_pos k
  have one : (1 : BitVec w).toNat = 1 % 2 ^ w := toNat_ofNat ..
  have mask : (a - 1).toNat = a.toNat - 1 := by
    rw [toNat_sub, one]
    by_cases single : 2 ^ w = 1
    · omega
    · rw [Nat.mod_eq_of_lt (a := 1) (by omega),
        show 2 ^ w - 1 + a.toNat = 2 ^ w + (a.toNat - 1) by omega, Nat.add_mod_left,
        Nat.mod_eq_of_lt (by omega)]
  rw [toNat_and_not_mask (mask.trans (by rw [power])), toNat_add, mask, Nat.mod_eq_of_lt small,
    roundUp, power]

end Masks

end AndroidKernel.Lib
