import Mathlib

/-!
Numbers written in digits of `b` bits, and scans and counts over bitmaps.

The digit `l` of `i` is `i / (2 ^ b) ^ l % 2 ^ b`. The lemmas turn the shifts
and masks by which C code takes numbers apart into quotients and remainders.
-/

namespace AndroidKernel.Lib

open Function Finset

variable {p : Nat → Bool} {size n : Nat}

/-! ### Digits -/

theorem shift_eq_div (b l i : Nat) : i >>> (b * l) = i / (2 ^ b) ^ l := by
  rw [Nat.shiftRight_eq_div_pow, pow_mul]

theorem and_mask (b i : Nat) : i &&& ((1 <<< b) - 1) = i % 2 ^ b := by
  rw [Nat.one_shiftLeft, Nat.and_two_pow_sub_one_eq_mod]

/-- Counting up past the last `n` bits. -/
theorem or_mask_succ (n i : Nat) : (i ||| ((1 <<< n) - 1)) + 1 = (i / 2 ^ n + 1) * 2 ^ n := by
  have rest : i % 2 ^ n ||| (2 ^ n - 1) = 2 ^ n - 1 := by
    apply Nat.eq_of_testBit_eq
    intro j
    rw [Nat.testBit_or, Nat.testBit_two_pow_sub_one, Nat.testBit_mod_two_pow]
    cases decide (j < n) <;> simp
  have filled : i ||| (2 ^ n - 1) = 2 ^ n * (i / 2 ^ n) + (2 ^ n - 1) := by
    conv_lhs => rw [← Nat.div_add_mod i (2 ^ n)]
    rw [Nat.two_pow_add_eq_or_of_lt (Nat.mod_lt _ (Nat.two_pow_pos n)), Nat.or_assoc, rest,
      ← Nat.two_pow_add_eq_or_of_lt (by have := Nat.two_pow_pos n; omega)]
  rw [Nat.one_shiftLeft, filled, Nat.add_assoc, Nat.sub_add_cancel (Nat.two_pow_pos n),
    Nat.add_mul, one_mul, Nat.mul_comm]

/-- Exchanging the last digit. -/
theorem xor_digit {b m : Nat} (i : Nat) (small : m < 2 ^ b) :
    i ^^^ (i % 2 ^ b) ^^^ m = i / 2 ^ b * 2 ^ b + m := by
  rw [Nat.mul_comm, Nat.two_pow_add_eq_or_of_lt small]
  apply Nat.eq_of_testBit_eq
  intro j
  rw [Nat.testBit_or, Nat.testBit_xor, Nat.testBit_xor, Nat.testBit_mod_two_pow,
    Nat.testBit_two_pow_mul]
  by_cases low : j < b
  · simp [low, Nat.not_le.mpr low]
  · have high : b ≤ j := Nat.not_lt.mp low
    have clear : m.testBit j = false :=
      Nat.testBit_eq_false_of_lt (lt_of_lt_of_le small (Nat.pow_le_pow_right (by decide) high))
    simp [low, high, clear, Nat.testBit_div_two_pow]

/-! ### Scans -/

/-- The first `n` from here on with `p n = false`, in at most so many steps. -/
def scan (p : Nat → Bool) : Nat → Nat → Nat
  | 0, n => n
  | steps + 1, n => if p n then scan p steps (n + 1) else n

/-- The first clear bit from `n` on, or `size`. -/
def nextZero (p : Nat → Bool) (size n : Nat) : Nat :=
  if size ≤ n then size else scan p (size - n) n

theorem scan_spec (p : Nat → Bool) (steps n : Nat) :
    n ≤ scan p steps n ∧ scan p steps n ≤ n + steps ∧
      (∀ k, n ≤ k → k < scan p steps n → p k = true) ∧
      (scan p steps n < n + steps → p (scan p steps n) = false) := by
  induction steps generalizing n with
  | zero => exact ⟨le_rfl, le_rfl, fun k low high => absurd (low.trans_lt high) (lt_irrefl _),
      fun high => absurd high (lt_irrefl _)⟩
  | succ steps ih =>
    simp only [scan]
    split
    · rename_i set
      obtain ⟨low, high, before, stop⟩ := ih (n + 1)
      refine ⟨by omega, by omega, fun k first last => ?_, fun short => stop (by omega)⟩
      by_cases here : k = n
      · rw [here, set]
      · exact before k (by omega) last
    · rename_i clear
      exact ⟨le_rfl, by omega, fun k low high => absurd (low.trans_lt high) (lt_irrefl _),
        fun _ => by simpa using clear⟩

theorem nextZero_spec (inside : n ≤ size) :
    n ≤ nextZero p size n ∧ nextZero p size n ≤ size ∧
      (∀ k, n ≤ k → k < nextZero p size n → p k = true) ∧
      (nextZero p size n < size → p (nextZero p size n) = false) := by
  unfold nextZero
  split
  · grind
  · obtain ⟨low, high, before, stop⟩ := scan_spec p (size - n) n
    exact ⟨low, by omega, before, fun short => stop (by omega)⟩

/-! ### Counts -/

/-- How many of the first `size` bits are set. -/
def tally (size : Nat) (p : Nat → Bool) : Int := ∑ k ∈ range size, if p k then 1 else 0

theorem tally_congr {p' : Nat → Bool} (same : ∀ k < size, p' k = p k) :
    tally size p' = tally size p :=
  sum_congr rfl fun k slot => by rw [same k (Finset.mem_range.mp slot)]

theorem tally_set {p' : Nat → Bool} (slot : n < size) (clear : p n = false)
    (set : p' n = true) (same : ∀ k < size, k ≠ n → p' k = p k) :
    tally size p' = tally size p + 1 := by
  have member : n ∈ range size := Finset.mem_range.mpr slot
  unfold tally
  rw [← add_sum_erase _ _ member, ← add_sum_erase (range size) _ member,
    sum_congr rfl fun k rest => by
      rw [same k (Finset.mem_range.mp (mem_of_mem_erase rest)) (ne_of_mem_erase rest)]]
  simp only [clear, set, Bool.false_eq_true, if_true, if_false]
  ring

theorem tally_eq_zero : tally size p = 0 ↔ ∀ k < size, p k = false := by
  unfold tally
  rw [sum_eq_zero_iff_of_nonneg fun k _ => by split <;> decide]
  constructor
  · intro zero k slot
    have := zero k (Finset.mem_range.mpr slot)
    simpa using this
  · intro clear k slot
    simp [clear k (Finset.mem_range.mp slot)]

theorem tally_eq_size : tally size p = size ↔ ∀ k < size, p k = true := by
  have rest : tally size p + tally size (fun k => !p k) = size := by
    unfold tally
    rw [← sum_add_distrib, sum_congr rfl (g := fun _ => (1 : Int)) fun k _ => by
      cases bit : p k <;> simp [bit]]
    simp
  rw [show tally size p = size ↔ tally size (fun k => !p k) = 0 by omega, tally_eq_zero]
  simp

/-- When only one bit is set, the others are clear. -/
theorem tally_eq_one (one : tally size p = 1) (slot : n < size)
    (set : p n = true) : ∀ k < size, k ≠ n → p k = false := by
  have zero : tally size (update p n false) = 0 := by
    have next : tally size p = tally size (update p n false) + 1 :=
      tally_set slot (by simp) set fun k _ other => by rw [update_of_ne other]
    omega
  intro k inside other
  have := tally_eq_zero.mp zero k inside
  rwa [update_of_ne other] at this

end AndroidKernel.Lib
