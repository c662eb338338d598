import Mathlib

/-!
Decimal conversion: `put_dec`, `put_dec_full` and `put_dec_trunc` of `lib/vsprintf.c`.

A number is written five digits at a time, the least significant first. The digits come from
those to the base 16; the quotients by ten are products and shifts, which are exact for the
sums that a number below 100000 has. No `unsigned` of the code overflows there, so they are
natural numbers here.
-/

namespace AndroidKernel.Vsprintf

def digit (d : Nat) : Char := .ofNat (d + '0'.toNat)

/-- `put_dec_trunc`, or `put_dec_full`, which leaves the tests out. -/
def putDigits (full : Bool) (q : Nat) : List Char :=
  let d1 := (q >>> 4) &&& 0xf
  let d2 := (q >>> 8) &&& 0xf
  let d3 := q >>> 12
  let d0 := 6 * (d3 + d2 + d1) + (q &&& 0xf)
  let q := (d0 * 0xcd) >>> 11
  digit (d0 - 10 * q) ::
    let d1 := q + 9 * d3 + 5 * d2 + d1
    if full ∨ d1 ≠ 0 then
      let q := (d1 * 0xcd) >>> 11
      digit (d1 - 10 * q) ::
        let d2 := q + 2 * d2
        if full ∨ d2 ≠ 0 ∨ d3 ≠ 0 then
          let q := (d2 * 0xd) >>> 7
          digit (d2 - 10 * q) ::
            let d3 := q + 4 * d3
            if full ∨ d3 ≠ 0 then
              let q := (d3 * 0xcd) >>> 11
              digit (d3 - 10 * q) :: if full ∨ q ≠ 0 then [digit q] else []
            else []
        else []
    else []

def putDecTrunc (q : Nat) : List Char := putDigits false q

def putDecFull (q : Nat) : List Char := putDigits true q

def putDec (num : Nat) : List Char :=
  if num < 100000 then putDecTrunc num
  else putDecFull (num % 100000) ++ putDec (num / 100000)

/-! ### Division by ten -/

/-- The digits of a number, the least significant first. -/
def decimal (n : Nat) : List Char := digit (n % 10) :: if n < 10 then [] else decimal (n / 10)

/-- The last `k` digits, with leading zeros if `full`. -/
def digits (full : Bool) : Nat → Nat → List Char
  | 0, _ => []
  | k + 1, n => digit (n % 10) :: if full ∨ ¬n < 10 then digits full k (n / 10) else []

theorem decimal_of_lt (k : Nat) {n : Nat} (small : n < 10 ^ (k + 1)) :
    digits false (k + 1) n = decimal n := by
  induction k generalizing n with
  | zero =>
    rw [decimal, if_pos (by simpa using small)]
    simp [digits]
  | succ k ih =>
    have less : n / 10 < 10 ^ (k + 1) := Nat.div_lt_of_lt_mul (pow_succ' 10 (k + 1) ▸ small)
    rw [digits, ih less, decimal.eq_def n]
    simp only [Bool.false_eq_true, false_or, ite_not]

theorem decimal_of_le (k : Nat) {n : Nat} (large : 10 ^ k ≤ n) :
    digits true k (n % 10 ^ k) ++ decimal (n / 10 ^ k) = decimal n := by
  induction k generalizing n with
  | zero => simp [digits]
  | succ k ih =>
    rw [pow_succ'] at large ⊢
    have ten : ¬n < 10 := by
      have := Nat.one_le_pow k 10 (by decide)
      omega
    have rest := ih (n := n / 10) (by omega)
    rw [decimal.eq_def n, if_neg ten, ← rest, digits, Nat.mod_mul_right_mod, Nat.mod_mul_right_div_self,
      Nat.div_div_eq_div_mul]
    simp

theorem putDigits_eq (full : Bool) {q : Nat} (small : q < 100000) :
    putDigits full q = digits full 5 q := by
  have mask (n : Nat) : n &&& 0xf = n % 16 := Nat.and_two_pow_sub_one_eq_mod n 4
  simp only [putDigits, mask, Nat.shiftRight_eq_div_pow, Nat.reducePow]
  obtain ⟨d1, first⟩ : ∃ d, q / 16 % 16 = d := ⟨_, rfl⟩
  obtain ⟨d2, second⟩ : ∃ d, q / 256 % 16 = d := ⟨_, rfl⟩
  obtain ⟨d3, third⟩ : ∃ d, q / 4096 = d := ⟨_, rfl⟩
  have number : q = 4096 * d3 + 256 * d2 + 16 * d1 + q % 16 := by omega
  rw [first, second, third]
  -- each sum has one digit and ten times what is carried to the next one
  generalize ones : 6 * (d3 + d2 + d1) + q % 16 = d0
  rw [show d0 * 0xcd / 2048 = d0 / 10 by omega]
  generalize tens : d0 / 10 + 9 * d3 + 5 * d2 + d1 = t1
  rw [show t1 * 0xcd / 2048 = t1 / 10 by omega]
  generalize hundreds : t1 / 10 + 2 * d2 = t2
  rw [show t2 * 0xd / 128 = t2 / 10 by omega]
  generalize thousands : t2 / 10 + 4 * d3 = t3
  rw [show t3 * 0xcd / 2048 = t3 / 10 by omega]
  have left1 : q / 10 = t1 + 10 * (40 * d3 + 2 * d2) := by omega
  have left2 : q / 10 / 10 = t2 + 10 * (4 * d3) := by omega
  have left3 : q / 10 / 10 / 10 = t3 := by omega
  have more1 : t1 ≠ 0 ↔ ¬q < 10 := by omega
  have more2 : t2 ≠ 0 ∨ d3 ≠ 0 ↔ ¬q / 10 < 10 := by omega
  have more3 : t3 ≠ 0 ↔ ¬q / 10 / 10 < 10 := by omega
  have more4 : t3 / 10 ≠ 0 ↔ ¬t3 < 10 := by omega
  have digit0 : d0 - 10 * (d0 / 10) = q % 10 := by omega
  have digit1 : t1 - 10 * (t1 / 10) = q / 10 % 10 := by omega
  have digit2 : t2 - 10 * (t2 / 10) = q / 10 / 10 % 10 := by omega
  have digit3 : t3 - 10 * (t3 / 10) = t3 % 10 := by omega
  have digit4 : t3 / 10 % 10 = t3 / 10 := by omega
  simp only [digits, digit0, digit1, digit2, digit3, digit4, more1, more2, more3, more4, left3,
    ite_self]

/-- **Decimal conversion is division by ten.** -/
theorem putDec_eq_decimal (num : Nat) (q : Fin 100000) : putDec num = decimal num ∧
    putDecFull q = digits true 5 q ∧ putDecTrunc q = decimal q := by
  have trunc {q : Nat} (small : q < 100000) : putDecTrunc q = decimal q :=
    (putDigits_eq false small).trans (decimal_of_lt 4 small)
  refine ⟨?_, putDigits_eq true q.isLt, trunc q.isLt⟩
  induction num using Nat.strong_induction_on with
  | _ num ih =>
    rw [putDec]
    split
    case isTrue small => exact trunc small
    case isFalse large =>
      rw [putDecFull, putDigits_eq true (Nat.mod_lt _ (by decide)), ih _ (by omega)]
      exact decimal_of_le 5 (not_lt.mp large)

end AndroidKernel.Vsprintf
