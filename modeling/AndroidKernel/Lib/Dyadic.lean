import AndroidKernel.Lib.Index

/-!
Blocks of a power of two, and sets of them.

A block of order `o` has `2 ^ o` elements and starts at a multiple of that. The block of
order `o` that `x` is in starts at `base x o`; two blocks make one of the next order when
each is the `buddy` of the other. A set of blocks is a function that gives the order of
the block starting at a number. `Blocks` says that the blocks are apart, and that no
block could be put together with its buddy.
-/

namespace AndroidKernel.Lib

open Function

/-- The start of the block of order `o` around `x`. -/
def base (x o : Nat) : Nat := x / 2 ^ o * 2 ^ o

/-- The start of the block beside the one of order `o` at `p`. -/
def buddy (p o : Nat) : Nat := p ^^^ 2 ^ o

section Base

variable {x p o o' : Nat}

theorem dvd_base : 2 ^ o ∣ base x o := Nat.dvd_mul_left ..

theorem base_le : base x o ≤ x := Nat.div_mul_le_self ..

theorem lt_base_add : x < base x o + 2 ^ o := Nat.lt_div_mul_add (Nat.two_pow_pos o)

theorem base_of_dvd (aligned : 2 ^ o ∣ p) : base p o = p := Nat.div_mul_cancel aligned

theorem base_eq_iff (aligned : 2 ^ o ∣ p) : base x o = p ↔ p ≤ x ∧ x < p + 2 ^ o := by
  constructor
  · rintro rfl
    exact ⟨base_le, lt_base_add⟩
  rintro ⟨low, high⟩
  obtain ⟨k, rfl⟩ := aligned
  have : x / 2 ^ o = k := Nat.div_eq_of_lt_le (by rwa [Nat.mul_comm]) (by
    rwa [Nat.succ_mul, Nat.mul_comm])
  rw [base, this, Nat.mul_comm]

theorem base_base (le : o ≤ o') : base (base x o) o' = base x o' := by
  have split : 2 ^ o' = 2 ^ o * 2 ^ (o' - o) := by rw [← Nat.pow_add, Nat.add_sub_cancel' le]
  have quotient : x / 2 ^ o * 2 ^ o / 2 ^ o' = x / 2 ^ o' := by
    rw [split, ← Nat.div_div_eq_div_mul, Nat.mul_div_cancel _ (Nat.two_pow_pos o), Nat.div_div_eq_div_mul]
  rw [base, base, quotient, base]

theorem base_zero : base x 0 = x := by simp [base]

theorem dvd_of_succ (aligned : 2 ^ (o + 1) ∣ p) : 2 ^ o ∣ p :=
  (Nat.pow_dvd_pow 2 (Nat.le_succ o)).trans aligned

/-- The two halves of a block. -/
theorem base_succ_eq_iff (aligned : 2 ^ (o + 1) ∣ p) :
    base x (o + 1) = p ↔ base x o = p ∨ base x o = p + 2 ^ o := by
  have half := dvd_of_succ aligned
  rw [base_eq_iff aligned, base_eq_iff half, base_eq_iff (Nat.dvd_add half dvd_rfl), Nat.pow_succ]
  omega

/-- A block is the lower or the upper half of the next larger one. -/
theorem buddy_cases (aligned : 2 ^ o ∣ p) :
    base p (o + 1) = p ∧ buddy p o = p + 2 ^ o ∨ p = base p (o + 1) + 2 ^ o ∧ buddy p o = base p (o + 1) := by
  obtain ⟨k, rfl⟩ := aligned
  have flip : buddy (2 ^ o * k) o = (k ^^^ 1) * 2 ^ o := by
    rw [buddy, Nat.mul_comm, ← Nat.shiftLeft_eq, ← Nat.one_shiftLeft, ← Nat.shiftLeft_xor_distrib,
      Nat.shiftLeft_eq, Nat.one_shiftLeft]
  have whole : base (2 ^ o * k) (o + 1) = 2 ^ o * (k / 2 * 2) := by
    rw [base, Nat.pow_succ, Nat.mul_div_mul_left _ _ (Nat.two_pow_pos o), Nat.mul_left_comm]
  rw [flip, whole]
  rcases Nat.even_or_odd k with even | odd
  · have half : k / 2 * 2 = k := Nat.div_two_mul_two_of_even even
    rw [Nat.xor_one_of_even even, half]
    exact .inl ⟨rfl, by ring⟩
  have half : k / 2 * 2 + 1 = k := Nat.div_two_mul_two_add_one_of_odd odd
  rw [Nat.xor_one_of_odd odd]
  have pred : k - 1 = k / 2 * 2 := by omega
  refine .inr ⟨?_, by rw [pred, Nat.mul_comm]⟩
  calc 2 ^ o * k = 2 ^ o * (k / 2 * 2 + 1) := by rw [half]
    _ = 2 ^ o * (k / 2 * 2) + 2 ^ o := by rw [Nat.mul_add, Nat.mul_one]

theorem dvd_buddy (aligned : 2 ^ o ∣ p) : 2 ^ o ∣ buddy p o := by
  rcases buddy_cases aligned with ⟨-, same⟩ | ⟨-, same⟩
  · rw [same]
    exact Nat.dvd_add aligned dvd_rfl
  · rw [same]
    exact dvd_of_succ dvd_base

theorem buddy_ne : buddy p o ≠ p := by
  intro same
  have zero : p ^^^ (p ^^^ 2 ^ o) = p ^^^ p := congrArg (p ^^^ ·) same
  rw [← Nat.xor_assoc, Nat.xor_self, Nat.zero_xor] at zero
  exact (Nat.two_pow_pos o).ne' zero

theorem buddy_buddy : buddy (buddy p o) o = p := by
  rw [buddy, buddy, Nat.xor_assoc, Nat.xor_self, Nat.xor_zero]

/-- A block and its buddy make the next larger block. -/
theorem base_succ_eq_base_iff (aligned : 2 ^ o ∣ p) :
    base x (o + 1) = base p (o + 1) ↔ base x o = p ∨ base x o = buddy p o := by
  rw [base_succ_eq_iff dvd_base]
  rcases buddy_cases aligned with ⟨lower, same⟩ | ⟨upper, same⟩
  · rw [lower, same]
  · rw [same, ← upper, or_comm]

end Base

/-! ### Sets of blocks -/

/-- Is the number in a block of the set? -/
def Covered (blocks : Nat → Option Nat) (x : Nat) : Prop := ∃ o, blocks (base x o) = some o

structure Blocks (max : Nat) (blocks : Nat → Option Nat) : Prop where
  aligned : ∀ {p o}, blocks p = some o → 2 ^ o ∣ p
  small : ∀ {p o}, blocks p = some o → o < max
  unique : ∀ {x o o'}, blocks (base x o) = some o → blocks (base x o') = some o' → o = o'
  joined : ∀ {p o}, blocks p = some o → o + 1 < max → blocks (buddy p o) ≠ some o

section Blocks

variable {max p o x : Nat} {f : Nat → Option Nat}

theorem Blocks.empty : Blocks max fun _ => none := ⟨nofun, nofun, nofun, nofun⟩

theorem not_covered_empty : ¬Covered (fun _ => none) x := nofun

theorem covered_of_mem (there : f p = some o) (inside : base x o = p) : Covered f x :=
  ⟨o, inside ▸ there⟩

section

variable (blocks : Blocks max f)
include blocks

/-- Nothing starts where nothing is covered. -/
theorem Blocks.eq_none (free : ¬Covered f p) : f p = none := by
  cases there : f p with
  | none => rfl
  | some o => exact absurd (covered_of_mem there (base_of_dvd (blocks.aligned there))) free

theorem Blocks.covered_erase (there : f p = some o) :
    Covered (update f p none) x ↔ Covered f x ∧ base x o ≠ p := by
  constructor
  · rintro ⟨o', found⟩
    by_cases same : base x o' = p
    · rw [same, update_self] at found
      cases found
    · rw [update_of_ne same] at found
      refine ⟨⟨o', found⟩, fun inside => same ?_⟩
      rw [blocks.unique found (inside ▸ there), inside]
  · rintro ⟨⟨o', found⟩, outside⟩
    refine ⟨o', ?_⟩
    rwa [update_of_ne]
    intro same
    rw [same, there, Option.some.injEq] at found
    exact outside (found ▸ same)

theorem Blocks.erase (p : Nat) : Blocks max (update f p none) := by
  have old : ∀ {q o}, update f p none q = some o → f q = some o := by
    intro q o found
    by_cases same : q = p
    · rw [same, update_self] at found
      cases found
    · rwa [update_of_ne same] at found
  constructor
  case aligned => exact fun found => blocks.aligned (old found)
  case small => exact fun found => blocks.small (old found)
  case unique => exact fun found found' => blocks.unique (old found) (old found')
  case joined => exact fun found more found' => blocks.joined (old found) more (old found')

theorem Blocks.covered_insert (free : ¬Covered f p) :
    Covered (update f p (some o)) x ↔ Covered f x ∨ base x o = p := by
  constructor
  · rintro ⟨o', found⟩
    rcases update_some found with ⟨same, rfl⟩ | ⟨-, old⟩
    · exact .inr same
    · exact .inl ⟨o', old⟩
  · rintro (⟨o', found⟩ | inside)
    · refine ⟨o', ?_⟩
      rwa [update_of_ne]
      intro same
      rw [same, blocks.eq_none free] at found
      cases found
    · exact ⟨o, by rw [inside, update_self]⟩

/-- A block is put into the set when nothing of it is covered and its buddy is not in
the set. -/
theorem Blocks.insert (aligned : 2 ^ o ∣ p) (small : o < max)
    (free : ∀ x, base x o = p → ¬Covered f x) (single : o + 1 < max → f (buddy p o) ≠ some o) :
    Blocks max (update f p (some o)) := by
  have cases : ∀ {q o'}, update f p (some o) q = some o' → q = p ∧ o' = o ∨ f q = some o' := by
    grind
  constructor
  case aligned =>
    intro q o' found
    rcases cases found with ⟨rfl, rfl⟩ | old
    · exact aligned
    · exact blocks.aligned old
  case small =>
    intro q o' found
    rcases cases found with ⟨rfl, rfl⟩ | old
    · exact small
    · exact blocks.small old
  case unique =>
    intro x o₁ o₂ found₁ found₂
    rcases cases found₁ with ⟨inside, rfl⟩ | old₁
    · rcases cases found₂ with ⟨-, rfl⟩ | old₂
      · rfl
      · exact absurd ⟨o₂, old₂⟩ (free x inside)
    · rcases cases found₂ with ⟨inside, rfl⟩ | old₂
      · exact absurd ⟨o₁, old₁⟩ (free x inside)
      · exact blocks.unique old₁ old₂
  case joined =>
    intro q o' found more found'
    rcases cases found with ⟨rfl, rfl⟩ | old
    · rcases cases found' with ⟨same, -⟩ | old'
      · exact buddy_ne same
      · exact single more old'
    · rcases cases found' with ⟨same, rfl⟩ | old'
      · refine single more ?_
        rwa [← same, buddy_buddy]
      · exact blocks.joined old more old'

end

end Blocks

end AndroidKernel.Lib
