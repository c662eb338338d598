import Mathlib

/-!
Trees of cells in memory whose places are numbers.

The cells of a `B`-ary tree stand on levels, the leaves on level 0. A cell on
level `l + 1` has `B` children, and its child `k` is the cell on level `l` whose
number is `B * q + k` when its own is `q`. So the cell on level `l` that is
passed on the way to the key `i` has the number `i / B ^ (l + 1)`.

`Placed` says that the cells found from a root through `child` stand at the
places that `pos` gives them, with 0 for a place that is empty, and that no cell
stands at two places. The rules below it say how `pos` follows the changes that
are made to such a tree: a leaf or an inner cell is hung in or taken out, a new
root is put on top, or the root is dropped.
-/

namespace AndroidKernel.Lib

variable {q l q' a k l' : Nat} {pos : Nat → Nat → Nat}

structure Placed (B : Nat) (child : Nat → Nat → Nat) (top h : Nat) (pos : Nat → Nat → Nat) :
    Prop where
  present : top ≠ 0
  root : pos h 0 = top
  low : ∀ {l q}, pos l q ≠ 0 → l ≤ h
  only : ∀ {q}, pos h q ≠ 0 → q = 0
  link : ∀ {l q k}, pos (l + 1) q ≠ 0 → k < B → child (pos (l + 1) q) k = pos l (B * q + k)
  parent : ∀ {l q}, pos l q ≠ 0 → l < h → pos (l + 1) (q / B) ≠ 0
  inj : ∀ {l q l' q'}, pos l q ≠ 0 → pos l q = pos l' q' → l = l' ∧ q = q'

/-- Put `a` at a place. -/
def place (pos : Nat → Nat → Nat) (l q a : Nat) : Nat → Nat → Nat :=
  Function.update pos l (Function.update (pos l) q a)

@[simp] theorem place_self (pos : Nat → Nat → Nat) (l q a : Nat) : place pos l q a l q = a := by
  simp [place]

theorem place_of_ne (a : Nat)
    (differ : ¬(l' = l ∧ q' = q)) : place pos l q a l' q' = pos l' q' := by
  unfold place
  by_cases level : l' = l
  · subst level
    have : q' ≠ q := fun same => differ ⟨rfl, same⟩
    simp [this]
  · simp [level]

theorem place_apply (pos : Nat → Nat → Nat) (l q a l' q' : Nat) :
    place pos l q a l' q' = if l' = l ∧ q' = q then a else pos l' q' := by
  split
  · rename_i same
    rw [same.1, same.2, place_self]
  · rename_i differ
    exact place_of_ne a differ

theorem place_zero_ne (here : place pos l q 0 l' q' ≠ 0) :
    pos l' q' ≠ 0 ∧ ¬(l' = l ∧ q' = q) := by
  rw [place_apply] at here
  split at here
  · exact absurd rfl here
  · rename_i ne
    exact ⟨here, ne⟩

/-- The only place of a single cell. -/
theorem place_only (here : place (fun _ _ => 0) l q a l' q' ≠ 0) : l' = l ∧ q' = q := by
  rw [place_apply] at here
  split at here
  · assumption
  · exact absurd rfl here

section Rules

variable {B : Nat} {child child' : Nat → Nat → Nat} {top h : Nat} {pos : Nat → Nat → Nat}

section

variable (placed : Placed B child top h pos)
include placed

theorem Placed.near (base : 0 < B) (here : pos l q ≠ 0) : q < B ^ (h - l) := by
  induction steps : h - l generalizing l q with
  | zero =>
    obtain rfl : l = h := by
      have := placed.low here
      omega
    simp [placed.only here]
  | succ n ih =>
    have up := ih (placed.parent here (by omega)) (by omega)
    exact (Nat.div_lt_iff_lt_mul base).mp up

/-- Above a cell stand the cells on the way to it. -/
theorem Placed.above (here : pos l q ≠ 0) {d : Nat} (inside : l + d ≤ h) :
    pos (l + d) (q / B ^ d) ≠ 0 := by
  induction d with
  | zero => simpa using here
  | succ d ih =>
    have up := placed.parent (ih (by omega)) (by omega)
    rwa [Nat.div_div_eq_div_mul, ← pow_succ] at up

/-- Only what the inner cells point to matters. -/
theorem Placed.congr (same : ∀ {l q k}, pos (l + 1) q ≠ 0 → k < B →
      child' (pos (l + 1) q) k = child (pos (l + 1) q) k) : Placed B child' top h pos :=
  { placed with link := fun here slot => (same here slot).trans (placed.link here slot) }

/-- Below an empty place there is nothing. -/
theorem Placed.empty_below (slot : k < B) (below : l < h) (empty : pos (l + 1) q = 0) :
    pos l (B * q + k) = 0 := by
  by_contra here
  have up := placed.parent here below
  rw [Nat.mul_add_div (by omega), Nat.div_eq_of_lt slot, add_zero] at up
  exact up empty

omit placed in
theorem digits_eq {k' : Nat} (slot : k < B) (slot' : k' < B) (same : B * q + k = B * q' + k') :
    q = q' ∧ k = k' := by
  have quotients := congrArg (· / B) same
  have rests := congrArg (· % B) same
  simp only [Nat.mul_add_div (show 0 < B by omega), Nat.div_eq_of_lt slot,
    Nat.div_eq_of_lt slot', add_zero, Nat.mul_add_mod, Nat.mod_eq_of_lt slot,
    Nat.mod_eq_of_lt slot'] at quotients rests
  exact ⟨quotients, rests⟩

/-- A new cell stands at one place. -/
theorem Placed.inj_place {l₁ q₁ l₂ q₂ : Nat} (new : ∀ l' q', pos l' q' ≠ a)
    (here : place pos l q a l₁ q₁ ≠ 0) (eq : place pos l q a l₁ q₁ = place pos l q a l₂ q₂) :
    l₁ = l₂ ∧ q₁ = q₂ := by
  rw [place_apply] at here
  rw [place_apply, place_apply] at eq
  split at here
  · grind
  rename_i first
  rw [if_neg first] at eq
  split at eq
  · exact absurd eq (new _ _)
  · exact placed.inj here eq

theorem Placed.inj_place_zero {l₁ q₁ l₂ q₂ : Nat} (here : place pos l q 0 l₁ q₁ ≠ 0)
    (eq : place pos l q 0 l₁ q₁ = place pos l q 0 l₂ q₂) : l₁ = l₂ ∧ q₁ = q₂ := by
  obtain ⟨old, ne⟩ := place_zero_ne here
  rw [eq] at here
  obtain ⟨-, ne'⟩ := place_zero_ne here
  rw [place_of_ne _ ne, place_of_ne _ ne'] at eq
  exact placed.inj old eq

/-- Hanging in a cell that has no children. -/
theorem Placed.attach (above : pos (l + 1) q ≠ 0) (slot : k < B) (empty : pos l (B * q + k) = 0)
    (new : ∀ l' q', pos l' q' ≠ a) (hung : child' (pos (l + 1) q) k = a)
    (childless : ∀ k' < B, 0 < l → child' a k' = 0)
    (same : ∀ l' q' k', pos (l' + 1) q' ≠ 0 → k' < B → ¬(l' = l ∧ q' = q ∧ k' = k) →
      child' (pos (l' + 1) q') k' = child (pos (l' + 1) q') k') :
    Placed B child' top h (place pos l (B * q + k) a) := by
  have below := placed.low above
  have apart : ∀ l' q', pos l' q' ≠ 0 → ¬(l' = l ∧ q' = B * q + k) := by
    rintro l' q' here ⟨rfl, rfl⟩
    exact here empty
  constructor
  case present => exact placed.present
  case root =>
    rw [place_of_ne _ (by omega)]
    exact placed.root
  case low =>
    intro l' q' here
    rw [place_apply] at here
    split at here
    · omega
    · exact placed.low here
  case only =>
    intro q' here
    rw [place_of_ne _ (by omega)] at here
    exact placed.only here
  case link =>
    intro l' q' k' here slot'
    rw [place_apply] at here ⊢
    split at here
    · -- the new cell
      rename_i eq
      rw [if_pos eq, childless k' slot' (by omega), place_of_ne _ (by omega), eq.2]
      exact (placed.empty_below slot' (by omega) (by rw [eq.1, empty])).symm
    rename_i ne
    rw [if_neg ne]
    by_cases target : l' = l ∧ q' = q ∧ k' = k
    · obtain ⟨rfl, rfl, rfl⟩ := target
      rw [hung, place_self]
    · rw [same l' q' k' here slot' target, placed.link here slot', place_of_ne]
      rintro ⟨rfl, eq⟩
      obtain ⟨rfl, rfl⟩ := digits_eq slot' slot eq
      exact target ⟨rfl, rfl, rfl⟩
  case parent =>
    intro l' q' here below'
    have up : pos (l' + 1) (q' / B) ≠ 0 := by
      rw [place_apply] at here
      split at here
      · rename_i eq
        rw [eq.1, eq.2, Nat.mul_add_div (by omega), Nat.div_eq_of_lt slot, add_zero]
        exact above
      · exact placed.parent here below'
    rw [place_of_ne _ (apart _ _ up)]
    exact up
  case inj => exact placed.inj_place new

/-- Taking out a cell that has no children. -/
theorem Placed.detach (above : pos (l + 1) q ≠ 0) (slot : k < B)
    (cleared : child' (pos (l + 1) q) k = 0)
    (childless : ∀ l', l = l' + 1 → ∀ k' < B, pos l' (B * (B * q + k) + k') = 0)
    (same : ∀ l' q' k', pos (l' + 1) q' ≠ 0 → k' < B → ¬(l' = l ∧ q' = q ∧ k' = k) →
      child' (pos (l' + 1) q') k' = child (pos (l' + 1) q') k') :
    Placed B child' top h (place pos l (B * q + k) 0) := by
  have below := placed.low above
  constructor
  case present => exact placed.present
  case root =>
    rw [place_of_ne _ (by omega)]
    exact placed.root
  case low => exact fun here => placed.low (place_zero_ne here).1
  case only => exact fun here => placed.only (place_zero_ne here).1
  case link =>
    intro l' q' k' here slot'
    obtain ⟨old, ne⟩ := place_zero_ne here
    rw [place_of_ne _ ne]
    by_cases target : l' = l ∧ q' = q ∧ k' = k
    · obtain ⟨rfl, rfl, rfl⟩ := target
      rw [cleared, place_self]
    · rw [same l' q' k' old slot' target, placed.link old slot', place_of_ne]
      rintro ⟨rfl, eq⟩
      obtain ⟨rfl, rfl⟩ := digits_eq slot' slot eq
      exact target ⟨rfl, rfl, rfl⟩
  case parent =>
    intro l' q' here below'
    obtain ⟨old, ne⟩ := place_zero_ne here
    have up := placed.parent old below'
    rw [place_of_ne]
    · exact up
    -- the cell that is taken out has no children
    rintro ⟨rfl, eq⟩
    have digit := Nat.mod_lt q' (show 0 < B by omega)
    have none := childless l' rfl (q' % B) digit
    rw [← eq, Nat.div_add_mod] at none
    exact old none
  case inj => exact placed.inj_place_zero

/-- A new root on top of the old one. -/
theorem Placed.grow (fresh : a ≠ 0) (new : ∀ l q, pos l q ≠ a) (first : child' a 0 = top)
    (others : ∀ k < B, 0 < k → child' a k = 0) (same : ∀ l q k, pos (l + 1) q ≠ 0 → k < B →
      child' (pos (l + 1) q) k = child (pos (l + 1) q) k) :
    Placed B child' a (h + 1) (place pos (h + 1) 0 a) := by
  have above : ∀ q, pos (h + 1) q = 0 := by
    intro q
    by_contra here
    have := placed.low here
    omega
  constructor
  case present => exact fresh
  case root => rw [place_self]
  case low =>
    intro l q here
    rw [place_apply] at here
    split at here
    · omega
    · have := placed.low here
      omega
  case only =>
    intro q here
    rw [place_apply, above] at here
    split at here
    · omega
    · exact absurd rfl here
  case link =>
    intro l q k here slot
    rw [place_apply] at here ⊢
    split at here
    · rename_i eq
      obtain ⟨level, rfl⟩ := eq
      obtain rfl : l = h := by omega
      rw [if_pos ⟨rfl, rfl⟩, place_of_ne _ (by omega), mul_zero, zero_add]
      by_cases zero : k = 0
      · rw [zero, first, placed.root]
      · rw [others k slot (by omega)]
        by_contra here
        exact zero (placed.only (Ne.symm here))
    · rename_i ne
      have := placed.low here
      rw [if_neg ne, same l q k here slot, placed.link here slot, place_of_ne _ (by omega)]
  case parent =>
    intro l q here below
    rw [place_of_ne _ (by omega)] at here
    by_cases top' : l = h
    · subst top'
      rw [placed.only here, Nat.zero_div, place_self]
      exact fresh
    · rw [place_of_ne _ (by omega)]
      exact placed.parent here (by omega)
  case inj => exact placed.inj_place new

end

/-- Dropping a root whose only child is the first one. -/
theorem Placed.drop (placed : Placed B child top (h + 1) pos) (base : 0 < B) (first : pos h 0 ≠ 0)
    (others : ∀ k < B, 0 < k → pos h k = 0) :
    Placed B child (pos h 0) h (place pos (h + 1) 0 0) := by
  have inside : ∀ {l q}, place pos (h + 1) 0 0 l q ≠ 0 → l ≤ h := by
    intro l q here
    obtain ⟨old, ne⟩ := place_zero_ne here
    by_contra high
    obtain rfl : l = h + 1 := by have := placed.low old; omega
    exact ne ⟨rfl, placed.only old⟩
  constructor
  case present => exact first
  case root => rw [place_of_ne _ (by omega)]
  case low => exact inside
  case only =>
    intro q here
    obtain ⟨old, -⟩ := place_zero_ne here
    have up := placed.only (placed.parent old (by omega))
    have slot : q < B := (Nat.div_eq_zero_iff_lt base).mp up
    by_contra nonzero
    exact old (others q slot (by omega))
  case link =>
    intro l q k here slot
    obtain ⟨old, ne⟩ := place_zero_ne here
    have := inside here
    rw [place_of_ne _ ne, placed.link old slot, place_of_ne _ (by omega)]
  case parent =>
    intro l q here below
    obtain ⟨old, -⟩ := place_zero_ne here
    rw [place_of_ne _ (by omega)]
    exact placed.parent old (by omega)
  case inj => exact placed.inj_place_zero

/-- A root without children, on any level. -/
theorem placed_root (fresh : top ≠ 0) (childless : ∀ k < B, child top k = 0) :
    Placed B child top h (place (fun _ _ => 0) h 0 top) := by
  constructor
  case present => exact fresh
  case root => rw [place_self]
  case low => exact fun some => le_of_eq (place_only some).1
  case only => exact fun some => (place_only some).2
  case link =>
    intro l q k some slot
    obtain ⟨rfl, rfl⟩ := place_only some
    rw [place_self, childless k slot, place_of_ne _ (by omega)]
  case parent => exact fun some below => absurd (place_only some).1 (by omega)
  case inj =>
    intro l₁ q₁ l₂ q₂ first eq
    obtain ⟨rfl, rfl⟩ := place_only first
    rw [eq] at first
    obtain ⟨rfl, rfl⟩ := place_only first
    exact ⟨rfl, rfl⟩

end Rules

end AndroidKernel.Lib
