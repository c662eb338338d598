import Mathlib

/-!
Circular buffers.

A buffer is a function of the index, of which the indices below `size` are
used. `blit` is a copy of a block of memory; a copy into the circular buffer is
two of them, the second from index 0. Positions are counted from the place the
copy starts at: the first `n` hold the data afterwards, the others what they
held before.
-/

namespace AndroidKernel.Lib

open List

variable {α : Type} {size off n i : Nat} {buf src : Nat → α}

/-- One wrap of an index. -/
theorem mod_eq_wrap (inside : off < size) (short : i ≤ size) :
    (off + i) % size = if off + i < size then off + i else off + i - size := by
  split
  · rename_i before
    exact Nat.mod_eq_of_lt before
  · rename_i past
    rw [Nat.mod_eq_sub_mod (by omega), Nat.mod_eq_of_lt (by omega)]

/-- Copies `n` cells of `src` to index `off` and after. -/
def blit (dst : Nat → α) (off : Nat) (src : Nat → α) (n : Nat) : Nat → α :=
  fun i => if off ≤ i ∧ i < off + n then src (i - off) else dst i

theorem blit_inside (inside : i < n) : blit buf off src n (off + i) = src i := by
  unfold blit
  rw [if_pos ⟨by omega, by omega⟩, Nat.add_sub_cancel_left]

theorem blit_outside (outside : i < off ∨ off + n ≤ i) : blit buf off src n i = buf i := by
  unfold blit
  rw [if_neg (by omega)]

/-- Copies `n` cells of `src` into a circular buffer, in two parts. -/
def ringBlit (size : Nat) (buf : Nat → α) (off : Nat) (src : Nat → α) (n : Nat) : Nat → α :=
  let len := min n (size - off)
  blit (blit buf off src len) 0 (fun i => src (len + i)) (n - len)

theorem ringBlit_inside (start : off < size) (fits : n ≤ size) (inside : i < n) :
    ringBlit size buf off src n ((off + i) % size) = src i := by
  unfold ringBlit
  rw [mod_eq_wrap start (by omega)]
  split
  · rename_i before
    rw [blit_outside (by omega), blit_inside (by omega)]
  rename_i past
  have place : off + i - size = 0 + (i - min n (size - off)) := by omega
  rw [place, blit_inside (by omega)]
  congr 1
  omega

theorem ringBlit_outside (start : off < size) (after : n ≤ i) (before : i < size) :
    ringBlit size buf off src n ((off + i) % size) = buf ((off + i) % size) := by
  unfold ringBlit
  rw [mod_eq_wrap start (by omega)]
  split
  · rw [blit_outside (by omega), blit_outside (by omega)]
  · rw [blit_outside (by omega), blit_outside (by omega)]

/-- The cells from `off` on are those of the list. -/
def RingHolds (size : Nat) (buf : Nat → α) (off : Nat) (cells : List α) : Prop :=
  ∀ i (h : i < cells.length), buf ((off + i) % size) = cells.get ⟨i, h⟩

namespace RingHolds

variable {cells rest : List α} {buf' : Nat → α}

theorem nil : RingHolds size buf off [] := by
  intro i h
  simp at h

theorem append :
    RingHolds size buf off (cells ++ rest) ↔
      RingHolds size buf off cells ∧ RingHolds size buf ((off + cells.length) % size) rest := by
  constructor
  · intro holds
    constructor
    · intro i h
      have at_i := holds i (by simp; omega)
      rw [at_i]
      simp [getElem_append_left h]
    · intro i h
      have at_i := holds (cells.length + i) (by simp; omega)
      rw [Nat.mod_add_mod, Nat.add_assoc, at_i]
      simp
  · rintro ⟨front, back⟩ i h
    rcases Nat.lt_or_ge i cells.length with early | late
    · rw [front i early]
      simp [getElem_append_left early]
    · have at_i := back (i - cells.length) (by simp at h; omega)
      rw [Nat.mod_add_mod, Nat.add_assoc, Nat.add_sub_cancel' late] at at_i
      rw [at_i]
      simp [getElem_append_right late]

/-- A buffer that agrees on the cells of the list holds it too. -/
theorem congr (holds : RingHolds size buf off cells)
    (same : ∀ i, i < cells.length → buf' ((off + i) % size) = buf ((off + i) % size)) :
    RingHolds size buf' off cells := by
  intro i h
  rw [same i h]
  exact holds i h

/-- Reading the cells back in two parts. -/
theorem read (holds : RingHolds size buf off cells) (inside : off < size)
    (fits : cells.length ≤ size) :
    (range (min cells.length (size - off))).map (fun i => buf (off + i)) ++
      (range (cells.length - min cells.length (size - off))).map buf = cells := by
  refine ext_getElem (by simp) fun i h h' => ?_
  have at_i := holds i h'
  rw [mod_eq_wrap inside (by omega)] at at_i
  rw [getElem_append]
  split
  · rename_i early
    simp only [length_map, length_range] at early
    rw [if_pos (by omega)] at at_i
    simpa using at_i
  · grind

end RingHolds
end AndroidKernel.Lib
