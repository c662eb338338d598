import Mathlib

/-!
Tables, and search trees keyed by an ordered type as lists sorted by key.

A tree of records that carry their own key is seen here through its inorder
traversal.
-/

namespace AndroidKernel.Lib

open Function

variable {α : Type} {f : Nat → Option α} {i j : Nat} {y : α}

/-- The entries of a table after one of them was stored. -/
theorem update_some {v : α} (found : update f i (some v) j = some y) :
    (j = i ∧ y = v) ∨ (j ≠ i ∧ f j = some y) := by
  by_cases isI : j = i
  · subst isI
    exact .inl ⟨rfl, by simpa using found.symm⟩
  · exact .inr ⟨isI, by simpa [isI] using found⟩

/-- The entries of a table after one of them was removed. -/
theorem update_none (found : update f i none j = some y) : j ≠ i ∧ f j = some y := by
  by_cases isI : j = i
  · simp [isI] at found
  · exact ⟨isI, by simpa [isI] using found⟩

variable {κ ι : Type} [LinearOrder κ]

/-- Inserts at the place the descent of a search tree finds. -/
def insertKey (k : κ) (i : ι) : List (κ × ι) → List (κ × ι)
  | [] => [(k, i)]
  | e :: l => if k < e.1 then (k, i) :: e :: l else e :: insertKey k i l

def lookupKey (k : κ) : List (κ × ι) → Option ι
  | [] => none
  | e :: l => if e.1 = k then some e.2 else lookupKey k l

/-- The keys are in search order, without duplicates. -/
def KeySorted (l : List (κ × ι)) : Prop := l.Pairwise fun e e' => e.1 < e'.1

section Keys

variable {k : κ} {i : ι} {e : κ × ι} {l : List (κ × ι)}

theorem lookupKey_eq_none : lookupKey k l = none ↔ ∀ e ∈ l, e.1 ≠ k := by
  induction l with
  | nil => simp [lookupKey]
  | cons e l ih =>
    rw [lookupKey, List.forall_mem_cons, ← ih]
    by_cases here : e.1 = k <;> simp [here]

theorem mem_insertKey : e ∈ insertKey k i l ↔ e = (k, i) ∨ e ∈ l := by
  induction l with
  | nil => simp [insertKey]
  | cons e' l ih =>
    rw [insertKey]
    split
    · rw [List.mem_cons]
    · rw [List.mem_cons, ih, List.mem_cons, or_left_comm]

theorem KeySorted.insertKey (sorted : KeySorted l) (new : lookupKey k l = none) :
    KeySorted (insertKey k i l) := by
  induction l with
  | nil => exact List.pairwise_singleton ..
  | cons e l ih =>
    obtain ⟨least, rest⟩ := List.pairwise_cons.mp sorted
    obtain ⟨differs, new⟩ := List.forall_mem_cons.mp (lookupKey_eq_none.mp new)
    rw [Lib.insertKey]
    split
    case isTrue before =>
      refine List.pairwise_cons.mpr ⟨List.forall_mem_cons.mpr ⟨before, fun e' mem => ?_⟩, sorted⟩
      exact before.trans (least e' mem)
    case isFalse behind =>
      refine List.pairwise_cons.mpr ⟨fun e' mem => ?_, ih rest (lookupKey_eq_none.mpr new)⟩
      rcases mem_insertKey.mp mem with rfl | mem
      · exact lt_of_le_of_ne (not_lt.mp behind) differs
      · exact least e' mem

theorem lookupKey_insertKey (new : lookupKey k l = none) (j : κ) :
    lookupKey j (insertKey k i l) = if j = k then some i else lookupKey j l := by
  induction l with
  | nil => simp only [insertKey, lookupKey, eq_comm]
  | cons e l ih =>
    obtain ⟨differs, new⟩ := List.forall_mem_cons.mp (lookupKey_eq_none.mp new)
    rw [insertKey]
    split
    · rw [lookupKey]
      simp only [eq_comm]
    · rw [lookupKey, ih (lookupKey_eq_none.mpr new), lookupKey]
      by_cases here : e.1 = j
      · rw [if_pos here, if_pos here, if_neg fun same => differs (here.trans same)]
      · rw [if_neg here, if_neg here]

end Keys

end AndroidKernel.Lib
