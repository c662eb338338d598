import AndroidKernel.Ashmem.Ranges

/-!
The LRU list follows the lists of the areas.

`Tracks` looks at one area at a time: the LRU list is, up to order, what other
areas have on it and the ranges of this one that are not purged, and the count
is what it was without them plus their sizes, in 32-bit arithmetic. Each change
to an area's list keeps it.
-/

namespace AndroidKernel.Ashmem

open List

variable {asma : Nat} {others : List RangeRef} {base : BitVec 32} {range : AshmemRange}
  {ranges ranges' : List AshmemRange} {lru : Lru}

/-- The references to those ranges of an area that are not purged. -/
def liveRefs (asma : Nat) (ranges : List AshmemRange) : List RangeRef :=
  (ranges.filter AshmemRange.onLru).map fun range => { asma := asma, id := range.id }

/-- The number of pages in ranges that are not purged. -/
def liveSize (ranges : List AshmemRange) : Nat :=
  ((ranges.filter AshmemRange.onLru).map AshmemRange.size).sum

structure Tracks (asma : Nat) (others : List RangeRef) (base : BitVec 32)
    (ranges : List AshmemRange) (lru : Lru) : Prop where
  refs : lru.refs.Perm (others ++ liveRefs asma ranges)
  count : lru.count = base + BitVec.ofNat 32 (liveSize ranges)

section Lists

theorem liveRefs_cons_live (live : range.onLru = true) :
    liveRefs asma (range :: ranges) = { asma := asma, id := range.id } :: liveRefs asma ranges := by
  simp [liveRefs, live]

theorem liveSize_cons_live (live : range.onLru = true) :
    liveSize (range :: ranges) = range.size + liveSize ranges := by
  simp [liveSize, live]

/-- A purged range is not tracked. -/
theorem tracks_cons_purged (purged : range.onLru = false) :
    Tracks asma others base (range :: ranges) lru ↔ Tracks asma others base ranges lru := by
  have refs : liveRefs asma (range :: ranges) = liveRefs asma ranges := by simp [liveRefs, purged]
  have size : liveSize (range :: ranges) = liveSize ranges := by simp [liveSize, purged]
  exact ⟨fun tracks => ⟨refs ▸ tracks.refs, size ▸ tracks.count⟩,
    fun tracks => ⟨refs ▸ tracks.refs, size ▸ tracks.count⟩⟩

theorem Tracks.perm (tracks : Tracks asma others base ranges lru) (perm : ranges.Perm ranges') :
    Tracks asma others base ranges' lru where
  refs := tracks.refs.trans (((perm.filter _).map _).append_left others)
  count := by
    have same : liveSize ranges = liveSize ranges' := ((perm.filter _).map _).sum_eq
    rw [tracks.count, same]

/-- `range_del`. -/
theorem Tracks.del (tracks : Tracks asma others base (range :: ranges) lru) :
    Tracks asma others base ranges (rangeDel asma range lru) := by
  unfold rangeDel
  split
  · rename_i live
    have refs := tracks.refs
    have count := tracks.count
    rw [liveRefs_cons_live live] at refs
    rw [liveSize_cons_live live, BitVec.ofNat_add] at count
    constructor
    · have erased := (refs.trans perm_middle).erase { asma := asma, id := range.id }
      rw [erase_cons_head] at erased
      exact erased
    · change lru.count - _ = _
      rw [count]
      ring
  · rename_i purged
    exact (tracks_cons_purged (by simpa using purged)).mp tracks

/-- `range_alloc`. -/
theorem Tracks.add (tracks : Tracks asma others base ranges lru) (range : AshmemRange) :
    Tracks asma others base (range :: ranges) (rangeAlloc asma range lru) := by
  unfold rangeAlloc
  split
  · rename_i live
    constructor
    · rw [liveRefs_cons_live live]
      exact (perm_append_singleton _ _).trans
        ((tracks.refs.cons _).trans List.perm_middle.symm)
    · change lru.count + _ = _
      rw [liveSize_cons_live live, BitVec.ofNat_add, tracks.count]
      ring
  · rename_i purged
    exact (tracks_cons_purged (by simpa using purged)).mpr tracks

/-- `range_shrink`. -/
theorem Tracks.shrink {start stop : Nat} (tracks : Tracks asma others base (range :: ranges) lru) :
    Tracks asma others base ({ range with pgstart := start, pgend := stop } :: ranges)
      (rangeShrink range start stop lru).2 := by
  have refs := tracks.refs
  have count := tracks.count
  unfold rangeShrink
  simp only
  split
  · rename_i live
    have live' : range.onLru = true := live
    rw [liveRefs_cons_live live'] at refs
    rw [liveSize_cons_live live', BitVec.ofNat_add] at count
    constructor
    · rw [liveRefs_cons_live live]
      exact refs
    · rw [liveSize_cons_live live, BitVec.ofNat_add]
      change lru.count - _ = _
      rw [count]
      ring
  · rename_i purged
    have purged' : range.onLru = false := by simpa [AshmemRange.onLru] using purged
    have rest := (tracks_cons_purged purged').mp tracks
    exact (tracks_cons_purged (by exact purged')).mpr rest

/-! ### Pinning -/

theorem Tracks.pinRange (tracks : Tracks asma others base (range :: ranges) lru)
    (pgstart pgend : Nat) (alloc : Option Nat) :
    Tracks asma others base ((pinRange asma pgstart pgend alloc range lru).put ++ ranges)
      (pinRange asma pgstart pgend alloc range lru).lru := by
  unfold Ashmem.pinRange
  split
  · exact tracks
  split
  · split
    · exact tracks.del
    split
    · simp only [rangeShrink_fst, singleton_append]
      exact tracks.shrink
    split
    · simp only [rangeShrink_fst, singleton_append]
      exact tracks.shrink
    cases alloc with
    | none =>
      simp only [rangeShrink_fst, nil_append, singleton_append]
      exact tracks.shrink
    | some id =>
      -- The upper side is added in front, then the range shrinks.
      have added := tracks.add ⟨id, pgend + 1, range.pgend, range.purged⟩
      simp only [rangeShrink_fst, cons_append, nil_append]
      exact ((added.perm (.swap _ _ _)).shrink).perm (.swap _ _ _)
  · exact tracks

/-- Ranges in front of the others can be counted with the other areas. -/
theorem tracks_append {front : List AshmemRange} :
    Tracks asma others base (front ++ ranges) lru ↔
      Tracks asma (others ++ liveRefs asma front) (base + BitVec.ofNat 32 (liveSize front))
        ranges lru := by
  have refs : liveRefs asma (front ++ ranges) = liveRefs asma front ++ liveRefs asma ranges := by
    simp [liveRefs]
  have size : liveSize (front ++ ranges) = liveSize front + liveSize ranges := by
    simp [liveSize]
  constructor
  · rintro ⟨perm, count⟩
    rw [refs, ← append_assoc] at perm
    rw [size, BitVec.ofNat_add, ← add_assoc] at count
    exact ⟨perm, count⟩
  · rintro ⟨perm, count⟩
    constructor
    · rw [refs, ← append_assoc]
      exact perm
    · rw [size, BitVec.ofNat_add, ← add_assoc]
      exact count

theorem Tracks.pinLoop (tracks : Tracks asma others base ranges lru) (pgstart pgend : Nat)
    (alloc : Option Nat) :
    Tracks asma others base (pinLoop asma pgstart pgend alloc ranges lru).2.1
      (pinLoop asma pgstart pgend alloc ranges lru).2.2 := by
  induction ranges generalizing others base lru with
  | nil => exact tracks
  | cons range ranges ih =>
    have round := tracks.pinRange pgstart pgend alloc
    unfold Ashmem.pinLoop
    simp only
    split
    · exact round
    · exact tracks_append.mpr (ih (tracks_append.mp round))

end Lists

end AndroidKernel.Ashmem
