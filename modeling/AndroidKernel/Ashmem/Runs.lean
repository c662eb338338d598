import AndroidKernel.Ashmem.Consistency
import AndroidKernel.Lib.Refine

/-!
Runs of pin, unpin, status and shrink calls.

Where no allocation fails, the areas behave as plain sets of pages
(`ashmem_refines`). With failing allocations a purge can be forgotten; it is not
in runs that make no hole in a purged range, and merge no range, when there is
no memory for a new one (`purges_reported`).
-/

namespace AndroidKernel.Ashmem

open Lib Function

variable {s : Areas} {a pgstart pgend p : Nat} {allocated : Bool}
  {spec : Nat → Set Nat} {ranges : List AshmemRange}

/-! ### Single calls -/

theorem Consistent.alloc_new (consistent : Consistent s) (a : Nat) (allocated : Bool) :
    ∀ r ∈ s.unpinned a, s.alloc allocated ≠ some r.id := by
  intro r mem
  have := consistent.old a r mem
  unfold Areas.alloc
  split
  · intro same
    have same := Option.some.inj same
    omega
  · simp

theorem alloc_lt {id : Nat} (object : s.alloc allocated = some id) : id < s.fresh + 1 := by
  unfold Areas.alloc at object
  split at object
  · cases object
    omega
  · cases object

/-- The result of a change to one area that keeps identities. -/
theorem Consistent.put (consistent : Consistent s) {lru : Lru}
    (tracks : Tracks a (otherRefs s a) (BitVec.ofNat 32 ((otherRefs s a).map s.sizeOf).sum) ranges
      lru)
    (descending : Descending ranges)
    (ids : (ranges.map AshmemRange.id).Nodup ∧ ∀ r ∈ ranges,
      (∃ r₀ ∈ s.unpinned a, r₀.id = r.id) ∨ s.alloc allocated = some r.id) :
    Consistent (s.put a ranges lru) := by
  refine consistent.update rfl tracks descending ids.1 ?_ (Nat.le_succ _)
  intro r mem
  change r.id < s.fresh + 1
  rcases ids.2 r mem with ⟨r₀, old, same⟩ | object
  · have := consistent.old a r₀ old
    omega
  · exact alloc_lt object

theorem Consistent.pin (consistent : Consistent s) (valid : pgstart ≤ pgend + 1)
    (allocated : Bool) :
    Consistent (ashmemPin s a pgstart pgend allocated).2 ∧
      Pinned pgstart pgend (s.alloc allocated) (s.unpinned a)
        ((ashmemPin s a pgstart pgend allocated).2.unpinned a) ∧
      ∀ b, b ≠ a → (ashmemPin s a pgstart pgend allocated).2.unpinned b = s.unpinned b := by
  have pinned := pinLoop_pinned a (s.alloc allocated) s.lru (consistent.descending a) valid
  refine ⟨?_, ?_, fun b differs => update_of_ne differs _ _⟩
  · exact consistent.put ((consistent.tracks a).pinLoop pgstart pgend _) pinned.descending
      (pinLoop_ids (consistent.ids a) (consistent.alloc_new a allocated))
  · change Pinned _ _ _ _ (Function.update s.unpinned a _ a)
    rw [update_self]
    exact pinned

theorem Consistent.unpin (consistent : Consistent s) (valid : pgstart ≤ pgend + 1)
    (allocated : Bool) :
    Consistent (ashmemUnpin s a pgstart pgend allocated).2 ∧
      ((allocated = false ∧ (ashmemUnpin s a pgstart pgend allocated).1 = false) ∨
        ((ashmemUnpin s a pgstart pgend allocated).1 = true ∧
          Unpinned pgstart pgend (s.unpinned a)
            ((ashmemUnpin s a pgstart pgend allocated).2.unpinned a))) ∧
      ∀ b, b ≠ a → (ashmemUnpin s a pgstart pgend allocated).2.unpinned b = s.unpinned b := by
  have start : Merging (s.unpinned a) pgstart pgend pgstart pgend false (s.unpinned a) :=
    .start valid
  have ended := start.unpinLoop (consistent.descending a) (Nat.lt_succ_self _) a
    (s.alloc allocated) s.lru
  have tracks := (consistent.tracks a).unpinLoop (s.alloc allocated)
    ((s.unpinned a).length + 1) pgstart pgend false
  have ids : _ ∧ ∀ r ∈ (unpinLoop a (s.alloc allocated) ((s.unpinned a).length + 1) pgstart pgend
      false (s.unpinned a) s.lru).2.1, _ :=
    unpinLoop_ids (consistent.ids a) (consistent.alloc_new a allocated)
  unfold ashmemUnpin
  revert ended tracks ids
  generalize unpinLoop a (s.alloc allocated) ((s.unpinned a).length + 1) pgstart pgend false
    (s.unpinned a) s.lru = result
  intro ended tracks ids
  have here : (s.put a result.2.1 result.2.2).unpinned a = result.2.1 :=
    update_self a _ s.unpinned
  refine ⟨?_, ?_, fun b differs => update_of_ne differs _ _⟩
  · refine consistent.put tracks ?_ ids
    rcases ended with ⟨-, -, sub⟩ | ⟨-, unpinned⟩
    · exact (consistent.descending a).sublist sub
    · exact unpinned.descending
  · grind [Areas.alloc]

theorem ashmemGetPinStatus_iff (descending : Descending ranges)
    (full : ∀ r ∈ ranges, r.pgstart ≤ r.pgend) (valid : pgstart ≤ pgend) :
    ashmemGetPinStatus pgstart pgend ranges = true ↔
      (pages ranges ∩ Set.Icc pgstart pgend).Nonempty := by
  induction ranges with
  | nil => simp [ashmemGetPinStatus, pages, pagesWhere]
  | cons range ranges ih =>
    obtain ⟨below, weak, behind⟩ := descending_cons.mp descending
    have here := full range List.mem_cons_self
    have ih := ih behind fun r mem => full r (List.mem_cons_of_mem _ mem)
    unfold ashmemGetPinStatus
    split
    · -- This range and those behind it end before the interval.
      rename_i before
      unfold AshmemRange.beforePage at before
      rw [decide_eq_true_eq] at before
      simp only [Bool.false_eq_true, false_iff]
      rintro ⟨p, mem, inside⟩
      rcases mem_pagesWhere_cons.mp mem with ⟨-, has⟩ | later
      · have := has.2
        have := inside.1
        omega
      · have := lt_of_mem_pagesWhere below later
        have := inside.1
        omega
    · split
      · rename_i meets
        unfold AshmemRange.meetsPages AshmemRange.subsumedByPages AshmemRange.hasPage at meets
        simp only [Bool.or_eq_true, Bool.and_eq_true, decide_eq_true_eq] at meets
        simp only [true_iff]
        refine ⟨max range.pgstart pgstart, mem_pagesWhere_cons.mpr (.inl ⟨trivial, ?_⟩), ?_⟩
        · unfold AshmemRange.Has
          omega
        · rw [Set.mem_Icc]
          omega
      · rename_i apart
        unfold AshmemRange.meetsPages AshmemRange.subsumedByPages AshmemRange.hasPage at apart
        simp only [Bool.or_eq_true, Bool.and_eq_true, decide_eq_true_eq] at apart
        rw [ih]
        constructor
        · rintro ⟨p, mem, inside⟩
          exact ⟨p, mem_pagesWhere_cons.mpr (.inr mem), inside⟩
        rintro ⟨p, mem, inside⟩
        rcases mem_pagesWhere_cons.mp mem with ⟨-, has⟩ | later
        · unfold AshmemRange.Has at has
          rw [Set.mem_Icc] at inside
          omega
        · exact ⟨p, later, inside⟩

/-! ### Sets of pages -/

/-- The plain model: for each area the set of its unpinned pages. -/
def PageStep (spec : Nat → Set Nat) (call : Call) (answer : Answer) (spec' : Nat → Set Nat) :
    Prop :=
  match call with
  | .pin a pgstart pgend _ =>
    (∃ purged, answer = .pinned purged) ∧
      spec' = Function.update spec a (spec a \ Set.Icc pgstart pgend)
  | .unpin a pgstart pgend _ =>
    answer = .unpinned true ∧ spec' = Function.update spec a (spec a ∪ Set.Icc pgstart pgend)
  | .getPinStatus a pgstart pgend =>
    (∃ status, answer = .status status ∧
      (status = true ↔ (spec a ∩ Set.Icc pgstart pgend).Nonempty)) ∧ spec' = spec
  | .shrink _ _ => answer ≠ .fault ∧ spec' = spec

/-- The areas hold these sets of pages, in ranges that are not empty. -/
structure Holds (s : Areas) (spec : Nat → Set Nat) : Prop where
  consistent : Consistent s
  full : ∀ a, ∀ r ∈ s.unpinned a, r.pgstart ≤ r.pgend
  pages : ∀ a, pages (s.unpinned a) = spec a

/-- Calls on intervals that are not empty, with memory for new ranges. -/
def Supplied (_ : Areas) (call : Call) : Prop :=
  match call with
  | .pin _ pgstart pgend allocated => pgstart ≤ pgend ∧ allocated = true
  | .unpin _ pgstart pgend allocated => pgstart ≤ pgend ∧ allocated = true
  | .getPinStatus _ pgstart pgend => pgstart ≤ pgend
  | .shrink _ _ => True

/-- A change of one area in state and model. -/
theorem holds_update {s' : Areas} {set : Set Nat} (holds : Holds s spec)
    (consistent : Consistent s')
    (full : ∀ r ∈ s'.unpinned a, r.pgstart ≤ r.pgend) (pages : pages (s'.unpinned a) = set)
    (others : ∀ b, b ≠ a → s'.unpinned b = s.unpinned b) :
    Holds s' (Function.update spec a set) := by
  refine ⟨consistent, fun b r mem => ?_, fun b => ?_⟩
  · by_cases same : b = a
    · exact full r (same ▸ mem)
    · rw [others b same] at mem
      exact holds.full b r mem
  · by_cases same : b = a
    · rw [same, Function.update_self]
      exact pages
    · rw [others b same, Function.update_of_ne same]
      exact holds.pages b

theorem ashmem_implements : Implements Call.step PageStep Supplied Holds := by
  intro s spec call holds supplied
  cases call with
  | pin a pgstart pgend allocated =>
    obtain ⟨valid, memory⟩ := supplied
    subst memory
    obtain ⟨consistent, pinned, others⟩ :=
      holds.consistent.pin (a := a) (Nat.le_succ_of_le valid) true
    refine ⟨_, ⟨⟨_, rfl⟩, rfl⟩, holds_update holds consistent (pinned.full (holds.full a)) ?_ others⟩
    ext p
    rw [← holds.pages a, Set.mem_sdiff, Set.mem_Icc]
    exact pinned.pages _ (fun _ _ _ _ => by simp [Areas.alloc]) p
  | unpin a pgstart pgend allocated =>
    obtain ⟨valid, memory⟩ := supplied
    subst memory
    obtain ⟨consistent, ⟨failed, -⟩ | ⟨done, unpinned⟩, others⟩ :=
      holds.consistent.unpin (a := a) (Nat.le_succ_of_le valid) true
    · cases failed
    refine ⟨_, ⟨congrArg Answer.unpinned done, rfl⟩,
      holds_update holds consistent (unpinned.full valid (holds.full a)) ?_ others⟩
    ext p
    rw [← holds.pages a, Set.mem_union, Set.mem_Icc]
    exact unpinned.pages p
  | getPinStatus a pgstart pgend =>
    refine ⟨spec, ⟨⟨_, rfl, ?_⟩, rfl⟩, holds⟩
    rw [← holds.pages a]
    exact ashmemGetPinStatus_iff (holds.consistent.descending a) (holds.full a) supplied
  | shrink nrToScan gfpFs =>
    obtain ⟨answer, cuts, s', run, purged, answered⟩ :=
      holds.consistent.ashmemShrink nrToScan gfpFs
    have step : (Call.shrink nrToScan gfpFs).step s = (answer, s') := run
    rw [step]
    refine ⟨spec, ⟨?_, rfl⟩, purged.consistent, purged.full holds.full, fun a => ?_⟩
    · rcases answered with ⟨rfl, -⟩ | rfl <;> simp
    · rw [purged.pages a]
      exact holds.pages a

theorem holds_init : Holds ashmemInit fun _ => ∅ where
  consistent := consistent_init
  full := fun _ r mem => absurd mem (by simp [ashmemInit])
  pages := fun _ => by
    ext p
    simp [ashmemInit, pages, pagesWhere]

/-- In every run on intervals that are not empty in which no allocation fails,
each call answers as the plain model of page sets does, and each state holds the
model's sets. -/
theorem ashmem_refines (calls : List Call) (supplied : Admits Call.step Supplied calls ashmemInit) :
    ∃ spec, SpecRun PageStep (fun _ => ∅) calls (answers Call.step calls ashmemInit).1 spec ∧
      Holds (answers Call.step calls ashmemInit).2 spec :=
  ashmem_implements.run holds_init supplied

/-- Unpinning, punching a hole, merging two ranges, and a purge. -/
def mixedCalls : List Call :=
  [.unpin 0 0 9 true, .pin 0 3 5 true, .getPinStatus 0 4 5, .unpin 0 2 4 true, .shrink 1 true,
    .unpin 1 7 7 true, .pin 0 4 4 true]

theorem ashmem_refines_mixedCalls :
    ∃ spec, SpecRun PageStep (fun _ => ∅) mixedCalls (answers Call.step mixedCalls ashmemInit).1
        spec ∧
      Holds (answers Call.step mixedCalls ashmemInit).2 spec :=
  ashmem_refines mixedCalls (by simp [mixedCalls, Admits, Supplied])

/-! ### Purged pages -/

/-- For each area the pages that were purged and not pinned since. A pin that
covers one of them reports a purge. -/
def PurgeStep (spec : Nat → Set Nat) (call : Call) (answer : Answer) (spec' : Nat → Set Nat) :
    Prop :=
  match call with
  | .pin a pgstart pgend _ =>
    (∃ purged, answer = .pinned purged ∧
      ((spec a ∩ Set.Icc pgstart pgend).Nonempty → purged = true)) ∧
      spec' = Function.update spec a (spec a \ Set.Icc pgstart pgend)
  | .unpin _ _ _ _ => spec' = spec
  | .getPinStatus _ _ _ => spec' = spec
  | .shrink _ _ =>
    (answer = .refused ∧ spec' = spec) ∨
      ∃ count cuts, answer = .counted count cuts ∧ spec' = fun a => spec a ∪ cutPages cuts a

/-- Purged pages are in ranges that say so. -/
structure Remembers (s : Areas) (spec : Nat → Set Nat) : Prop where
  consistent : Consistent s
  purged : ∀ a, spec a ⊆ purgedPages (s.unpinned a)

/-- Calls on intervals that `ashmem_pin_unpin` can ask for. Without memory, no
hole is made in a purged range, and no range is merged. -/
def Lossless (s : Areas) (call : Call) : Prop :=
  match call with
  | .pin a pgstart pgend allocated =>
    pgstart ≤ pgend + 1 ∧
      (allocated = false → ∀ r ∈ s.unpinned a, r.purged = true → ¬r.Hole pgstart pgend)
  | .unpin a pgstart pgend allocated =>
    pgstart ≤ pgend + 1 ∧
      (allocated = false → ∀ r ∈ s.unpinned a, r.meetsPages pgstart pgend = true →
        r.subsumesPages pgstart pgend = true)
  | .getPinStatus _ _ _ => True
  | .shrink _ _ => True

instance decidableLossless (s : Areas) (call : Call) : Decidable (Lossless s call) :=
  match call with
  | .pin _ _ _ _ => inferInstanceAs (Decidable (_ ∧ (_ → _)))
  | .unpin _ _ _ _ => inferInstanceAs (Decidable (_ ∧ (_ → _)))
  | .getPinStatus _ _ _ => inferInstanceAs (Decidable True)
  | .shrink _ _ => inferInstanceAs (Decidable True)

theorem unpinPass_not_merge {range : AshmemRange}
    (none : ∀ r ∈ ranges, r.meetsPages pgstart pgend = true →
      r.subsumesPages pgstart pgend = true) :
    unpinPass pgstart pgend ranges ≠ .merge range := by
  induction ranges with
  | nil => simp [unpinPass]
  | cons first ranges ih =>
    grind [unpinPass, List.mem_cons_self, List.mem_cons_of_mem]

/-- Without memory and with nothing to merge, `ashmem_unpin` changes no list. -/
theorem ashmemUnpin_kept
    (none : ∀ r ∈ s.unpinned a, r.meetsPages pgstart pgend = true →
      r.subsumesPages pgstart pgend = true) :
    (ashmemUnpin s a pgstart pgend false).2.unpinned = s.unpinned := by
  have same : (unpinLoop a (s.alloc false) ((s.unpinned a).length + 1) pgstart pgend false
      (s.unpinned a) s.lru).2.1 = s.unpinned a := by
    unfold unpinLoop
    cases pass : unpinPass pgstart pgend (s.unpinned a) with
    | done => rfl
    | insert => rfl
    | merge range => exact absurd pass (unpinPass_not_merge none)
  unfold ashmemUnpin Areas.put
  simp only [same]
  exact update_eq_self a s.unpinned

theorem Remembers.pin (remembers : Remembers s spec) (valid : pgstart ≤ pgend + 1)
    (memory : allocated = false → ∀ r ∈ s.unpinned a, r.purged = true → ¬r.Hole pgstart pgend) :
    ((spec a ∩ Set.Icc pgstart pgend).Nonempty →
        (ashmemPin s a pgstart pgend allocated).1 = true) ∧
      Remembers (ashmemPin s a pgstart pgend allocated).2
        (Function.update spec a (spec a \ Set.Icc pgstart pgend)) := by
  obtain ⟨consistent, pinned, others⟩ := remembers.consistent.pin (a := a) valid allocated
  refine ⟨?_, consistent, fun b => ?_⟩
  · rintro ⟨p, lost, inside⟩
    exact pinLoop_purged (remembers.consistent.descending a) (remembers.purged a lost) inside
  by_cases same : b = a
  · subst same
    rw [update_self]
    rintro p ⟨lost, outside⟩
    refine (pinned.pages _ (fun r mem flag hole => ?_) p).mpr ⟨remembers.purged b lost, outside⟩
    unfold Areas.alloc
    cases allocated with
    | false => exact absurd hole (memory rfl r mem flag)
    | true => simp
  · rw [update_of_ne same, others b same]
    exact remembers.purged b

theorem Remembers.unpin (remembers : Remembers s spec) (valid : pgstart ≤ pgend + 1)
    (memory : allocated = false → ∀ r ∈ s.unpinned a, r.meetsPages pgstart pgend = true →
      r.subsumesPages pgstart pgend = true) :
    Remembers (ashmemUnpin s a pgstart pgend allocated).2 spec := by
  obtain ⟨consistent, ended, others⟩ := remembers.consistent.unpin (a := a) valid allocated
  refine ⟨consistent, fun b => ?_⟩
  rcases ended with ⟨failed, -⟩ | ⟨-, unpinned⟩
  · subst failed
    rw [ashmemUnpin_kept (memory rfl)]
    exact remembers.purged b
  · by_cases same : b = a
    · subst same
      exact fun p lost => unpinned.flagged p (remembers.purged b lost)
    · rw [others b same]
      exact remembers.purged b

theorem purges_implement : Implements Call.step PurgeStep Lossless Remembers := by
  intro s spec call remembers lossless
  cases call with
  | pin a pgstart pgend allocated =>
    obtain ⟨reports, remembers'⟩ := remembers.pin lossless.1 lossless.2
    exact ⟨_, ⟨⟨_, rfl, reports⟩, rfl⟩, remembers'⟩
  | unpin a pgstart pgend allocated =>
    exact ⟨spec, rfl, remembers.unpin lossless.1 lossless.2⟩
  | getPinStatus a pgstart pgend => exact ⟨spec, rfl, remembers⟩
  | shrink nrToScan gfpFs =>
    obtain ⟨answer, cuts, s', run, purged, answered⟩ :=
      remembers.consistent.ashmemShrink nrToScan gfpFs
    have step : (Call.shrink nrToScan gfpFs).step s = (answer, s') := run
    rw [step]
    have flagged : ∀ a, spec a ∪ cutPages cuts a ⊆ purgedPages (s'.unpinned a) := by
      rintro a p (lost | cut)
      · exact (purged.purgedPages a p).mpr (.inl (remembers.purged a lost))
      · exact (purged.purgedPages a p).mpr (.inr cut)
    rcases answered with ⟨rfl, rfl⟩ | rfl
    · refine ⟨spec, .inl ⟨rfl, rfl⟩, purged.consistent, fun a => ?_⟩
      exact Set.subset_union_left.trans (flagged a)
    · exact ⟨_, .inr ⟨_, cuts, rfl, rfl⟩, purged.consistent, flagged⟩

/-- Every unpin that fails leaves the ranges of its area, and their flags. -/
def FailuresKeep : List Call → Areas → Prop
  | [], _ => True
  | call :: calls, s =>
    (∀ a pgstart pgend allocated, call = .unpin a pgstart pgend allocated →
      (call.step s).1 = .unpinned false → (call.step s).2.unpinned a = s.unpinned a) ∧
    FailuresKeep calls (call.step s).2

theorem failuresKeep_of_admits {calls : List Call}
    (remembers : Remembers s spec) (lossless : Admits Call.step Lossless calls s) :
    FailuresKeep calls s := by
  induction calls generalizing s spec with
  | nil => trivial
  | cons call calls ih =>
    obtain ⟨here, later⟩ := lossless
    obtain ⟨spec', -, remembers'⟩ := purges_implement s spec call remembers here
    refine ⟨?_, ih remembers' later⟩
    rintro a pgstart pgend allocated rfl failed
    obtain ⟨-, ended, -⟩ := remembers.consistent.unpin (a := a) here.1 allocated
    rcases ended with ⟨none, -⟩ | ⟨done, -⟩
    · subst none
      exact congrFun (ashmemUnpin_kept (here.2 rfl)) a
    · have answer : Answer.unpinned (ashmemUnpin s a pgstart pgend allocated).1 =
          .unpinned false := failed
      rw [done] at answer
      cases answer

/-- In every run of pin, unpin and shrink calls in which no allocation fails
while a hole is made in a purged range or after ranges have been merged, a pin
that covers a page purged and not pinned since reports it, and an unpin that
fails leaves the ranges of the area as they were. -/
theorem purges_reported (calls : List Call)
    (lossless : Admits Call.step Lossless calls ashmemInit) :
    (∃ spec, SpecRun PurgeStep (fun _ => ∅) calls (answers Call.step calls ashmemInit).1 spec) ∧
      FailuresKeep calls ashmemInit := by
  have start : Remembers ashmemInit fun _ => ∅ := ⟨consistent_init, fun _ => Set.empty_subset _⟩
  obtain ⟨spec, run, -⟩ := purges_implement.run start lossless
  exact ⟨⟨spec, run⟩, failuresKeep_of_admits start lossless⟩

/-- Allocations fail, but not at the wrong moment: a hole in a range that is not
purged, and an unpin of pages that are pinned. -/
def failingCalls : List Call :=
  [.unpin 0 0 9 true, .pin 0 3 5 false, .unpin 0 20 21 false, .shrink 1 true, .pin 0 0 0 false]

theorem purges_reported_failingCalls :
    (∃ spec, SpecRun PurgeStep (fun _ => ∅) failingCalls
        (answers Call.step failingCalls ashmemInit).1 spec) ∧
      FailuresKeep failingCalls ashmemInit :=
  purges_reported failingCalls (by decide +kernel)

/-! ### A purge that is forgotten -/

/-- A hole is made in a purged range while there is no memory. -/
def holeWithoutMemory : List Call :=
  [.unpin 0 0 9 true, .shrink 10 true, .pin 0 3 5 false, .pin 0 7 7 true]

/-- Two ranges are merged while there is no memory. -/
def mergeWithoutMemory : List Call :=
  [.unpin 0 0 1 true, .unpin 0 1 2 false]

/-- Page 7 is purged with the pages 0 to 9, and the last pin, the first one to
cover it, does not say so: the pin of the pages 3 to 5 left no range above them.
And an unpin that fails has taken the range of the pages 0 and 1 off the list. -/
theorem purge_forgotten :
    (answers Call.step holeWithoutMemory ashmemInit).1 =
        [.unpinned true, .counted 0 [{ asma := 0, pgstart := 0, pgend := 9 }], .pinned true,
          .pinned false] ∧
      (¬∃ spec, SpecRun PurgeStep (fun _ => ∅) holeWithoutMemory
        (answers Call.step holeWithoutMemory ashmemInit).1 spec) ∧
      (answers Call.step mergeWithoutMemory ashmemInit).1 = [.unpinned true, .unpinned false] ∧
      ¬FailuresKeep mergeWithoutMemory ashmemInit := by
  refine (and_iff_left_of_imp fun results => ⟨?_, by decide +kernel, ?_⟩).mpr (by decide +kernel)
  · rw [results]
    rintro ⟨spec, run⟩
    obtain _ | ⟨unpin, _ | ⟨shrink, _ | ⟨hole, _ | ⟨last, -⟩⟩⟩⟩ := run
    cases unpin
    obtain ⟨refused, -⟩ | ⟨count, cuts, counted, rfl⟩ := shrink
    · cases refused
    cases counted
    obtain ⟨-, rfl⟩ := hole
    obtain ⟨⟨purged, answer, reports⟩, -⟩ := last
    cases answer
    refine absurd (reports ⟨7, ?_, by simp⟩) (by simp)
    simp [cutPages]
  · rintro ⟨-, second, -⟩
    have kept := second 0 1 2 false rfl (by decide +kernel)
    have changed : ¬((Call.unpin 0 1 2 false).step
        ((Call.unpin 0 0 1 true).step ashmemInit).2).2.unpinned 0 =
          ((Call.unpin 0 0 1 true).step ashmemInit).2.unpinned 0 := by
      decide +kernel
    exact changed kept

end AndroidKernel.Ashmem
