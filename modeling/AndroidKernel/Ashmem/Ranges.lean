import AndroidKernel.Ashmem.Area

/-!
Descending lists of ranges.

An area's list is descending: each range ends before the one in front of it
starts. `pagesWhere P` are the pages of the ranges whose purge flag has `P`, so
that all unpinned pages and the purged ones are two cases of one definition.
Pinning cuts an interval out of both.
-/

namespace AndroidKernel.Ashmem

open List

/-- The range has the page. -/
def AshmemRange.Has (range : AshmemRange) (page : Nat) : Prop :=
  range.pgstart ≤ page ∧ page ≤ range.pgend

/-- Ranges in descending order. A range may be empty, but not reach further
back. -/
structure Descending (ranges : List AshmemRange) : Prop where
  order : ranges.Pairwise fun r r' => r'.pgend < r.pgstart
  weak : ∀ r ∈ ranges, r.pgstart ≤ r.pgend + 1

/-- The pages of the ranges whose purge flag satisfies `P`. -/
def pagesWhere (P : Bool → Prop) (ranges : List AshmemRange) : Set Nat :=
  { p | ∃ r ∈ ranges, P r.purged ∧ r.Has p }

/-- All pages of the ranges. -/
def pages (ranges : List AshmemRange) : Set Nat := pagesWhere (fun _ => True) ranges

/-- The pages of the purged ranges. -/
def purgedPages (ranges : List AshmemRange) : Set Nat := pagesWhere (fun flag => flag = true) ranges

section Lists

variable {P : Bool → Prop} {range : AshmemRange} {ranges ranges' put : List AshmemRange}
  {pgstart pgend p : Nat} {alloc : Option Nat}

theorem Descending.nil : Descending [] := ⟨.nil, by simp⟩

theorem descending_cons : Descending (range :: ranges) ↔
    (∀ r ∈ ranges, r.pgend < range.pgstart) ∧ range.pgstart ≤ range.pgend + 1 ∧
      Descending ranges := by
  constructor
  · rintro ⟨order, weak⟩
    obtain ⟨below, order'⟩ := pairwise_cons.mp order
    exact ⟨below, weak _ mem_cons_self, order', fun r mem => weak r (mem_cons_of_mem _ mem)⟩
  · rintro ⟨below, here, order, weak⟩
    refine ⟨pairwise_cons.mpr ⟨below, order⟩, fun r mem => ?_⟩
    rcases mem_cons.mp mem with rfl | mem
    · exact here
    · exact weak r mem

theorem descending_append : Descending (put ++ ranges) ↔
    Descending put ∧ Descending ranges ∧ ∀ r ∈ put, ∀ r' ∈ ranges, r'.pgend < r.pgstart := by
  constructor
  · rintro ⟨order, weak⟩
    obtain ⟨first, second, between⟩ := pairwise_append.mp order
    exact ⟨⟨first, fun r mem => weak r (mem_append_left _ mem)⟩,
      ⟨second, fun r mem => weak r (mem_append_right _ mem)⟩, between⟩
  · rintro ⟨first, second, between⟩
    refine ⟨pairwise_append.mpr ⟨first.order, second.order, between⟩, fun r mem => ?_⟩
    rcases mem_append.mp mem with mem | mem
    · exact first.weak r mem
    · exact second.weak r mem

@[simp] theorem mem_pagesWhere_nil : p ∈ pagesWhere P [] ↔ False := by
  simp [pagesWhere]

@[simp] theorem mem_pagesWhere_cons : p ∈ pagesWhere P (range :: ranges) ↔
    (P range.purged ∧ range.Has p) ∨ p ∈ pagesWhere P ranges := by
  simp [pagesWhere]

@[simp] theorem mem_pagesWhere_append : p ∈ pagesWhere P (put ++ ranges) ↔
    p ∈ pagesWhere P put ∨ p ∈ pagesWhere P ranges := by
  simp [pagesWhere, or_and_right, exists_or]

theorem lt_of_mem_pagesWhere {bound : Nat} (below : ∀ r ∈ ranges, r.pgend < bound)
    (mem : p ∈ pagesWhere P ranges) : p < bound := by
  obtain ⟨r, here, -, has⟩ := mem
  exact Nat.lt_of_le_of_lt has.2 (below r here)

/-! ### One range -/

/-- The interval lies strictly inside the range. -/
def AshmemRange.Hole (range : AshmemRange) (pgstart pgend : Nat) : Prop :=
  range.pgstart < pgstart ∧ pgend < range.pgend

instance decidableHole (range : AshmemRange) (pgstart pgend : Nat) :
    Decidable (range.Hole pgstart pgend) :=
  inferInstanceAs (Decidable (_ ∧ _))

/-- What a round of the loop leaves of a range. -/
structure Cut (pgstart pgend : Nat) (alloc : Option Nat) (range : AshmemRange)
    (put : List AshmemRange) : Prop where
  descending : Descending put
  within : ∀ r ∈ put, range.pgstart ≤ r.pgstart ∧ r.pgend ≤ range.pgend
  flags : ∀ r ∈ put, r.purged = range.purged
  full : range.pgstart ≤ range.pgend → ∀ r ∈ put, r.pgstart ≤ r.pgend
  /-- the pages of the interval are gone, and no others, unless a hole is made
  and there is no object for its upper side -/
  pages : (range.Hole pgstart pgend → alloc ≠ none) → ∀ p,
    (∃ r ∈ put, r.Has p) ↔ range.Has p ∧ ¬(pgstart ≤ p ∧ p ≤ pgend)

variable {asma : Nat} {lru : Lru}

@[simp] theorem rangeShrink_fst (start stop : Nat) :
    (rangeShrink range start stop lru).1 = { range with pgstart := start, pgend := stop } := by
  unfold rangeShrink
  simp only
  split <;> rfl

/-- What is left is one range. -/
theorem Cut.singleton {r : AshmemRange} (weak : r.pgstart ≤ r.pgend + 1)
    (within : range.pgstart ≤ r.pgstart ∧ r.pgend ≤ range.pgend) (flag : r.purged = range.purged)
    (full : range.pgstart ≤ range.pgend → r.pgstart ≤ r.pgend)
    (pages : (range.Hole pgstart pgend → alloc ≠ none) → ∀ p,
      r.Has p ↔ range.Has p ∧ ¬(pgstart ≤ p ∧ p ≤ pgend)) : Cut pgstart pgend alloc range [r] where
  descending := descending_cons.mpr ⟨by simp, weak, .nil⟩
  within := by simpa using within
  flags := by simpa using flag
  full := by simpa using full
  pages := by simpa using pages

theorem pinRange_cut (asma : Nat) (alloc : Option Nat) (lru : Lru)
    (weak : range.pgstart ≤ range.pgend + 1) (valid : pgstart ≤ pgend + 1) :
    Cut pgstart pgend alloc range (pinRange asma pgstart pgend alloc range lru).put := by
  unfold pinRange AshmemRange.beforePage AshmemRange.meetsPages AshmemRange.subsumedByPages
    AshmemRange.hasPage
  simp only [Bool.or_eq_true, Bool.and_eq_true, decide_eq_true_eq]
  split
  · -- The range ends before the interval.
    exact .singleton weak ⟨le_rfl, le_rfl⟩ rfl id fun _ p => by unfold AshmemRange.Has; omega
  split
  · split
    · constructor
      · exact .nil
      · simp
      · simp
      · simp
      · grind [AshmemRange.Has]
    simp only [rangeShrink_fst]
    split
    · refine .singleton ?_ ⟨?_, le_rfl⟩ rfl (fun _ => ?_) fun _ p => ?_
      all_goals simp only [AshmemRange.Has]; omega
    split
    · refine .singleton ?_ ⟨le_rfl, ?_⟩ rfl (fun _ => ?_) fun _ p => ?_
      all_goals simp only [AshmemRange.Has]; omega
    -- A hole.
    cases alloc with
    | none =>
      refine .singleton ?_ ⟨le_rfl, ?_⟩ rfl (fun _ => ?_) fun object => ?_
      · simp only
        omega
      · simp only
        omega
      · simp only
        omega
      · grind [AshmemRange.Hole]
    | some id =>
      constructor
      · refine descending_cons.mpr ⟨?_, ?_, descending_cons.mpr ⟨by simp, ?_, .nil⟩⟩
        · intro r mem
          rw [mem_singleton.mp mem]
          simp only
          omega
        · simp only
          omega
        · simp only
          omega
      · grind [singleton_append]
      · simp
      · grind [singleton_append]
      · intro _ p
        simp only [singleton_append, mem_cons, not_mem_nil, or_false, exists_eq_or_imp,
          exists_eq_left, AshmemRange.Has]
        omega
  · exact .singleton weak ⟨le_rfl, le_rfl⟩ rfl id fun _ p => by unfold AshmemRange.Has; omega

/-- When the loop breaks, the range does not start behind the interval's start,
so the ranges after it end before the interval. -/
theorem pinRange_stop (weak : range.pgstart ≤ range.pgend + 1)
    (stop : (pinRange asma pgstart pgend alloc range lru).stop = true) :
    range.pgstart ≤ pgstart := by
  revert stop
  unfold pinRange AshmemRange.beforePage
  simp only [decide_eq_true_eq]
  split
  · intro _
    omega
  · split
    · split
      · simp
      · split
        · simp
        · split
          · simp
          · intro _
            omega
    · simp

/-- The answer of a round. -/
theorem pinRange_purged (asma : Nat) (alloc : Option Nat) (lru : Lru) (has : range.Has p)
    (inside : pgstart ≤ p ∧ p ≤ pgend) :
    (pinRange asma pgstart pgend alloc range lru).purged = range.purged := by
  have meets : range.meetsPages pgstart pgend = true := by
    unfold AshmemRange.meetsPages AshmemRange.subsumedByPages AshmemRange.hasPage
    simp only [Bool.or_eq_true, Bool.and_eq_true, decide_eq_true_eq]
    unfold AshmemRange.Has at has
    omega
  have after : ¬range.beforePage pgstart = true := by
    unfold AshmemRange.beforePage AshmemRange.Has at *
    simp only [decide_eq_true_eq]
    omega
  unfold pinRange
  rw [if_neg after, if_pos meets]
  split
  · rfl
  split
  · rfl
  · split
    · rfl
    · rfl

/-- The objects of a round: the range's own, and a new one where it breaks. -/
theorem pinRange_ids (asma pgstart pgend : Nat) (alloc : Option Nat) (range : AshmemRange)
    (lru : Lru) :
    (∀ r ∈ (pinRange asma pgstart pgend alloc range lru).put, r.id = range.id ∨
        (alloc = some r.id ∧ (pinRange asma pgstart pgend alloc range lru).stop = true)) ∧
      (alloc ≠ some range.id →
        ((pinRange asma pgstart pgend alloc range lru).put.map AshmemRange.id).Nodup) := by
  unfold pinRange
  split
  · simp
  split
  · split
    · simp
    split
    · simp
    split
    · simp
    · cases alloc with
      | none => simp
      | some id => simp
  · simp

/-! ### The whole list -/

/-- What the loop of `ashmem_pin` leaves of a list. -/
structure Pinned (pgstart pgend : Nat) (alloc : Option Nat) (ranges ranges' : List AshmemRange) :
    Prop where
  descending : Descending ranges'
  within : ∀ r' ∈ ranges', ∃ r ∈ ranges, r.pgstart ≤ r'.pgstart ∧ r'.pgend ≤ r.pgend
  full : (∀ r ∈ ranges, r.pgstart ≤ r.pgend) → ∀ r ∈ ranges', r.pgstart ≤ r.pgend
  pages : ∀ P : Bool → Prop,
    (∀ r ∈ ranges, P r.purged → r.Hole pgstart pgend → alloc ≠ none) → ∀ p,
      p ∈ pagesWhere P ranges' ↔ p ∈ pagesWhere P ranges ∧ ¬(pgstart ≤ p ∧ p ≤ pgend)

/-- The pages of what is put in the place of one range. -/
theorem Cut.pagesWhere_put (cut : Cut pgstart pgend alloc range put)
    (object : P range.purged → range.Hole pgstart pgend → alloc ≠ none) :
    p ∈ pagesWhere P put ↔ (P range.purged ∧ range.Has p) ∧ ¬(pgstart ≤ p ∧ p ≤ pgend) := by
  constructor
  · rintro ⟨r, mem, flag, has⟩
    rw [cut.flags r mem] at flag
    obtain ⟨has', outside⟩ := (cut.pages (object flag) p).mp ⟨r, mem, has⟩
    exact ⟨⟨flag, has'⟩, outside⟩
  · rintro ⟨⟨flag, has⟩, outside⟩
    obtain ⟨r, mem, has'⟩ := (cut.pages (object flag) p).mpr ⟨has, outside⟩
    exact ⟨r, mem, by rw [cut.flags r mem]; exact flag, has'⟩

/-- One range is cut and the ranges behind it are pinned. -/
theorem Cut.pinned_append (cut : Cut pgstart pgend alloc range put)
    (pinned : Pinned pgstart pgend alloc ranges ranges')
    (descending : Descending (range :: ranges)) :
    Pinned pgstart pgend alloc (range :: ranges) (put ++ ranges') where
  descending := by
    refine descending_append.mpr ⟨cut.descending, pinned.descending, fun r mem r' mem' => ?_⟩
    obtain ⟨r₀, mem₀, -, ends⟩ := pinned.within r' mem'
    have below := (descending_cons.mp descending).1 r₀ mem₀
    have starts := (cut.within r mem).1
    omega
  within := by
    intro r mem
    rcases mem_append.mp mem with mem | mem
    · exact ⟨range, mem_cons_self, cut.within r mem⟩
    · obtain ⟨r₀, mem₀, inside⟩ := pinned.within r mem
      exact ⟨r₀, mem_cons_of_mem _ mem₀, inside⟩
  full := by
    intro full r mem
    rcases mem_append.mp mem with mem | mem
    · exact cut.full (full range mem_cons_self) r mem
    · exact pinned.full (fun r mem => full r (mem_cons_of_mem _ mem)) r mem
  pages := by
    intro P object p
    rw [mem_pagesWhere_append, mem_pagesWhere_cons,
      cut.pagesWhere_put (object range mem_cons_self),
      pinned.pages P (fun r mem => object r (mem_cons_of_mem _ mem)) p, or_and_right]

/-- Ranges that end before the interval stay as they are. -/
theorem Pinned.before (descending : Descending ranges) (before : ∀ r ∈ ranges, r.pgend < pgstart) :
    Pinned pgstart pgend alloc ranges ranges where
  descending := descending
  within := fun r mem => ⟨r, mem, le_rfl, le_rfl⟩
  full := id
  pages := by
    intro P _ p
    constructor
    · intro mem
      have := lt_of_mem_pagesWhere before mem
      exact ⟨mem, by omega⟩
    · exact And.left

theorem pinLoop_pinned (asma : Nat) (alloc : Option Nat) (lru : Lru)
    (descending : Descending ranges) (valid : pgstart ≤ pgend + 1) :
    Pinned pgstart pgend alloc ranges (pinLoop asma pgstart pgend alloc ranges lru).2.1 := by
  induction ranges generalizing lru with
  | nil => exact .before .nil (by simp)
  | cons range ranges ih =>
    obtain ⟨below, weak, behind⟩ := descending_cons.mp descending
    have cut := pinRange_cut asma alloc lru weak valid
    unfold pinLoop
    simp only
    split
    · rename_i stop
      have early := pinRange_stop weak stop
      refine cut.pinned_append (.before behind fun r mem => ?_) descending
      exact Nat.lt_of_lt_of_le (below r mem) early
    · exact cut.pinned_append (ih _ behind) descending

/-- A pin that covers a page of a purged range says so. -/
theorem pinLoop_purged (descending : Descending ranges) (mem : p ∈ purgedPages ranges)
    (inside : pgstart ≤ p ∧ p ≤ pgend) :
    (pinLoop asma pgstart pgend alloc ranges lru).1 = true := by
  induction ranges generalizing lru with
  | nil => exact absurd mem (by simp [purgedPages])
  | cons range ranges ih =>
    obtain ⟨below, weak, behind⟩ := descending_cons.mp descending
    unfold pinLoop
    simp only
    rcases mem_pagesWhere_cons.mp mem with ⟨flag, has⟩ | later
    · have purged := (pinRange_purged asma alloc lru has inside).trans flag
      split
      · exact purged
      · simp [purged]
    · split
      · rename_i stop
        have early := pinRange_stop weak stop
        have := lt_of_mem_pagesWhere below later
        omega
      · simp [ih behind later]

theorem pinLoop_ids (nodup : (ranges.map AshmemRange.id).Nodup)
    (new : ∀ r ∈ ranges, alloc ≠ some r.id) :
    ((pinLoop asma pgstart pgend alloc ranges lru).2.1.map AshmemRange.id).Nodup ∧
      ∀ r ∈ (pinLoop asma pgstart pgend alloc ranges lru).2.1,
        (∃ r₀ ∈ ranges, r₀.id = r.id) ∨ alloc = some r.id := by
  induction ranges generalizing lru with
  | nil => simp [pinLoop]
  | cons range ranges ih =>
    obtain ⟨here, nodup'⟩ := nodup_cons.mp nodup
    obtain ⟨own, single⟩ := pinRange_ids asma pgstart pgend alloc range lru
    have single := single (new range mem_cons_self)
    have new' : ∀ r ∈ ranges, alloc ≠ some r.id := fun r mem =>
      new r (mem_cons_of_mem _ mem)
    have other : ∀ r ∈ ranges, r.id ≠ range.id := fun r mem same =>
      here (mem_map.mpr ⟨r, mem, same⟩)
    unfold pinLoop
    simp only
    split
    · grind
    · grind

end Lists

end AndroidKernel.Ashmem
