import AndroidKernel.Ashmem.Tracking

/-!
Unpinning merges ranges.

Each pass of `ashmem_unpin` but the last takes a range that meets the interval
off the list and widens the interval by it. `Merging` relates the state between
two passes to the list at the start: the pages of list and interval together
are the same all along, and a purged page is on the list or in the interval,
which then carries the flag.
-/

namespace AndroidKernel.Ashmem

open List

variable {range new : AshmemRange} {ranges ranges₀ : List AshmemRange}
  {pgstart pgend pgstart₀ pgend₀ p : Nat} {purged : Bool}

/-! ### One pass -/

theorem AshmemRange.meetsPages_iff (weak : range.pgstart ≤ range.pgend + 1) :
    range.meetsPages pgstart pgend = true →
      pgstart ≤ pgend + 1 → range.pgstart ≤ pgend + 1 ∧ pgstart ≤ range.pgend + 1 := by
  unfold AshmemRange.meetsPages AshmemRange.subsumedByPages AshmemRange.hasPage
  simp only [Bool.or_eq_true, Bool.and_eq_true, decide_eq_true_eq]
  omega

theorem unpinPass_done (done : unpinPass pgstart pgend ranges = .done) :
    ∃ r ∈ ranges, r.pgstart ≤ pgstart ∧ pgend ≤ r.pgend := by
  induction ranges with
  | nil => simp [unpinPass] at done
  | cons range ranges ih =>
    unfold unpinPass at done
    split at done
    · cases done
    · split at done
      · rename_i subsumes
        unfold AshmemRange.subsumesPages at subsumes
        simp only [Bool.and_eq_true, decide_eq_true_eq] at subsumes
        exact ⟨range, List.mem_cons_self, subsumes⟩
      · split at done
        · cases done
        · obtain ⟨r, mem, subsumes⟩ := ih done
          exact ⟨r, List.mem_cons_of_mem _ mem, subsumes⟩

theorem unpinPass_merge (merge : unpinPass pgstart pgend ranges = .merge range) :
    range ∈ ranges ∧ range.meetsPages pgstart pgend = true := by
  induction ranges with
  | nil => simp [unpinPass] at merge
  | cons first ranges ih =>
    unfold unpinPass at merge
    split at merge
    · cases merge
    · grind

/-- At the insertion point the list falls into the ranges after the interval and
those before it. -/
theorem unpinPass_insert (descending : Descending ranges)
    (insert : unpinPass pgstart pgend ranges = .insert) (new : AshmemRange) :
    ∃ front back, ranges = front ++ back ∧
      insertRange pgstart new ranges = front ++ new :: back ∧
      (∀ r ∈ front, pgend < r.pgstart) ∧ ∀ r ∈ back, r.pgend < pgstart := by
  induction ranges with
  | nil => exact ⟨[], [], rfl, rfl, by simp, by simp⟩
  | cons range ranges ih =>
    obtain ⟨below, weak, behind⟩ := descending_cons.mp descending
    unfold unpinPass at insert
    unfold insertRange
    by_cases before : range.beforePage pgstart = true
    · rw [if_pos before]
      unfold AshmemRange.beforePage at before
      rw [decide_eq_true_eq] at before
      refine ⟨[], range :: ranges, rfl, rfl, by simp, fun r mem => ?_⟩
      rcases mem_cons.mp mem with rfl | mem
      · exact before
      · have := below r mem
        omega
    rw [if_neg before] at insert ⊢
    split at insert
    · cases insert
    split at insert
    · cases insert
    rename_i meets
    obtain ⟨front, back, split, inserted, after, before'⟩ := ih behind insert
    refine ⟨range :: front, back, by rw [split]; rfl, by rw [inserted]; rfl, ?_, before'⟩
    intro r mem
    rcases mem_cons.mp mem with rfl | mem
    · unfold AshmemRange.beforePage AshmemRange.meetsPages AshmemRange.subsumedByPages
        AshmemRange.hasPage at *
      simp only [Bool.or_eq_true, Bool.and_eq_true, decide_eq_true_eq] at before meets
      omega
    · exact after r mem

/-! ### Taking a range off the list -/

/-- The pages of a range are not pages of another one. -/
theorem Descending.not_mem_erase (descending : Descending ranges) (mem : range ∈ ranges)
    (has : range.Has p) : p ∉ pages (ranges.erase range) := by
  induction ranges with
  | nil => simp at mem
  | cons first ranges ih =>
    obtain ⟨below, weak, behind⟩ := descending_cons.mp descending
    unfold AshmemRange.Has at has
    by_cases same : first = range
    · rw [same, erase_cons_head]
      intro other
      have := lt_of_mem_pagesWhere below other
      rw [same] at this
      omega
    have mem' : range ∈ ranges := by
      rcases mem_cons.mp mem with here | later
      · exact absurd here.symm same
      · exact later
    have := below range mem'
    rw [erase_cons_tail (by simpa using same)]
    intro other
    rcases mem_pagesWhere_cons.mp other with ⟨-, has'⟩ | other
    · unfold AshmemRange.Has at has'
      omega
    · exact ih behind mem' other

theorem Descending.sublist {ranges' : List AshmemRange} (descending : Descending ranges)
    (sublist : ranges'.Sublist ranges) : Descending ranges' :=
  ⟨descending.order.sublist sublist, fun r mem => descending.weak r (sublist.subset mem)⟩

theorem mem_pagesWhere_erase {P : Bool → Prop} (mem : range ∈ ranges) :
    p ∈ pagesWhere P ranges ↔
      (P range.purged ∧ range.Has p) ∨ p ∈ pagesWhere P (ranges.erase range) := by
  rw [← mem_pagesWhere_cons]
  have perm := perm_cons_erase mem
  constructor
  · rintro ⟨r, here, rest⟩
    exact ⟨r, perm.subset here, rest⟩
  · rintro ⟨r, here, rest⟩
    exact ⟨r, perm.symm.subset here, rest⟩

/-! ### Between the passes -/

structure Merging (ranges₀ : List AshmemRange) (pgstart₀ pgend₀ pgstart pgend : Nat)
    (purged : Bool) (ranges : List AshmemRange) : Prop where
  sublist : ranges.Sublist ranges₀
  valid : pgstart ≤ pgend + 1
  full : pgstart₀ ≤ pgend₀ → pgstart ≤ pgend
  pages : ∀ p, (p ∈ pages ranges ∨ (pgstart ≤ p ∧ p ≤ pgend)) ↔
    (p ∈ Ashmem.pages ranges₀ ∨ (pgstart₀ ≤ p ∧ p ≤ pgend₀))
  flagged : ∀ p, p ∈ purgedPages ranges₀ → p ∈ purgedPages ranges ∨
    (purged = true ∧ (pgstart ≤ p ∧ p ≤ pgend) ∧ p ∉ Ashmem.pages ranges)

theorem Merging.start (valid : pgstart₀ ≤ pgend₀ + 1) :
    Merging ranges₀ pgstart₀ pgend₀ pgstart₀ pgend₀ false ranges₀ :=
  ⟨List.Sublist.refl _, valid, id, fun _ => Iff.rfl, fun _ mem => .inl mem⟩

section

variable (merging : Merging ranges₀ pgstart₀ pgend₀ pgstart pgend purged ranges) (descending : Descending ranges₀)

include merging descending

theorem Merging.merge (mem : range ∈ ranges) (meets : range.meetsPages pgstart pgend = true) :
    Merging ranges₀ pgstart₀ pgend₀ (min range.pgstart pgstart) (max range.pgend pgend)
      (purged || range.purged) (ranges.erase range) := by
  have here := descending.sublist merging.sublist
  have weak := here.weak range mem
  have valid := merging.valid
  obtain ⟨near, near'⟩ := AshmemRange.meetsPages_iff weak meets valid
  -- The widened interval has the pages of both, since they meet.
  have both : ∀ p, (min range.pgstart pgstart ≤ p ∧ p ≤ max range.pgend pgend) ↔
      (range.Has p ∨ (pgstart ≤ p ∧ p ≤ pgend)) := by
    intro p
    unfold AshmemRange.meetsPages AshmemRange.subsumedByPages AshmemRange.hasPage at meets
    simp only [Bool.or_eq_true, Bool.and_eq_true, decide_eq_true_eq] at meets
    unfold AshmemRange.Has
    omega
  constructor
  · exact erase_sublist.trans merging.sublist
  · omega
  · intro full
    have := merging.full full
    omega
  · intro p
    rw [← merging.pages p, both p]
    unfold Ashmem.pages
    rw [mem_pagesWhere_erase mem]
    tauto
  · intro p old
    rw [both p]
    rcases merging.flagged p old with listed | ⟨flag, inside, off⟩
    · grind [purgedPages, mem_pagesWhere_erase, Descending.not_mem_erase]
    · refine .inr ⟨by simp [flag], .inr inside, fun other => off ?_⟩
      unfold Ashmem.pages at other ⊢
      exact (mem_pagesWhere_erase mem).mpr (.inr other)

/-! ### The result -/

/-- What `ashmem_unpin` leaves when it succeeds. -/
structure Unpinned (pgstart pgend : Nat) (ranges ranges' : List AshmemRange) : Prop where
  descending : Descending ranges'
  full : pgstart ≤ pgend → (∀ r ∈ ranges, r.pgstart ≤ r.pgend) → ∀ r ∈ ranges', r.pgstart ≤ r.pgend
  pages : ∀ p, p ∈ pages ranges' ↔ p ∈ pages ranges ∨ (pgstart ≤ p ∧ p ≤ pgend)
  flagged : ∀ p, p ∈ purgedPages ranges → p ∈ purgedPages ranges'

theorem Merging.done (done : unpinPass pgstart pgend ranges = .done) :
    Unpinned pgstart₀ pgend₀ ranges₀ ranges := by
  obtain ⟨r, mem, starts, ends⟩ := unpinPass_done done
  have inside : ∀ p, pgstart ≤ p ∧ p ≤ pgend → p ∈ Ashmem.pages ranges := fun p between =>
    ⟨r, mem, trivial, starts.trans between.1, between.2.trans ends⟩
  constructor
  · exact descending.sublist merging.sublist
  · intro _ full r mem
    exact full r (merging.sublist.subset mem)
  · intro p
    rw [← merging.pages p]
    exact ⟨.inl, fun either => either.elim id (inside p)⟩
  · intro p old
    rcases merging.flagged p old with listed | ⟨-, between, off⟩
    · exact listed
    · exact absurd (inside p between) off

theorem Merging.insert {id : Nat} (insert : unpinPass pgstart pgend ranges = .insert) :
    Unpinned pgstart₀ pgend₀ ranges₀ (insertRange pgstart
      { id := id, pgstart := pgstart, pgend := pgend, purged := purged } ranges) := by
  have here := descending.sublist merging.sublist
  obtain ⟨front, back, split, inserted, after, before⟩ :=
    unpinPass_insert here insert
      { id := id, pgstart := pgstart, pgend := pgend, purged := purged }
  rw [inserted]
  have same : ∀ (P : Bool → Prop) p, p ∈ pagesWhere P ranges ↔
      p ∈ pagesWhere P front ∨ p ∈ pagesWhere P back := by
    intro P p
    rw [split, mem_pagesWhere_append]
  rw [split] at here
  obtain ⟨first, second, between⟩ := descending_append.mp here
  constructor
  · grind [descending_append, descending_cons, mem_cons.mp, → Merging.valid]
  · intro full all r mem
    have old : ∀ r ∈ front ++ back, r.pgstart ≤ r.pgend := fun r mem =>
      all r (merging.sublist.subset (split ▸ mem))
    rcases mem_append.mp mem with mem | mem
    · exact old r (mem_append_left _ mem)
    · rcases mem_cons.mp mem with rfl | mem
      · exact merging.full full
      · exact old r (mem_append_right _ mem)
  · intro p
    rw [← merging.pages p]
    unfold Ashmem.pages
    rw [mem_pagesWhere_append, mem_pagesWhere_cons, same]
    unfold AshmemRange.Has
    tauto
  · intro p old
    unfold purgedPages
    rw [mem_pagesWhere_append, mem_pagesWhere_cons]
    rcases merging.flagged p old with listed | ⟨flag, inside, -⟩
    · rcases (same _ p).mp listed with mem | mem
      · exact .inl mem
      · exact .inr (.inr mem)
    · exact .inr (.inl ⟨flag, inside⟩)

/-! ### All passes -/

variable {asma : Nat} {alloc : Option Nat}

/-- The two ways `ashmem_unpin` can end. With a failed allocation the ranges
that were merged are gone. -/
theorem Merging.unpinLoop {fuel : Nat}
    (fuelled : ranges.length < fuel) (asma : Nat) (alloc : Option Nat) (lru : Lru) :
    (alloc = none ∧ (unpinLoop asma alloc fuel pgstart pgend purged ranges lru).1 = false ∧
        (unpinLoop asma alloc fuel pgstart pgend purged ranges lru).2.1.Sublist ranges) ∨
      ((unpinLoop asma alloc fuel pgstart pgend purged ranges lru).1 = true ∧
        Unpinned pgstart₀ pgend₀ ranges₀
          (unpinLoop asma alloc fuel pgstart pgend purged ranges lru).2.1) := by
  induction fuel generalizing pgstart pgend purged ranges lru with
  | zero => omega
  | succ fuel ih =>
    unfold Ashmem.unpinLoop
    cases pass : unpinPass pgstart pgend ranges with
    | done => exact .inr ⟨rfl, merging.done descending pass⟩
    | insert => grind [Merging.insert]
    | merge range =>
      obtain ⟨mem, meets⟩ := unpinPass_merge pass
      have shorter : (ranges.erase range).length < fuel := by grind
      simp only
      rcases ih (merging.merge descending mem meets) shorter _ with ⟨none, failed, sub⟩ | ended
      · exact .inl ⟨none, failed, sub.trans erase_sublist⟩
      · exact .inr ended

end

theorem insertRange_perm (pgstart : Nat) (new : AshmemRange) (ranges : List AshmemRange) :
    (new :: ranges).Perm (insertRange pgstart new ranges) := by
  induction ranges with
  | nil => exact .refl _
  | cons range ranges ih =>
    unfold insertRange
    split
    · exact .refl _
    · exact (List.Perm.swap _ _ _).trans (ih.cons _)

theorem Tracks.unpinLoop {others : List RangeRef} {base : BitVec 32} {lru : Lru}
    (tracks : Tracks asma others base ranges lru) (alloc : Option Nat)
    (fuel pgstart pgend : Nat) (purged : Bool) :
    Tracks asma others base (unpinLoop asma alloc fuel pgstart pgend purged ranges lru).2.1
      (unpinLoop asma alloc fuel pgstart pgend purged ranges lru).2.2 := by
  induction fuel generalizing pgstart pgend purged ranges lru with
  | zero => exact tracks
  | succ fuel ih =>
    unfold Ashmem.unpinLoop
    cases pass : unpinPass pgstart pgend ranges with
    | done => exact tracks
    | insert =>
      cases alloc with
      | none => exact tracks
      | some id => exact (tracks.add _).perm (insertRange_perm _ _ _)
    | merge range =>
      have mem := (unpinPass_merge pass).1
      exact ih (tracks.perm (perm_cons_erase mem)).del _ _ _

theorem unpinLoop_ids {fuel : Nat} {lru : Lru} (nodup : (ranges.map AshmemRange.id).Nodup)
    (fresh : ∀ r ∈ ranges, alloc ≠ some r.id) :
    ((unpinLoop asma alloc fuel pgstart pgend purged ranges lru).2.1.map AshmemRange.id).Nodup ∧
      ∀ r ∈ (unpinLoop asma alloc fuel pgstart pgend purged ranges lru).2.1,
        (∃ r₀ ∈ ranges, r₀.id = r.id) ∨ alloc = some r.id := by
  induction fuel generalizing pgstart pgend purged ranges lru with
  | zero => exact ⟨nodup, fun r mem => .inl ⟨r, mem, rfl⟩⟩
  | succ fuel ih =>
    unfold unpinLoop
    cases pass : unpinPass pgstart pgend ranges with
    | done => exact ⟨nodup, fun r mem => .inl ⟨r, mem, rfl⟩⟩
    | insert =>
      cases alloc with
      | none => exact ⟨nodup, fun r mem => .inl ⟨r, mem, rfl⟩⟩
      | some id =>
        have perm := insertRange_perm pgstart
          { id := id, pgstart := pgstart, pgend := pgend, purged := purged } ranges
        constructor
        · grind
        · grind
    | merge range => grind

end AndroidKernel.Ashmem
