import AndroidKernel.Ashmem.Unpinning

/-!
The lists of all areas and the LRU list together.

`Consistent` is what holds between any two calls: descending lists, and an LRU
list of exactly the ranges that are not purged, with the count of their pages.
A change to one area that keeps `Tracks` keeps it (`Consistent.update`); the
purges of `ashmem_shrink` are such changes, one range at a time.
-/

namespace AndroidKernel.Ashmem

open List Function

/-- The number of pages of the range that a reference is to. -/
def Areas.sizeOf (s : Areas) (ref : RangeRef) : Nat :=
  ((s.range? ref).map AshmemRange.size).getD 0

structure Consistent (s : Areas) : Prop where
  descending : ∀ a, Descending (s.unpinned a)
  ids : ∀ a, ((s.unpinned a).map AshmemRange.id).Nodup
  old : ∀ a, ∀ r ∈ s.unpinned a, r.id < s.fresh
  nodup : s.lru.refs.Nodup
  live : ∀ ref, ref ∈ s.lru.refs ↔ ∃ r ∈ s.unpinned ref.asma, r.id = ref.id ∧ r.purged = false
  count : s.lru.count = BitVec.ofNat 32 (s.lru.refs.map s.sizeOf).sum

theorem consistent_init : Consistent ashmemInit where
  descending := fun _ => .nil
  ids := fun _ => nodup_nil
  old := fun _ r mem => absurd mem (by simp [ashmemInit])
  nodup := nodup_nil
  live := fun ref => by simp [ashmemInit]
  count := rfl

variable {s : Areas} {a : Nat} {range : AshmemRange} {ranges : List AshmemRange}

/-! ### References -/

theorem find_id (nodup : (ranges.map AshmemRange.id).Nodup) (mem : range ∈ ranges) :
    (ranges.find? fun r => r.id = range.id) = some range := by
  induction ranges with
  | nil => simp at mem
  | cons first ranges ih => grind

theorem mem_liveRefs {ref : RangeRef} : ref ∈ liveRefs a ranges ↔
    ref.asma = a ∧ ∃ r ∈ ranges, r.id = ref.id ∧ r.purged = false := by
  unfold liveRefs AshmemRange.onLru
  simp only [mem_map, mem_filter, Bool.not_eq_true']
  constructor
  · rintro ⟨r, ⟨mem, live⟩, rfl⟩
    exact ⟨rfl, r, mem, rfl, live⟩
  · rintro ⟨rfl, r, mem, same, live⟩
    exact ⟨r, ⟨mem, live⟩, by rw [same]⟩

theorem nodup_liveRefs (nodup : (ranges.map AshmemRange.id).Nodup) : (liveRefs a ranges).Nodup := by
  unfold liveRefs
  have ids : ((ranges.filter AshmemRange.onLru).map AshmemRange.id).Nodup :=
    nodup.sublist (filter_sublist.map _)
  refine List.Nodup.of_map RangeRef.id ?_
  rw [map_map]
  exact ids

/-- The sizes of an area's references add up to its live size. -/
theorem sum_liveRefs (nodup : ((s.unpinned a).map AshmemRange.id).Nodup) :
    ((liveRefs a (s.unpinned a)).map s.sizeOf).sum = liveSize (s.unpinned a) := by
  unfold liveRefs liveSize
  rw [map_map]
  congr 1
  refine map_congr_left fun r mem => ?_
  have found := find_id nodup (mem_filter.mp mem).1
  simp only [comp_apply, Areas.sizeOf, Areas.range?, found, Option.map_some,
    Option.getD_some]

/-! ### One area at a time -/

/-- What other areas have on the LRU list. -/
def otherRefs (s : Areas) (a : Nat) : List RangeRef := s.lru.refs.filter fun ref => ref.asma ≠ a

theorem Consistent.tracks (consistent : Consistent s) (a : Nat) :
    Tracks a (otherRefs s a) (BitVec.ofNat 32 ((otherRefs s a).map s.sizeOf).sum)
      (s.unpinned a) s.lru := by
  have own : (s.lru.refs.filter fun ref => ¬ref.asma ≠ a).Perm (liveRefs a (s.unpinned a)) := by
    refine (List.perm_ext_iff_of_nodup (consistent.nodup.filter _)
      (nodup_liveRefs (consistent.ids a))).mpr fun ref => ?_
    rw [mem_liveRefs, List.mem_filter, consistent.live]
    simp only [ne_eq, not_not, decide_eq_true_eq]
    constructor
    · rintro ⟨found, rfl⟩
      exact ⟨rfl, found⟩
    · rintro ⟨rfl, found⟩
      exact ⟨found, rfl⟩
  have parts : s.lru.refs.Perm (otherRefs s a ++ liveRefs a (s.unpinned a)) := by
    refine (List.filter_append_perm (fun ref : RangeRef => ref.asma ≠ a) s.lru.refs).symm.trans ?_
    unfold otherRefs
    refine List.Perm.append_left _ ?_
    simpa only [decide_not, Bool.not_not] using own
  refine ⟨parts, ?_⟩
  rw [consistent.count, (parts.map s.sizeOf).sum_eq, List.map_append, List.sum_append,
    sum_liveRefs (consistent.ids a), BitVec.ofNat_add]

/-- A change to the list of one area. -/
theorem Consistent.update {s' : Areas} (consistent : Consistent s)
    (unpinned : s'.unpinned = Function.update s.unpinned a ranges)
    (tracks : Tracks a (otherRefs s a) (BitVec.ofNat 32 ((otherRefs s a).map s.sizeOf).sum) ranges
      s'.lru)
    (descending : Descending ranges) (ids : (ranges.map AshmemRange.id).Nodup)
    (old : ∀ r ∈ ranges, r.id < s'.fresh) (later : s.fresh ≤ s'.fresh) : Consistent s' := by
  have here : s'.unpinned a = ranges := by rw [unpinned, update_self]
  have there : ∀ b, b ≠ a → s'.unpinned b = s.unpinned b := fun b differs => by
    rw [unpinned, update_of_ne differs]
  have others : ∀ ref, ref ∈ otherRefs s a ↔ ref ∈ s.lru.refs ∧ ref.asma ≠ a := by
    intro ref
    simp [otherRefs]
  have all : ∀ P : List AshmemRange → Prop, P ranges → (∀ b, P (s.unpinned b)) →
      ∀ b, P (s'.unpinned b) := by grind
  constructor
  · exact all _ descending consistent.descending
  · exact all (fun l => (l.map AshmemRange.id).Nodup) ids consistent.ids
  · grind [→ Consistent.old]
  · refine tracks.refs.nodup_iff.mpr (nodup_append.mpr
      ⟨consistent.nodup.filter _, nodup_liveRefs ids, ?_⟩)
    intro ref mem ref' mem' same
    exact ((others ref).mp mem).2 (same ▸ (mem_liveRefs.mp mem').1)
  · intro ref
    rw [tracks.refs.mem_iff, mem_append, others, mem_liveRefs, consistent.live]
    by_cases same : ref.asma = a
    · simp [same, here]
    · simp [same, there ref.asma same]
  · have kept : ∀ ref ∈ otherRefs s a, s'.sizeOf ref = s.sizeOf ref := by
      intro ref mem
      unfold Areas.sizeOf Areas.range?
      rw [there ref.asma ((others ref).mp mem).2]
    have own := sum_liveRefs (s := s') (a := a) (by rw [here]; exact ids)
    rw [here] at own
    rw [tracks.count, (tracks.refs.map s'.sizeOf).sum_eq, map_append, sum_append, own,
      map_congr_left kept, BitVec.ofNat_add]

/-! ### Purging a range -/

variable (id : Nat) (r : AshmemRange)

@[simp] theorem purgeId_pgstart : (purgeId id r).pgstart = r.pgstart := by
  unfold purgeId
  split <;> rfl

@[simp] theorem purgeId_pgend : (purgeId id r).pgend = r.pgend := by
  unfold purgeId
  split <;> rfl

@[simp] theorem purgeId_id : (purgeId id r).id = r.id := by
  unfold purgeId
  split <;> rfl

theorem Descending.purge (descending : Descending ranges) (id : Nat) :
    Descending (ranges.map (purgeId id)) := by
  constructor
  · rw [pairwise_map]
    simpa using descending.order
  · intro r mem
    obtain ⟨r₀, mem₀, rfl⟩ := mem_map.mp mem
    simpa using descending.weak r₀ mem₀

theorem pages_purge : pages (ranges.map (purgeId id)) = pages ranges := by
  ext p
  simp [pages, pagesWhere, AshmemRange.Has]

theorem purgedPages_purge (nodup : (ranges.map AshmemRange.id).Nodup) (mem : range ∈ ranges)
    (p : Nat) : p ∈ purgedPages (ranges.map (purgeId range.id)) ↔
      p ∈ purgedPages ranges ∨ range.Has p := by
  unfold purgedPages pagesWhere
  simp only [mem_map, Set.mem_ofPred_eq, exists_exists_and_eq_and, AshmemRange.Has,
    purgeId_pgstart, purgeId_pgend]
  constructor
  · rintro ⟨r, here, flag, has⟩
    by_cases same : r.id = range.id
    · have : some r = some range := by
        rw [← find_id nodup here, ← find_id nodup mem, same]
      cases this
      exact .inr has
    · rw [purgeId, if_neg same] at flag
      exact .inl ⟨r, here, flag, has⟩
  · grind [purgeId]

/-- Setting the flag of one range of a list in which only it has its identity. -/
theorem map_purgeId_perm (nodup : (ranges.map AshmemRange.id).Nodup) (mem : range ∈ ranges) :
    (ranges.map (purgeId range.id)).Perm ({ range with purged := true } :: ranges.erase range) := by
  induction ranges with
  | nil => simp at mem
  | cons first ranges ih =>
    obtain ⟨here, nodup'⟩ := nodup_cons.mp nodup
    by_cases same : first = range
    · subst same
      have others : ranges.map (purgeId first.id) = ranges := by
        conv_rhs => rw [← map_id ranges]
        refine map_congr_left fun r later => ?_
        have differs : ¬r.id = first.id := fun equal =>
          here (equal ▸ mem_map_of_mem later)
        rw [purgeId, if_neg differs]
        rfl
      rw [erase_cons_head, map_cons, others, purgeId, if_pos rfl]
    · grind [erase_cons_tail, purgeId, mem_cons.mp, mem_map_of_mem]

theorem Tracks.purge {others : List RangeRef} {base : BitVec 32} {lru : Lru}
    (tracks : Tracks a others base ranges lru) (nodup : (ranges.map AshmemRange.id).Nodup)
    (mem : range ∈ ranges) (live : range.purged = false) :
    Tracks a others base (ranges.map (purgeId range.id)) (lruDel a range lru) := by
  have on_lru : range.onLru = true := by simp [AshmemRange.onLru, live]
  have deleted := (tracks.perm (perm_cons_erase mem)).del
  rw [rangeDel, if_pos on_lru] at deleted
  exact ((tracks_cons_purged rfl).mpr deleted).perm (map_purgeId_perm nodup mem).symm

/-! ### Shrinking -/

/-- The pages of some truncations of an area. -/
def cutPages (cuts : List Truncation) (a : Nat) : Set Nat :=
  { p | ∃ cut ∈ cuts, cut.asma = a ∧ cut.pgstart ≤ p ∧ p ≤ cut.pgend }

/-- What a purge leaves. -/
structure Purged (s : Areas) (cuts : List Truncation) (s' : Areas) : Prop where
  consistent : Consistent s'
  full : (∀ a, ∀ r ∈ s.unpinned a, r.pgstart ≤ r.pgend) →
    ∀ a, ∀ r ∈ s'.unpinned a, r.pgstart ≤ r.pgend
  pages : ∀ a, pages (s'.unpinned a) = pages (s.unpinned a)
  purgedPages : ∀ a p, p ∈ purgedPages (s'.unpinned a) ↔
    p ∈ purgedPages (s.unpinned a) ∨ p ∈ cutPages cuts a

section

variable (consistent : Consistent s)
include consistent

theorem Purged.nothing : Purged s [] s where
  consistent := consistent
  full := id
  pages := fun _ => rfl
  purgedPages := fun a p => by simp [cutPages]

omit consistent in
theorem Purged.trans {s' s'' : Areas} {cuts cuts' : List Truncation} (first : Purged s cuts s')
    (second : Purged s' cuts' s'') : Purged s (cuts ++ cuts') s'' where
  consistent := second.consistent
  full := fun full => second.full (first.full full)
  pages := fun a => (second.pages a).trans (first.pages a)
  purgedPages := fun a p => by
    rw [second.purgedPages, first.purgedPages, or_assoc]
    refine or_congr_right ?_
    simp [cutPages, or_and_right, exists_or]

/-- A range that is not purged becomes purged and leaves the LRU list. -/
theorem Consistent.purge_range {s' : Areas} (mem : range ∈ s.unpinned a)
    (live : range.purged = false) (unpinned : s'.unpinned =
      Function.update s.unpinned a ((s.unpinned a).map (purgeId range.id)))
    (lru : s'.lru = lruDel a range s.lru) (fresh : s'.fresh = s.fresh) :
    Purged s [{ asma := a, pgstart := range.pgstart, pgend := range.pgend }] s' := by
  have ids := consistent.ids a
  have here : s'.unpinned a = (s.unpinned a).map (purgeId range.id) := by
    rw [unpinned, update_self]
  have there : ∀ b, b ≠ a → s'.unpinned b = s.unpinned b := fun b differs => by
    rw [unpinned, update_of_ne differs]
  constructor
  · refine consistent.update unpinned ?_ ((consistent.descending a).purge _) ?_ ?_ fresh.ge
    · rw [lru]
      exact (consistent.tracks a).purge ids mem live
    · rw [map_map]
      simpa [comp_def] using ids
    · intro r later
      obtain ⟨r₀, mem₀, rfl⟩ := mem_map.mp later
      rw [purgeId_id, fresh]
      exact consistent.old a r₀ mem₀
  · intro full b r later
    by_cases same : b = a
    · rw [same, here] at later
      obtain ⟨r₀, mem₀, rfl⟩ := mem_map.mp later
      simpa using full a r₀ mem₀
    · rw [there b same] at later
      exact full b r later
  · intro b
    by_cases same : b = a
    · rw [same, here, pages_purge]
    · rw [there b same]
  · intro b p
    by_cases same : b = a
    · rw [same, here, purgedPages_purge ids mem]
      simp [cutPages, AshmemRange.Has]
    · rw [there b same]
      simp [cutPages, Ne.symm same]

/-- The range at the front of the LRU list is purged. -/
theorem Consistent.purge {ref : RangeRef} {refs : List RangeRef}
    (front : s.lru.refs = ref :: refs) :
    ∃ range, s.range? ref = some range ∧
      (lruDel ref.asma range s.lru).refs = refs ∧
      Purged s [{ asma := ref.asma, pgstart := range.pgstart, pgend := range.pgend }]
        { s with
          unpinned :=
            Function.update s.unpinned ref.asma ((s.unpinned ref.asma).map (purgeId ref.id))
          lru := lruDel ref.asma range s.lru } := by
  have on_lru : ref ∈ s.lru.refs := by
    rw [front]
    exact mem_cons_self
  obtain ⟨range, mem, same, live⟩ := (consistent.live ref).mp on_lru
  have found : s.range? ref = some range := by
    unfold Areas.range?
    rw [← same]
    exact find_id (consistent.ids ref.asma) mem
  have this : ref = { asma := ref.asma, id := range.id } := by rw [same]
  refine ⟨range, found, ?_, ?_⟩
  · unfold lruDel
    rw [front, ← this, erase_cons_head]
  · rw [← same]
    exact consistent.purge_range mem live rfl rfl rfl

/-- The loop of `ashmem_shrink` meets no range that is gone. -/
theorem Consistent.shrinkLoop {refs : List RangeRef} (nrToScan : BitVec 32)
    (all : s.lru.refs = refs) :
    ∃ cuts s', shrinkLoop refs nrToScan s = some (cuts, s') ∧ Purged s cuts s' := by
  induction refs generalizing s nrToScan with
  | nil => exact ⟨[], s, rfl, .nothing consistent⟩
  | cons ref refs ih =>
    obtain ⟨range, found, rest, purged⟩ := consistent.purge all
    unfold Ashmem.shrinkLoop
    simp only [found]
    split
    · exact ⟨_, _, rfl, purged⟩
    · obtain ⟨cuts, s', run, later⟩ := ih purged.consistent _ rest
      rw [run]
      exact ⟨_, _, rfl, purged.trans later⟩

theorem Consistent.ashmemShrink (nrToScan : BitVec 32) (gfpFs : Bool) :
    ∃ answer cuts s', ashmemShrink s nrToScan gfpFs = (answer, s') ∧ Purged s cuts s' ∧
      ((answer = .refused ∧ cuts = []) ∨ answer = .counted s'.lru.count cuts) := by
  unfold Ashmem.ashmemShrink
  split
  · exact ⟨_, [], s, rfl, .nothing consistent, .inl ⟨rfl, rfl⟩⟩
  split
  · exact ⟨_, [], s, rfl, .nothing consistent, .inr rfl⟩
  · obtain ⟨cuts, s', run, purged⟩ := consistent.shrinkLoop nrToScan rfl
    rw [run]
    exact ⟨_, cuts, s', rfl, purged, .inr rfl⟩

end

end AndroidKernel.Ashmem
