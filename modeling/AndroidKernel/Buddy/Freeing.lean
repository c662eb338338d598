import AndroidKernel.Buddy.Lists
import AndroidKernel.Lib.Digits

/-!
Freeing a block.

`Kept s z f d` is what every call keeps: `f` is the set of free blocks, all in the zone,
and `d` pages are counted that are on no list. `freeOnePage` puts the pages of one block
among the free ones, whatever it merges the block with.
-/

namespace AndroidKernel.Buddy

open Lib Function

structure Kept (s : Span) (z : Zone) (f : Nat → Option Nat) (d : Int) : Prop where
  listed : Listed s z f
  blocks : Blocks maxOrder f
  inside : ∀ {x}, Covered f x → s.Has x
  tallied : Tallied z d

/-- A block of the zone that is on no list, with its pages free to be listed. -/
structure Loose (s : Span) (f : Nat → Option Nat) (p o : Nat) : Prop where
  aligned : 2 ^ o ∣ p
  small : o < maxOrder
  within : ∀ {x}, base x o = p → s.Has x
  free : ∀ {x}, base x o = p → ¬Covered f x

section Kept

variable {s : Span} {z : Zone} {f : Nat → Option Nat} {p o : Nat} {t : MigrateType} {d : Int}
  {never : Fault → Prop}

theorem Loose.head (loose : Loose s f p o) : ¬Covered f p := loose.free (base_of_dvd loose.aligned)

theorem Loose.has (loose : Loose s f p o) : s.Has p := loose.within (base_of_dvd loose.aligned)

theorem Kept.take (kept : Kept s z f d) (there : f p = some o) :
    Kept s (z.take p o) (update f p none) (d + 2 ^ o) where
  listed := kept.listed.take
  blocks := kept.blocks.erase p
  inside covered := kept.inside ((kept.blocks.covered_erase there).mp covered).1
  tallied := kept.tallied.take kept.listed there (kept.blocks.small there)

theorem Kept.put (kept : Kept s z f d) (loose : Loose s f p o)
    (single : o + 1 < maxOrder → f (buddy p o) ≠ some o) :
    Kept s (z.put p o t) (update f p (some o)) (d - 2 ^ o) where
  listed := kept.listed.put (kept.blocks.eq_none loose.head)
  blocks := kept.blocks.insert loose.aligned loose.small (fun _ => loose.free) single
  inside := by
    intro x covered
    rcases (kept.blocks.covered_insert loose.head).mp covered with old | own
    · exact kept.inside old
    · exact loose.within own
  tallied := kept.tallied.put loose.small

/-- Only `NR_FREE_PAGES` and the types of pageblocks change. -/
theorem Kept.adjust (kept : Kept s z f d) {z' : Zone} {e : Int} (lists : z'.freeList = z.freeList)
    (counts : z'.nrFree = z.nrFree) (pages : z'.nrFreePages = z.nrFreePages + e)
    (flags : z'.pageBuddy = z.pageBuddy) (orders : z'.pagePrivate = z.pagePrivate) :
    Kept s z' f (d + e) where
  listed := kept.listed.congr lists flags orders
  blocks := kept.blocks
  inside := kept.inside
  tallied := by
    refine ⟨fun o => ?_, ?_⟩
    · rw [counts, lists, kept.tallied.blocks]
    · rw [pages, counts, kept.tallied.pages, add_assoc]

/-- What is taken off the lists is loose. -/
theorem Kept.loose (kept : Kept s z f d) (there : f p = some o) :
    Loose s (update f p none) p o where
  aligned := kept.blocks.aligned there
  small := kept.blocks.small there
  within own := kept.inside (covered_of_mem there own)
  free own covered := ((kept.blocks.covered_erase there).mp covered).2 own

theorem wp_listDel (listed : Listed s z f) (there : f p = some o) (small : o < maxOrder)
    {post : Unit → Zone → Prop} :
    wp (listDel p) post never z ↔ post () { z with freeList := z.erased p } := by
  obtain ⟨t, member⟩ := listed.mem.mpr there
  have found : ∃ order < maxOrder, ∃ migratetype, p ∈ z.freeList order migratetype :=
    ⟨o, small, t, member⟩
  unfold listDel
  simp only [wp_bind, wp_get, wp_ite, wp_set, wp_throw, found, not_true_eq_false, false_implies,
    true_implies, and_true]
  rfl

end Kept

/-! ### Page indices -/

section Index

variable {page order : Nat}

/-- The index of a page in the largest block around it. -/
theorem base_mod (small : order < maxOrder) :
    page - page % 2 ^ maxOrder + base (page % 2 ^ maxOrder) (order + 1) = base page (order + 1) := by
  have divides : 2 ^ (order + 1) ∣ page - page % 2 ^ maxOrder :=
    (Nat.pow_dvd_pow 2 (show order + 1 ≤ maxOrder from small)).trans (Nat.dvd_sub_mod page)
  have split : page - page % 2 ^ maxOrder + page % 2 ^ maxOrder = page :=
    Nat.sub_add_cancel (Nat.mod_le ..)
  refine ((base_eq_iff (Nat.dvd_add divides dvd_base)).mpr ⟨?_, ?_⟩).symm
  · have := @base_le (page % 2 ^ maxOrder) (order + 1)
    omega
  · have := @lt_base_add (page % 2 ^ maxOrder) (order + 1)
    omega

theorem pageFindBuddy_eq (aligned : 2 ^ order ∣ page) (small : order < maxOrder) :
    pageFindBuddy page (page % 2 ^ maxOrder) order = buddy page order := by
  have alignedIdx : 2 ^ order ∣ page % 2 ^ maxOrder :=
    (Nat.dvd_mod_iff (Nat.pow_dvd_pow 2 small.le)).mpr aligned
  have whole := @base_mod page order small
  have le := Nat.mod_le page (2 ^ maxOrder)
  have flip : page % 2 ^ maxOrder ^^^ 1 <<< order = buddy (page % 2 ^ maxOrder) order := by
    rw [Nat.one_shiftLeft, buddy]
  rw [pageFindBuddy, flip]
  generalize page % 2 ^ maxOrder = idx at *
  rcases buddy_cases alignedIdx with ⟨lower, other⟩ | ⟨upper, other⟩ <;>
    rcases buddy_cases aligned with ⟨lower', other'⟩ | ⟨upper', other'⟩ <;> omega

theorem findCombinedIndex_eq {idx : Nat} (aligned : 2 ^ order ∣ idx) :
    findCombinedIndex idx order = base idx (order + 1) := by
  obtain ⟨k, rfl⟩ := aligned
  have whole : base (2 ^ order * k) (order + 1) = 2 ^ order * (k / 2 * 2) := by
    rw [base, Nat.pow_succ, Nat.mul_div_mul_left _ _ (Nat.two_pow_pos order), Nat.mul_left_comm]
  have bit : (2 ^ order * k).testBit order = k.testBit 0 := by
    rw [Nat.testBit_two_pow_mul]
    simp
  have digit : (k.testBit 0).toNat = k % 2 := Nat.toNat_testBit k 0 ▸ by simp
  rw [findCombinedIndex, Nat.one_shiftLeft, Nat.and_two_pow, bit, digit, whole,
    Nat.mul_comm (k % 2), ← Nat.mul_sub]
  congr 1
  omega

/-- Moving up one order keeps the page and its index in step. -/
theorem combined_index (aligned : 2 ^ order ∣ page) (small : order < maxOrder) :
    findCombinedIndex (page % 2 ^ maxOrder) order = base page (order + 1) % 2 ^ maxOrder ∧
      page + findCombinedIndex (page % 2 ^ maxOrder) order - page % 2 ^ maxOrder =
        base page (order + 1) := by
  have alignedIdx : 2 ^ order ∣ page % 2 ^ maxOrder :=
    (Nat.dvd_mod_iff (Nat.pow_dvd_pow 2 small.le)).mpr aligned
  have whole := @base_mod page order small
  have le := Nat.mod_le page (2 ^ maxOrder)
  have below : base (page % 2 ^ maxOrder) (order + 1) < 2 ^ maxOrder :=
    base_le.trans_lt (Nat.mod_lt _ (Nat.two_pow_pos _))
  rw [findCombinedIndex_eq alignedIdx]
  constructor
  · obtain ⟨k, multiple⟩ : 2 ^ maxOrder ∣ page - page % 2 ^ maxOrder := Nat.dvd_sub_mod page
    rw [← whole, multiple, Nat.mul_add_mod, Nat.mod_eq_of_lt below]
  · omega

end Index

/-! ### Merging -/

section Merge

variable {s : Span} {z : Zone} {f : Nat → Option Nat} {page order : Nat} {d : Int}
  {never : Fault → Prop}

/-- The test looks at a page that may be allocated, free at another order or outside the
zone: it finds exactly the free block of this order. -/
theorem wp_pageIsBuddy (kept : Kept s z f d) (own : s.Has page) {other : Nat}
    {post : Bool → Zone → Prop} :
    wp (pageIsBuddy s page other order) post never z ↔ post (decide (f other = some order)) z := by
  have home := s.own page own.1 own.2
  unfold pageIsBuddy
  simp only [wp_bind, wp_get, wp_ite, wp_pure, not_not, ne_eq]
  by_cases zone : s.zoneId page = s.zoneId other
  · have flag := kept.listed.flag (zone ▸ home)
    have answer : (z.pageBuddy other && z.pagePrivate other == order) =
        decide (f other = some order) := by
      cases there : f other with
      | none =>
        have clear : z.pageBuddy other = false := by
          rwa [there, ne_self_iff_false, iff_false, Bool.not_eq_true] at flag
        rw [clear]
        rfl
      | some o =>
        have marked : z.pageBuddy other = true := flag.mpr (there ▸ Option.some_ne_none o)
        rw [marked, kept.listed.order there, Bool.true_and, beq_eq_decide]
        simp only [Option.some.injEq]
    rw [answer]
    simp [zone]
  · have absent : f other ≠ some order := by
      intro there
      have has : s.Has other :=
        kept.inside (covered_of_mem there (base_of_dvd (kept.blocks.aligned there)))
      exact zone (home.trans (s.own other has.1 has.2).symm)
    simp [zone, absent]

/-- A loose block and its free buddy make a loose block of the next order. -/
theorem Kept.merge (kept : Kept s z f d) (loose : Loose s f page order)
    (there : f (buddy page order) = some order) (more : order + 1 < maxOrder) :
    Loose s (update f (buddy page order) none) (base page (order + 1)) (order + 1) ∧
      ∀ x, Covered (update f (buddy page order) none) x ∨
          base x (order + 1) = base page (order + 1) ↔
        Covered f x ∨ base x order = page := by
  have both := fun x => @base_succ_eq_base_iff x page order loose.aligned
  have erased := fun x => @Blocks.covered_erase _ _ _ x _ kept.blocks there
  refine ⟨⟨dvd_base, more, ?_, ?_⟩, ?_⟩
  · intro x whole
    rcases (both x).mp whole with own | other
    · exact loose.within own
    · exact kept.inside (covered_of_mem there other)
  · grind [→ Loose.free]
  · intro x
    rw [both, erased]
    constructor
    · rintro (⟨covered, -⟩ | own | other)
      · exact .inl covered
      · exact .inr own
      · exact .inl (covered_of_mem there other)
    · grind

theorem wp_mergeLoop (rounds : Nat) (bound : rounds + order + 1 = maxOrder)
    (kept : Kept s z f (2 ^ order)) (loose : Loose s f page order) :
    wp (mergeLoop s rounds page (page % 2 ^ maxOrder) order)
      (fun block z' => ∃ f', Kept s z' f' (2 ^ block.2) ∧ Loose s f' block.1 block.2 ∧
        (block.2 + 1 < maxOrder → f' (buddy block.1 block.2) ≠ some block.2) ∧
        ∀ x, Covered f' x ∨ base x block.2 = block.1 ↔ Covered f x ∨ base x order = page)
      never z := by
  induction rounds generalizing z f page order with
  | zero =>
    unfold mergeLoop
    refine wp_pure _ |>.mpr ⟨f, kept, loose, fun more => absurd more ?_, fun x => Iff.rfl⟩
    simp only
    omega
  | succ rounds ih =>
    unfold mergeLoop
    rw [pageFindBuddy_eq loose.aligned loose.small]
    simp only [wp_bind, wp_pageIsBuddy kept loose.has, wp_ite, decide_eq_true_eq]
    constructor
    · intro there
      simp only [wp_listDel kept.listed there loose.small, addNrFree, rmvPageOrder,
        wp_modify, (combined_index loose.aligned loose.small).2]
      rw [(combined_index loose.aligned loose.small).1]
      obtain ⟨merged, same⟩ := kept.merge loose there (by omega)
      have taken : Kept s (z.take (buddy page order) order)
          (update f (buddy page order) none) (2 ^ (order + 1)) := by
        rw [pow_succ, mul_two]
        exact kept.take there
      refine (ih (by omega) taken merged).returns ?_
      rintro block z' ⟨f', kept', loose', single, covers⟩
      exact ⟨f', kept', loose', single, fun x => (covers x).trans (same x)⟩
    · intro absent
      exact wp_pure _ |>.mpr ⟨f, kept, loose, fun _ => absent, fun x => Iff.rfl⟩

/-- The pages of the freed block are free, those that were free still are, and there are
no others. -/
theorem wp_freeOnePage (kept : Kept s z f 0) (loose : Loose s f page order) :
    wp (freeOnePage s page order)
      (fun _ z' => ∃ f', Kept s z' f' 0 ∧ ∀ x, Covered f' x ↔ Covered f x ∨ base x order = page)
      never z := by
  have counted : Kept s { z with nrFreePages := z.nrFreePages + ((1 <<< order : Nat) : Int) } f
      (2 ^ order) := by
    rw [Nat.one_shiftLeft, Nat.cast_pow, Nat.cast_ofNat, ← zero_add (2 ^ order : Int)]
    exact kept.adjust rfl rfl (by rw [zero_add]) rfl rfl
  have merging : ∀ t, wp (do
      modFreePages (1 <<< order : Nat)
      let block ← mergeLoop s (maxOrder - 1 - order) page (page &&& (1 <<< maxOrder - 1)) order
      setPageOrder block.1 block.2
      listAdd block.1 block.2 t
      addNrFree block.2 1)
      (fun _ z' => ∃ f', Kept s z' f' 0 ∧ ∀ x, Covered f' x ↔ Covered f x ∨ base x order = page)
      never z := by
    intro t
    simp only [wp_bind, modFreePages, wp_modify, and_mask]
    have small := loose.small
    refine (wp_mergeLoop _ (by omega) counted loose).returns ?_
    rintro ⟨head, top⟩ z' ⟨f', kept', loose', single, covers⟩
    simp only [setPageOrder, listAdd, addNrFree, wp_modify]
    refine ⟨update f' head (some top), ?_, fun x => ?_⟩
    · have put := kept'.put (t := t) loose' single
      rwa [sub_self] at put
    · rw [kept'.blocks.covered_insert loose'.head]
      exact covers x
  unfold freeOnePage getPageblockMigratetype
  rw [wp_bind, wp_ite]
  exact ⟨fun _ => merging _, fun _ => merging _⟩

end Merge

end AndroidKernel.Buddy
