import Mathlib

/-!
Where a new mapping goes: `arch_get_unmapped_area` of `arch/arm/mm/mmap.c` on a processor without
cache colouring.

The search starts at `free_area_cache` if no hole below it is remembered that is large enough, and
starts again at `TASK_UNMAPPED_BASE` when it reaches the end, so what it answers is right whatever
the two remembered values are (`unmappedArea_found`).
-/

namespace AndroidKernel.Mmap

open List

abbrev Word := BitVec 32

def TASK_SIZE : Word := 0xbf000000
def TASK_UNMAPPED_BASE : Word := 0x40000000

structure Vma where
  vmStart : Word
  vmEnd : Word

/-- The vma is whole pages below `TASK_SIZE`. -/
def Vma.Proper (vma : Vma) : Prop :=
  vma.vmStart < vma.vmEnd ∧ vma.vmEnd ≤ TASK_SIZE ∧ vma.vmEnd.toNat % 4096 = 0

/-- `struct mm_struct`; the vmas are sorted and apart. -/
structure Mm where
  mmap : List Vma
  proper : ∀ vma ∈ mmap, vma.Proper
  sorted : mmap.Pairwise fun a b => a.vmEnd ≤ b.vmStart
  freeAreaCache : Word
  cachedHoleSize : Word

def pageAlign (addr : Word) : Word := (addr + 4095) &&& ~~~4095

/-- `find_vma`: the vmas from the first one on that ends behind the address. -/
def Mm.findVma (mm : Mm) (addr : Word) : List Vma :=
  mm.mmap.dropWhile fun vma => vma.vmEnd ≤ addr

/-- The loop of `arch_get_unmapped_area`, with `cached_hole_size`. -/
def searchLoop (len : Word) : List Vma → Word → Word → Option Word × Word
  | vmas, addr, hole =>
    if TASK_SIZE - len < addr then (none, hole)
    else
      match vmas with
      | [] => (some addr, hole)
      | vma :: vmas =>
        if addr + len ≤ vma.vmStart then (some addr, hole)
        else searchLoop len vmas vma.vmEnd
          (if addr + hole < vma.vmStart then vma.vmStart - addr else hole)

/-- The search from an address on. -/
def Mm.fullSearch (mm : Mm) (len addr hole : Word) : Option Word × Mm :=
  match searchLoop len (mm.findVma (pageAlign addr)) (pageAlign addr) hole with
  | (some found, hole) =>
    (some found, { mm with freeAreaCache := found + len, cachedHoleSize := hole })
  | (none, hole) => (none, { mm with cachedHoleSize := hole })

/-- `arch_get_unmapped_area` without `MAP_FIXED`; `none` is `-ENOMEM`. -/
def archGetUnmappedArea (mm : Mm) (addr len : Word) : Option Word × Mm :=
  if TASK_SIZE < len then (none, mm)
  else if addr ≠ 0 ∧ pageAlign addr ≤ TASK_SIZE - len ∧
      ∀ vma ∈ (mm.findVma (pageAlign addr)).head?, pageAlign addr + len ≤ vma.vmStart then
    (some (pageAlign addr), mm)
  else if mm.cachedHoleSize < len then
    match mm.fullSearch len mm.freeAreaCache mm.cachedHoleSize with
    | (none, mm') =>
      -- holes below the start may have been missed
      if mm.freeAreaCache ≠ TASK_UNMAPPED_BASE then mm'.fullSearch len TASK_UNMAPPED_BASE 0
      else (none, mm')
    | found => found
  else mm.fullSearch len TASK_UNMAPPED_BASE 0

/-- The range is whole pages below `TASK_SIZE` and meets no vma. -/
structure Free (mmap : List Vma) (len addr : Word) : Prop where
  aligned : addr.toNat % 4096 = 0
  inside : addr.toNat + len.toNat ≤ TASK_SIZE.toNat
  apart : ∀ vma ∈ mmap, addr.toNat + len.toNat ≤ vma.vmStart.toNat ∨ vma.vmEnd ≤ addr

/-- A free range, or `-ENOMEM` if none starts at the address or above it. -/
def Answers (mmap : List Vma) (len start : Word) : Option Word → Prop
  | some found => Free mmap len found
  | none => ∀ found, start ≤ found → ¬Free mmap len found

variable {mm : Mm} {len addr hole : Word} {pre vmas : List Vma}

theorem pageAlign_mod : (pageAlign addr).toNat % 4096 = 0 := by
  have low : pageAlign addr &&& 4095 = 0 := by
    rw [pageAlign, BitVec.and_assoc]
    simp
  rw [← Nat.and_two_pow_sub_one_eq_mod _ 12]
  exact congrArg BitVec.toNat low

theorem searchLoop_spec (small : len ≤ TASK_SIZE) (split : mm.mmap = pre ++ vmas)
    (passed : ∀ vma ∈ pre, vma.vmEnd ≤ addr) (aligned : addr.toNat % 4096 = 0) :
    Answers mm.mmap len addr (searchLoop len vmas addr hole).1 := by
  -- Along the list: the vmas that are passed end at the address or below it.
  fun_induction searchLoop len vmas addr hole generalizing pre with
  | case1 _ addr _ last =>
    intro found above free
    have := free.inside
    bv_omega
  | case2 addr _ last =>
    rw [append_nil] at split
    exact ⟨aligned, by bv_omega, fun vma member => .inr (passed vma (split ▸ member))⟩
  | case3 addr _ last vma vmas fits =>
    refine ⟨aligned, by bv_omega, fun other member => ?_⟩
    have sorted := mm.sorted
    rw [split, pairwise_append, pairwise_cons] at sorted
    have := (mm.proper vma (split ▸ by simp)).1
    rw [split, mem_append, mem_cons] at member
    rcases member with before | rfl | later
    · exact .inr (passed other before)
    · exact .inl (by bv_omega)
    · have := sorted.2.1.1 other later
      exact .inl (by bv_omega)
  | case4 addr _ last vma vmas fits ih =>
    have proper := mm.proper vma (split ▸ by simp)
    have sorted := mm.sorted
    rw [split, pairwise_append] at sorted
    have rest := @ih (pre ++ [vma]) (by simpa using split) (fun other member => ?_) proper.2.2
    · generalize (searchLoop len vmas vma.vmEnd _).1 = answer at rest ⊢
      cases answer with
      | some found => exact rest
      | none =>
        intro found above free
        rcases free.apart vma (split ▸ by simp) with before | behind
        · bv_omega
        · exact rest found behind free
    · rcases mem_append.mp member with before | own
      · have := sorted.2.2 other before vma mem_cons_self
        have := proper.1
        bv_omega
      · rw [mem_singleton.mp own]
        exact BitVec.le_refl _

theorem findVma_spec (small : len ≤ TASK_SIZE) : Answers mm.mmap len (pageAlign addr)
    (searchLoop len (mm.findVma (pageAlign addr)) (pageAlign addr) hole).1 :=
  searchLoop_spec small takeWhile_append_dropWhile.symm
    (fun vma member => by simpa using mem_takeWhile_imp member) pageAlign_mod

theorem fullSearch_spec (small : len ≤ TASK_SIZE) : (mm.fullSearch len addr hole).2.mmap = mm.mmap ∧
    Answers mm.mmap len (pageAlign addr) (mm.fullSearch len addr hole).1 := by
  have search := @findVma_spec mm len addr hole small
  rw [Mm.fullSearch]
  generalize searchLoop len _ _ hole = result at search
  obtain ⟨_ | found, hole'⟩ := result
  · exact ⟨rfl, search⟩
  · exact ⟨rfl, search⟩

/-- **An address is found whenever there is one**, whatever is remembered of earlier searches. -/
theorem unmappedArea_found (mm : Mm) (addr len : Word) :
    Answers mm.mmap len TASK_UNMAPPED_BASE (archGetUnmappedArea mm addr len).1 := by
  rw [archGetUnmappedArea]
  by_cases large : TASK_SIZE < len
  · rw [if_pos large]
    intro found _ free
    have := free.inside
    bv_omega
  rw [if_neg large]
  have small : len ≤ TASK_SIZE := by bv_omega
  by_cases hint : addr ≠ 0 ∧ pageAlign addr ≤ TASK_SIZE - len ∧
      ∀ vma ∈ (mm.findVma (pageAlign addr)).head?, pageAlign addr + len ≤ vma.vmStart
  · rw [if_pos hint]
    -- The loop would stop at the hint at once.
    have search := @findVma_spec mm len addr 0 small
    have first : ¬TASK_SIZE - len < pageAlign addr := by bv_omega
    cases next : mm.findVma (pageAlign addr) with
    | nil => rwa [next, searchLoop, if_neg first] at search
    | cons vma vmas =>
      rw [next] at search hint
      rwa [searchLoop, if_neg first, if_pos (hint.2.2 vma rfl)] at search
  rw [if_neg hint]
  split
  · have cached := @fullSearch_spec mm len mm.freeAreaCache mm.cachedHoleSize small
    split
    case h_1 mm' failed =>
      rw [failed] at cached
      split
      · have again := @fullSearch_spec mm' len TASK_UNMAPPED_BASE 0 small
        rw [cached.1] at again
        exact again.2
      · rename_i base
        rw [not_ne_iff.mp base] at cached
        exact cached.2
    case h_2 failed =>
      generalize mm.fullSearch len mm.freeAreaCache mm.cachedHoleSize = result at cached failed
      obtain ⟨_ | found, mm'⟩ := result
      · exact (failed mm' rfl).elim
      · exact cached.2
  · exact (fullSearch_spec small).2

end AndroidKernel.Mmap
