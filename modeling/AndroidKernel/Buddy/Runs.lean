import AndroidKernel.Buddy.Allocating
import AndroidKernel.Lib.Refine

/-!
Runs of frees and allocations.

A run keeps beside the zone which pages are allocated; at first all are. What is freed is
an aligned block of allocated pages, and any order and type may be asked for. Between
the calls the owners of allocated pages write to `page_private`, and pages of other
zones change as they like.
-/

namespace AndroidKernel.Buddy

open Lib Function

inductive Call where
  | free (page order : Nat)
  | alloc (order : Nat) (migratetype : MigrateType)
  /-- The flag and the private word of a page are written from outside. -/
  | touch (page : Nat) (buddy : Bool) (value : Nat)
deriving DecidableEq

inductive Answer where
  | done
  | page (page : Option Nat)
  | fault (f : Fault)
deriving DecidableEq, Repr

structure System where
  zone : Zone
  used : Nat → Bool

/-- The pages of a block are allocated or free from now on. -/
def mark (used : Nat → Bool) (page order : Nat) (value : Bool) : Nat → Bool :=
  fun x => if base x order = page then value else used x

def step (s : Span) : Call → System → Answer × System
  | .free page order, sys =>
    match freeOnePage s page order sys.zone with
    | .ok (_, zone) => (.done, ⟨zone, mark sys.used page order false⟩)
    | .error f => (.fault f, sys)
  | .alloc order migratetype, sys =>
    match rmqueue s order migratetype sys.zone with
    | .ok (some page, zone) => (.page (some page), ⟨zone, mark sys.used page order true⟩)
    | .ok (none, zone) => (.page none, ⟨zone, sys.used⟩)
    | .error f => (.fault f, sys)
  | .touch page buddy value, sys =>
    (.done, { sys with
      zone := { sys.zone with
        pageBuddy := Function.update sys.zone.pageBuddy page buddy
        pagePrivate := Function.update sys.zone.pagePrivate page value } })

/-- The block is one of allocated pages of the zone. -/
def Allocated (s : Span) (sys : System) (page order : Nat) : Prop :=
  ∀ x, page ≤ x → x < page + 2 ^ order → s.Has x ∧ sys.used x = true

def Call.ok (s : Span) (sys : System) : Call → Prop
  | .free page order => order < maxOrder ∧ 2 ^ order ∣ page ∧ Allocated s sys page order
  | .alloc _ _ => True
  | .touch page buddy _ =>
    s.zoneId page ≠ s.zoneId s.zoneStartPfn ∨ s.Has page ∧ sys.used page = true ∧ buddy = false

/-! ### The canonical free set -/

/-- A block is on the lists of its order. -/
def FreeBlock (z : Zone) (p o : Nat) : Prop := ∃ t, p ∈ z.freeList o t

/-- The order that `PG_buddy` and `page_private` record. -/
def recordedOrder (z : Zone) (p : Nat) : Option Nat :=
  if z.pageBuddy p then some (z.pagePrivate p) else none

structure Canonical (s : Span) (sys : System) : Prop where
  aligned : ∀ p o, FreeBlock sys.zone p o → o < maxOrder ∧ 2 ^ o ∣ p
  disjoint : ∀ p o p' o' x, FreeBlock sys.zone p o → FreeBlock sys.zone p' o' →
    p ≤ x → x < p + 2 ^ o → p' ≤ x → x < p' + 2 ^ o' → p = p' ∧ o = o'
  once : ∀ p o t o' t', p ∈ sys.zone.freeList o t → p ∈ sys.zone.freeList o' t' → o = o' ∧ t = t'
  nodup : ∀ o t, (sys.zone.freeList o t).Nodup
  /-- The free blocks have exactly the pages of the zone that are not allocated. -/
  covers : ∀ x, (∃ p o, FreeBlock sys.zone p o ∧ p ≤ x ∧ x < p + 2 ^ o) ↔
    s.Has x ∧ sys.used x = false
  apart : ∀ p o, FreeBlock sys.zone p o → o < maxOrder - 1 → ¬FreeBlock sys.zone (p ^^^ 2 ^ o) o
  recorded : ∀ p o, s.Has p → (recordedOrder sys.zone p = some o ↔ FreeBlock sys.zone p o)
  nrFree : ∀ o, sys.zone.nrFree o = ∑ t, ((sys.zone.freeList o t).length : Int)
  nrFreePages : sys.zone.nrFreePages =
    ∑ o ∈ Finset.range maxOrder, 2 ^ o * ∑ t, ((sys.zone.freeList o t).length : Int)

/-- What an allocation answers: a block of free pages, or none when the lists that the
type looks at are empty. -/
def Serves (s : Span) (sys : System) (order : Nat) (t : MigrateType) : Answer → Prop
  | .page (some page) => 2 ^ order ∣ page ∧
      ∀ x, page ≤ x → x < page + 2 ^ order → s.Has x ∧ sys.used x = false
  | .page none => ∀ o, order ≤ o → ∀ t' ∈ searched t, sys.zone.freeList o t' = []
  | _ => False

/-- The types that are asked for look at all lists but the one of isolated blocks. -/
theorem mem_searched {t t' : MigrateType} (asked : t ≠ .reserve) (asked' : t ≠ .isolate)
    (other : t' ≠ .isolate) : t' ∈ searched t := by
  revert t t'
  decide

section Runs

variable {s : Span} {sys : System} {f : Nat → Option Nat} {z : Zone}

/-- The set of free blocks, kept, has the pages that are not allocated. -/
structure Holds (s : Span) (sys : System) (f : Nat → Option Nat) : Prop where
  kept : Kept s sys.zone f 0
  covered : ∀ x, Covered f x ↔ s.Has x ∧ sys.used x = false

section

variable (holds : Holds s sys f)
include holds

theorem Holds.canonical : Canonical s sys := by
  have listed := holds.kept.listed
  have blocks := holds.kept.blocks
  have isFree : ∀ p o, FreeBlock sys.zone p o ↔ f p = some o := fun p o => listed.mem
  constructor
  case aligned =>
    intro p o free
    have there := (isFree p o).mp free
    exact ⟨blocks.small there, blocks.aligned there⟩
  case disjoint =>
    intro p o p' o' x free free' low high low' high'
    have there := (isFree p o).mp free
    have there' := (isFree p' o').mp free'
    have first : base x o = p := (base_eq_iff (blocks.aligned there)).mpr ⟨low, high⟩
    have second : base x o' = p' := (base_eq_iff (blocks.aligned there')).mpr ⟨low', high'⟩
    have order : o = o' := blocks.unique (first ▸ there) (second ▸ there')
    exact ⟨by rw [← first, ← second, order], order⟩
  case once =>
    intro p o t o' t' member member'
    have there := listed.mem.mp ⟨t, member⟩
    rw [listed.mem.mp ⟨t', member'⟩, Option.some.injEq] at there
    subst there
    exact ⟨rfl, listed.type member member'⟩
  case nodup => exact listed.nodup
  case covers =>
    intro x
    rw [← holds.covered]
    constructor
    · rintro ⟨p, o, free, low, high⟩
      have there := (isFree p o).mp free
      exact covered_of_mem there ((base_eq_iff (blocks.aligned there)).mpr ⟨low, high⟩)
    · rintro ⟨o, there⟩
      exact ⟨base x o, o, (isFree _ _).mpr there, base_le, lt_base_add⟩
  case apart =>
    intro p o free below other
    exact blocks.joined ((isFree p o).mp free) (by omega) ((isFree _ _).mp other)
  case recorded =>
    intro p o has
    have flag := listed.flag (s.own p has.1 has.2)
    rw [isFree, recordedOrder]
    cases there : f p with
    | none =>
      have clear : ¬sys.zone.pageBuddy p = true := fun marked => flag.mp marked there
      rw [if_neg clear]
    | some o' => rw [if_pos (flag.mpr (there ▸ nofun)), listed.order there]
  case nrFree => exact holds.kept.tallied.blocks
  case nrFreePages =>
    rw [holds.kept.tallied.pages, add_zero, pageCount]
    exact Finset.sum_congr rfl fun o _ => by rw [holds.kept.tallied.blocks, blockCount]

theorem Holds.free {page order : Nat} (allowed : Call.ok s sys (.free page order)) :
    wp (freeOnePage s page order)
      (fun _ zone => ∃ f', Holds s ⟨zone, mark sys.used page order false⟩ f') (fun _ => False)
      sys.zone := by
  obtain ⟨small, aligned, allocated⟩ := allowed
  have own : ∀ {x}, base x order = page → s.Has x ∧ sys.used x = true := by
    intro x inside
    obtain ⟨low, high⟩ := (base_eq_iff aligned).mp inside
    exact allocated x low high
  have loose : Loose s f page order := by
    refine ⟨aligned, small, fun inside => (own inside).1, fun inside covered => ?_⟩
    have unused := ((holds.covered _).mp covered).2
    rw [(own inside).2] at unused
    cases unused
  refine (wp_freeOnePage holds.kept loose).returns ?_
  rintro - zone ⟨f', kept, covers⟩
  refine ⟨f', kept, fun x => ?_⟩
  rw [covers, holds.covered]
  change _ ↔ s.Has x ∧ mark sys.used page order false x = false
  rw [mark]
  by_cases inside : base x order = page
  · rw [if_pos inside]
    exact iff_of_true (.inr inside) ⟨(own inside).1, rfl⟩
  · rw [if_neg inside]
    exact or_iff_left inside

theorem Holds.alloc (order : Nat) (t : MigrateType) :
    Serves s sys order t (step s (.alloc order t) sys).1 ∧
      ∃ f', Holds s (step s (.alloc order t) sys).2 f' := by
  have run : wp (rmqueue s order t) _ (fun _ => False) sys.zone := wp_rmqueue holds.kept
  obtain ⟨answer, zone, result, answered⟩ := run.total
  simp only [step, result]
  cases answer with
  | none =>
    obtain ⟨rfl, empty⟩ := answered
    exact ⟨empty, f, holds⟩
  | some page =>
    obtain ⟨f', kept, loose, covers⟩ := answered
    have own : ∀ x, base x order = page → s.Has x ∧ sys.used x = false := fun x inside =>
      (holds.covered x).mp ((covers x).mp (.inr inside))
    refine ⟨⟨loose.aligned, fun x low high => ?_⟩, f', kept, fun x => ?_⟩
    · exact own x ((base_eq_iff loose.aligned).mpr ⟨low, high⟩)
    change _ ↔ s.Has x ∧ mark sys.used page order true x = false
    rw [mark]
    by_cases inside : base x order = page
    · rw [if_pos inside]
      exact iff_of_false (loose.free inside) (fun both => Bool.false_ne_true both.2.symm)
    · rw [if_neg inside, ← holds.covered, ← covers]
      exact (or_iff_left inside).symm

theorem Holds.touch {page value : Nat} {buddy : Bool}
    (allowed : Call.ok s sys (.touch page buddy value)) :
    Holds s (step s (.touch page buddy value) sys).2 f := by
  have listed := holds.kept.listed
  -- a page that can be written to is none that starts a free block
  have absent : f page = none := by
    refine holds.kept.blocks.eq_none fun covered => ?_
    obtain ⟨has, unused⟩ := (holds.covered page).mp covered
    rcases allowed with foreign | ⟨-, used, -⟩
    · exact foreign (s.own page has.1 has.2)
    · rw [used] at unused
      cases unused
  refine ⟨⟨⟨listed.mem, listed.type, listed.nodup, ?_, ?_⟩, holds.kept.blocks, holds.kept.inside,
    ⟨holds.kept.tallied.blocks, holds.kept.tallied.pages⟩⟩, holds.covered⟩
  · intro p own
    change update sys.zone.pageBuddy page buddy p = true ↔ _
    by_cases same : p = page
    · subst same
      rw [update_self]
      rcases allowed with foreign | ⟨-, -, rfl⟩
      · exact absurd own foreign
      · exact iff_of_false Bool.false_ne_true fun some => some absent
    · rw [update_of_ne same]
      exact listed.flag own
  · intro p o there
    change update sys.zone.pagePrivate page value p = o
    rw [update_of_ne, listed.order there]
    rintro rfl
    rw [absent] at there
    cases there

/-- One call keeps the set of free blocks and does not fault. -/
theorem Holds.step {call : Call} (allowed : call.ok s sys) :
    (∀ fault, (step s call sys).1 ≠ .fault fault) ∧ ∃ f', Holds s (step s call sys).2 f' := by
  cases call with
  | free page order =>
    obtain ⟨_, zone, result, next⟩ := (holds.free allowed).total
    simp only [Buddy.step, result]
    exact ⟨nofun, next⟩
  | alloc order t =>
    obtain ⟨served, next⟩ := holds.alloc order t
    refine ⟨fun fault same => ?_, next⟩
    rw [same] at served
    exact served
  | touch page buddy value => exact ⟨nofun, f, holds.touch allowed⟩

theorem holds_run {calls : List Call} (admits : Admits (Buddy.step s) (Call.ok s) calls sys) :
    (∀ answer ∈ (answers (Buddy.step s) calls sys).1, ∀ fault, answer ≠ .fault fault) ∧
      ∃ f', Holds s (answers (Buddy.step s) calls sys).2 f' := by
  refine admits.invariant (I := fun sys => ∃ f, Holds s sys f) ⟨f, holds⟩ ?_
  rintro sys call ⟨f, holds⟩ allowed
  exact holds.step allowed

end

/-- No page of the zone is free. -/
structure NothingFree (s : Span) (z : Zone) : Prop where
  lists : ∀ o t, z.freeList o t = []
  nrFree : ∀ o, z.nrFree o = 0
  nrFreePages : z.nrFreePages = 0
  pageBuddy : ∀ p, s.zoneId p = s.zoneId s.zoneStartPfn → z.pageBuddy p = false

def initial (z : Zone) : System := ⟨z, fun _ => true⟩

theorem NothingFree.holds (nothing : NothingFree s z) : Holds s (initial z) fun _ => none := by
  have noMember : ∀ {p o t}, p ∉ z.freeList o t := by
    intro p o t
    rw [nothing.lists]
    exact List.not_mem_nil
  refine ⟨⟨⟨?_, ?_, ?_, ?_, nofun⟩, .empty, fun covered => absurd covered not_covered_empty, ?_, ?_⟩,
    fun x => ?_⟩
  · refine iff_of_false ?_ nofun
    rintro ⟨t, member⟩
    exact noMember member
  · exact fun member => absurd member noMember
  · intro o t
    change (z.freeList o t).Nodup
    rw [nothing.lists]
    exact .nil
  · intro p own
    exact iff_of_false (by simp [initial, nothing.pageBuddy p own]) fun some => some rfl
  · intro o
    simp [initial, blockCount, nothing.lists, nothing.nrFree]
  · simp [initial, pageCount, nothing.nrFree, nothing.nrFreePages]
  · exact iff_of_false not_covered_empty fun both => Bool.false_ne_true both.2.symm

/-- After any frees and allocations the free set is canonical, and an allocation fails
only when there is no block to be found: for the types that are asked for, on any list
but that of isolated blocks. -/
theorem buddy_free_set_canonical (s : Span) (z : Zone) (calls : List Call)
    (nothing : NothingFree s z) (admits : Admits (step s) (Call.ok s) calls (initial z)) :
    (∀ fault, .fault fault ∉ (answers (step s) calls (initial z)).1) ∧
      Canonical s (answers (step s) calls (initial z)).2 ∧
      ∀ order t,
        Serves s (answers (step s) calls (initial z)).2 order t
          (step s (.alloc order t) (answers (step s) calls (initial z)).2).1 ∧
        (t ≠ .reserve → t ≠ .isolate →
          (step s (.alloc order t) (answers (step s) calls (initial z)).2).1 = .page none →
          ∀ o, order ≤ o → ∀ t', t' ≠ .isolate →
            (answers (step s) calls (initial z)).2.zone.freeList o t' = []) := by
  obtain ⟨returns, f, holds⟩ := holds_run nothing.holds admits
  refine ⟨fun fault member => returns _ member fault rfl, holds.canonical, fun order t => ?_⟩
  obtain ⟨served, -⟩ := holds.alloc order t
  refine ⟨served, fun asked asked' failed o le t' other => ?_⟩
  rw [failed] at served
  exact served o le t' (mem_searched asked asked' other)

/-- A zone of three pages that starts in the middle of a block. -/
def smallSpan : Span where
  zoneStartPfn := 5
  spannedPages := 3
  zoneId p := if 5 ≤ p ∧ p < 8 then 1 else 0
  mobilityDisabled := false
  own p low high := by
    rw [if_pos ⟨low, by omega⟩]
    rfl

/-- Outside the zone there are free pages. -/
def smallZone : Zone where
  freeList _ _ := []
  nrFree _ := 0
  nrFreePages := 0
  pageBuddy p := p == 4
  pagePrivate _ := 0
  pageblockFlags _ := .movable

theorem smallZone_nothingFree : NothingFree smallSpan smallZone := by
  refine ⟨fun _ _ => rfl, fun _ => rfl, rfl, fun p own => ?_⟩
  refine beq_false_of_ne ?_
  rintro rfl
  exact absurd own (by decide)

theorem buddy_free_set_canonical_small :
    Canonical smallSpan (answers (step smallSpan)
        [.free 6 1, .free 5 0, .alloc 0 .unmovable, .alloc 0 .movable] (initial smallZone)).2 ∧
      (answers (step smallSpan) [.free 6 1, .free 5 0, .alloc 0 .unmovable, .alloc 0 .movable]
        (initial smallZone)).1 = [.done, .done, .page (some 6), .page (some 7)] := by
  refine ⟨(buddy_free_set_canonical smallSpan smallZone _ smallZone_nothingFree ?_).2.1, ?_⟩
  · refine ⟨⟨by decide, by decide, ?_⟩, ⟨by decide, by decide, ?_⟩, trivial, trivial, trivial⟩
    · intro x low high
      exact ⟨⟨by change 5 ≤ x; omega, by change x < 5 + 3; omega⟩, rfl⟩
    · intro x low high
      obtain rfl : x = 5 := by omega
      exact ⟨⟨by decide, by decide⟩, by decide +kernel⟩
  · decide +kernel

/-- An allocation of the reserve type does not look at the movable pages. -/
theorem reserve_allocation_fails :
    (answers (step smallSpan) [.free 6 1, .alloc 0 .reserve] (initial smallZone)).1 =
        [.done, .page none] ∧
      Admits (step smallSpan) (Call.ok smallSpan) [.free 6 1, .alloc 0 .reserve]
        (initial smallZone) ∧
      (answers (step smallSpan) [.free 6 1] (initial smallZone)).2.zone.freeList 1 .movable = [6] := by
  refine ⟨by decide +kernel, ⟨⟨by decide, by decide, ?_⟩, trivial, trivial⟩, by decide +kernel⟩
  intro x low high
  exact ⟨⟨by change 5 ≤ x; omega, by change x < 5 + 3; omega⟩, rfl⟩

end Runs

end AndroidKernel.Buddy
