import AndroidKernel.Lib.Refine
import AndroidKernel.Pmem.Walks

/-!
Runs of the `pmem` allocator.

`held` records, beside the bitmap, the slots that have been handed out and not been freed, with
the order that each had when it was handed out. `pmem_tiles_region`: in every run the slots
tile the region, the allocated ones are those of `held`, free buddies have been put together,
and once everything is freed the slots are those of `pmem_setup`.
-/

namespace AndroidKernel.Pmem

open Lib Function

section Calls

variable {info : PmemInfo} {slot held : Nat → Option Nat} {o b : Nat}

theorem Tiled.order_lt (tiled : Tiled info slot held) (small : info.numEntries < 2 ^ 20) {p : Nat}
    (there : slot p = some o) : o < 20 := by
  by_contra large
  have := tiled.tiling.le there
  have := Nat.pow_le_pow_right (n := 2) (by omega) (not_lt.mp large)
  omega

/-- A slot is handed out or taken back. -/
theorem Tiled.setHeld (tiled : Tiled info slot held) (there : slot b = some o) (kept : Option Nat)
    (own : ∀ r ∈ kept, r = o) : Tiled (info.setAllocated b kept.isSome) slot (update held b kept) := by
  refine ⟨tiled.tiling, fun there => ?_, fun {p r} keeps => ?_, fun {p} low => ?_⟩
  · rw [order_setAllocated, tiled.order there]
  · by_cases same : p = b
    · rw [same, update_self] at keeps
      rw [same, there, own r keeps]
    · rw [update_of_ne same] at keeps
      exact tiled.heldSlot keeps
  · by_cases same : p = b
    · subst same
      simp [isFree_setAllocated_self (tiled.tiling.lt there)]
    · rw [isFree_setAllocated_of_ne same, update_of_ne same]
      exact tiled.isFree low

/-- Who is taken stands beside no free buddy any more. -/
theorem Joined.take (joined : Joined slot held {b}) :
    Joined slot (update held b (some o)) ∅ := by
  have old : ∀ {p r}, FreeSlot slot (update held b (some o)) p r →
      p ≠ b ∧ FreeSlot slot held p r := by
    rintro p r ⟨there, unheld⟩
    by_cases same : p = b
    · rw [same, update_self] at unheld
      cases unheld
    · rw [update_of_ne same] at unheld
      exact ⟨same, there, unheld⟩
  intro p r first second
  exact ((joined (old first).2 (old second).2).elim (old first).1 (old second).1).elim

theorem Joined.release (joined : Joined slot held ∅) :
    Joined slot (update held b none) {b} := by
  intro p r first second
  by_cases here : p = b
  · exact .inl here
  by_cases there : buddy p r = b
  · exact .inr there
  obtain ⟨found, unheld⟩ := first
  obtain ⟨found', unheld'⟩ := second
  rw [update_of_ne here] at unheld
  rw [update_of_ne there] at unheld'
  exact ((joined ⟨found, unheld⟩ ⟨found', unheld'⟩).elim (Set.notMem_empty _)
    (Set.notMem_empty _)).elim

variable (tiled : Tiled info slot held) (joined : Joined slot held ∅)
  (managed : info.noAllocator = false) (small : info.numEntries < 2 ^ 20)
include tiled joined managed small

/-- `pmem_allocate` fails when no free slot has the order, and otherwise takes the lower end of
a free slot. -/
theorem pmemAllocate_spec (len : BitVec 32) :
    (pmemAllocate len info = some (-1, info) ∧ ∀ p o, FreeSlot slot held p o → o < pmemOrder len) ∨
    ∃ (b o : Nat) (info' : PmemInfo) (slot' : Nat → Option Nat),
      pmemAllocate len info = some ((b : Int), info') ∧
      FreeSlot slot held b o ∧ pmemOrder len ≤ o ∧ slot' b = some (pmemOrder len) ∧
      Tiled info' slot' (update held b (some (pmemOrder len))) ∧
      Joined slot' (update held b (some (pmemOrder len))) ∅ ∧
      info'.numEntries = info.numEntries ∧ info'.noAllocator = info.noAllocator := by
  have order := pmemOrder_le len
  have low : ¬maxOrder < pmemOrder len := by
    rw [maxOrder]
    omega
  have byte : pmemOrder len % 2 ^ 8 = pmemOrder len := Nat.mod_eq_of_lt (by omega)
  have start : BestFit slot held (pmemOrder len) 0 none :=
    fun _ _ low _ => absurd low (Nat.not_lt_zero _)
  obtain ⟨result, search, fit⟩ := searchLoop_spec tiled
    (show info.numEntries < 0 + (info.numEntries + 1) by omega) tiled.atSlot_zero start
  simp only [pmemAllocate, managed, Bool.false_eq_true, if_false, if_neg low, byte, search]
  cases result with
  | none =>
    exact .inl ⟨rfl, fun p o free => fit p o (tiled.tiling.lt free.1) free⟩
  | some b =>
    obtain ⟨o, free, large⟩ := fit
    have bound := tiled.order_lt small free.1
    have except : Joined slot held {b} := fun first second =>
      ((joined first second).elim (Set.notMem_empty _) (Set.notMem_empty _)).elim
    obtain ⟨info', slot', split, tiled', there, joined', entries, mode⟩ :=
      splitLoop_spec tiled free large (show o < pmemOrder len + 32 by omega) except
    simp only [split]
    exact .inr ⟨b, o, _, slot', rfl, free, large, there, tiled'.setHeld there (some _) (by simp),
      joined'.take, entries, mode.trans managed⟩

theorem pmemFree_spec {index : Nat} (keeps : held index = some o) :
    ∃ info' slot', pmemFree index info = some info' ∧
      Tiled info' slot' (update held index none) ∧
      Joined slot' (update held index none) ∅ ∧
      info'.numEntries = info.numEntries ∧ info'.noAllocator = info.noAllocator := by
  rw [pmemFree, managed]
  simp only [Bool.false_eq_true, if_false]
  obtain ⟨info', slot', done, tiled', joined', entries, mode⟩ :=
    @freeLoop_spec (info.setAllocated index false) slot (update held index none) o
      (tiled.setHeld (tiled.heldSlot keeps) none (by simp)) index 32 small
      ⟨tiled.heldSlot keeps, update_self ..⟩ (by omega) joined.release
  exact ⟨info', slot', done, tiled', joined', entries, mode.trans managed⟩

end Calls

/-! ### Runs -/

inductive AllocCall where
  | allocate (len : BitVec 32)
  | free (index : Nat)
deriving DecidableEq, Repr

/-- A call that runs on in a loop has no result. -/
inductive AllocReply where
  | runsOn
  | result (value : Int)
deriving DecidableEq, Repr

/-- A region and, beside it, the slots that are handed out. -/
structure AllocSystem where
  info : PmemInfo
  held : Nat → Option Nat

def AllocSystem.start (size : BitVec 32) : AllocSystem := ⟨pmemSetup size false, fun _ => none⟩

def allocStep : AllocCall → AllocSystem → AllocReply × AllocSystem
  | .allocate len, sys =>
    match pmemAllocate len sys.info with
    | none => (.runsOn, sys)
    | some (value, info) =>
      (.result value, ⟨info,
        if 0 ≤ value then
          Function.update sys.held value.toNat (some (info.order value.toNat))
        else sys.held⟩)
  | .free index, sys =>
    match pmemFree index sys.info with
    | none => (.runsOn, sys)
    | some info => (.result 0, ⟨info, Function.update sys.held index none⟩)

/-- Only slots that are handed out are freed. -/
def AllocCall.ok (sys : AllocSystem) : AllocCall → Prop
  | .allocate _ => True
  | .free index => sys.held index ≠ none

instance decidableAllocOk (sys : AllocSystem) : DecidablePred (AllocCall.ok sys)
  | .allocate _ => inferInstanceAs (Decidable True)
  | .free index => inferInstanceAs (Decidable (sys.held index ≠ none))

/-- What is true of a region of `n` pages between two calls. -/
structure AllocHolds (n : Nat) (sys : AllocSystem) (slot : Nat → Option Nat) : Prop where
  tiled : Tiled sys.info slot sys.held
  joined : Joined slot sys.held ∅
  managed : sys.info.noAllocator = false
  entries : sys.info.numEntries = n
  small : n < 2 ^ 20

/-- What `pmem_allocate` may answer: -1 when no free slot has the order that is needed, or the
index of a free slot whose lower end is handed out with the order that is needed. -/
def AllocAnswer (len : BitVec 32) (sys : AllocSystem) : AllocReply → AllocSystem → Prop
  | .runsOn, _ => False
  | .result value, sys' =>
    (value = -1 ∧ ∀ s ∈ sys.info.walk, sys.info.isFree s.index →
      s.order < pmemOrder len ∧ ∀ o, Needs len o → s.order < o) ∨
    ∃ s ∈ sys.info.walk, sys.info.isFree s.index ∧ value = s.index ∧
      ∃ o ≤ s.order, sys'.held s.index = some o ∧ Needs len o ∧ len.toNat ≤ 2 ^ o * minAlloc

section Runs

variable {n : Nat} {sys : AllocSystem} {slot : Nat → Option Nat}

theorem AllocHolds.allocate (holds : AllocHolds n sys slot) (len : BitVec 32) :
    AllocAnswer len sys (allocStep (.allocate len) sys).1 (allocStep (.allocate len) sys).2 ∧
      ∃ slot', AllocHolds n (allocStep (.allocate len) sys).2 slot' := by
  obtain ⟨tiled, joined, managed, rfl, small⟩ := holds
  rcases pmemAllocate_spec tiled joined managed small len with
    ⟨fails, none⟩ | ⟨b, o, info', slot', done, free, large, there, tiled', joined', entries, mode⟩
  · simp only [allocStep, fails]
    refine ⟨.inl ⟨rfl, fun s member isFree => ?_⟩, slot, tiled, joined, managed, rfl, small⟩
    have found := tiled.mem_walk.mp member
    have less := none s.index s.order ⟨found, (tiled.isFree_slot found).mp isFree⟩
    refine ⟨less, fun o needs => ?_⟩
    by_contra high
    have bound := tiled.order_lt small found
    have := pmemOrder_le_of_needs needs (by omega)
    omega
  · have nonneg : (0 : Int) ≤ b := Int.natCast_nonneg b
    simp only [allocStep, done, if_pos nonneg, Int.toNat_natCast, tiled'.order there]
    have bound := tiled.order_lt small free.1
    have needs := needs_pmemOrder (show pmemOrder len < 32 by omega)
    refine ⟨.inr ⟨⟨b, o⟩, tiled.mem_walk.mpr free.1, (tiled.isFree_slot free.1).mpr free.2, rfl,
      pmemOrder len, large, update_self .., needs, ?_⟩, slot', tiled', joined',
      mode.trans managed, entries, small⟩
    have enough := needs.1
    rw [pages, minAlloc] at enough
    rw [minAlloc]
    omega

theorem AllocHolds.free (holds : AllocHolds n sys slot) {index : Nat}
    (handedOut : sys.held index ≠ none) :
    (allocStep (.free index) sys).1 = .result 0 ∧
      ∃ slot', AllocHolds n (allocStep (.free index) sys).2 slot' := by
  obtain ⟨tiled, joined, managed, rfl, small⟩ := holds
  obtain ⟨o, keeps⟩ := Option.ne_none_iff_exists'.mp handedOut
  obtain ⟨info', slot', done, tiled', joined', entries, mode⟩ :=
    pmemFree_spec tiled joined managed small keeps
  simp only [allocStep, done]
  exact ⟨trivial, slot', tiled', joined', mode.trans managed, entries, small⟩

theorem allocHolds_start (size : BitVec 32) :
    ∃ slot, AllocHolds (size.toNat / minAlloc) (.start size) slot := by
  obtain ⟨slot, tiled, joined, entries, mode⟩ := pmemSetup_spec size false
  exact ⟨slot, tiled, joined, mode, entries, numEntries_lt size⟩

theorem AllocHolds.run {calls : List AllocCall} (holds : AllocHolds n sys slot)
    (admits : Admits allocStep AllocCall.ok calls sys) :
    ∃ slot', AllocHolds n (answers allocStep calls sys).2 slot' := by
  refine admits.kept (I := fun sys => ∃ slot, AllocHolds n sys slot) ⟨slot, holds⟩ ?_
  rintro sys call ⟨slot, holds⟩ ok
  cases call with
  | allocate len => exact (holds.allocate len).2
  | free index => exact (holds.free ok).2

/-- Once nothing is handed out, the slots are those of any other region of the same size from
which nothing is handed out. -/
theorem AllocHolds.walk_eq {sys' : AllocSystem} {slot' : Nat → Option Nat}
    (holds : AllocHolds n sys slot) (holds' : AllocHolds n sys' slot')
    (none : ∀ p, sys.held p = .none) (none' : ∀ p, sys'.held p = .none) :
    sys.info.walk = sys'.info.walk := by
  have single : ∀ {slot held : Nat → Option Nat}, Joined slot held ∅ → (∀ p, held p = .none) →
      Single slot := by
    intro slot held joined none p o there beside
    exact (joined ⟨there, none _⟩ ⟨beside, none _⟩).elim (Set.notMem_empty _) (Set.notMem_empty _)
  have tiling := holds.tiled.tiling
  have tiling' := holds'.tiled.tiling
  rw [holds.entries] at tiling
  rw [holds'.entries] at tiling'
  obtain rfl := tiling.ext_of_single (single holds.joined none) tiling' (single holds'.joined none')
  exact holds.tiled.walk_eq holds'.tiled (holds.entries.trans holds'.entries.symm)

end Runs

/-- The slots tile the region; the allocated ones are those that are handed out, with the order
that they were handed out with; free buddies have been put together; when everything is freed
the slots are those of `pmem_setup`; and the next call returns what it should. -/
theorem pmem_tiles_region (size : BitVec 32) (calls : List AllocCall)
    (admits : Admits allocStep AllocCall.ok calls (.start size)) :
    let sys := (answers allocStep calls (.start size)).2
    Tiles 0 (size.toNat / minAlloc) sys.info.walk ∧
      (∀ p o, sys.held p = some o ↔ (⟨p, o⟩ : Slot) ∈ sys.info.walk ∧ ¬sys.info.isFree p) ∧
      (∀ s ∈ sys.info.walk, sys.info.isFree s.index →
        (⟨buddy s.index s.order, s.order⟩ : Slot) ∈ sys.info.walk →
        ¬sys.info.isFree (buddy s.index s.order)) ∧
      ((∀ p, sys.held p = none) → sys.info.walk = (pmemSetup size false).walk) ∧
      (∀ len, AllocAnswer len sys (allocStep (.allocate len) sys).1
        (allocStep (.allocate len) sys).2) ∧
      ∀ index, sys.held index ≠ none → (allocStep (.free index) sys).1 = .result 0 := by
  intro sys
  obtain ⟨slot₀, start⟩ := allocHolds_start size
  obtain ⟨slot, holds⟩ : ∃ slot, AllocHolds (size.toNat / minAlloc) sys slot := start.run admits
  have tiled := holds.tiled
  refine ⟨?_, fun p o => ⟨fun keeps => ?_, ?_⟩, fun s member isFree beside isFree' => ?_,
    fun none => holds.walk_eq start none fun _ => rfl, fun len => (holds.allocate len).1,
    fun index handedOut => (holds.free handedOut).1⟩
  · rw [← holds.entries]
    exact tiled.tiles_walk
  · have there := tiled.heldSlot keeps
    refine ⟨tiled.mem_walk.mpr there, fun isFree => ?_⟩
    rw [(tiled.isFree_slot there).mp isFree] at keeps
    cases keeps
  · rintro ⟨member, taken⟩
    have there : slot p = some o := tiled.mem_walk.mp member
    obtain ⟨r, keeps⟩ := Option.ne_none_iff_exists'.mp fun unheld =>
      taken ((tiled.isFree_slot there).mpr unheld)
    rw [keeps, ← tiled.heldSlot keeps, there]
  · have there := tiled.mem_walk.mp member
    have there' := tiled.mem_walk.mp beside
    exact (holds.joined ⟨there, (tiled.isFree_slot there).mp isFree⟩
      ⟨there', (tiled.isFree_slot there').mp isFree'⟩).elim (Set.notMem_empty _)
      (Set.notMem_empty _)

/-- A region of five pages: two slots are taken and one is freed and taken again. -/
def fivePages : List AllocCall :=
  [.allocate 1, .allocate 5000, .free 4, .allocate 4096, .free 0]

theorem pmem_tiles_region_five :
    Tiles 0 5 (answers allocStep fivePages (.start 20480)).2.info.walk :=
  (pmem_tiles_region 20480 fivePages (by decide +kernel)).1

end AndroidKernel.Pmem
