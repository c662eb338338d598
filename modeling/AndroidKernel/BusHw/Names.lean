import Mathlib

/-!
The tables of user names in `g_MT6516_BusHW`.

Each clock, PLL and power id has `MAX_DEVICE` buffers of `MAX_MOD_NAME` bytes for the names
of its users; an unused one holds the text `NON_OP`. Taking a resource writes the name into
the first unused buffer, whether or not the name is there already; giving it back clears the
first buffer with the name. Three buffers are enough as long as no more than three takings
are outstanding, and then the buffers in use are exactly those (`Recorded`).
-/

namespace AndroidKernel.BusHw

open Multiset

def maxDevice : Nat := 3

def maxModName : Nat := 32

/-- A C string that fits into one of the buffers. -/
structure ModName where
  bytes : List (BitVec 8)
  text : 0 ∉ bytes
  fits : bytes.length < maxModName
deriving DecidableEq

/-- `NON_OP`, the text "NOP". -/
def nonOp : ModName := ⟨[0x4e, 0x4f, 0x50], by decide, by decide⟩

/-- The name under which the clocks use their PLL. -/
def auto : ModName := ⟨[0x41, 0x55, 0x54, 0x4f], by decide, by decide⟩

abbrev Slots := List ModName

def unused : Slots := List.replicate maxDevice nonOp

/-- The loop that looks for an unused buffer. A buffer that has the name already is passed
over like any other. -/
def acquireSlot (name : ModName) : Slots → Slots
  | [] => []
  | slot :: rest => if slot = nonOp then name :: rest else slot :: acquireSlot name rest

/-- The loop that looks for the name; the flag is `bFind`. -/
def releaseSlot (name : ModName) : Slots → Bool × Slots
  | [] => (false, [])
  | slot :: rest =>
    if slot = name then (true, nonOp :: rest)
    else ((releaseSlot name rest).1, slot :: (releaseSlot name rest).2)

/-! ### The names in use -/

/-- The names in a table, without the unused buffers. -/
def inUse (slots : Multiset ModName) : Multiset ModName := slots.filter (· ≠ nonOp)

theorem inUse_cons (name : ModName) (slots : Multiset ModName) :
    inUse (name ::ₘ slots) = if name = nonOp then inUse slots else name ::ₘ inUse slots := by
  unfold inUse
  split
  · rename_i same
    exact filter_cons_of_neg _ (not_not.mpr same)
  · rename_i other
    exact filter_cons_of_pos _ other

section Loops

variable {name : ModName} {slots : Slots}

theorem length_acquireSlot : (acquireSlot name slots).length = slots.length := by
  induction slots with
  | nil => rfl
  | cons slot rest ih =>
    rw [acquireSlot]
    split
    · rfl
    · rw [List.length_cons, List.length_cons, ih]

theorem length_releaseSlot : (releaseSlot name slots).2.length = slots.length := by
  induction slots with
  | nil => rfl
  | cons slot rest ih =>
    rw [releaseSlot]
    split
    · rfl
    · rw [List.length_cons, List.length_cons, ih]

theorem inUse_acquireSlot (free : nonOp ∈ slots) :
    inUse (acquireSlot name slots : Slots) = inUse (name ::ₘ (slots : Multiset ModName)) := by
  induction slots with
  | nil => cases free
  | cons slot rest ih =>
    rw [acquireSlot]
    by_cases unusedSlot : slot = nonOp
    · rw [if_pos unusedSlot, unusedSlot, ← cons_coe, ← cons_coe, inUse_cons,
        inUse_cons, inUse_cons, if_pos rfl]
    · rw [if_neg unusedSlot, ← cons_coe, ← cons_coe, cons_swap,
        inUse_cons, inUse_cons slot, if_neg unusedSlot, if_neg unusedSlot,
        ih ((List.mem_cons.mp free).resolve_left (Ne.symm unusedSlot))]

theorem releaseSlot_found : (releaseSlot name slots).1 = decide (name ∈ slots) := by
  induction slots with
  | nil => rfl
  | cons slot rest ih =>
    rw [releaseSlot]
    by_cases found : slot = name
    · rw [if_pos found, found]
      simp
    · rw [if_neg found, ih]
      simp [Ne.symm found]

theorem inUse_releaseSlot (found : name ∈ slots) :
    inUse (name ::ₘ ((releaseSlot name slots).2 : Multiset ModName)) = inUse slots := by
  induction slots with
  | nil => cases found
  | cons slot rest ih =>
    rw [releaseSlot]
    by_cases same : slot = name
    · rw [if_pos same, same, ← cons_coe, ← cons_coe, inUse_cons, inUse_cons,
        inUse_cons, if_pos rfl]
    · rw [if_neg same, ← cons_coe, ← cons_coe, cons_swap,
        inUse_cons slot, inUse_cons slot,
        ih ((List.mem_cons.mp found).resolve_left (Ne.symm same))]

end Loops

/-! ### Tables that record all that is outstanding -/

/-- The buffers in use are those of the outstanding takings. A user may have the text of the
unused buffers as its name: it takes none of them. -/
structure Recorded (slots : Slots) (holders : Multiset ModName) : Prop where
  length : slots.length = maxDevice
  few : holders.card ≤ maxDevice
  same : inUse slots = inUse holders

theorem recorded_unused : Recorded unused 0 := ⟨rfl, Nat.zero_le _, by decide⟩

section Recorded

variable {name : ModName} {slots : Slots} {holders : Multiset ModName}

theorem card_inUse_le : (inUse holders).card ≤ holders.card :=
  card_le_card (filter_le _ _)

section

variable (recorded : Recorded slots holders)
include recorded

/-- As long as fewer than three takings are outstanding a buffer is unused. -/
theorem Recorded.nonOp_mem (room : (inUse holders).card < maxDevice) : nonOp ∈ slots := by
  by_contra full
  have all : inUse (slots : Multiset ModName) = slots := by
    refine Multiset.filter_eq_self.mpr fun slot member same => full ?_
    rw [← same]
    exact Multiset.mem_coe.mp member
  have size := congrArg card (all.symm.trans recorded.same)
  rw [coe_card, recorded.length] at size
  omega

theorem Recorded.acquire (room : holders.card < maxDevice) :
    Recorded (acquireSlot name slots) (name ::ₘ holders) := by
  refine ⟨length_acquireSlot.trans recorded.length, ?_, ?_⟩
  · rw [card_cons]
    exact room
  · rw [inUse_acquireSlot (recorded.nonOp_mem (card_inUse_le.trans_lt room)), inUse_cons,
      inUse_cons, recorded.same]

/-- Whoever holds the resource is found. -/
theorem Recorded.mem (holds : name ∈ holders) : name ∈ slots := by
  by_cases same : name = nonOp
  · -- the holder's own taking has no buffer, so one of the three is unused
    rw [same] at holds ⊢
    have without : inUse holders = inUse (holders.erase nonOp) := by
      rw [← cons_erase holds, inUse_cons, if_pos rfl, erase_cons_head]
    have few := recorded.few
    have fewer := card_erase_add_one holds
    have used := @card_inUse_le (holders.erase nonOp)
    rw [← without] at used
    exact recorded.nonOp_mem (by omega)
  · have member : name ∈ inUse (slots : Multiset ModName) := by
      rw [recorded.same]
      exact Multiset.mem_filter.mpr ⟨holds, same⟩
    exact Multiset.mem_coe.mp (Multiset.mem_filter.mp member).1

theorem Recorded.release (holds : name ∈ holders) :
    Recorded (releaseSlot name slots).2 (holders.erase name) := by
  refine ⟨length_releaseSlot.trans recorded.length, ?_, ?_⟩
  · exact (card_le_card (erase_le _ _)).trans recorded.few
  · grind [cons_erase, inUse_cons, inUse_releaseSlot, cons_inj_right,
      Recorded.mem, → Recorded.same]

end

end Recorded

end AndroidKernel.BusHw
