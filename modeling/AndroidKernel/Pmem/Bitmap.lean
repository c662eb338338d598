import Mathlib

/-!
The allocator of the physical memory driver (`pmem`).

A region is divided into slots of a power of two pages. `bitmap` has an entry for every page,
of which those at the start of a slot count: they say how large the slot is and whether it is
allocated. The other entries keep the order that they had when they last started a slot. A
loop is given a number of rounds and has no result when they do not suffice; they always do
(`Pmem.Slots`). The statistic of the largest use and the messages are left out.
-/

namespace AndroidKernel.Pmem

/-- `PMEM_MIN_ALLOC`, the size of a page. -/
def minAlloc : Nat := 4096

def maxOrder : Nat := 128

/-- `struct pmem_bits`. -/
structure PmemBits where
  allocated : Bool
  order : Nat
deriving DecidableEq, Repr

/-- The fields of `struct pmem_info` that the allocator uses. -/
structure PmemInfo where
  size : BitVec 32
  numEntries : Nat
  bitmap : Nat → PmemBits
  noAllocator : Bool
  allocated : Bool

/-- An entry; past the end of the bitmap the entries read as allocated. -/
def PmemInfo.entry (info : PmemInfo) (index : Nat) : PmemBits :=
  if index < info.numEntries then info.bitmap index else ⟨true, 0⟩

def PmemInfo.isFree (info : PmemInfo) (index : Nat) : Prop := (info.entry index).allocated = false

instance decidableIsFree (info : PmemInfo) (index : Nat) : Decidable (info.isFree index) :=
  inferInstanceAs (Decidable ((info.entry index).allocated = false))

def PmemInfo.order (info : PmemInfo) (index : Nat) : Nat := (info.entry index).order

def PmemInfo.buddyIndex (info : PmemInfo) (index : Nat) : Nat := index ^^^ 2 ^ info.order index

def PmemInfo.nextIndex (info : PmemInfo) (index : Nat) : Nat := index + 2 ^ info.order index

def PmemInfo.setOrder (info : PmemInfo) (index order : Nat) : PmemInfo :=
  { info with
    bitmap := Function.update info.bitmap index { info.bitmap index with order := order } }

def PmemInfo.setAllocated (info : PmemInfo) (index : Nat) (allocated : Bool) : PmemInfo :=
  { info with
    bitmap := Function.update info.bitmap index { info.bitmap index with allocated := allocated } }

/-! ### Setting up -/

/-- The loop of `pmem_setup` from bit `i - 1` down. -/
def setupLoop : Nat → Nat → PmemInfo → PmemInfo
  | 0, _, info => info
  | i + 1, index, info =>
    if info.numEntries.testBit i then
      let info := info.setOrder index i
      setupLoop i (info.nextIndex index) info
    else setupLoop i index info

def pmemSetup (size : BitVec 32) (noAllocator : Bool) : PmemInfo :=
  setupLoop 32 0 ⟨size, size.toNat / minAlloc, fun _ => ⟨false, 0⟩, noAllocator, false⟩

/-! ### Freeing -/

def freeLoop : Nat → Nat → PmemInfo → Option PmemInfo
  | 0, _, _ => none
  | rounds + 1, curr, info =>
    let buddy := info.buddyIndex curr
    if info.isFree buddy ∧ info.order buddy = info.order curr then
      let info := info.setOrder buddy (info.order buddy + 1)
      let info := info.setOrder curr (info.order curr + 1)
      let curr := min buddy curr
      if curr < info.numEntries then freeLoop rounds curr info else some info
    else some info

def pmemFree (index : Nat) (info : PmemInfo) : Option PmemInfo :=
  if info.noAllocator then some { info with allocated := false }
  else freeLoop 32 index (info.setAllocated index false)

/-! ### Allocating -/

/-- The loop of `pmem_order` over the bits from `i` on. -/
def orderLoop (len : BitVec 32) : Nat → Nat → Nat
  | 0, i => i
  | rounds + 1, i => if len >>> i = 0 then i else orderLoop len rounds (i + 1)

def pmemOrder (len : BitVec 32) : Nat :=
  orderLoop ((len + BitVec.ofNat 32 minAlloc - 1) / BitVec.ofNat 32 minAlloc - 1) 32 0

/-- The loop that looks for the best fit. -/
def searchLoop (info : PmemInfo) (order : Nat) : Nat → Nat → Option Nat → Option (Option Nat)
  | 0, _, _ => none
  | rounds + 1, curr, bestFit =>
    if curr < info.numEntries then
      if info.isFree curr then
        if info.order curr = order then some (some curr)
        else
          let bestFit :=
            if order < info.order curr ∧ ∀ best ∈ bestFit, info.order curr < info.order best
            then some curr else bestFit
          searchLoop info order rounds (info.nextIndex curr) bestFit
      else searchLoop info order rounds (info.nextIndex curr) bestFit
    else some bestFit

/-- The loop that halves the best fit. -/
def splitLoop (order bestFit : Nat) : Nat → PmemInfo → Option PmemInfo
  | 0, _ => none
  | rounds + 1, info =>
    if order < info.order bestFit then
      let info := info.setOrder bestFit (info.order bestFit - 1)
      let buddy := info.buddyIndex bestFit
      splitLoop order bestFit rounds (info.setOrder buddy (info.order bestFit))
    else some info

/-- The result is -1 or an index; without the allocator it is the length. -/
def pmemAllocate (len : BitVec 32) (info : PmemInfo) : Option (Int × PmemInfo) :=
  let order := pmemOrder len
  if info.noAllocator then
    if info.size < len ∨ info.allocated then some (-1, info)
    else some (len.toInt, { info with allocated := true })
  else if maxOrder < order then some (-1, info)
  else
    match searchLoop info (order % 2 ^ 8) (info.numEntries + 1) 0 none with
    | none => none
    | some none => some (-1, info)
    | some (some bestFit) =>
      match splitLoop (order % 2 ^ 8) bestFit 32 info with
      | none => none
      | some info => some (bestFit, info.setAllocated bestFit true)

/-! ### Walking over the slots -/

/-- A slot as a walk sees it. -/
structure Slot where
  index : Nat
  order : Nat
deriving DecidableEq, Repr

def walkLoop (info : PmemInfo) : Nat → Nat → List Slot
  | 0, _ => []
  | rounds + 1, curr =>
    if curr < info.numEntries then
      ⟨curr, info.order curr⟩ :: walkLoop info rounds (info.nextIndex curr)
    else []

/-- The slots that are visited from index 0 on. -/
def PmemInfo.walk (info : PmemInfo) : List Slot := walkLoop info info.numEntries 0

end AndroidKernel.Pmem
