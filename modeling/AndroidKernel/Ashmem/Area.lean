import Mathlib

/-!
Anonymous shared memory (`mm/ashmem.c`): pinning and unpinning pages.

An area has a list of ranges of unpinned pages. A range is an object that is on
the list of one area from `range_alloc` to `range_del`; it is kept here as an
element of that list, with an identity by which the LRU list refers to it.
Page numbers are natural numbers: the only additions and subtractions of the
source on them are made where they do not wrap. The count of pages on the LRU
list and the number of pages to scan are 32-bit. Whether an allocation succeeds
is an argument: `some id` for a new object, `none` for a failure.
-/

namespace AndroidKernel.Ashmem

/-- `struct ashmem_range`. -/
structure AshmemRange where
  id : Nat
  pgstart : Nat
  pgend : Nat
  purged : Bool
  deriving DecidableEq

namespace AshmemRange

variable (range : AshmemRange) (start stop page : Nat)

/-- `range_size`. -/
def size : Nat := range.pgend + 1 - range.pgstart

/-- `range_on_lru`. -/
def onLru : Bool := !range.purged

/-- `page_range_subsumes_range`. -/
def subsumedByPages : Bool := decide (start ≤ range.pgstart) && decide (range.pgend ≤ stop)

/-- `page_range_subsumed_by_range`. -/
def subsumesPages : Bool := decide (range.pgstart ≤ start) && decide (stop ≤ range.pgend)

/-- `page_in_range`. -/
def hasPage : Bool := decide (range.pgstart ≤ page) && decide (page ≤ range.pgend)

/-- `page_range_in_range`. -/
def meetsPages : Bool :=
  range.hasPage start || range.hasPage stop || range.subsumedByPages start stop

/-- `range_before_page`. -/
def beforePage : Bool := decide (range.pgend < page)

end AshmemRange

/-- How the LRU list refers to a range. -/
structure RangeRef where
  asma : Nat
  id : Nat
  deriving DecidableEq

/-- `ashmem_lru_list` and `lru_count`. -/
structure Lru where
  refs : List RangeRef
  count : BitVec 32

def lruAdd (asma : Nat) (range : AshmemRange) (lru : Lru) : Lru where
  refs := lru.refs ++ [{ asma := asma, id := range.id }]
  count := lru.count + BitVec.ofNat 32 range.size

def lruDel (asma : Nat) (range : AshmemRange) (lru : Lru) : Lru where
  refs := lru.refs.erase { asma := asma, id := range.id }
  count := lru.count - BitVec.ofNat 32 range.size

/-- The LRU side of `range_alloc`. -/
def rangeAlloc (asma : Nat) (range : AshmemRange) (lru : Lru) : Lru :=
  if range.onLru then lruAdd asma range lru else lru

/-- The LRU side of `range_del`. -/
def rangeDel (asma : Nat) (range : AshmemRange) (lru : Lru) : Lru :=
  if range.onLru then lruDel asma range lru else lru

/-- `range_shrink`. -/
def rangeShrink (range : AshmemRange) (start stop : Nat) (lru : Lru) : AshmemRange × Lru :=
  let pre := BitVec.ofNat 32 range.size
  let range := { range with pgstart := start, pgend := stop }
  if range.onLru then (range, { lru with count := lru.count - (pre - BitVec.ofNat 32 range.size) })
  else (range, lru)

/-! ### Pinning -/

/-- What one round of the loop of `ashmem_pin` does: what it adds to the
result, what it leaves in the place of the range, and whether it breaks. -/
structure PinRound where
  purged : Bool
  put : List AshmemRange
  lru : Lru
  stop : Bool

def pinRange (asma pgstart pgend : Nat) (alloc : Option Nat) (range : AshmemRange) (lru : Lru) :
    PinRound :=
  if range.beforePage pgstart then
    { purged := false, put := [range], lru := lru, stop := true }
  else if range.meetsPages pgstart pgend then
    if range.subsumedByPages pgstart pgend then
      -- Case 1: the whole range goes.
      { purged := range.purged, put := [], lru := rangeDel asma range lru, stop := false }
    else if pgstart ≤ range.pgstart then
      -- Case 2: the start of the range goes.
      let (rest, lru) := rangeShrink range (pgend + 1) range.pgend lru
      { purged := range.purged, put := [rest], lru := lru, stop := false }
    else if range.pgend ≤ pgend then
      -- Case 3: the end of the range goes.
      let (rest, lru) := rangeShrink range range.pgstart (pgstart - 1) lru
      { purged := range.purged, put := [rest], lru := lru, stop := false }
    else
      -- Case 4: a hole. The result of the allocation is not looked at.
      let (above, lru) : List AshmemRange × Lru :=
        match alloc with
        | some id =>
          let above : AshmemRange :=
            { id := id, pgstart := pgend + 1, pgend := range.pgend, purged := range.purged }
          ([above], rangeAlloc asma above lru)
        | none => ([], lru)
      let (rest, lru) := rangeShrink range range.pgstart (pgstart - 1) lru
      { purged := range.purged, put := above ++ [rest], lru := lru, stop := true }
  else { purged := false, put := [range], lru := lru, stop := false }

/-- The loop of `ashmem_pin` over an area's list. -/
def pinLoop (asma pgstart pgend : Nat) (alloc : Option Nat) :
    List AshmemRange → Lru → Bool × List AshmemRange × Lru
  | [], lru => (false, [], lru)
  | range :: ranges, lru =>
    let round := pinRange asma pgstart pgend alloc range lru
    if round.stop then (round.purged, round.put ++ ranges, round.lru)
    else
      let (purged, ranges, lru) := pinLoop asma pgstart pgend alloc ranges round.lru
      (round.purged || purged, round.put ++ ranges, lru)

/-! ### Unpinning -/

/-- How a pass of `ashmem_unpin` over the list ends. -/
inductive UnpinPass where
  /-- the insertion point is found, or the end of the list reached -/
  | insert
  /-- the pages are unpinned already -/
  | done
  /-- this range is merged and the pass starts again -/
  | merge (range : AshmemRange)

def unpinPass (pgstart pgend : Nat) : List AshmemRange → UnpinPass
  | [] => .insert
  | range :: ranges =>
    if range.beforePage pgstart then .insert
    else if range.subsumesPages pgstart pgend then .done
    else if range.meetsPages pgstart pgend then .merge range
    else unpinPass pgstart pgend ranges

/-- Puts a range before the first one that ends before page `pgstart`. -/
def insertRange (pgstart : Nat) (new : AshmemRange) : List AshmemRange → List AshmemRange
  | [] => [new]
  | range :: ranges =>
    if range.beforePage pgstart then new :: range :: ranges
    else range :: insertRange pgstart new ranges

/-- The passes of `ashmem_unpin`; `false` is `-ENOMEM`. Each pass but the last
takes a range off the list. -/
def unpinLoop (asma : Nat) (alloc : Option Nat) :
    Nat → Nat → Nat → Bool → List AshmemRange → Lru → Bool × List AshmemRange × Lru
  | 0, _, _, _, ranges, lru => (true, ranges, lru)
  | fuel + 1, pgstart, pgend, purged, ranges, lru =>
    match unpinPass pgstart pgend ranges with
    | .done => (true, ranges, lru)
    | .merge range =>
      unpinLoop asma alloc fuel (min range.pgstart pgstart) (max range.pgend pgend)
        (purged || range.purged) (ranges.erase range) (rangeDel asma range lru)
    | .insert =>
      match alloc with
      | none => (false, ranges, lru)
      | some id =>
        let new : AshmemRange :=
          { id := id, pgstart := pgstart, pgend := pgend, purged := purged }
        (true, insertRange pgstart new ranges, rangeAlloc asma new lru)

/-! ### The whole -/

/-- All areas, by number, and the LRU list. -/
structure Areas where
  unpinned : Nat → List AshmemRange
  lru : Lru
  /-- identity of the next range -/
  fresh : Nat

def ashmemInit : Areas where
  unpinned := fun _ => []
  lru := { refs := [], count := 0 }
  fresh := 0

/-- An area's list and the LRU list after a change to one area. -/
def Areas.put (s : Areas) (asma : Nat) (ranges : List AshmemRange) (lru : Lru) : Areas where
  unpinned := Function.update s.unpinned asma ranges
  lru := lru
  fresh := s.fresh + 1

/-- The object that an allocation gives. -/
def Areas.alloc (s : Areas) (allocated : Bool) : Option Nat :=
  if allocated then some s.fresh else none

def ashmemPin (s : Areas) (asma pgstart pgend : Nat) (allocated : Bool) : Bool × Areas :=
  let (purged, ranges, lru) :=
    pinLoop asma pgstart pgend (s.alloc allocated) (s.unpinned asma) s.lru
  (purged, s.put asma ranges lru)

def ashmemUnpin (s : Areas) (asma pgstart pgend : Nat) (allocated : Bool) : Bool × Areas :=
  let (done, ranges, lru) :=
    unpinLoop asma (s.alloc allocated) ((s.unpinned asma).length + 1) pgstart pgend false
      (s.unpinned asma) s.lru
  (done, s.put asma ranges lru)

/-- `ashmem_get_pin_status`; `true` is `ASHMEM_IS_UNPINNED`. -/
def ashmemGetPinStatus (pgstart pgend : Nat) : List AshmemRange → Bool
  | [] => false
  | range :: ranges =>
    if range.beforePage pgstart then false
    else if range.meetsPages pgstart pgend then true
    else ashmemGetPinStatus pgstart pgend ranges

def Areas.range? (s : Areas) (ref : RangeRef) : Option AshmemRange :=
  (s.unpinned ref.asma).find? fun range => range.id = ref.id

/-- The pages that `vmtruncate_range` is called for. -/
structure Truncation where
  asma : Nat
  pgstart : Nat
  pgend : Nat
  deriving DecidableEq

/-- Sets the purge flag of one range. -/
def purgeId (id : Nat) (r : AshmemRange) : AshmemRange :=
  if r.id = id then { r with purged := true } else r

/-- The loop of `ashmem_shrink`; `none` when the LRU list holds a range that is
on no area's list any more. -/
def shrinkLoop : List RangeRef → BitVec 32 → Areas → Option (List Truncation × Areas)
  | [], _, s => some ([], s)
  | ref :: refs, nrToScan, s =>
    match s.range? ref with
    | none => none
    | some range =>
      let s := { s with
        unpinned :=
          Function.update s.unpinned ref.asma ((s.unpinned ref.asma).map (purgeId ref.id))
        lru := lruDel ref.asma range s.lru }
      let nrToScan := nrToScan - BitVec.ofNat 32 range.size
      let cut : Truncation := { asma := ref.asma, pgstart := range.pgstart, pgend := range.pgend }
      if BitVec.sle nrToScan 0 then some ([cut], s)
      else (shrinkLoop refs nrToScan s).map fun (cuts, s) => (cut :: cuts, s)

/-- What a call answers. -/
inductive Answer where
  | pinned (purged : Bool)
  | unpinned (done : Bool)
  | status (unpinned : Bool)
  /-- `-1`: the caller cannot enter the filesystem -/
  | refused
  | counted (count : BitVec 32) (cuts : List Truncation)
  | fault
  deriving DecidableEq

def ashmemShrink (s : Areas) (nrToScan : BitVec 32) (gfpFs : Bool) : Answer × Areas :=
  if nrToScan ≠ 0 && !gfpFs then (.refused, s)
  else if nrToScan = 0 then (.counted s.lru.count [], s)
  else
    match shrinkLoop s.lru.refs nrToScan s with
    | none => (.fault, s)
    | some (cuts, s) => (.counted s.lru.count cuts, s)

/-- The calls, each under `ashmem_mutex`. -/
inductive Call where
  | pin (asma pgstart pgend : Nat) (allocated : Bool)
  | unpin (asma pgstart pgend : Nat) (allocated : Bool)
  | getPinStatus (asma pgstart pgend : Nat)
  | shrink (nrToScan : BitVec 32) (gfpFs : Bool)

def Call.step (call : Call) (s : Areas) : Answer × Areas :=
  match call with
  | .pin asma pgstart pgend allocated =>
    let (purged, s) := ashmemPin s asma pgstart pgend allocated
    (.pinned purged, s)
  | .unpin asma pgstart pgend allocated =>
    let (done, s) := ashmemUnpin s asma pgstart pgend allocated
    (.unpinned done, s)
  | .getPinStatus asma pgstart pgend =>
    (.status (ashmemGetPinStatus pgstart pgend (s.unpinned asma)), s)
  | .shrink nrToScan gfpFs => ashmemShrink s nrToScan gfpFs

/-! ### The pages of a request -/

/-- `PAGE_ALIGN`. -/
def pageAlign (addr : BitVec 32) : BitVec 32 := (addr + 4095) &&& ~~~4095

/-- The part of `ashmem_pin_unpin` that finds the pages of a request, in 32-bit
arithmetic; `none` is `-EINVAL`. -/
def requestPages (size offset len : BitVec 32) : Option (Nat × Nat) :=
  let len := if len = 0 then pageAlign size - offset else len
  if (offset ||| len) &&& 4095 ≠ 0 then none
  else if BitVec.allOnes 32 - offset < len then none
  else if pageAlign size < offset + len then none
  else
    let pgstart := offset / 4096
    some (pgstart.toNat, (pgstart + len / 4096 - 1).toNat)

end AndroidKernel.Ashmem
