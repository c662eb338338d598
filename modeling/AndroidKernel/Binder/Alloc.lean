import AndroidKernel.Lib.RbTree
import AndroidKernel.Lib.Run

/-!
The buffer space of a binder process: `binder_mmap`, `binder_alloc_buf`,
`binder_free_buf` and what they call (`drivers/staging/android/binder.c`).

A process maps one area and cuts it into buffers. A buffer is identified by the
kernel address of its header; the list `buffers` is the `entry` list in address
order, the two trees hold the free buffers by size and the allocated ones by
address, and `pages` says which pages of the area are backed. The size of a
buffer is not stored: `binderBufferSize` recomputes it from the next list entry.

The code is for a 32-bit kernel: `size_t` arithmetic on user-supplied sizes is
modulo `2 ^ 32`. Addresses inside the area are natural numbers; the area lies
below `VMALLOC_END`, so no sum of the code wraps there.

Every `BUG_ON` on the way is a `Fault`, and so is freeing a page that is not
there. A failing `alloc_page`, `map_vm_area` or `vm_insert_page` is an input
(`PageEnv`).
-/

namespace AndroidKernel.Binder

open Lib Function

/-! ### Sizes and addresses -/

/-- `PAGE_SIZE`. -/
def pageSize : Nat := 4096

/-- `sizeof(struct binder_buffer)`: two list and three tree words, the bit
field, two pointers and two sizes. -/
def headerSize : Nat := 40

/-- `SZ_4M`. -/
def sz4M : Nat := 0x400000

/-- `VMALLOC_END` of the MT6516 memory map. -/
def vmallocEnd : Nat := 0xF0000000

/-- `ALIGN(x, sizeof(void *))` on `size_t`. -/
def align (x : Nat) : Nat := (x + 3) % 2 ^ 32 / 4 * 4

/-- `x & PAGE_MASK`. -/
def pageFloor (x : Nat) : Nat := x / pageSize * pageSize

/-- `PAGE_ALIGN(x)`. -/
def pageAlign (x : Nat) : Nat := (x + (pageSize - 1)) / pageSize * pageSize

/-- The space a transaction with these sizes asks for. -/
def requestSize (dataSize offsetsSize : Nat) : Nat :=
  (align dataSize + align offsetsSize) % 2 ^ 32

/-! ### Faults -/

/-- Where the source would stop in `BUG()` or `BUG_ON()`. -/
inductive BugSite where
  | insertFreeNotFree
  | insertFreeTreeNotFree
  | insertAllocatedFree
  | insertAllocatedTreeFree
  | insertAllocatedDuplicate
  | lookupFree
  | pagePresent
  | allocNotFree
  | deleteFirst
  | deletePrevNotFree
  | freeBufFree
  | freeBufSize
  | freeBufTransaction
  | freeBufBelow
  | freeBufAbove
  | popTransactionStack
  | popTransactionFrom
  | failedReplyOneWay
  | freeThreadStack
  | transactionReplyAsync
  | transactionCallAsync
  | transactionOneWayNode
  | transactionOneWayAsync
  | transactionReturnError
  | refDescDuplicate
  | freeBufferNoAsync
  | clearDeathType
  | readNoBuffer
  | releaseVma
  | releaseFiles
  | releaseDeathQueued
deriving DecidableEq, Repr

inductive ObjectKind where
  | proc
  | thread
  | node
  | ref
  | death
  | transaction
  | transactionComplete
  | buffer
deriving DecidableEq, Repr

/-- How a call can go wrong beyond an error code: a `BUG`, memory that is freed
or not there, an overflow of an `int`, a loop that does not end. -/
inductive Fault where
  | bug (site : BugSite)
  | doubleFree
  | useAfterFree (kind : ObjectKind)
  | nullPointer
  | intOverflow
  | endlessLoop
deriving DecidableEq, Repr

/-! ### State -/

/-- `struct binder_buffer`, with the contents of `data`: 32-bit words, then the
array of offsets. `transaction` and `targetNode` name objects of the driver. -/
structure BinderBuffer where
  free : Bool := false
  allowUserFree : Bool := false
  asyncTransaction : Bool := false
  transaction : Option Nat := none
  targetNode : Option Nat := none
  dataSize : Nat := 0
  offsetsSize : Nat := 0
  data : Nat → Nat := fun _ => 0
  offsets : List Nat := []

/-- The fields of `struct binder_proc` that describe its buffer space. -/
structure BinderAlloc where
  buffer : Nat
  bufferSize : Nat
  buffers : List Nat
  hdr : Nat → BinderBuffer
  freeBuffers : RbTree Nat
  allocatedBuffers : RbTree Nat
  freeAsyncSpace : Nat
  pages : Nat → Bool
  vma : Bool

/-- The end of the area. -/
def BinderAlloc.top (a : BinderAlloc) : Nat := a.buffer + a.bufferSize

/-- `buffer->data`. -/
def dataOf (b : Nat) : Nat := b + headerSize

/-- The entry after `b`; `none` when `list_is_last`. -/
def nextEntry : List Nat → Nat → Option Nat
  | [], _ => none
  | x :: l, b => if x = b then l.head? else nextEntry l b

/-- The entry before `b`; `none` when `b` is the first. -/
def prevEntry : List Nat → Nat → Option Nat
  | x :: y :: l, b => if y = b then some x else prevEntry (y :: l) b
  | _, _ => none

/-- `list_add(&new->entry, &b->entry)`. -/
def addAfter (new : Nat) : List Nat → Nat → List Nat
  | [], _ => []
  | x :: l, b => if x = b then x :: new :: l else x :: addAfter new l b

def binderBufferSize (a : BinderAlloc) (b : Nat) : Nat :=
  match nextEntry a.buffers b with
  | none => a.top - dataOf b
  | some next => next - dataOf b

def BinderAlloc.setHdr (a : BinderAlloc) (b : Nat) (f : BinderBuffer → BinderBuffer) :
    BinderAlloc :=
  { a with hdr := update a.hdr b (f (a.hdr b)) }

/-! ### The two trees -/

/-- Where the loop of `binder_insert_free_buffer` turns at `b`: to the left of
larger buffers. -/
def freeDir (a : BinderAlloc) (new b : Nat) : Except Fault Bool :=
  if !(a.hdr b).free then .error (.bug .insertFreeTreeNotFree)
  else .ok (decide (binderBufferSize a new < binderBufferSize a b))

def binderInsertFreeBuffer (a : BinderAlloc) (new : Nat) : Except Fault BinderAlloc := do
  if !(a.hdr new).free then throw (.bug .insertFreeNotFree)
  let path ← a.freeBuffers.descend (freeDir a new) []
  return { a with freeBuffers := RbTree.rbInsertAt new path }

/-- Where the loop of `binder_insert_allocated_buffer` turns at `b`. -/
def allocatedDir (a : BinderAlloc) (new b : Nat) : Except Fault Bool :=
  if (a.hdr b).free then .error (.bug .insertAllocatedTreeFree)
  else if new < b then .ok true
  else if b < new then .ok false
  else .error (.bug .insertAllocatedDuplicate)

def binderInsertAllocatedBuffer (a : BinderAlloc) (new : Nat) : Except Fault BinderAlloc := do
  if (a.hdr new).free then throw (.bug .insertAllocatedFree)
  let path ← a.allocatedBuffers.descend (allocatedDir a new) []
  return { a with allocatedBuffers := RbTree.rbInsertAt new path }

/-- The loop of `binder_buffer_lookup`, for a kernel address. -/
def lookupBuffer (a : BinderAlloc) (kernPtr : Nat) : RbTree Nat → Except Fault (Option Nat)
  | .leaf => .ok none
  | .node _ l b r =>
    if (a.hdr b).free then .error (.bug .lookupFree)
    else if kernPtr < b then lookupBuffer a kernPtr l
    else if b < kernPtr then lookupBuffer a kernPtr r
    else .ok (some b)

/-! ### Pages -/

inductive PageFailure where
  | allocPage
  | mapKernel
  | vmInsertPage
deriving DecidableEq, Repr

/-- What the memory manager answers: whether the task still has an `mm`, and
which call, if any, fails for the page with a given index. -/
structure PageEnv where
  mm : Bool := true
  fails : Nat → Option PageFailure := fun _ => none

/-- The `free_range` loop: `n` pages from `start` on are freed, the last first. -/
def freePages (buffer start : Nat) : Nat → (Nat → Bool) → Except Fault (Nat → Bool)
  | 0, pages => .ok pages
  | n + 1, pages =>
    let i := (start + n * pageSize - buffer) / pageSize
    if pages i then freePages buffer start n (update pages i false)
    else .error .doubleFree

/-- The allocation loop: `k` pages from `start` on are done, `n` are to do. On a
failure the loop enters the body of `free_range` at the label of the failed
call and frees what it has allocated. -/
def allocPages (env : PageEnv) (buffer start : Nat) :
    Nat → Nat → (Nat → Bool) → Except Fault (Bool × (Nat → Bool))
  | 0, _, pages => .ok (true, pages)
  | n + 1, k, pages =>
    let i := (start + k * pageSize - buffer) / pageSize
    if pages i then .error (.bug .pagePresent)
    else
      match env.fails i with
      | none => allocPages env buffer start n (k + 1) (update pages i true)
      | some .allocPage => do
        let pages ← freePages buffer start k pages
        return (false, pages)
      | some _ => do
        let pages ← freePages buffer start (k + 1) (update pages i true)
        return (false, pages)

/-- `binder_update_page_range`; the result is whether it returns 0. `vma` is the
argument of that name. -/
def binderUpdatePageRange (a : BinderAlloc) (env : PageEnv) (allocate : Bool)
    (start stop : Nat) (vma : Bool) : Except Fault (Bool × BinderAlloc) :=
  if stop ≤ start then .ok (true, a)
  else if !allocate then do
    let pages ← freePages a.buffer start ((stop - start) / pageSize) a.pages
    return (false, { a with pages := pages })
  else if !(vma || (env.mm && a.vma)) then .ok (false, a)
  else do
    let (done, pages) ← allocPages env a.buffer start
      ((stop - start + (pageSize - 1)) / pageSize) 0 a.pages
    return (done, { a with pages := pages })

/-! ### Allocation -/

/-- The best-fit search: the smallest free buffer that is large enough, and
whether it fits exactly (the search then stopped at its node). -/
def bestFit (a : BinderAlloc) (size : Nat) : RbTree Nat → Option Nat →
    Except Fault (Option Nat × Bool)
  | .leaf, best => .ok (best, false)
  | .node _ l b r, best =>
    if !(a.hdr b).free then .error (.bug .allocNotFree)
    else if size < binderBufferSize a b then bestFit a size l (some b)
    else if binderBufferSize a b < size then bestFit a size r best
    else .ok (some b, true)

/-- How much of the chosen buffer the request takes, its successor's header
included when the rest is worth a buffer of its own. -/
def takenSize (size bufferSize : Nat) (exact : Bool) : Nat :=
  if exact then bufferSize
  else if size + headerSize + 4 ≥ bufferSize then size
  else size + headerSize

/-- The part of `binder_alloc_buf` after the pages are there: buffer `b` leaves
the free tree and its rest becomes a new free buffer. -/
def takeBuffer (a : BinderAlloc) (b size taken : Nat) : Except Fault BinderAlloc := do
  let a := { a with freeBuffers := a.freeBuffers.rbErase b }
  let a ← binderInsertAllocatedBuffer (a.setHdr b fun h => { h with free := false }) b
  if taken ≠ size then
    let new := dataOf b + size
    let a := { a with buffers := addAfter new a.buffers b }
    binderInsertFreeBuffer (a.setHdr new fun h => { h with free := true }) new
  else return a

def binderAllocBuf (a : BinderAlloc) (env : PageEnv) (dataSize offsetsSize : Nat)
    (isAsync : Bool) : Except Fault (Option Nat × BinderAlloc) :=
  let size := requestSize dataSize offsetsSize
  if !a.vma then .ok (none, a)
  else if size < dataSize || size < offsetsSize then .ok (none, a)
  else if isAsync && decide (a.freeAsyncSpace < (size + headerSize) % 2 ^ 32) then .ok (none, a)
  else do
    let (best, exact) ← bestFit a size a.freeBuffers none
    match best with
    | none => return (none, a)
    | some b =>
      let bufferSize := binderBufferSize a b
      let hasPageAddr := pageFloor (dataOf b + bufferSize)
      let taken := takenSize size bufferSize exact
      let endPageAddr := min (pageAlign (dataOf b + taken)) hasPageAddr
      let (done, a) ← binderUpdatePageRange a env true (pageAlign (dataOf b)) endPageAddr false
      if !done then return (none, a)
      let a ← takeBuffer a b size taken
      let a := a.setHdr b fun h =>
        { h with dataSize := dataSize, offsetsSize := offsetsSize, asyncTransaction := isAsync }
      if isAsync then
        return (some b, { a with
          freeAsyncSpace := (a.freeAsyncSpace + 2 ^ 32 - (size + headerSize)) % 2 ^ 32 })
      return (some b, a)

/-! ### Freeing -/

/-- `buffer_start_page`. -/
def bufferStartPage (b : Nat) : Nat := pageFloor b

/-- `buffer_end_page`. -/
def bufferEndPage (b : Nat) : Nat := pageFloor (b + headerSize - 1)

/-- Whether the first page of the header of `b` is shared with no neighbour. -/
def freePageStart (prev b : Nat) (next : Option Nat) : Bool :=
  decide (bufferEndPage prev ≠ bufferStartPage b) &&
    next.all fun n => !(decide (bufferStartPage n = bufferEndPage b) &&
      decide (bufferStartPage n = bufferStartPage b))

/-- Whether the last page of the header of `b` is shared with no neighbour. -/
def freePageEnd (prev b : Nat) (next : Option Nat) : Bool :=
  !(decide (bufferEndPage prev = bufferStartPage b) &&
      decide (bufferEndPage prev = bufferEndPage b)) &&
    next.all fun n => decide (bufferStartPage n ≠ bufferEndPage b)

def binderDeleteFreeBuffer (a : BinderAlloc) (b : Nat) : Except Fault BinderAlloc :=
  match prevEntry a.buffers b with
  | none => .error (.bug .deleteFirst)
  | some prev =>
    if !(a.hdr prev).free then .error (.bug .deletePrevNotFree)
    else
      let next := nextEntry a.buffers b
      let first := freePageStart prev b next
      let last := freePageEnd prev b next
      let a := { a with buffers := a.buffers.erase b }
      if first || last then do
        let (_, a) ← binderUpdatePageRange a {} false
          (if first then bufferStartPage b else bufferEndPage b)
          ((if last then bufferEndPage b else bufferStartPage b) + pageSize) false
        return a
      else .ok a

/-- The first merge of `binder_free_buf`: a free successor of `b` is absorbed. -/
def mergeNext (a : BinderAlloc) (b : Nat) : Except Fault BinderAlloc :=
  match nextEntry a.buffers b with
  | none => .ok a
  | some next =>
    if (a.hdr next).free then
      binderDeleteFreeBuffer { a with freeBuffers := a.freeBuffers.rbErase next } next
    else .ok a

/-- The second merge: `b` is absorbed by a free predecessor, which leaves the
tree because its size has changed. The result is the buffer to insert. -/
def mergePrev (a : BinderAlloc) (b : Nat) : Except Fault (Nat × BinderAlloc) :=
  match prevEntry a.buffers b with
  | none => .ok (b, a)
  | some prev =>
    if (a.hdr prev).free then do
      let a ← binderDeleteFreeBuffer a b
      return (prev, { a with freeBuffers := a.freeBuffers.rbErase prev })
    else .ok (b, a)

def binderFreeBuf (a : BinderAlloc) (b : Nat) : Except Fault BinderAlloc := do
  let bufferSize := binderBufferSize a b
  let h := a.hdr b
  let size := requestSize h.dataSize h.offsetsSize
  if h.free then throw (.bug .freeBufFree)
  if size > bufferSize then throw (.bug .freeBufSize)
  if h.transaction.isSome then throw (.bug .freeBufTransaction)
  if b < a.buffer then throw (.bug .freeBufBelow)
  if b > a.top then throw (.bug .freeBufAbove)
  let a := if h.asyncTransaction then
    { a with freeAsyncSpace := (a.freeAsyncSpace + (size + headerSize)) % 2 ^ 32 } else a
  let (_, a) ← binderUpdatePageRange a {} false (pageAlign (dataOf b))
    (pageFloor (dataOf b + bufferSize)) false
  let a := { a with allocatedBuffers := a.allocatedBuffers.rbErase b }
  let a ← mergeNext (a.setHdr b fun h => { h with free := true }) b
  let (b, a) ← mergePrev a b
  binderInsertFreeBuffer a b

/-! ### Mapping the area -/

/-- What `binder_mmap` gets to work with: the address `get_vm_area` returns for
a user mapping of `size` bytes. Both are page aligned and the area lies in the
`vmalloc` region. -/
structure VmArea where
  addr : Nat
  size : Nat
  addr_aligned : addr % pageSize = 0
  size_aligned : size % pageSize = 0
  size_pos : 0 < size
  below : addr + size ≤ vmallocEnd

/-- The mapping is cut to 4 MiB. -/
def VmArea.mapped (area : VmArea) : Nat := min area.size sz4M

/-- `binder_mmap` from the allocation of the page array on; `none` when it
returns an error. -/
def binderMmap (area : VmArea) (pageArray : Bool) (env : PageEnv) :
    Except Fault (Option BinderAlloc) :=
  if !pageArray then .ok none
  else do
    let a : BinderAlloc :=
      { buffer := area.addr, bufferSize := area.mapped, buffers := [], hdr := fun _ => {},
        freeBuffers := .leaf, allocatedBuffers := .leaf, freeAsyncSpace := 0,
        pages := fun _ => false, vma := false }
    let (done, a) ← binderUpdatePageRange a env true area.addr (area.addr + pageSize) true
    if !done then return none
    let a := { a with buffers := [area.addr] }
    let a ← binderInsertFreeBuffer (a.setHdr area.addr fun h => { h with free := true }) area.addr
    return some { a with freeAsyncSpace := a.bufferSize / 2, vma := true }

/-! ### Runs of the allocator -/

/-- The calls the driver makes on a buffer space: the two entry points, the
stores of its other code into the fields of an allocated buffer that the
allocator does not own, and the loss of the mapping (`binder_vma_close`). -/
inductive AllocCall where
  | alloc (env : PageEnv) (dataSize offsetsSize : Nat) (isAsync : Bool)
  | free (b : Nat)
  | store (b : Nat) (transaction targetNode : Option Nat) (allowUserFree : Bool)
      (data : Nat → Nat) (offsets : List Nat)
  | vmaClose

def AllocCall.exec : AllocCall → BinderAlloc → Except Fault BinderAlloc
  | .alloc env dataSize offsetsSize isAsync, a =>
    (binderAllocBuf a env dataSize offsetsSize isAsync).map Prod.snd
  | .free b, a => binderFreeBuf a b
  | .store b transaction targetNode allowUserFree data offsets, a =>
    .ok (a.setHdr b fun h => { h with
      transaction := transaction, targetNode := targetNode, allowUserFree := allowUserFree,
      data := data, offsets := offsets })
  | .vmaClose, a => .ok { a with vma := false }

/-- `b` is a currently allocated buffer. -/
def BinderAlloc.Allocated (a : BinderAlloc) (b : Nat) : Prop :=
  b ∈ a.buffers ∧ (a.hdr b).free = false

/-- A buffer is freed only while it is allocated and no transaction points to it. -/
def AllocCall.Enabled (a : BinderAlloc) : AllocCall → Prop
  | .alloc .. => True
  | .free b => a.Allocated b ∧ (a.hdr b).transaction = none
  | .store b .. => a.Allocated b
  | .vmaClose => True

/-- Runs start in what a successful `binder_mmap` leaves. -/
def allocMachine : Machine BinderAlloc AllocCall Fault where
  init a := ∃ area pageArray env, binderMmap area pageArray env = .ok (some a)
  enabled := AllocCall.Enabled
  exec := AllocCall.exec

end AndroidKernel.Binder
