import AndroidKernel.Lib.Hoare

/-!
The boot-time memory allocator of `mm/bootmem.c`.

A node is a range of page frames with a bitmap, in which a set bit is a page that is
reserved or in use. Node data are kept in a table by the number of the node;
`bdata_list` is the list of the numbers in the order of the nodes' first frames.
Where the source stops the machine with `BUG`, the model ends in a `Bug`.
-/

namespace AndroidKernel.Bootmem

open Lib

/-- `unsigned long` -/
abbrev Word := BitVec 32

/-! ### Pages and alignment -/

def pfnDown (x : Word) : Word := x >>> 12

def pfnUp (x : Word) : Word := (x + 4095) >>> 12

def pfnPhys (x : Word) : Word := x <<< 12

/-- The macro `ALIGN`. -/
def alignUp (x a : Word) : Word := (x + (a - 1)) &&& ~~~(a - 1)

structure Bdata where
  nodeMinPfn : Word
  nodeLowPfn : Word
  nodeBootmemMap : Nat → Bool
  lastEndOff : Word
  hintIdx : Word

def bootmapBytes (pages : Word) : Word := alignUp ((pages + 7) >>> 3) 4

/-- The number of bits that there is memory for. -/
def Bdata.bits (b : Bdata) : Nat := 8 * (bootmapBytes (b.nodeLowPfn - b.nodeMinPfn)).toNat

/-- `init_bootmem_core`: initially all pages are reserved. -/
def initBootmemCore (start stop : Word) : Bdata :=
  { nodeMinPfn := start, nodeLowPfn := stop, nodeBootmemMap := fun _ => true, lastEndOff := 0,
    hintIdx := 0 }

inductive Bug where
  /-- in `__free`: a page is not marked -/
  | expectedReserved
  /-- in `alloc_bootmem_core`: a page that was found free is marked -/
  | expectedFree
  /-- in `alloc_bootmem_core`: the size, the alignment or the limit -/
  | badRequest
  /-- in `mark_bootmem_node`: the range is not on the node -/
  | offNode
  /-- in `mark_bootmem`: the range is not on the nodes -/
  | gap
  /-- an access outside the bitmap -/
  | beyondMap
  | endless
deriving DecidableEq, Repr

inductive Answer where
  | ok
  | ebusy
  | region (address : Option Word)
  | bug (bug : Bug)
deriving DecidableEq, Repr

/-- Functions on the data of one node. -/
abbrev NodeProg := StateT Bdata (Except Bug)

/-! ### Marking pages -/

def testAndClearBit (idx : Nat) : NodeProg Bool := do
  let b ← get
  if b.bits ≤ idx then throw .beyondMap
  else
    set { b with nodeBootmemMap := Function.update b.nodeBootmemMap idx false }
    return b.nodeBootmemMap idx

def testAndSetBit (idx : Nat) : NodeProg Bool := do
  let b ← get
  if b.bits ≤ idx then throw .beyondMap
  else
    set { b with nodeBootmemMap := Function.update b.nodeBootmemMap idx true }
    return b.nodeBootmemMap idx

def freeLoop : Nat → Nat → NodeProg Unit
  | 0, _ => return
  | rounds + 1, idx => do
    if ← testAndClearBit idx then freeLoop rounds (idx + 1)
    else throw .expectedReserved

/-- `__free` -/
def rawFree (sidx eidx : Word) : NodeProg Unit := do
  let b ← get
  ifThen (sidx < b.hintIdx) (modify fun b => { b with hintIdx := sidx })
  freeLoop (eidx.toNat - sidx.toNat) sidx.toNat

def reserveLoop (sidx : Word) (exclusive : Bool) : Nat → Nat → NodeProg Answer
  | 0, _ => return .ok
  | rounds + 1, idx => do
    if ← testAndSetBit idx then
      if exclusive then
        rawFree sidx (BitVec.ofNat 32 idx)
        return .ebusy
      else
        -- silent double reserve
        reserveLoop sidx exclusive rounds (idx + 1)
    else reserveLoop sidx exclusive rounds (idx + 1)

/-- `__reserve` -/
def rawReserve (sidx eidx : Word) (exclusive : Bool) : NodeProg Answer :=
  reserveLoop sidx exclusive (eidx.toNat - sidx.toNat) sidx.toNat

def markBootmemNode (start stop : Word) (reserve exclusive : Bool) : NodeProg Answer := do
  let b ← get
  if start < b.nodeMinPfn then throw .offNode
  else if b.nodeLowPfn < stop then throw .offNode
  else
    let sidx := start - b.nodeMinPfn
    let eidx := stop - b.nodeMinPfn
    if reserve then rawReserve sidx eidx exclusive
    else
      rawFree sidx eidx
      return .ok

/-! ### Allocation on a node -/

def alignIdx (b : Bdata) (idx step : Word) : Word := alignUp (b.nodeMinPfn + idx) step - b.nodeMinPfn

def alignOff (b : Bdata) (off align : Word) : Word :=
  alignUp (pfnPhys b.nodeMinPfn + off) align - pfnPhys b.nodeMinPfn

def zeroLoop (map : Nat → Bool) : Nat → Nat → Nat
  | 0, idx => idx
  | rounds + 1, idx => if map idx then zeroLoop map rounds (idx + 1) else idx

/-- `find_next_zero_bit`: the first clear bit from `offset` on, or `size`. -/
def findNextZeroBit (map : Nat → Bool) (size offset : Word) : Word :=
  if size ≤ offset then size
  else BitVec.ofNat 32 (zeroLoop map (size.toNat - offset.toNat) offset.toNat)

/-- The first set bit of a run of bits. -/
def firstSet (map : Nat → Bool) : Nat → Nat → Option Nat
  | 0, _ => none
  | rounds + 1, idx => if map idx then some idx else firstSet map rounds (idx + 1)

structure Request where
  size : Word
  align : Word
  goal : Word
  limit : Word
deriving DecidableEq

/-- The loop at the label `find_block`: the first block of free pages, or none up to
`midx`. -/
def findBlock (b : Bdata) (size step midx : Word) : Nat → Word → Except Bug (Option Word)
  | 0, _ => throw .endless
  | rounds + 1, sidx =>
    let sidx := findNextZeroBit b.nodeBootmemMap midx sidx
    let sidx := alignIdx b sidx step
    let eidx := sidx + pfnUp size
    if midx ≤ sidx ∨ midx < eidx then return none
    else
      match firstSet b.nodeBootmemMap (eidx.toNat - sidx.toNat) sidx.toNat with
      | none => return some sidx
      | some i =>
        let i := BitVec.ofNat 32 i
        let sidx := alignIdx b i step
        if sidx = i then findBlock b size step midx rounds (sidx + step)
        else findBlock b size step midx rounds sidx

/-- A bound on the rounds of `findBlock`, each of which is at a later page. -/
def maxRounds : Nat := 2 ^ 32

/-- The offset of a new block in the node: the tail of the last block's page is used
when the pages found come right after it. -/
def startOff (b : Bdata) (sidx align : Word) : Word :=
  if b.lastEndOff &&& 4095 ≠ 0 ∧ pfnDown b.lastEndOff + 1 = sidx then alignOff b b.lastEndOff align
  else pfnPhys sidx

/-- The block on the pages that were found is handed out. -/
def takeBlock (size align sidx : Word) : NodeProg Word := do
  let b ← get
  let startOff := startOff b sidx align
  let merge : Word := if pfnDown startOff < sidx then 1 else 0
  let endOff := startOff + size
  modify fun b => { b with lastEndOff := endOff, hintIdx := pfnUp endOff }
  match ← rawReserve (pfnDown startOff + merge) (pfnUp endOff) true with
  | .ok => return pfnPhys b.nodeMinPfn + startOff
  | _ => throw .expectedFree

/-- `step` in the source -/
def pageStep (align : Word) : Word := if (1 : Word) ≤ align >>> 12 then align >>> 12 else 1

/-- The frame after the last one that may be used. -/
def maxPfn (b : Bdata) (limit : Word) : Word :=
  if limit >>> 12 ≠ 0 ∧ limit >>> 12 < b.nodeLowPfn then limit >>> 12 else b.nodeLowPfn

/-- The frame that the search starts from. -/
def startPfn (b : Bdata) (r : Request) : Word :=
  let goal := r.goal >>> 12
  if goal ≠ 0 ∧ b.nodeMinPfn < goal ∧ goal < maxPfn b r.limit then alignUp goal (pageStep r.align)
  else alignUp b.nodeMinPfn (pageStep r.align)

/-- The search from the hint, and when that fails from the start. -/
def findPages (b : Bdata) (r : Request) : Except Bug (Option Word) := do
  let step := pageStep r.align
  let sidx := startPfn b r - b.nodeMinPfn
  let midx := maxPfn b r.limit - b.nodeMinPfn
  if sidx < b.hintIdx then
    let fallback := sidx + 1
    match ← findBlock b r.size step midx maxRounds (alignIdx b b.hintIdx step) with
    | some sidx => return some sidx
    | none => findBlock b r.size step midx maxRounds (alignIdx b (fallback - 1) step)
  else findBlock b r.size step midx maxRounds sidx

/-- The physical address of the block. -/
def allocBootmemCore (r : Request) : NodeProg (Option Word) := do
  if r.size = 0 then throw .badRequest
  else if r.align &&& (r.align - 1) ≠ 0 then throw .badRequest
  else if r.limit ≠ 0 ∧ r.limit < r.goal + r.size then throw .badRequest
  else
    let b ← get
    if maxPfn b r.limit ≤ b.nodeMinPfn then return none
    else
      match ← findPages b r with
      | none => return none
      | some sidx =>
        let address ← takeBlock r.size r.align sidx
        return some address

/-! ### All nodes -/

abbrev Nodes := Nat → Bdata

abbrev Prog := StateT Nodes (Except Bug)

def onNode {α : Type} (i : Nat) (m : NodeProg α) : Prog α := do
  let nodes ← get
  let (a, b) ← m (nodes i)
  set (Function.update nodes i b)
  return a

/-- The loop of `mark_bootmem` over the nodes, where `undo` is what it does after a
failed reservation. -/
def markLoop (undo : Word → Prog Unit) (start stop : Word) (reserve exclusive : Bool) :
    List Nat → Word → Prog Answer
  | [], _ => throw .gap
  | i :: rest, pos => do
    let nodes ← get
    if pos < (nodes i).nodeMinPfn ∨ (nodes i).nodeLowPfn ≤ pos then
      if pos ≠ start then throw .gap
      else markLoop undo start stop reserve exclusive rest pos
    else
      let max := if (nodes i).nodeLowPfn < stop then (nodes i).nodeLowPfn else stop
      let err ← onNode i (markBootmemNode pos max reserve exclusive)
      if reserve ∧ err ≠ .ok then
        undo pos
        return err
      else if max = stop then return .ok
      else markLoop undo start stop reserve exclusive rest (nodes i).nodeLowPfn

/-- `mark_bootmem` with `reserve` 0 -/
def unmarkBootmem (list : List Nat) (start stop : Word) : Prog Answer :=
  markLoop (fun _ => pure ()) start stop false false list start

/-- `mark_bootmem` with `reserve` 1 -/
def markBootmem (list : List Nat) (start stop : Word) (exclusive : Bool) : Prog Answer :=
  markLoop (fun pos => do let _ ← unmarkBootmem list start pos) start stop true exclusive list start

def freeBootmemNode (i : Nat) (physaddr size : Word) : Prog Answer :=
  onNode i (markBootmemNode (pfnUp physaddr) (pfnDown (physaddr + size)) false false)

def freeBootmem (list : List Nat) (addr size : Word) : Prog Answer :=
  unmarkBootmem list (pfnUp addr) (pfnDown (addr + size))

def reserveBootmemNode (i : Nat) (physaddr size : Word) (exclusive : Bool) : Prog Answer :=
  onNode i (markBootmemNode (pfnDown physaddr) (pfnUp (physaddr + size)) true exclusive)

def reserveBootmem (list : List Nat) (addr size : Word) (exclusive : Bool) : Prog Answer :=
  markBootmem list (pfnDown addr) (pfnUp (addr + size)) exclusive

/-- One pass of `___alloc_bootmem_nopanic` over the nodes. -/
def allocLoop (r : Request) : List Nat → Prog (Option Word)
  | [] => return none
  | i :: rest => do
    let nodes ← get
    if r.goal ≠ 0 ∧ (nodes i).nodeLowPfn ≤ pfnDown r.goal then allocLoop r rest
    else if r.limit ≠ 0 ∧ pfnDown r.limit ≤ (nodes i).nodeMinPfn then return none
    else
      match ← onNode i (allocBootmemCore r) with
      | some address => return some address
      | none => allocLoop r rest

/-- `___alloc_bootmem_nopanic` -/
def allocBootmemNopanic (list : List Nat) (r : Request) : Prog (Option Word) := do
  match ← allocLoop r list with
  | some address => return some address
  | none => if r.goal ≠ 0 then allocLoop { r with goal := 0 } list else return none

end AndroidKernel.Bootmem
