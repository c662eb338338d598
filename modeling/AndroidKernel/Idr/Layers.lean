import AndroidKernel.Lib.Digits
import AndroidKernel.Lib.Hoare
import AndroidKernel.Lib.Refine

/-!
The id allocator of `lib/idr.c`.

Layers are cells of a memory, addressed by numbers, with 0 for the null pointer.
The slots of a leaf hold the pointers of the callers, the slots of the other
layers the addresses of layers, as in the source. A new layer gets an address
that was never used; freeing one changes nothing that is read again. Using a
null pointer, a failing `BUG_ON` and a loop that does not end in the rounds it
is given are faults.

An id in `sub_alloc` is the word of its `int`: the kernel is compiled with
`-fwrapv`, and of a negative id no bit above the last 32 is ever looked at.
-/

namespace AndroidKernel.Idr

open Lib

/-! ### Constants -/

def idrBits : Nat := 5

def idrSize : Nat := 1 <<< idrBits

def idrMask : Nat := (1 <<< idrBits) - 1

def idrFull : BitVec 32 := 0xffffffff

def maxIdShift : Nat := 31

def maxIdBit : Nat := 1 <<< maxIdShift

def maxLevel : Nat := (maxIdShift + idrBits - 1) / idrBits

def idrFreeMax : Nat := maxLevel + maxLevel

/-! ### Layers -/

structure IdrLayer where
  /-- A clear bit means that there is room in the slot. -/
  bitmap : BitVec 32
  ary : Nat → Nat
  count : Int
  /-- The distance from the leaves. -/
  layer : Nat

/-- A cleared layer. -/
def IdrLayer.zero : IdrLayer := { bitmap := 0, ary := fun _ => 0, count := 0, layer := 0 }

namespace IdrLayer

def setBit (n : Nat) (p : IdrLayer) : IdrLayer :=
  { p with bitmap := p.bitmap ||| BitVec.twoPow 32 n }

def clearBit (n : Nat) (p : IdrLayer) : IdrLayer :=
  { p with bitmap := p.bitmap &&& ~~~BitVec.twoPow 32 n }

def setAry (n a : Nat) (p : IdrLayer) : IdrLayer := { p with ary := Function.update p.ary n a }

def addCount (d : Int) (p : IdrLayer) : IdrLayer := { p with count := p.count + d }

def setLayer (l : Nat) (p : IdrLayer) : IdrLayer := { p with layer := l }

end IdrLayer

/-- A `struct idr` and the memory of its layers. Addresses from `brk` on were
never used. -/
structure IdrState where
  mem : Nat → IdrLayer
  brk : Nat
  top : Nat
  idFree : Nat
  layers : Nat
  idFreeCnt : Int

def idrInit : IdrState :=
  { mem := fun _ => .zero, brk := 1, top := 0, idFree := 0, layers := 0, idFreeCnt := 0 }

inductive Fault where
  | nullDereference
  | bug
  | endless
deriving DecidableEq, Repr

abbrev Prog := StateT IdrState (Except Fault)

def IdrState.update (s : IdrState) (p : Nat) (f : IdrLayer → IdrLayer) : IdrState :=
  { s with mem := Function.update s.mem p (f (s.mem p)) }

def load (p : Nat) : Prog IdrLayer := do
  if p = 0 then throw .nullDereference
  else return (← get).mem p

def change (p : Nat) (f : IdrLayer → IdrLayer) : Prog Unit := do
  if p = 0 then throw .nullDereference
  else modify fun s => s.update p f

/-! ### The free list -/

def getFromFreeList : Prog Nat := do
  let p := (← get).idFree
  ifThen (p ≠ 0) do
    let layer ← load p
    modify fun s => { s with idFree := layer.ary 0, idFreeCnt := s.idFreeCnt - 1 }
    change p (.setAry 0 0)
  return p

def moveToFreeList (p : Nat) : Prog Unit := do
  let idFree := (← get).idFree
  change p (.setAry 0 idFree)
  modify fun s => { s with idFree := p, idFreeCnt := s.idFreeCnt + 1 }

/-- `kmem_cache_zalloc`, when it succeeds. -/
def zalloc : Prog Nat := do
  let s ← get
  set { s with mem := Function.update s.mem s.brk .zero, brk := s.brk + 1 }
  return s.brk

/-- `room` is the number of layers that can be allocated. -/
def idrPreGet : Nat → Prog Bool
  | 0 => do
    if (← get).idFreeCnt < idrFreeMax then return false else return true
  | room + 1 => do
    if (← get).idFreeCnt < idrFreeMax then
      let new ← zalloc
      moveToFreeList new
      idrPreGet room
    else return true

/-! ### Allocation -/

/-- What `sub_alloc` returns; the id to go on with is stored in `*starting_id`. -/
inductive SubAlloc where
  | found (id : Nat) (pa : Nat → Nat)
  | noMemory
  | needToGrow (id : Nat)
  | noMoreSpace

/-- Create the layer below slot `m` if it is missing; false when there is none to
be had. -/
def fillSlot (p l m : Nat) : Prog Bool := do
  let layer ← load p
  if layer.ary m = 0 then
    let new ← getFromFreeList
    if new = 0 then return false
    else
      change new (.setLayer (l - 1))
      change p (.setAry m new)
      change p (.addCount 1)
      return true
  else return true

/-- No space is available in a layer on level `l`: go back to the layer above, or
restart at the top. -/
def goBack (again : Nat → Nat → Nat → (Nat → Nat) → Prog SubAlloc) (id l : Nat) (pa : Nat → Nat) :
    Prog SubAlloc := do
  let next := ((id ||| ((1 <<< (idrBits * (l + 1))) - 1)) + 1) % 2 ^ 32
  if pa (l + 1) = 0 then return .needToGrow next
  else if id >>> (idrBits * (l + 2)) = next >>> (idrBits * (l + 2)) then
    again next (l + 1) (pa (l + 1)) pa
  else
    let s ← get
    again next (s.layers - 1) s.top (Function.update pa s.layers 0)

/-- Slot `m` of a layer on level `l` has room: go to the layer below. -/
def goDown (again : Nat → Nat → Nat → (Nat → Nat) → Prog SubAlloc) (id l p m : Nat)
    (pa : Nat → Nat) : Prog SubAlloc := do
  if maxIdBit ≤ id then return .noMoreSpace
  else if l = 0 then return .found id (Function.update pa 0 p)
  else
    let filled ← fillSlot p l m
    if filled then
      let layer ← load p
      again id (l - 1) (layer.ary m) (Function.update pa l p)
    else return .noMemory

def subAllocLoop : Nat → Nat → Nat → Nat → (Nat → Nat) → Prog SubAlloc
  | 0, _, _, _, _ => throw .endless
  | rounds + 1, id, l, p, pa => do
    let layer ← load p
    let n := (id >>> (idrBits * l)) &&& idrMask
    let m := nextZero layer.bitmap.getLsbD idrSize n
    if m = idrSize then goBack (subAllocLoop rounds) id l pa
    else if m = n then goDown (subAllocLoop rounds) id l p m pa
    else
      goDown (subAllocLoop rounds) (((id >>> (idrBits * l)) ^^^ n ^^^ m) <<< (idrBits * l)) l p m pa

/-- A bound on the rounds of `subAllocLoop`. -/
def subAllocRounds : Nat := 64

def subAlloc (id : Nat) (pa : Nat → Nat) : Prog SubAlloc := do
  let s ← get
  subAllocLoop subAllocRounds id (s.layers - 1) s.top (Function.update pa s.layers 0)

/-- Give back the layers that were put on top of the tree. -/
def tearDown : Nat → Nat → Prog Unit
  | 0, _ => throw .endless
  | rounds + 1, p => do
    let s ← get
    if p ≠ 0 ∧ p ≠ s.top then
      let layer ← load p
      change p (.setAry 0 0)
      change p fun x => { x with bitmap := 0, count := 0 }
      moveToFreeList p
      tearDown rounds (layer.ary 0)
    else return

/-- A new layer on top of `p`. -/
def putOnTop (new p layers : Nat) : Prog Unit := do
  change new (.setAry 0 p)
  change new fun x => { x with count := 1 }
  change new (.setLayer (layers - 1))
  let layer ← load p
  ifThen (layer.bitmap = idrFull) (change new (.setBit 0))

/-- Add layers to the top of the tree until `id` fits; nothing when a layer is
not to be had. -/
def growLoop : Nat → Nat → Nat → Nat → Prog (Option (Nat × Nat))
  | 0, _, _, _ => throw .endless
  | rounds + 1, id, p, layers => do
    -- a word from `maxIdBit` on is a negative id
    if layers < maxLevel - 1 ∧ 1 <<< (layers * idrBits) ≤ id ∧ id < maxIdBit then
      let layer ← load p
      if layer.count = 0 then
        change p (.setLayer (layer.layer + 1))
        growLoop rounds id p (layers + 1)
      else
        let new ← getFromFreeList
        if new = 0 then
          tearDown maxLevel p
          return none
        else
          putOnTop new p (layers + 1)
          growLoop rounds id new (layers + 1)
    else return some (p, layers)

inductive EmptySlot where
  | slot (id : Nat) (pa : Nat → Nat)
  | noMemory
  | noMoreSpace

/-- The top layer, or a new one. -/
def firstLayer : Prog (Option (Nat × Nat)) := do
  let s ← get
  if s.top = 0 then
    let p ← getFromFreeList
    if p = 0 then return none
    else
      change p (.setLayer 0)
      return some (p, 1)
  else return some (s.top, s.layers)

def emptySlotLoop : Nat → Nat → (Nat → Nat) → Prog EmptySlot
  | 0, _, _ => throw .endless
  | rounds + 1, id, pa => do
    match ← firstLayer with
    | none => return .noMemory
    | some (p, layers) =>
      match ← growLoop maxLevel id p layers with
      | none => return .noMemory
      | some (p, layers) =>
        modify fun s => { s with top := p, layers := layers }
        match ← subAlloc id pa with
        | .found id pa => return .slot id pa
        | .noMemory => return .noMemory
        | .needToGrow id => emptySlotLoop rounds id pa
        | .noMoreSpace => return .noMoreSpace

/-- The array `pa` of the callers is not initialised. -/
def idrGetEmptySlot (startingId : Nat) (pa : Nat → Nat) : Prog EmptySlot :=
  emptySlotLoop (maxLevel + 1) startingId pa

def markFullLoop (pa : Nat → Nat) : Nat → Nat → Nat → Nat → Prog Unit
  | 0, _, _, _ => throw .endless
  | rounds + 1, l, id, p => do
    let layer ← load p
    if layer.bitmap = idrFull then
      if pa (l + 1) = 0 then return
      else
        change (pa (l + 1)) (.setBit ((id >>> idrBits) &&& idrMask))
        markFullLoop pa rounds (l + 1) (id >>> idrBits) (pa (l + 1))
    else return

def idrMarkFull (pa : Nat → Nat) (id : Nat) : Prog Unit := do
  change (pa 0) (.setBit (id &&& idrMask))
  markFullLoop pa maxLevel 0 id (pa 0)

inductive Errno where
  | eagain
  | enospc
  | einval
  | enoent
deriving DecidableEq, Repr

/-- `idr_get_new_above`, with `idr_get_new_above_int` in it. -/
def idrGetNewAbove (ptr startingId : Nat) (pa : Nat → Nat) : Prog (Except Errno Nat) := do
  match ← idrGetEmptySlot startingId pa with
  | .slot id pa =>
    change (pa 0) (.setAry (id &&& idrMask) ptr)
    change (pa 0) (.addCount 1)
    idrMarkFull pa id
    return .ok id
  | .noMemory => return .error .eagain
  | .noMoreSpace => return .error .enospc

def idrGetNew (ptr : Nat) (pa : Nat → Nat) : Prog (Except Errno Nat) := idrGetNewAbove ptr 0 pa

/-! ### Removal -/

/-- What an entry of `pa` in `sub_remove` points to. -/
inductive Link where
  | top
  | slot (p n : Nat)
deriving DecidableEq, Repr

def loadLink : Link → Prog Nat
  | .top => do return (← get).top
  | .slot p n => do return (← load p).ary n

def storeLink (a : Nat) : Link → Prog Unit
  | .top => modify fun s => { s with top := a }
  | .slot p n => change p (.setAry n a)

/-- The way down to the leaf, with the bits on it cleared. The shift is
`IDR_BITS` times the first argument. -/
def clearPath : Nat → Nat → Nat → List Link → Prog (Nat × List Link)
  | 0, _, p, paa => return (p, paa)
  | level + 1, id, p, paa => do
    if p = 0 then return (p, paa)
    else
      let n := (id >>> (idrBits * (level + 1))) &&& idrMask
      change p (.clearBit n)
      let layer ← load p
      clearPath level id (layer.ary n) (.slot p n :: paa)

/-- Count down along the way back, and free the layers that become empty. -/
def releaseLoop : List Link → Prog Unit
  | [] => modify fun s => { s with layers := 0 }
  | link :: paa => do
    let p ← loadLink link
    change p (.addCount (-1))
    let layer ← load p
    if layer.count = 0 then
      storeLink 0 link
      releaseLoop paa
    else return

def subRemove (id : Nat) : Prog Unit := do
  let s ← get
  let (p, paa) ← clearPath (s.layers - 1) id s.top [.top]
  let n := id &&& idrMask
  if p = 0 then return
  else
    let layer ← load p
    if layer.bitmap.getLsbD n then
      change p (.clearBit n)
      change p (.setAry n 0)
      releaseLoop paa
    else return

/-- Drop a top layer whose only child is the first one. -/
def shrink : Prog Unit := do
  let s ← get
  ifThen (s.top ≠ 0) do
    let layer ← load s.top
    ifThen (layer.count = 1 ∧ 1 < s.layers ∧ layer.ary 0 ≠ 0) do
      modify fun s => { s with top := layer.ary 0, layers := s.layers - 1 }
      change s.top fun x => { x with bitmap := 0, count := 0 }

def trimLoop : Nat → Prog Unit
  | 0 => throw .endless
  | rounds + 1 => do
    if idrFreeMax ≤ (← get).idFreeCnt then
      let p ← getFromFreeList
      if p = 0 then throw .nullDereference
      else trimLoop rounds
    else return

def maskId (id : BitVec 32) : Nat := (id &&& BitVec.ofNat 32 (maxIdBit - 1)).toNat

def idrRemove (id : BitVec 32) : Prog Unit := do
  subRemove (maskId id)
  shrink
  let s ← get
  trimLoop (s.idFreeCnt.toNat + 1)

/-! ### Lookup -/

def findLoop : Nat → Nat → Nat → Prog Nat
  | 0, _, p => return p
  | level + 1, id, p => do
    if p = 0 then return 0
    else
      let layer ← load p
      if idrBits * level ≠ layer.layer * idrBits then throw .bug
      else findLoop level id (layer.ary ((id >>> (idrBits * level)) &&& idrMask))

def idrFind (id : BitVec 32) : Prog Nat := do
  let top := (← get).top
  if top = 0 then return 0
  else
    let layer ← load top
    if 1 <<< ((layer.layer + 1) * idrBits) ≤ maskId id then return 0
    else findLoop (layer.layer + 1) (maskId id) top

def replaceLoop : Nat → Nat → Nat → Prog Nat
  | 0, _, p => return p
  | level + 1, id, p => do
    if p = 0 then return 0
    else
      let layer ← load p
      replaceLoop level id (layer.ary ((id >>> (idrBits * (level + 1))) &&& idrMask))

def idrReplace (ptr : Nat) (id : BitVec 32) : Prog (Except Errno Nat) := do
  let top := (← get).top
  if top = 0 then return .error .einval
  else
    let layer ← load top
    if 1 <<< ((layer.layer + 1) * idrBits) ≤ maskId id then return .error .einval
    else
      let p ← replaceLoop layer.layer (maskId id) top
      let n := maskId id &&& idrMask
      if p = 0 then return .error .enoent
      else
        let leaf ← load p
        if leaf.bitmap.getLsbD n then
          change p (.setAry n ptr)
          return .ok (leaf.ary n)
        else return .error .enoent

end AndroidKernel.Idr
