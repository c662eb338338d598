import AndroidKernel.Idr.Layers

/-!
The bitmap allocator of `lib/idr.c`.

An ida is an idr whose leaf slots point to chunks of `IDA_BITMAP_BITS` ids. A
chunk is a cell of a second memory, addressed by numbers, with 0 for the null
pointer. A full-bit of the idr is set for a chunk when the chunk is full.
-/

namespace AndroidKernel.Idr

open Lib

def idaBitmapBits : Nat := 992

structure IdaBitmap where
  nrBusy : Int
  bitmap : BitVec 992
deriving DecidableEq

/-- A `struct ida` with the memory of its chunks; addresses from `brk` on were
never used. -/
structure IdaState where
  idr : IdrState
  chunks : Nat → IdaBitmap
  brk : Nat
  freeBitmap : Nat

def idaInit : IdaState :=
  { idr := idrInit, chunks := fun _ => ⟨0, 0⟩, brk := 1, freeBitmap := 0 }

abbrev IdaProg := StateT IdaState (Except Fault)

/-- A function of the idr inside of the ida. -/
def onIdr {α : Type} (p : Prog α) : IdaProg α := fun s =>
  match p s.idr with
  | .ok (a, t) => .ok (a, { s with idr := t })
  | .error f => .error f

def loadChunk (p : Nat) : IdaProg IdaBitmap := do
  if p = 0 then throw .nullDereference
  else return (← get).chunks p

def storeChunk (p : Nat) (c : IdaBitmap) : IdaProg Unit := do
  if p = 0 then throw .nullDereference
  else modify fun s => { s with chunks := Function.update s.chunks p c }

/-- A chunk that is not kept is freed. -/
def freeBitmap (p : Nat) : IdaProg Unit := do
  ifThen ((← get).freeBitmap = 0) (modify fun s => { s with freeBitmap := p })

/-- `kmalloc`, when it succeeds; the contents are arbitrary. -/
def kmallocBitmap (garbage : IdaBitmap) : IdaProg Nat := do
  let s ← get
  set { s with chunks := Function.update s.chunks s.brk garbage, brk := s.brk + 1 }
  return s.brk

/-- `room` layers can be allocated, and a chunk if `garbage` is there. -/
def idaPreGet (room : Nat) (garbage : Option IdaBitmap) : IdaProg Bool := do
  let ready ← onIdr (idrPreGet room)
  if ready then
    if (← get).freeBitmap = 0 then
      match garbage with
      | none => return false
      | some garbage =>
        let bitmap ← kmallocBitmap garbage
        freeBitmap bitmap
        return true
    else return true
  else return false

/-- The chunk in the slot of `idrId`, or a new one. -/
def chunkOf (idrId : Nat) (pa : Nat → Nat) : IdaProg Nat := do
  let layer ← onIdr (load (pa 0))
  let bitmap := layer.ary (idrId &&& idrMask)
  if bitmap = 0 then
    let bitmap := (← get).freeBitmap
    modify fun s => { s with freeBitmap := 0 }
    if bitmap = 0 then return 0
    else
      storeChunk bitmap ⟨0, 0⟩
      onIdr (change (pa 0) (.setAry (idrId &&& idrMask) bitmap))
      onIdr (change (pa 0) (.addCount 1))
      return bitmap
  else return bitmap

/-- Take the bit `t` of a chunk, and throw away a layer. -/
def takeBit (bitmap t idrId : Nat) (pa : Nat → Nat) : IdaProg Unit := do
  let chunk ← loadChunk bitmap
  storeChunk bitmap ⟨chunk.nrBusy + 1, chunk.bitmap ||| BitVec.twoPow 992 t⟩
  ifThen (chunk.nrBusy + 1 = idaBitmapBits) (onIdr (idrMarkFull pa idrId))
  let s ← get
  ifThen (s.idr.idFreeCnt ≠ 0 ∨ s.freeBitmap ≠ 0) do
    let _ ← onIdr getFromFreeList

/-- Ids and sizes are unsigned words, `IDA_BITMAP_BITS` being a `size_t`. -/
def idaLoop : Nat → Nat → Nat → (Nat → Nat) → IdaProg (Except Errno Nat)
  | 0, _, _, _ => throw .endless
  | rounds + 1, idrId, offset, pa => do
    match ← onIdr (idrGetEmptySlot idrId pa) with
    | .noMemory => return .error .eagain
    | .noMoreSpace => return .error .enospc
    | .slot t pa =>
      if maxIdBit ≤ t * idaBitmapBits % 2 ^ 32 then return .error .enospc
      else
        let offset := if t = idrId then offset else 0
        let idrId := t
        let bitmap ← chunkOf idrId pa
        if bitmap = 0 then return .error .eagain
        else
          let chunk ← loadChunk bitmap
          let t := nextZero chunk.bitmap.getLsbD idaBitmapBits offset
          if t = idaBitmapBits then
            -- no empty slot after offset, continue to the next chunk
            idaLoop rounds (idrId + 1) 0 pa
          else
            let id := (idrId * idaBitmapBits + t) % 2 ^ 32
            if maxIdBit ≤ id then return .error .enospc
            else
              takeBit bitmap t idrId pa
              return .ok id

/-- A bound on the rounds of `idaLoop`. -/
def idaRounds : Nat := 3

def idaGetNewAbove (startingId : Nat) (pa : Nat → Nat) : IdaProg (Except Errno Nat) :=
  idaLoop idaRounds (startingId / idaBitmapBits) (startingId % idaBitmapBits) pa

def idaRemove (id : BitVec 32) : IdaProg Unit := do
  let s ← get
  let idrId := id.toNat / idaBitmapBits
  let offset := id.toNat % idaBitmapBits
  -- clear full bits while looking up the leaf layer
  let (p, _) ← onIdr (clearPath (s.idr.layers - 1) idrId s.idr.top [])
  if p = 0 then return
  else
    let n := idrId &&& idrMask
    onIdr (change p (.clearBit n))
    let layer ← onIdr (load p)
    let bitmap := layer.ary n
    let chunk ← loadChunk bitmap
    if chunk.bitmap.getLsbD offset then
      storeChunk bitmap ⟨chunk.nrBusy - 1, chunk.bitmap &&& ~~~BitVec.twoPow 992 offset⟩
      ifThen (chunk.nrBusy - 1 = 0) do
        -- to please idr_remove()
        onIdr (change p (.setBit n))
        onIdr (idrRemove (BitVec.ofNat 32 idrId))
        freeBitmap bitmap
    else return

end AndroidKernel.Idr
