import Mathlib

/-!
# The stored tags of yaffs1

Model of `yaffs_CalcTagsECC`, `yaffs_CheckECCOnTags`, `yaffs_LoadTagsIntoSpare` and
`yaffs_GetTagsFromSpare` in `fs/yaffs2/yaffs_tagscompat.c`. The eight tag bytes are protected by
the exclusive or of the positions of their set bits, which is itself stored in twelve of the 64
bits. The main result is `getTagsFromSpare_flipped`: one flipped bit is repaired, unless it is one
of the low seven bits of the stored code. There the difference is a position as well, and the
reader flips a good bit (`getTagsFromSpare_code_flipped`).
-/

namespace AndroidKernel.Yaffs

open BitVec

/-- `yaffs_TagsUnion`: the eight bytes in memory order, the bit fields from the lowest bit up. -/
abbrev TagsUnion := BitVec 64

namespace TagsUnion

variable (tags : TagsUnion)

def chunkId : BitVec 20 := tags.extractLsb' 0 20
def serialNumber : BitVec 2 := tags.extractLsb' 20 2
def byteCountLSB : BitVec 10 := tags.extractLsb' 22 10
def objectId : BitVec 18 := tags.extractLsb' 32 18
def ecc : BitVec 12 := tags.extractLsb' 50 12
def byteCountMSB : BitVec 2 := tags.extractLsb' 62 2

/-- The assignment `tags->ecc = code`, which keeps the twelve bits that fit. -/
def setEcc (code : BitVec 12) : TagsUnion :=
  (byteCountMSB tags ++ code ++ tags.extractLsb' 0 50).cast rfl

def asBytes (i : Nat) : BitVec 8 := tags.extractLsb' (8 * i) 8

/-- One bit of the record changes; `b[n / 8] ^= 1 << (n & 7)` in the source. -/
def flipBit (n : Nat) : TagsUnion := tags ^^^ twoPow 64 n

/-- The inner loop of `yaffs_CalcTagsECC`; `bit` counts from one over all bytes. -/
def bytePositions (code : BitVec 32) (i : Nat) : BitVec 32 :=
  (List.range 8).foldl (fun code j =>
    if (asBytes tags i).getLsbD j then code ^^^ .ofNat 32 (8 * i + j + 1) else code) code

/-- The code that the loops of `yaffs_CalcTagsECC` compute. -/
def positions : BitVec 32 :=
  (List.range 8).foldl (bytePositions tags) 0

end TagsUnion

open TagsUnion

def calcTagsECC (tags : TagsUnion) : TagsUnion :=
  let tags := setEcc tags 0
  setEcc tags ((positions tags).setWidth 12)

/-- `yaffs_CheckECCOnTags`, with its result. -/
def checkECCOnTags (tags : TagsUnion) : TagsUnion × Int :=
  let calculated := calcTagsECC tags
  let code := (ecc tags).setWidth 32 ^^^ (ecc calculated).setWidth 32
  if code ≠ 0 ∧ code ≤ 64#32 then (calcTagsECC (flipBit calculated (code - 1).toNat), 1)
  else if code ≠ 0 then (calculated, -1)
  else (calculated, 0)

/-- The counters of `yaffs_Device` that reading tags moves. -/
structure Device where
  tagsEccFixed : Nat
  tagsEccUnfixed : Nat
deriving DecidableEq

/-- `yaffs_LoadTagsIntoSpare`: the tag bytes of the spare area. -/
def loadTagsIntoSpare (tags : TagsUnion) : TagsUnion :=
  calcTagsECC tags

def getTagsFromSpare (dev : Device) (spare : TagsUnion) : Device × TagsUnion :=
  let (tags, result) := checkECCOnTags spare
  if result > 0 then ({ dev with tagsEccFixed := dev.tagsEccFixed + 1 }, tags)
  else if result < 0 then ({ dev with tagsEccUnfixed := dev.tagsEccUnfixed + 1 }, tags)
  else (dev, tags)

/-- What a reader takes from a record: object, chunk, serial number and the two count parts. -/
def contents (tags : TagsUnion) : BitVec 18 × BitVec 20 × BitVec 2 × BitVec 2 × BitVec 10 :=
  (objectId tags, chunkId tags, serialNumber tags, byteCountMSB tags, byteCountLSB tags)

section Fields

variable (x y : TagsUnion) (code other : BitVec 12)

theorem getLsbD_setEcc (i : Nat) : (setEcc x code).getLsbD i =
    if 50 ≤ i ∧ i < 62 then code.getLsbD (i - 50) else x.getLsbD i := by
  simp only [setEcc, byteCountMSB, BitVec.cast_eq, getLsbD_append, getLsbD_extractLsb']
  grind

@[simp] theorem ecc_setEcc : ecc (setEcc x code) = code := by
  refine eq_of_getLsbD_eq fun i bound => ?_
  simp [ecc, getLsbD_setEcc, bound]
  omega

@[simp] theorem setEcc_setEcc : setEcc (setEcc x code) other = setEcc x other := by
  refine eq_of_getLsbD_eq fun i _ => ?_
  simp only [getLsbD_setEcc]
  split <;> rfl

@[simp] theorem setEcc_calcTagsECC : setEcc (calcTagsECC x) code = setEcc x code := by
  simp [calcTagsECC]

theorem setEcc_xor : setEcc (x ^^^ y) (code ^^^ other) = setEcc x code ^^^ setEcc y other := by
  refine eq_of_getLsbD_eq fun i _ => ?_
  simp only [getLsbD_setEcc, getLsbD_xor]
  split <;> rfl

theorem cleared_xor : setEcc (x ^^^ y) 0 = setEcc x 0 ^^^ setEcc y 0 :=
  setEcc_xor x y 0 0

theorem ecc_xor : ecc (x ^^^ y) = ecc x ^^^ ecc y := by
  ext i bound
  simp [ecc]

/-- No field that is read back lies in the twelve bits of the code. -/
theorem extractLsb'_setEcc {start len : Nat} (apart : start + len ≤ 50 ∨ 62 ≤ start) :
    (setEcc x code).extractLsb' start len = x.extractLsb' start len := by
  refine eq_of_getLsbD_eq fun i bound => ?_
  have out : ¬(50 ≤ start + i ∧ start + i < 62) := by omega
  simp only [getLsbD_extractLsb', getLsbD_setEcc, if_neg out]

theorem contents_setEcc : contents (setEcc x code) = contents x := by
  simp only [contents, objectId, chunkId, serialNumber, byteCountMSB, byteCountLSB]
  rw [extractLsb'_setEcc, extractLsb'_setEcc, extractLsb'_setEcc, extractLsb'_setEcc,
    extractLsb'_setEcc] <;> decide

theorem contents_xor_iff : contents (x ^^^ y) = contents x ↔ contents y = contents 0 := by
  simp [contents, objectId, chunkId, serialNumber, byteCountMSB, byteCountLSB, extractLsb'_xor]

end Fields

section Codes

variable {x y : TagsUnion}

/-- A fold whose steps are linear is linear. -/
theorem foldl_xor {α : Type} {both left right : BitVec 32 → α → BitVec 32}
    (linear : ∀ i a b, both (a ^^^ b) i = left a i ^^^ right b i) (l : List α)
    (a b : BitVec 32) : l.foldl both (a ^^^ b) = l.foldl left a ^^^ l.foldl right b := by
  induction l generalizing a b with
  | nil => rfl
  | cons i rest ih => rw [List.foldl_cons, linear, ih]; rfl

theorem bytePositions_xor (i : Nat) (a b : BitVec 32) :
    bytePositions (x ^^^ y) (a ^^^ b) i = bytePositions x a i ^^^ bytePositions y b i := by
  refine foldl_xor (fun j a b => ?_) (List.range 8) a b
  have bytes : asBytes (x ^^^ y) i = asBytes x i ^^^ asBytes y i := extractLsb'_xor
  rw [bytes, getLsbD_xor]
  cases (asBytes x i).getLsbD j <;> cases (asBytes y i).getLsbD j <;> simp
  · ac_rfl
  · ac_rfl
  · rw [BitVec.xor_comm b, BitVec.xor_assoc, ← BitVec.xor_assoc _ _ b, BitVec.xor_self,
      BitVec.zero_xor]

theorem positions_xor : positions (x ^^^ y) = positions x ^^^ positions y :=
  foldl_xor bytePositions_xor (List.range 8) 0 0

/-- What a reader compares: the stored code with the one calculated from the other bits. -/
def syndrome (tags : TagsUnion) : BitVec 12 :=
  ecc tags ^^^ (positions (setEcc tags 0)).setWidth 12

theorem syndrome_xor : syndrome (x ^^^ y) = syndrome x ^^^ syndrome y := by
  rw [syndrome, cleared_xor, ecc_xor, positions_xor, setWidth_xor]
  simp only [syndrome]
  ac_rfl

variable (tags : TagsUnion)

theorem syndrome_calcTagsECC : syndrome (calcTagsECC tags) = 0 := by
  simp [syndrome, calcTagsECC]

theorem syndrome_flipBit (n : Nat) :
    syndrome (flipBit (calcTagsECC tags) n) = syndrome (twoPow 64 n) := by
  rw [flipBit, syndrome_xor, syndrome_calcTagsECC]
  exact BitVec.zero_xor

/-- Checking leaves the other bits alone, or flips the one the difference of the codes names. -/
theorem cleared_checkECCOnTags : setEcc (checkECCOnTags tags).1 0 =
    let code := (syndrome tags).setWidth 32
    if code ≠ 0 ∧ code ≤ 64#32 then setEcc (flipBit tags (code - 1).toNat) 0
    else setEcc tags 0 := by
  have code : (ecc tags).setWidth 32 ^^^ (ecc (calcTagsECC tags)).setWidth 32 =
      (syndrome tags).setWidth 32 := by
    rw [syndrome, calcTagsECC, ecc_setEcc, setWidth_xor]
  simp only [checkECCOnTags, code]
  split
  · rw [setEcc_calcTagsECC, flipBit, flipBit, cleared_xor, cleared_xor, setEcc_calcTagsECC]
  · split <;> exact setEcc_calcTagsECC tags 0

/-- What checking makes of a flipped bit does not depend on the record. -/
theorem cleared_checked_flipBit (n : Nat) :
    setEcc (checkECCOnTags (flipBit (calcTagsECC tags) n)).1 0 =
      setEcc tags 0 ^^^ setEcc (checkECCOnTags (twoPow 64 n)).1 0 := by
  rw [cleared_checkECCOnTags, cleared_checkECCOnTags, syndrome_flipBit]
  dsimp only
  split
  · simp only [flipBit, cleared_xor, setEcc_calcTagsECC, BitVec.xor_assoc]
  · rw [flipBit, cleared_xor, setEcc_calcTagsECC]

/-- A bit outside the code is flipped back, and a high bit of the code is not taken for a
position. A low bit of the code is: it names a good bit, which is flipped. -/
theorem contents_checked_twoPow : ∀ n : Fin 64,
    contents (checkECCOnTags (twoPow 64 n)).1 = contents 0 ↔ ¬(50 ≤ n ∧ n < 57) := by
  decide +kernel

theorem getTagsFromSpare_tags (dev : Device) (spare : TagsUnion) :
    (getTagsFromSpare dev spare).2 = (checkECCOnTags spare).1 := by
  unfold getTagsFromSpare
  dsimp only
  split
  · rfl
  · split <;> rfl

end Codes

/-- **One flipped bit is repaired exactly when it is not one of the low seven bits of the code**:
whatever record was written, the object, the chunk, the serial number and the byte count are read
back. -/
theorem getTagsFromSpare_flipped (dev : Device) (tags : TagsUnion) (bit : Fin 64) :
    contents (getTagsFromSpare dev (flipBit (loadTagsIntoSpare tags) bit)).2 = contents tags ↔
      ¬(50 ≤ bit ∧ bit < 57) := by
  rw [← contents_checked_twoPow, getTagsFromSpare_tags, loadTagsIntoSpare, ← contents_setEcc _ 0,
    cleared_checked_flipBit, ← contents_setEcc tags 0, contents_xor_iff, contents_setEcc]

/-- With the lowest bit of the code flipped, chunk 5 of object 257 is read back as chunk 4. -/
theorem getTagsFromSpare_code_flipped :
    contents (getTagsFromSpare ⟨0, 0⟩ (flipBit (loadTagsIntoSpare 0x10100000005#64) 50)).2 =
        contents 0x10100000004#64 ∧
      contents 0x10100000004#64 ≠ contents 0x10100000005#64 := by
  decide +kernel

end AndroidKernel.Yaffs
