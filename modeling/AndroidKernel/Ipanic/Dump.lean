import AndroidKernel.Lib.RoundUp

/-!
The panic dump: `ipanic` writes the kernel log, the oops header and the oops detail to the
partition `expdb`, and after the next start they are read back.

The driver numbers the first 64 good pages of the partition and uses only these. The first one
holds `struct ipanic_header` with the offsets and lengths of the three parts, which follow from
the second one on, each from the start of a page. A page is scrambled before it is written and
after it is read. Writing a page clears bits; what a write returns (0 or an error) is given by
`writeError`. Messages, the watchdog and the guard against a panic inside `ipanic` are left out.
-/

namespace AndroidKernel.Ipanic

open Lib

abbrev Byte := BitVec 8

def blockCount : Nat := 64
def magic : BitVec 32 := 0xaee0dead
def phdrVersion : BitVec 32 := 2
def datalengthMax : Nat := 64 * 1024
def EINVAL : Int := 22

/-- The partition by its pages: which are bad, what they hold, and what writing them returns. -/
structure Mtd where
  size : Nat
  writesizeShift : Nat
  erasePages : Nat
  isBad : Nat → Bool
  page : Nat → List Byte
  writeError : Nat → Int

def Mtd.writesize (mtd : Mtd) : Nat := 2 ^ mtd.writesizeShift

/-- Writing a page clears bits. -/
def Mtd.program (mtd : Mtd) (p : Nat) (data : List Byte) : Mtd :=
  { mtd with page := Function.update mtd.page p (List.zipWith (· &&& ·) (mtd.page p) data) }

/-- `ipanic_block_erase`: every good block of the partition. -/
def Mtd.erase (mtd : Mtd) : Mtd :=
  { mtd with
    page := fun p =>
      if mtd.isBad (p / mtd.erasePages * mtd.erasePages) then mtd.page p
      else List.replicate mtd.writesize 0xff }

/-! ### The header in flash -/

structure IpanicHeader where
  magic : BitVec 32
  version : BitVec 32
  consoleOffset : BitVec 32
  consoleLength : BitVec 32
  oopsHeaderOffset : BitVec 32
  oopsHeaderLength : BitVec 32
  oopsDetailOffset : BitVec 32
  oopsDetailLength : BitVec 32
deriving DecidableEq, Repr

/-- A word of memory, the low byte first. -/
def wordBytes (x : BitVec 32) : List Byte :=
  [x.extractLsb' 0 8, x.extractLsb' 8 8, x.extractLsb' 16 8, x.extractLsb' 24 8]

/-- The word that starts at a byte of a buffer. -/
def wordAt (buf : List Byte) (i : Nat) : BitVec 32 :=
  buf.getD (i + 3) 0 ++ buf.getD (i + 2) 0 ++ buf.getD (i + 1) 0 ++ buf.getD i 0

def IpanicHeader.bytes (hdr : IpanicHeader) : List Byte :=
  wordBytes hdr.magic ++ wordBytes hdr.version ++ wordBytes hdr.consoleOffset ++
    wordBytes hdr.consoleLength ++ wordBytes hdr.oopsHeaderOffset ++
    wordBytes hdr.oopsHeaderLength ++ wordBytes hdr.oopsDetailOffset ++
    wordBytes hdr.oopsDetailLength

def IpanicHeader.ofBytes (buf : List Byte) : IpanicHeader :=
  ⟨wordAt buf 0, wordAt buf 4, wordAt buf 8, wordAt buf 12, wordAt buf 16, wordAt buf 20,
    wordAt buf 24, wordAt buf 28⟩

/-- A header of zero bytes. -/
def IpanicHeader.zero : IpanicHeader := ⟨0, 0, 0, 0, 0, 0, 0, 0⟩

/-- `struct ipanic_oops_header`. -/
structure IpanicOopsHeader where
  backtrace : List Byte
  processPath : List Byte
  backtrace_length : backtrace.length = 3072
  processPath_length : processPath.length = 256

def oopsHeaderSize : Nat := 3072 + 256

def IpanicOopsHeader.bytes (header : IpanicOopsHeader) : List Byte :=
  header.backtrace ++ header.processPath

/-- `struct ipanic_oops`, with the bytes of its header. -/
structure IpanicOops where
  header : List Byte
  detail : List Byte
  console : List Byte
deriving DecidableEq, Repr

/-- `drv_ctx`. Offsets of pages are in bytes. -/
structure IpanicData where
  mtd : Option Mtd
  curr : IpanicHeader
  blkOffset : List Nat

/-! ### Pages -/

def ipanicIv : BitVec 32 := 0xaabbccdd

/-- `ipanic_block_scramble`, byte by byte. -/
def ipanicBlockScramble (buf : List Byte) : List Byte :=
  buf.mapIdx fun i b => b ^^^ ipanicIv.extractLsb' (i % 4 * 8) 8

/-- The loop of `ipanic_block_scan` from a page on; `pages` is how many follow. -/
def scanLoop (mtd : Mtd) : Nat → Nat → List Nat → List Nat
  | 0, _, found => found
  | pages + 1, offset, found =>
    if found.length < blockCount ∧ offset < mtd.size then
      scanLoop mtd pages (offset + mtd.writesize)
        (if mtd.isBad (offset / mtd.writesize) then found else found ++ [offset])
    else found

/-- `ipanic_block_scan`: the offsets of the first 64 good pages. A partition has at most as many
pages as bytes. -/
def ipanicBlockScan (mtd : Mtd) : Option (List Nat) :=
  let found := scanLoop mtd mtd.size 0 []
  if found.length = blockCount then some found else none

/-- `ipanic_block_read_single`: the page, which stays in the bounce buffer. -/
def ipanicBlockReadSingle (ctx : IpanicData) (mtd : Mtd) (offset : Nat) : Option (List Byte) :=
  let index := offset / mtd.writesize
  if index < blockCount then
    some (ipanicBlockScramble (mtd.page (ctx.blkOffset.getD index 0 / mtd.writesize)))
  else none

/-- `ipanic_block_write` of the first bytes of the bounce buffer. -/
def ipanicBlockWrite (ctx : IpanicData) (mtd : Mtd) (offset : Nat) (bounce : List Byte) :
    Int × Mtd :=
  let index := offset / mtd.writesize
  if blockCount ≤ index then (-EINVAL, mtd)
  else if mtd.writesize < bounce.length then (-EINVAL, mtd)
  else
    let page := ctx.blkOffset.getD index 0 / mtd.writesize
    let data := ipanicBlockScramble (bounce ++ List.replicate (mtd.writesize - bounce.length) 0)
    if mtd.writeError page ≠ 0 then (mtd.writeError page, mtd)
    else (mtd.writesize, mtd.program page data)

/-- `ipanic_block_read`; every round reads at least a byte. The offsets that `ipanic` writes are
those of page starts, so `count` never wraps below zero. -/
def ipanicBlockRead (ctx : IpanicData) (mtd : Mtd) : Nat → Nat → Nat → Option (List Byte)
  | 0, _, fileLength => if fileLength = 0 then some [] else none
  | rounds + 1, fileOffset, fileLength =>
    if fileLength = 0 then some []
    else
      let pageNo := fileOffset / mtd.writesize
      let pageOffset := fileOffset % mtd.writesize
      match ipanicBlockReadSingle ctx mtd (pageNo * mtd.writesize) with
      | none => none
      | some bounce =>
        let count := min fileLength mtd.writesize - pageOffset
        (ipanicBlockRead ctx mtd rounds (fileOffset + count) (fileLength - count)).map
          fun rest => (bounce.drop pageOffset).take count ++ rest

/-! ### The log -/

/-- The ring of the kernel log; its length is a power of two. -/
structure Log where
  ring : Nat → Byte
  shift : Nat
  logStart : BitVec 32
  logEnd : BitVec 32

/-- `LOG_BUF(idx)`. -/
def Log.buf (log : Log) (idx : BitVec 32) : Byte := log.ring (idx.toNat % 2 ^ log.shift)

/-- `log_buf_copy2`: at most so many bytes. -/
def logBufCopy2 (log : Log) (logCopyEnd : BitVec 32) : Nat → BitVec 32 → List Byte
  | 0, _ => []
  | destLen + 1, logCopyStart =>
    if logCopyStart ≠ log.logEnd ∧ logCopyStart ≠ logCopyEnd then
      log.buf logCopyStart :: logBufCopy2 log logCopyEnd destLen (logCopyStart + 1)
    else []

/-- The loop of `ipanic_write_log_buf`. The page behind the 64th one is refused, so it ends
before the rounds do. -/
def writeLogLoop (log : Log) (ctx : IpanicData) (logCopyEnd : BitVec 32) :
    Nat → Nat → BitVec 32 → Nat → Mtd → Int × Mtd
  | 0, _, _, _, mtd => (-EINVAL, mtd)
  | rounds + 1, off, logCopyStart, copyCount, mtd =>
    let chunk := logBufCopy2 log logCopyEnd mtd.writesize logCopyStart
    if chunk.length = 0 then (copyCount, mtd)
    else
      let (rc, mtd) := ipanicBlockWrite ctx mtd off chunk
      if rc ≤ 0 then (rc, mtd)
      else if chunk.length ≠ mtd.writesize then ((copyCount + chunk.length : Nat), mtd)
      else
        writeLogLoop log ctx logCopyEnd rounds (off + rc.toNat)
          (logCopyStart + BitVec.ofNat 32 chunk.length) (copyCount + chunk.length) mtd

def ipanicWriteLogBuf (log : Log) (ctx : IpanicData) (off : Nat)
    (logCopyStart logCopyEnd : BitVec 32) (mtd : Mtd) : Int × Mtd :=
  writeLogLoop log ctx logCopyEnd (blockCount + 2) off logCopyStart 0 mtd

/-- The loop of `ipanic_write_oops_header` over the bytes that are left; each round writes at
least one. -/
def writeHeaderLoop (ctx : IpanicData) (off : Nat) : Nat → List Byte → Nat → Mtd → Int × Mtd
  | 0, _, wlen, mtd => (wlen, mtd)
  | rounds + 1, raw, wlen, mtd =>
    if raw = [] then (wlen, mtd)
    else
      let bounce := raw.take mtd.writesize
      let (rc, mtd) := ipanicBlockWrite ctx mtd (off + wlen) bounce
      if rc < 0 then (rc, mtd)
      else writeHeaderLoop ctx off rounds (raw.drop bounce.length) (wlen + bounce.length) mtd

def ipanicWriteOopsHeader (header : IpanicOopsHeader) (ctx : IpanicData) (off : Nat) (mtd : Mtd) :
    Int × Mtd :=
  writeHeaderLoop ctx off oopsHeaderSize header.bytes 0 mtd

/-! ### Writing the dump -/

/-- `ipanic`, with the log and the oops as they are when it runs. -/
def ipanic (log : Log) (header : IpanicOopsHeader) (detailStart detailEnd : BitVec 32)
    (ctx : IpanicData) : IpanicData :=
  match ctx.mtd with
  | none => ctx
  | some mtd =>
    let consoleOffset := mtd.writesize
    let (rc, mtd) := ipanicWriteLogBuf log ctx consoleOffset log.logStart log.logEnd mtd
    let consoleLen := rc.toNat
    let oopsHeaderOffset := roundUp (consoleOffset + consoleLen) mtd.writesize
    let (rc, mtd) := ipanicWriteOopsHeader header ctx oopsHeaderOffset mtd
    let oopsHeaderLen := rc.toNat
    let oopsDetailOffset := roundUp (oopsHeaderOffset + oopsHeaderLen) mtd.writesize
    let (rc, mtd) := ipanicWriteLogBuf log ctx oopsDetailOffset detailStart detailEnd mtd
    let oopsDetailLen := rc.toNat
    let hdr : IpanicHeader :=
      ⟨magic, phdrVersion, BitVec.ofNat 32 consoleOffset, BitVec.ofNat 32 consoleLen,
        BitVec.ofNat 32 oopsHeaderOffset, BitVec.ofNat 32 oopsHeaderLen,
        BitVec.ofNat 32 oopsDetailOffset, BitVec.ofNat 32 oopsDetailLen⟩
    { ctx with mtd := some (ipanicBlockWrite ctx mtd 0 hdr.bytes).2 }

/-! ### Reading it back -/

inductive HeaderCheck where
  | good | none | bad
deriving DecidableEq, Repr

def ipanicCheckHeader (hdr : IpanicHeader) : HeaderCheck :=
  if hdr.magic ≠ magic then .none
  else if hdr.version ≠ phdrVersion then .bad
  else if hdr.oopsHeaderLength.toNat < 16 ∨ datalengthMax < hdr.oopsHeaderLength.toNat then .bad
  else if hdr.oopsDetailLength.toNat < 16 ∨ datalengthMax < hdr.oopsDetailLength.toNat then .bad
  else if hdr.consoleLength.toNat < 16 ∨ 64 * 1024 < hdr.consoleLength.toNat then .bad
  else .good

/-- The three reads of `ipanic_oops_copy`. -/
def readOops (ctx : IpanicData) (mtd : Mtd) : Option IpanicOops := do
  let hdr := ctx.curr
  let header ← ipanicBlockRead ctx mtd hdr.oopsHeaderLength.toNat hdr.oopsHeaderOffset.toNat
    hdr.oopsHeaderLength.toNat
  let detail ← ipanicBlockRead ctx mtd hdr.oopsDetailLength.toNat hdr.oopsDetailOffset.toNat
    hdr.oopsDetailLength.toNat
  let console ← ipanicBlockRead ctx mtd hdr.consoleLength.toNat hdr.consoleOffset.toNat
    hdr.consoleLength.toNat
  return ⟨header ++ List.replicate (oopsHeaderSize - header.length) 0, detail, console⟩

/-- `ipanic_oops_copy`, with memory available. When a read fails, the dump is erased. -/
def ipanicOopsCopy (ctx : IpanicData) : Option IpanicOops × IpanicData :=
  match ctx.mtd with
  | none => (none, ctx)
  | some mtd =>
    if ctx.curr.magic ≠ magic ∨ ctx.curr.version ≠ phdrVersion then (none, ctx)
    else
      match readOops ctx mtd with
      | some oops => (some oops, ctx)
      | none => (none, { ctx with mtd := some mtd.erase, curr := .zero })

/-- `mtd_panic_notify_add` for the partition, after a start of the system. -/
def mtdPanicNotifyAdd (mtd : Mtd) : IpanicData :=
  match ipanicBlockScan mtd with
  | none => ⟨none, .zero, []⟩
  | some blkOffset =>
    let ctx : IpanicData := ⟨some mtd, .zero, blkOffset⟩
    match ipanicBlockReadSingle ctx mtd 0 with
    | none => ⟨none, .zero, blkOffset⟩
    | some bounce =>
      let hdr := IpanicHeader.ofBytes bounce
      match ipanicCheckHeader hdr with
      | .none => ctx
      | .bad => { ctx with mtd := some mtd.erase }
      | .good => (ipanicOopsCopy { ctx with curr := hdr }).2

end AndroidKernel.Ipanic
