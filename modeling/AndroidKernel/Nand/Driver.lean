import Mathlib

/-!
The MT6516 NAND driver: `g_kCMD` and the functions that use it.

The chip has pages of 2048 data bytes and 32 spare bytes that the controller stores (eight for
each of the four sectors). A program only clears bits. `au1OOB` is both the spare area that
was read last, of page `u4OOBRowAddr`, and the one that the next program writes; a program
that brings no data uses `databuf`, the buffer of the MTD layer. Time-outs, interrupts and the
error correction are left out: the chip has no bit errors.
-/

namespace AndroidKernel.Nand

abbrev Byte := BitVec 8

/-- A buffer of the caller; bytes behind its end do not matter. -/
abbrev Buf := Nat → Byte

def writesize : Nat := 2048
def oobsize : Nat := 64

/-- The spare bytes of the four sectors. -/
def fdmSize : Nat := 32

structure Page where
  data : Fin writesize → Byte
  spare : Fin fdmSize → Byte

/-- Row addresses are words; the pages of the chip are the small ones. -/
abbrev Chip := BitVec 32 → Page

def Page.erased : Page := ⟨fun _ => 0xff, fun _ => 0xff⟩

/-- A program clears bits. -/
def Page.program (page : Page) (data fdm : Buf) : Page :=
  ⟨fun i => page.data i &&& data i, fun i => page.spare i &&& fdm i⟩

/-- The pages of a block of `ppb` pages are those with the same quotient. -/
def Chip.erase (ppb : Nat) (chip : Chip) (row : BitVec 32) : Chip := fun p =>
  if p.toNat / ppb = row.toNat / ppb then .erased else chip p

/-- `struct mt6516_CMD`; the data buffer is given by its contents, and `none` is `NULL`. -/
structure CMD where
  u4ColAddr : BitVec 32
  u4RowAddr : BitVec 32
  u4OOBRowAddr : BitVec 32
  au1OOB : Buf
  pDataBuf : Option Buf

/-- `eraseRow` is the address that the chip has got for an erase. -/
structure Driver where
  kCMD : CMD
  databuf : Buf
  chip : Chip
  eraseRow : BitVec 32

/-- `(u32)-1`. -/
def noRow : BitVec 32 := 0xffffffff

/-- Copies `len` bytes from `src` to the start of `dst`. -/
def memcpy (dst src : Buf) (len : Nat) : Buf := fun i => if i < len then src i else dst i

def Page.dataBytes (page : Page) (old : Buf) : Buf := fun i =>
  if inside : i < writesize then page.data ⟨i, inside⟩ else old i

def Page.spareBytes (page : Page) (old : Buf) : Buf := fun i =>
  if inside : i < fdmSize then page.spare ⟨i, inside⟩ else old i

/-- `mt6516_nand_exec_read_page`: fills the page buffer and the first 32 bytes of the spare
buffer. -/
def execReadPage (chip : Chip) (row : BitVec 32) (pPageBuf pFDMBuf : Buf) : Buf × Buf :=
  ((chip row).dataBytes pPageBuf, (chip row).spareBytes pFDMBuf)

def execWritePage (chip : Chip) (row : BitVec 32) (pPageBuf pFDMBuf : Buf) : Chip :=
  Function.update chip row ((chip row).program pPageBuf pFDMBuf)

inductive Command where
  | seqin | pageprog | readoob | read0 | erase1 | erase2
deriving DecidableEq, Repr

/-- `mt6516_nand_command_bp`. -/
def commandBp (ppb : Nat) (command : Command) (column pageAddr : BitVec 32) (d : Driver) : Driver :=
  match command with
  | .seqin =>
    { d with
      kCMD := { d.kCMD with
        au1OOB := fun _ => 0xff
        pDataBuf := none
        u4RowAddr := pageAddr
        u4ColAddr := column } }
  | .pageprog =>
    if d.kCMD.pDataBuf.isSome ∨ d.kCMD.au1OOB 0 ≠ 0xff then
      { d with
        chip := execWritePage d.chip d.kCMD.u4RowAddr (d.kCMD.pDataBuf.getD d.databuf) d.kCMD.au1OOB
        kCMD := { d.kCMD with u4RowAddr := noRow, u4OOBRowAddr := noRow } }
    else d
  | .readoob =>
    { d with
      kCMD := { d.kCMD with
        u4RowAddr := pageAddr
        u4ColAddr := column + BitVec.ofNat 32 writesize } }
  | .read0 => { d with kCMD := { d.kCMD with u4RowAddr := pageAddr, u4ColAddr := column } }
  | .erase1 => { d with eraseRow := pageAddr }
  | .erase2 => { d with chip := d.chip.erase ppb d.eraseRow }

/-- The part of `mt6516_nand_read_buf` that reads the page when its spare area is not the one
that is remembered. -/
def rememberSpare (d : Driver) : Driver :=
  if d.kCMD.u4OOBRowAddr = d.kCMD.u4RowAddr then d
  else
    let (page, oob) := execReadPage d.chip d.kCMD.u4RowAddr d.databuf d.kCMD.au1OOB
    { d with
      databuf := page
      kCMD := { d.kCMD with au1OOB := oob, u4OOBRowAddr := d.kCMD.u4RowAddr } }

/-- `mt6516_nand_read_buf`: the buffer with the bytes that were read. -/
def readBuf (buf : Buf) (len : Nat) (d : Driver) : Buf × Driver :=
  let row := d.kCMD.u4RowAddr
  let col := d.kCMD.u4ColAddr.toNat
  let next := d.kCMD.u4ColAddr + BitVec.ofNat 32 len
  if col < writesize then
    if col = 0 ∧ writesize ≤ len then
      let (page, oob) := execReadPage d.chip row buf d.kCMD.au1OOB
      let buf : Buf := fun i =>
        if writesize ≤ i ∧ i < writesize + min (len - writesize) oobsize then oob (i - writesize)
        else page i
      (buf, { d with
        kCMD := { d.kCMD with au1OOB := oob, u4OOBRowAddr := row, u4ColAddr := next } })
    else
      let (page, oob) := execReadPage d.chip row d.databuf d.kCMD.au1OOB
      (memcpy buf (fun i => page (col + i)) len, { d with
        databuf := page
        kCMD := { d.kCMD with au1OOB := oob, u4OOBRowAddr := row, u4ColAddr := next } })
  else
    let offset := col - writesize
    let size := min (BitVec.ofNat 32 len - BitVec.ofNat 32 offset).toNat oobsize
    let d := rememberSpare d
    (memcpy buf (fun i => d.kCMD.au1OOB (offset + i)) size,
      { d with kCMD := { d.kCMD with u4ColAddr := next } })

/-- `mt6516_nand_write_buf`. -/
def writeBuf (buf : Buf) (len : Nat) (d : Driver) : Driver :=
  let col := d.kCMD.u4ColAddr.toNat
  let next := d.kCMD.u4ColAddr + BitVec.ofNat 32 len
  if writesize ≤ col then
    let offset := col - writesize
    let size := min len (BitVec.ofNat 32 oobsize - BitVec.ofNat 32 offset).toNat
    let oob : Buf := fun i =>
      if offset ≤ i ∧ i < offset + size then d.kCMD.au1OOB i &&& buf (i - offset)
      else d.kCMD.au1OOB i
    { d with kCMD := { d.kCMD with au1OOB := oob, u4ColAddr := next } }
  else { d with kCMD := { d.kCMD with pDataBuf := some buf, u4ColAddr := next } }

/-- `mt6516_nand_write_page_hwecc`. -/
def writePageHwecc (buf oobPoi : Buf) (d : Driver) : Driver :=
  writeBuf oobPoi oobsize (writeBuf buf writesize d)

/-- `mt6516_nand_read_page_hwecc`: the page buffer and `oob_poi`. -/
def readPageHwecc (buf oobPoi : Buf) (d : Driver) : (Buf × Buf) × Driver :=
  if d.kCMD.u4ColAddr = 0 then
    (execReadPage d.chip d.kCMD.u4RowAddr buf oobPoi, { d with
      kCMD := { d.kCMD with
        u4ColAddr := d.kCMD.u4ColAddr + BitVec.ofNat 32 (writesize + oobsize) } })
  else ((buf, oobPoi), d)

end AndroidKernel.Nand
