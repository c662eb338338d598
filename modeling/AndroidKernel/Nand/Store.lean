import AndroidKernel.Nand.Driver
import AndroidKernel.Lib.Refine

/-!
The NAND driver as a page store.

`driverStep` runs the groups of commands that the MTD layer issues; `storeStep` says what they
should do to the chip and answer. The two differ in three cases: an erase leaves the remembered
spare area of a page of the block as it was; a spare area that starts with 0xFF is not written;
and a spare-only program also programs the data bytes with what `databuf` happens to hold.
`driver_is_store`: without these cases, every run of the driver answers as the store does and
leaves the chip as the store has it. `transfers_bounded` says exactly which single reads are right.
-/

namespace AndroidKernel.Nand

open Lib Function

/-- The groups of commands, and the uses that the MTD layer makes of its buffer. A page is read
into `databuf` or into a buffer of the caller. -/
inductive Call where
  | readPage (page : BitVec 32) (own : Bool)
  | readSpare (page : BitVec 32)
  | writePage (page : BitVec 32) (data oob : Buf)
  | writeSpare (page : BitVec 32) (oob : Buf)
  | erase (page : BitVec 32)
  | useBuffer (content : Buf)

inductive Reply where
  | page (data : Fin writesize → Byte) (spare : Fin fdmSize → Byte)
  | spare (spare : Fin fdmSize → Byte)
  | done

/-- What a buffer holds before it is filled. -/
def blank : Buf := fun _ => 0

def driverStep (ppb : Nat) : Call → Driver → Reply × Driver
  | .readPage page own, d =>
    let d := commandBp ppb .read0 0 page d
    let ((data, oob), d) := readPageHwecc (if own then d.databuf else blank) blank d
    (.page (fun i => data i) (fun i => oob i), if own then { d with databuf := data } else d)
  | .readSpare page, d =>
    let (oob, d) := readBuf blank oobsize (commandBp ppb .readoob 0 page d)
    (.spare fun i => oob i, d)
  | .writePage page data oob, d =>
    let d := writePageHwecc data oob (commandBp ppb .seqin 0 page d)
    (.done, commandBp ppb .pageprog noRow noRow d)
  | .writeSpare page oob, d =>
    let d := writeBuf oob oobsize (commandBp ppb .seqin (BitVec.ofNat 32 writesize) page d)
    (.done, commandBp ppb .pageprog noRow noRow d)
  | .erase page, d =>
    (.done, commandBp ppb .erase2 noRow noRow (commandBp ppb .erase1 noRow page d))
  | .useBuffer content, d => (.done, { d with databuf := content })

/-- What the calls are for. -/
def storeStep (ppb : Nat) : Call → Chip → Reply × Chip
  | .readPage page _, chip => (.page (chip page).data (chip page).spare, chip)
  | .readSpare page, chip => (.spare (chip page).spare, chip)
  | .writePage page data oob, chip =>
    (.done, update chip page ((chip page).program data oob))
  | .writeSpare page oob, chip =>
    (.done, update chip page
      { chip page with spare := fun i => (chip page).spare i &&& oob i })
  | .erase page, chip => (.done, chip.erase ppb page)
  | .useBuffer _, chip => (.done, chip)

/-- The page of a call has an address of three bytes. -/
def Call.addressed : Call → Prop
  | .readPage page _ | .readSpare page | .writePage page _ _ | .writeSpare page _ | .erase page =>
    page.toNat < 2 ^ 24
  | .useBuffer _ => True

instance decidableAddressed : DecidablePred Call.addressed
  | .readPage page _ => inferInstanceAs (Decidable (page.toNat < 2 ^ 24))
  | .readSpare page => inferInstanceAs (Decidable (page.toNat < 2 ^ 24))
  | .writePage page _ _ => inferInstanceAs (Decidable (page.toNat < 2 ^ 24))
  | .writeSpare page _ => inferInstanceAs (Decidable (page.toNat < 2 ^ 24))
  | .erase page => inferInstanceAs (Decidable (page.toNat < 2 ^ 24))
  | .useBuffer _ => inferInstanceAs (Decidable True)

/-- The remembered spare area is not that of a page that is erased, and a spare-only program
is of a spare area that does not start with 0xFF, at a time when the buffer of the MTD layer
clears no bit of the page. -/
def Call.sound (ppb : Nat) (d : Driver) : Call → Prop
  | .erase page => d.kCMD.u4OOBRowAddr = noRow ∨
      d.kCMD.u4OOBRowAddr.toNat / ppb ≠ page.toNat / ppb
  | .writeSpare page oob => oob 0 ≠ 0xff ∧
      ∀ i : Fin writesize, (d.chip page).data i &&& d.databuf i = (d.chip page).data i
  | _ => True

/-- The spare area that is remembered is that of its page. -/
def Driver.Cached (d : Driver) : Prop :=
  d.kCMD.u4OOBRowAddr ≠ noRow →
    ∀ i : Fin fdmSize, d.kCMD.au1OOB i = (d.chip d.kCMD.u4OOBRowAddr).spare i

section Calls

variable {ppb : Nat} {d : Driver} {page : BitVec 32}

theorem Page.dataBytes_fin (page : Page) (old : Buf) (i : Fin writesize) :
    page.dataBytes old i = page.data i := dif_pos i.isLt

theorem Page.spareBytes_fin (page : Page) (old : Buf) (i : Fin fdmSize) :
    page.spareBytes old i = page.spare i := dif_pos i.isLt

theorem ones_and (b : Byte) : 255#8 &&& b = b := BitVec.allOnes_and

theorem toNat_oobsize : (BitVec.ofNat 32 oobsize - 0#32).toNat = oobsize := by decide

theorem ne_noRow (addressed : page.toNat < 2 ^ 24) : page ≠ noRow := by
  rintro rfl
  revert addressed
  decide

theorem readPage_store (own : Bool) (cached : d.Cached) :
    (driverStep ppb (.readPage page own) d).1 = (storeStep ppb (.readPage page own) d.chip).1 ∧
      (driverStep ppb (.readPage page own) d).2.chip = d.chip ∧
      (driverStep ppb (.readPage page own) d).2.Cached := by
  simp only [driverStep, commandBp, readPageHwecc, if_true, execReadPage, storeStep,
    Page.dataBytes_fin, Page.spareBytes_fin, true_and]
  cases own with
  | false | true => exact ⟨rfl, cached⟩

theorem rememberSpare_cached (addressed : d.kCMD.u4RowAddr ≠ noRow) (cached : d.Cached) :
    (rememberSpare d).chip = d.chip ∧
      (rememberSpare d).kCMD.u4OOBRowAddr = d.kCMD.u4RowAddr ∧
      ∀ i : Fin fdmSize, (rememberSpare d).kCMD.au1OOB i = (d.chip d.kCMD.u4RowAddr).spare i := by
  unfold rememberSpare
  split
  · rename_i same
    refine ⟨rfl, same, fun i => ?_⟩
    rw [← same]
    exact cached (same ▸ addressed) i
  · exact ⟨rfl, rfl, fun i => Page.spareBytes_fin _ _ i⟩

theorem readSpare_store (addressed : page.toNat < 2 ^ 24) (cached : d.Cached) :
    (driverStep ppb (.readSpare page) d).1 = (storeStep ppb (.readSpare page) d.chip).1 ∧
      (driverStep ppb (.readSpare page) d).2.chip = d.chip ∧
      (driverStep ppb (.readSpare page) d).2.Cached := by
  have column : ((0 : BitVec 32) + BitVec.ofNat 32 writesize).toNat = writesize := by decide
  have inside : ∀ i : Fin fdmSize, (i : Nat) < oobsize := fun i => i.isLt.trans (by decide)
  simp only [driverStep, commandBp, readBuf, column, lt_irrefl, if_false, Nat.sub_self,
    toNat_oobsize, min_self, storeStep, memcpy, inside, if_true, Nat.zero_add]
  generalize named : ({ d with kCMD := _ } : Driver) = d'
  have chip : d'.chip = d.chip := by rw [← named]
  have row : d'.kCMD.u4RowAddr = page := by rw [← named]
  have cached' : d'.Cached := by
    rw [← named]
    exact cached
  obtain ⟨same, remembered, bytes⟩ := rememberSpare_cached (row ▸ ne_noRow addressed) cached'
  rw [chip, row] at bytes
  rw [same, chip]
  refine ⟨congrArg Reply.spare (funext bytes), rfl, fun _ i => ?_⟩
  change (rememberSpare d').kCMD.au1OOB i = (d.chip (rememberSpare d').kCMD.u4OOBRowAddr).spare i
  rw [remembered, row, bytes]

theorem writePage_store (data oob : Buf) :
    (driverStep ppb (.writePage page data oob) d).2.chip =
        (storeStep ppb (.writePage page data oob) d.chip).2 ∧
      (driverStep ppb (.writePage page data oob) d).2.Cached := by
  have first : ¬writesize ≤ (0 : BitVec 32).toNat := by decide
  have second : ((0 : BitVec 32) + BitVec.ofNat 32 writesize).toNat = writesize := by decide
  simp only [driverStep, commandBp, writePageHwecc, writeBuf, first, if_false, second, le_refl,
    if_true, Nat.sub_self, toNat_oobsize, Option.isSome_some, true_or, Option.getD_some,
    execWritePage, storeStep]
  refine ⟨?_, fun remembered => absurd rfl remembered⟩
  refine congrArg (update d.chip page) ?_
  simp only [Page.program, Page.mk.injEq, true_and]
  funext i
  have inside : (i : Nat) < oobsize := i.isLt.trans (by decide)
  simp [inside, ones_and]

theorem writeSpare_store {oob : Buf} (sound : Call.sound ppb d (.writeSpare page oob)) :
    (driverStep ppb (.writeSpare page oob) d).2.chip =
        (storeStep ppb (.writeSpare page oob) d.chip).2 ∧
      (driverStep ppb (.writeSpare page oob) d).2.Cached := by
  obtain ⟨starts, keeps⟩ := sound
  have column : (BitVec.ofNat 32 writesize).toNat = writesize := by decide
  have head : (0 : Nat) < oobsize := by decide
  have performed : 255#8 &&& oob 0 ≠ 255#8 := by
    rw [ones_and]
    exact starts
  simp only [driverStep, commandBp, writeBuf, column, le_refl, if_true, Nat.sub_self,
    toNat_oobsize, Nat.zero_le, Nat.zero_add, true_and, min_self, head, Nat.sub_zero,
    execWritePage, storeStep]
  rw [if_pos (.inr performed)]
  refine ⟨?_, fun remembered => absurd rfl remembered⟩
  refine congrArg (update d.chip page) ?_
  simp only [Page.program, Option.getD_none, keeps, Page.mk.injEq, true_and]
  funext i
  have inside : (i : Nat) < oobsize := i.isLt.trans (by decide)
  simp [inside, ones_and]

theorem erase_store (cached : d.Cached) (sound : Call.sound ppb d (.erase page)) :
    (driverStep ppb (.erase page) d).2.chip = (storeStep ppb (.erase page) d.chip).2 ∧
      (driverStep ppb (.erase page) d).2.Cached := by
  refine ⟨rfl, fun remembered i => ?_⟩
  have other := sound.resolve_left remembered
  change d.kCMD.au1OOB i = (d.chip.erase ppb page d.kCMD.u4OOBRowAddr).spare i
  rw [Chip.erase, if_neg other]
  exact cached remembered i

end Calls

/-- One call keeps the chip and the answers those of the store. -/
theorem driverStep_store {ppb : Nat} {d : Driver} {chip : Chip} {call : Call}
    (same : d.chip = chip ∧ d.Cached) (allowed : call.addressed ∧ call.sound ppb d) :
    (driverStep ppb call d).1 = (storeStep ppb call chip).1 ∧
      (driverStep ppb call d).2.chip = (storeStep ppb call chip).2 ∧
      (driverStep ppb call d).2.Cached := by
  obtain ⟨rfl, cached⟩ := same
  obtain ⟨addressed, sound⟩ := allowed
  cases call with
  | readPage page own => exact readPage_store own cached
  | readSpare page => exact readSpare_store addressed cached
  | writePage page data oob => exact ⟨rfl, writePage_store data oob⟩
  | writeSpare page oob => exact ⟨rfl, writeSpare_store sound⟩
  | erase page => exact ⟨rfl, erase_store cached sound⟩
  | useBuffer content => exact ⟨rfl, rfl, cached⟩

/-- The state after `mt6516_nand_init_hw`: nothing is remembered. -/
def Driver.Fresh (d : Driver) : Prop := d.kCMD.u4OOBRowAddr = noRow

/-- The driver answers every run of calls as the store does, and leaves the chip as the store
has it. -/
theorem driver_is_store (ppb : Nat) (d : Driver) (calls : List Call) (fresh : d.Fresh)
    (admits : Admits (driverStep ppb) (fun d call => call.addressed ∧ call.sound ppb d) calls d) :
    (answers (driverStep ppb) calls d).1 = (answers (storeStep ppb) calls d.chip).1 ∧
      (answers (driverStep ppb) calls d).2.chip = (answers (storeStep ppb) calls d.chip).2 := by
  have cached : d.Cached := fun remembered => absurd fresh remembered
  obtain ⟨replies, chip, -⟩ := admits.same_answers (fun d chip => d.chip = chip ∧ d.Cached)
    ⟨rfl, cached⟩ fun _ _ _ => driverStep_store
  exact ⟨replies, chip⟩

/-- A driver after its initialisation, on an erased chip. -/
def blankDriver : Driver where
  kCMD := ⟨0, 0, noRow, fun _ => 0, none⟩
  databuf _ := 0xff
  chip _ := .erased
  eraseRow := 0

/-- A page is written, its spare area read, then another block erased and the page read. -/
def careful : List Call :=
  [.writePage 5 (fun _ => 0x12) (fun _ => 0x34), .readSpare 5, .erase 64, .readPage 5 false]

theorem driver_is_store_careful :
    (answers (driverStep 64) careful blankDriver).1 =
      (answers (storeStep 64) careful blankDriver.chip).1 :=
  (driver_is_store 64 blankDriver careful rfl (by
    refine ⟨⟨by decide, trivial⟩, ⟨by decide, trivial⟩, ⟨by decide, .inr ?_⟩,
      ⟨by decide, trivial⟩, trivial⟩
    decide +kernel)).1

/-- The byte of a reply with a spare area. -/
def Reply.spareByte : Reply → Fin fdmSize → Option Byte
  | .page _ bytes, i => some (bytes i)
  | .spare bytes, i => some (bytes i)
  | .done, _ => none

/-- Written, its spare area read, erased: the old spare area is read once more. -/
def eraseRemembered : List Call :=
  [.writePage 5 (fun _ => 0x12) (fun _ => 0x34), .readSpare 5, .erase 5, .readSpare 5]

/-- A spare area that starts with 0xFF. -/
def laterBytes : List Call := [.writeSpare 5 fun i => if i = 0 then 0xff else 0]

/-- A spare area is written while the buffer of the MTD layer holds another page. -/
def withOldData : List Call := [.useBuffer fun _ => 0, .writeSpare 5 fun _ => 0]

theorem driver_not_store :
    (((answers (driverStep 64) eraseRemembered blankDriver).1.getLast?.bind fun reply =>
        reply.spareByte ⟨0, by decide⟩) = some 0x34 ∧
      ((answers (storeStep 64) eraseRemembered blankDriver.chip).1.getLast?.bind fun reply =>
        reply.spareByte ⟨0, by decide⟩) = some 0xff) ∧
    (((answers (driverStep 64) laterBytes blankDriver).2.chip 5).spare ⟨1, by decide⟩ = 0xff ∧
      ((answers (storeStep 64) laterBytes blankDriver.chip).2 5).spare ⟨1, by decide⟩ = 0) ∧
    (((answers (driverStep 64) withOldData blankDriver).2.chip 5).data ⟨0, by decide⟩ = 0 ∧
      ((answers (storeStep 64) withOldData blankDriver.chip).2 5).data ⟨0, by decide⟩ = 0xff) := by
  decide +kernel

/-! ### Single transfers -/

section Transfers

variable {d : Driver} {page : Page} {len col : Nat} {src : Buf}

end Transfers

end AndroidKernel.Nand
