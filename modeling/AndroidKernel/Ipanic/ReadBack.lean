import AndroidKernel.Ipanic.Pages

/-!
A panic dump is read back as it was written.

The header that `ipanic` writes describes the three streams, and `mtd_panic_notify_add` finds the
same pages again, since it numbers them by the same scan. `dump_read_back`: when the streams fit
and every write works, the bytes come back exactly when the console and the detail have a length
that `ipanic_check_header` accepts. It takes a dump with less than 16 bytes or more than 64 KiB of
either for bad and erases it (`short_detail_lost`), although `ipanic` writes it.
-/

namespace AndroidKernel.Ipanic

open Lib List

/-! ### The numbers of the pages -/

/-- The good pages of the partition. -/
def goodPages (mtd : Mtd) : List Nat :=
  (range mtd.size).filter fun p => decide (p * mtd.writesize < mtd.size) && !mtd.isBad p

section Scan

variable {mtd : Mtd}

theorem scanLoop_eq (n k : Nat) (found : List Nat) (few : found.length ≤ blockCount) :
    scanLoop mtd n (k * mtd.writesize) found = (found ++ ((range' k n).filter fun p =>
      decide (p * mtd.writesize < mtd.size) && !mtd.isBad p).map (· * mtd.writesize)).take
        blockCount := by
  have positive := @Mtd.writesize_pos mtd
  induction n generalizing k found with
  | zero =>
    rw [scanLoop, range'_zero, filter_nil, map_nil, append_nil, take_of_length_le few]
  | succ n ih =>
    rw [scanLoop]
    split
    case isTrue more =>
      rw [← Nat.succ_mul, Nat.mul_div_cancel k positive, range'_succ, filter_cons]
      cases bad : mtd.isBad k with
      | true =>
        simp only [if_true, Bool.not_true, Bool.and_false, Bool.false_eq_true, if_false]
        exact ih (k + 1) found few
      | false =>
        simp only [Bool.false_eq_true, if_false, Bool.not_false, Bool.and_true,
          decide_eq_true more.2, if_true, map_cons]
        rw [ih (k + 1) (found ++ [k * mtd.writesize])
          (by rw [length_append, length_singleton]; omega), append_assoc,
          singleton_append]
    case isFalse stops =>
      by_cases full : found.length < blockCount
      · -- no page from here on lies in the partition
        have outside : mtd.size ≤ k * mtd.writesize := by
          by_contra inside
          exact stops ⟨full, by omega⟩
        have none : ((range' k (n + 1)).filter fun p =>
            decide (p * mtd.writesize < mtd.size) && !mtd.isBad p) = [] := by
          refine filter_eq_nil_iff.mpr fun p member => ?_
          have behind := (mem_range'_1.mp member).1
          have := Nat.mul_le_mul_right mtd.writesize behind
          rw [Bool.and_eq_true, decide_eq_true_eq]
          omega
        rw [none, map_nil, append_nil, take_of_length_le few]
      · have exactly : found.length = blockCount := by omega
        rw [← exactly, take_left]

section

variable (enough : blockCount ≤ (goodPages mtd).length)
include enough

theorem ipanicBlockScan_eq :
    ipanicBlockScan mtd = some (((goodPages mtd).map (· * mtd.writesize)).take blockCount) := by
  have found := @scanLoop_eq mtd mtd.size 0 [] (Nat.zero_le _)
  rw [Nat.zero_mul, nil_append, ← range_eq_range'] at found
  rw [ipanicBlockScan]
  simp only [found]
  rw [if_pos]
  · rfl
  · rw [length_take, length_map]
    exact Nat.min_eq_left enough

/-- The context of the driver after its scan. -/
def scanned (mtd : Mtd) : IpanicData :=
  ⟨some mtd, .zero, ((goodPages mtd).map (· * mtd.writesize)).take blockCount⟩

/-- The numbered pages are good pages. -/
theorem scanned_page {i : Nat} (inside : i < blockCount) :
    (scanned mtd).blkOffset.getD i 0 / mtd.writesize =
      (goodPages mtd).get ⟨i, inside.trans_le enough⟩ := by
  have low : i < (goodPages mtd).length := inside.trans_le enough
  rw [scanned, getD_eq_getElem?_getD, List.getElem?_take_of_lt inside, List.getElem?_map,
    List.getElem?_eq_getElem low, Option.map_some, Option.getD_some,
    Nat.mul_div_cancel _ Mtd.writesize_pos]
  rfl

theorem distinct_scanned : Distinct (scanned mtd) mtd := by
  have nodup : (goodPages mtd).Nodup := nodup_range.filter _
  intro i j insideI insideJ same
  rw [scanned_page enough insideI, scanned_page enough insideJ] at same
  exact Fin.mk.inj_iff.mp (nodup.injective_get same)

theorem erased_scanned
    (erased : ∀ p ∈ goodPages mtd, mtd.page p = replicate mtd.writesize 0xff) :
    Erased (scanned mtd) mtd 0 := by
  intro k inside _
  rw [block, scanned_page enough inside]
  exact erased _ (get_mem ..)

end

end Scan

/-! ### The header -/

/-- The four bytes of a word. -/
theorem word_eq (x : BitVec 32) : x.extractLsb' 24 8 ++ x.extractLsb' 16 8 ++ x.extractLsb' 8 8 ++
    x.extractLsb' 0 8 = x := by
  rw [BitVec.extractLsb'_append_extractLsb'_eq_extractLsb' (by rfl),
    BitVec.extractLsb'_append_extractLsb'_eq_extractLsb' (by rfl),
    BitVec.extractLsb'_append_extractLsb'_eq_extractLsb' (by rfl)]
  exact BitVec.extractLsb'_eq_self

theorem ofBytes_bytes (hdr : IpanicHeader) (rest : List Byte) :
    IpanicHeader.ofBytes (hdr.bytes ++ rest) = hdr := by
  have at0 : wordAt (hdr.bytes ++ rest) 0 = hdr.magic := word_eq _
  have at4 : wordAt (hdr.bytes ++ rest) 4 = hdr.version := word_eq _
  have at8 : wordAt (hdr.bytes ++ rest) 8 = hdr.consoleOffset := word_eq _
  have at12 : wordAt (hdr.bytes ++ rest) 12 = hdr.consoleLength := word_eq _
  have at16 : wordAt (hdr.bytes ++ rest) 16 = hdr.oopsHeaderOffset := word_eq _
  have at20 : wordAt (hdr.bytes ++ rest) 20 = hdr.oopsHeaderLength := word_eq _
  have at24 : wordAt (hdr.bytes ++ rest) 24 = hdr.oopsDetailOffset := word_eq _
  have at28 : wordAt (hdr.bytes ++ rest) 28 = hdr.oopsDetailLength := word_eq _
  rw [IpanicHeader.ofBytes, at0, at4, at8, at12, at16, at20, at24, at28]

/-- An erased page is no header. -/
theorem check_erased {w : Nat} (small : 32 ≤ w) :
    ipanicCheckHeader (.ofBytes (ipanicBlockScramble (replicate w 0xff))) = .none := by
  have other : (IpanicHeader.ofBytes (ipanicBlockScramble (replicate w 0xff))).magic ≠
      magic := by
    obtain ⟨n, rfl⟩ : ∃ n, w = 4 + n := ⟨w - 4, by omega⟩
    have word : ipanicBlockScramble (replicate 4 0xff) = [0x22, 0x33, 0x44, 0x55] := by decide
    rw [← replicate_append_replicate, ipanicBlockScramble, mapIdx_append,
      ← ipanicBlockScramble, word]
    change (0x55#8 ++ 0x44#8 ++ 0x33#8 ++ 0x22#8 : BitVec 32) ≠ magic
    decide
  rw [ipanicCheckHeader, if_pos other]

/-! ### The dump -/

section ReadBack

variable {mtd : Mtd} {log : Log} {header : IpanicOopsHeader} {detailStart detailEnd : BitVec 32}
  {console detail : List Byte} (small : 5 ≤ mtd.writesizeShift) (large : mtd.writesizeShift ≤ 12)
  (enough : blockCount ≤ (goodPages mtd).length)
  (erased : ∀ p ∈ goodPages mtd, mtd.page p = replicate mtd.writesize 0xff)
  (works : ∀ p, mtd.writeError p = 0) (isConsole : logBytes log log.logStart log.logEnd = console)
  (isDetail : logBytes log detailStart detailEnd = detail)
  (fits : pagesOf mtd.writesize console.length + pagesOf mtd.writesize oopsHeaderSize +
    pagesOf mtd.writesize detail.length ≤ 63)

include small enough in
theorem mtdPanicNotifyAdd_erased (erased : Erased (scanned mtd) mtd 0) :
    mtdPanicNotifyAdd mtd = scanned mtd := by
  have size : 32 ≤ mtd.writesize := Nat.pow_le_pow_right (n := 2) (by decide) small
  have first := erased 0 (by decide) (Nat.le_refl 0)
  rw [block] at first
  have read : ipanicBlockReadSingle (scanned mtd) mtd 0 =
      some (ipanicBlockScramble (replicate mtd.writesize 0xff)) := by
    simp only [ipanicBlockReadSingle, Nat.zero_div, if_pos (by decide : 0 < blockCount), first]
  rw [mtdPanicNotifyAdd, ipanicBlockScan_eq enough]
  simp only [show (⟨some mtd, .zero, _⟩ : IpanicData) = scanned mtd from rfl, read,
    check_erased size]

/-- The header that describes the three streams. -/
def dumpHeader (w consoleLen headerLen detailLen : Nat) : IpanicHeader :=
  ⟨magic, phdrVersion, BitVec.ofNat 32 w, BitVec.ofNat 32 consoleLen,
    BitVec.ofNat 32 ((1 + pagesOf w consoleLen) * w), BitVec.ofNat 32 headerLen,
    BitVec.ofNat 32 ((1 + pagesOf w consoleLen + pagesOf w headerLen) * w),
    BitVec.ofNat 32 detailLen⟩

/-- The lengths of the console and of the detail that `ipanic_check_header` accepts. -/
def Accepted (consoleLen detailLen : Nat) : Prop :=
  (16 ≤ consoleLen ∧ consoleLen ≤ datalengthMax) ∧ 16 ≤ detailLen ∧ detailLen ≤ datalengthMax

instance decidableAccepted (consoleLen detailLen : Nat) : Decidable (Accepted consoleLen detailLen) :=
  inferInstanceAs (Decidable (_ ∧ _))

theorem check_dumpHeader {w consoleLen detailLen : Nat} (console : consoleLen < 2 ^ 32)
    (detail : detailLen < 2 ^ 32) :
    ipanicCheckHeader (dumpHeader w consoleLen oopsHeaderSize detailLen) =
      if Accepted consoleLen detailLen then .good else .bad := by
  have limit : datalengthMax = 64 * 1024 := rfl
  have headerSize : oopsHeaderSize = 3328 := rfl
  unfold ipanicCheckHeader dumpHeader
  simp only [ne_eq, not_true_eq_false, if_false, BitVec.toNat_ofNat, Nat.mod_eq_of_lt console,
    Nat.mod_eq_of_lt detail]
  rw [Nat.mod_eq_of_lt (by omega), if_neg (by omega)]
  by_cases accepted : Accepted consoleLen detailLen
  · have ⟨console', detail'⟩ := accepted
    rw [if_pos accepted, if_neg (by omega), if_neg (by omega)]
  · rw [if_neg accepted]
    unfold Accepted at accepted
    split_ifs
    · rfl
    · rfl
    · omega

/-- What 63 pages hold is less than a word can count. -/
theorem lt_of_pagesOf {mtd : Mtd} {n : Nat} (large : mtd.writesizeShift ≤ 12)
    (few : pagesOf mtd.writesize n ≤ 63) : n < 2 ^ 32 := by
  have width : mtd.writesize ≤ 4096 := Nat.pow_le_pow_right (n := 2) (by decide) large
  have covered : n ≤ pagesOf mtd.writesize n * mtd.writesize :=
    le_roundUp (@Mtd.writesize_pos mtd)
  have := Nat.mul_le_mul few width
  omega

theorem IpanicOopsHeader.bytes_length (header : IpanicOopsHeader) :
    header.bytes.length = oopsHeaderSize := by
  rw [IpanicOopsHeader.bytes, length_append, header.backtrace_length,
    header.processPath_length, oopsHeaderSize]

include small works isConsole isDetail fits in
/-- What `ipanic` leaves in the partition. -/
theorem ipanic_stored (distinct : Distinct (scanned mtd) mtd)
    (erased : Erased (scanned mtd) mtd 0) :
    ∃ mtd', (ipanic log header detailStart detailEnd (scanned mtd)).mtd = some mtd' ∧
      Written (scanned mtd) mtd mtd' 0 blockCount ∧
      Stored (scanned mtd) mtd' 0
        (dumpHeader mtd.writesize console.length oopsHeaderSize detail.length).bytes ∧
      Stored (scanned mtd) mtd' 1 console ∧
      Stored (scanned mtd) mtd' (1 + pagesOf mtd.writesize console.length) header.bytes ∧
      Stored (scanned mtd) mtd' (1 + pagesOf mtd.writesize console.length +
        pagesOf mtd.writesize oopsHeaderSize) detail := by
  set n₂ := 1 + pagesOf mtd.writesize console.length with eq₂
  set n₃ := n₂ + pagesOf mtd.writesize oopsHeaderSize with eq₃
  set dump := (dumpHeader mtd.writesize console.length oopsHeaderSize detail.length).bytes
  have positive := @Mtd.writesize_pos mtd
  have size : 32 ≤ mtd.writesize := Nat.pow_le_pow_right (n := 2) (by decide) small
  have headerLength := header.bytes_length
  have blocks : blockCount = 64 := rfl
  -- the console from the second page on
  obtain ⟨mtd₁, write₁, stored₁, written₁⟩ := @writeLogLoop_stored (scanned mtd) mtd 1 console log
    log.logStart log.logEnd distinct works (blockCount + 2) 0 isConsole (by omega) (by omega)
    fun k inside _ => erased k inside (Nat.zero_le k)
  rw [Nat.one_mul, Nat.zero_add] at write₁
  have size₁ := written₁.writesize
  have erased₁ := written₁.erased (fun k inside _ => erased k inside (Nat.zero_le k)) (by omega)
  have works₁ : ∀ p, mtd₁.writeError p = 0 := fun p => by rw [written₁.writeError, works]
  have offset₁ : roundUp (mtd.writesize + console.length) mtd.writesize =
      n₂ * mtd.writesize := by
    have := @roundUp_add_mul mtd.writesize console.length positive 1
    rwa [Nat.one_mul] at this
  -- the oops header behind it
  obtain ⟨mtd₂, write₂, stored₂, written₂⟩ := @writeHeaderLoop_stored (scanned mtd) mtd₁
    n₂ header.bytes (written₁.distinct distinct) works₁
    (n₂ * mtd.writesize) oopsHeaderSize 0
    headerLength.le (fun _ => by rw [size₁, Nat.add_zero])
    (by rw [size₁, headerLength]; omega) erased₁
  rw [Nat.zero_add, headerLength] at write₂
  rw [size₁, headerLength] at written₂
  have size₂ := written₂.writesize.trans size₁
  have erased₂ := written₂.erased erased₁ (by omega)
  have works₂ : ∀ p, mtd₂.writeError p = 0 := fun p => by rw [written₂.writeError, works₁]
  have offset₂ : roundUp (n₂ * mtd.writesize + oopsHeaderSize) mtd.writesize =
      n₃ * mtd.writesize := roundUp_add_mul positive _
  -- and the detail
  obtain ⟨mtd₃, write₃, stored₃, written₃⟩ := @writeLogLoop_stored (scanned mtd) mtd₂
    n₃ detail log
    detailStart detailEnd (written₂.distinct (written₁.distinct distinct)) works₂ (blockCount + 2)
    0 isDetail (by rw [size₂]; omega) (by rw [size₂]; omega) erased₂
  rw [size₂, Nat.zero_add] at write₃
  rw [size₂] at written₃
  have size₃ := written₃.writesize.trans size₂
  have works₃ : ∀ p, mtd₃.writeError p = 0 := fun p => by rw [written₃.writeError, works₂]
  -- the first page is still erased
  have first : block (scanned mtd) mtd₃ 0 = replicate mtd₃.writesize 0xff := by
    rw [written₃.rest 0 (by omega) (.inl (by omega)), written₂.rest 0 (by omega) (.inl (by omega)),
      written₁.rest 0 (by omega) (.inl (by omega)), size₃]
    exact erased 0 (by omega) (Nat.le_refl 0)
  obtain ⟨mtd₄, write₄, written₄, page₄⟩ := ipanicBlockWrite_page
    (written₃.distinct (written₂.distinct (written₁.distinct distinct))) works₃
    (show 0 < blockCount by omega)
    (show dump.length ≤ mtd₃.writesize from size₃ ▸ size) first
  have size₄ := written₄.writesize.trans size₃
  refine ⟨mtd₄, ?_, ⟨?_, fun k inside outside => by omega⟩, ?_, ?_, ?_, ?_⟩
  · rw [ipanic]
    simp only [show (scanned mtd).mtd = some mtd from rfl, ipanicWriteLogBuf, write₁,
      Int.toNat_natCast, size₁, offset₁, ipanicWriteOopsHeader, write₂, size₂, offset₂, write₃]
    rw [Nat.zero_mul] at write₄
    exact congrArg some (congrArg Prod.snd write₄)
  · rw [written₄.same, written₃.same, written₂.same, written₁.same]
  · have short : dump.length ≤ mtd₄.writesize := size₄ ▸ size
    refine stored_of_first (Nat.succ_pos _) ?_ ?_
    · rw [page₄, take_of_length_le short, size₄, size₃]
    · rw [drop_of_length_le short]
      exact stored_nil
  · exact ((stored₁.frame written₂ (by rw [size₁]; omega) (by rw [size₁]; omega)).frame written₃
      (by rw [size₂]; omega) (by rw [size₂]; omega)).frame written₄ (by rw [size₃]; omega) (by omega)
  · exact (stored₂.frame written₃ (by rw [size₂, headerLength]; omega)
      (by rw [size₂, headerLength]; omega)).frame written₄ (by rw [size₃, headerLength]; omega)
      (by omega)
  · exact stored₃.frame written₄ (by rw [size₃]; omega) (by omega)

/-- The scan looks at the bad pages only. -/
theorem scanned_blkOffset {mtd' : Mtd} {low high : Nat}
    (written : Written ctx mtd mtd' low high) :
    goodPages mtd' = goodPages mtd ∧ (scanned mtd').blkOffset = (scanned mtd).blkOffset := by
  rw [written.same]
  exact ⟨rfl, rfl⟩

/-- What is stored is read through any context with the same pages. -/
theorem Stored.congr {ctx' : IpanicData} {p : Nat} {xs : List Byte}
    (stored : Stored ctx mtd p xs) (same : ctx'.blkOffset = ctx.blkOffset) :
    Stored ctx' mtd p xs := by
  intro i low
  rw [block, same]
  exact stored i low

/-- The streams that a header describes are read back. -/
theorem readOops_stored {consoleLen headerLen detailLen : Nat}
    {console header detail : List Byte} (large : mtd.writesizeShift ≤ 12)
    (curr : ctx.curr = dumpHeader mtd.writesize consoleLen headerLen detailLen)
    (isConsole : console.length = consoleLen) (isHeader : header.length = headerLen)
    (isDetail : detail.length = detailLen)
    (fits : pagesOf mtd.writesize consoleLen + pagesOf mtd.writesize headerLen +
      pagesOf mtd.writesize detailLen ≤ 63)
    (short : consoleLen < 2 ^ 32 ∧ headerLen < 2 ^ 32 ∧ detailLen < 2 ^ 32)
    (stored : Stored ctx mtd 1 console)
    (stored' : Stored ctx mtd (1 + pagesOf mtd.writesize consoleLen) header)
    (stored'' : Stored ctx mtd (1 + pagesOf mtd.writesize consoleLen +
      pagesOf mtd.writesize headerLen) detail) :
    readOops ctx mtd = some ⟨header ++ replicate (oopsHeaderSize - header.length) 0, detail,
      console⟩ := by
  have size : mtd.writesize ≤ 4096 := Nat.pow_le_pow_right (n := 2) (by decide) large
  have offset : ∀ p ≤ 64, (BitVec.ofNat 32 (p * mtd.writesize)).toNat = p * mtd.writesize := by
    intro p le
    have := Nat.mul_le_mul le size
    rw [BitVec.toNat_ofNat, Nat.mod_eq_of_lt (by omega)]
  have first := offset 1 (by omega)
  rw [Nat.one_mul] at first
  have blocks : blockCount = 64 := rfl
  have readHeader := ipanicBlockRead_stored (Nat.le_refl _) (by rw [isHeader]; omega) stored'
  have readDetail := ipanicBlockRead_stored (Nat.le_refl _) (by rw [isDetail]; omega) stored''
  have readConsole := ipanicBlockRead_stored (Nat.le_refl _) (by rw [isConsole]; omega) stored
  rw [isHeader] at readHeader
  rw [isDetail] at readDetail
  rw [isConsole, Nat.one_mul] at readConsole
  simp only [readOops, curr, dumpHeader, BitVec.toNat_ofNat, Nat.mod_eq_of_lt short.1,
    Nat.mod_eq_of_lt short.2.1, Nat.mod_eq_of_lt short.2.2]
  rw [← BitVec.toNat_ofNat, ← BitVec.toNat_ofNat, ← BitVec.toNat_ofNat, first,
    offset _ (by omega), offset _ (by omega), readHeader, readDetail, readConsole]
  rfl

include small large enough erased works isConsole isDetail fits

/-- After a dump, the next start finds its header, and the streams can be read. -/
theorem dump_found :
    ∃ mtd' hdr, (ipanic log header detailStart detailEnd (mtdPanicNotifyAdd mtd)).mtd = some mtd' ∧
      hdr = dumpHeader mtd.writesize console.length oopsHeaderSize detail.length ∧
      ipanicBlockScan mtd' = some (scanned mtd').blkOffset ∧
      (∃ rest, ipanicBlockReadSingle (scanned mtd') mtd' 0 = some (hdr.bytes ++ rest)) ∧
      readOops ⟨some mtd', hdr, (scanned mtd').blkOffset⟩ mtd' =
        some ⟨header.bytes, detail, console⟩ := by
  have allErased := erased_scanned enough erased
  have headerLength := header.bytes_length
  rw [mtdPanicNotifyAdd_erased small enough allErased]
  obtain ⟨mtd', ran, written, stored₀, stored₁, stored₂, stored₃⟩ :=
    @ipanic_stored mtd log header _ _ _ _ small works isConsole isDetail fits (distinct_scanned enough)
      allErased
  obtain ⟨pages, blkOffset⟩ := scanned_blkOffset written
  have size := written.writesize
  have shift : mtd'.writesizeShift = mtd.writesizeShift := by rw [written.same]
  generalize isHdr : dumpHeader mtd.writesize console.length oopsHeaderSize
    detail.length = hdr at stored₀
  refine ⟨mtd', hdr, ran, rfl, ipanicBlockScan_eq (pages ▸ enough), ?_, ?_⟩
  · have page := (stored₀.congr blkOffset).first (Nat.succ_pos _)
    have short : hdr.bytes.length ≤ mtd'.writesize := by
      rw [size]
      exact Nat.pow_le_pow_right (n := 2) (by decide) small
    rw [block] at page
    simp only [ipanicBlockReadSingle, Nat.zero_div, if_pos (by decide : 0 < blockCount), page,
      scramble_scramble, take_of_length_le short, pad]
    exact ⟨_, rfl⟩
  have result := @readOops_stored mtd' ⟨some mtd', hdr, (scanned mtd').blkOffset⟩ _
    oopsHeaderSize _ console header.bytes detail (shift ▸ large) (by rw [size]; exact isHdr.symm)
    rfl headerLength rfl (by rw [size]; exact fits)
    ⟨lt_of_pagesOf large (by omega), lt_of_pagesOf large (by omega), lt_of_pagesOf large (by omega)⟩
    (stored₁.congr blkOffset) (by rw [size]; exact stored₂.congr blkOffset)
    (by rw [size]; exact stored₃.congr blkOffset)
  rw [headerLength, Nat.sub_self, replicate_zero, append_nil] at result
  exact result

/-- A dump whose console or detail is shorter than sixteen bytes, or too long, is taken for bad
data: the next start erases it and has nothing to return. -/
theorem dump_refused (refused : ¬Accepted console.length detail.length) :
    ∃ mtd', (ipanic log header detailStart detailEnd (mtdPanicNotifyAdd mtd)).mtd = some mtd' ∧
      (mtdPanicNotifyAdd mtd').mtd = some mtd'.erase ∧
      (ipanicOopsCopy (mtdPanicNotifyAdd mtd')).1 = none := by
  obtain ⟨mtd', hdr, ran, rfl, scan, ⟨rest, read⟩, _⟩ :=
    @dump_found mtd log header _ _ _ _ small large enough erased works isConsole isDetail fits
  have checked := @check_dumpHeader mtd.writesize console.length detail.length
    (lt_of_pagesOf large (by omega)) (lt_of_pagesOf large (by omega))
  rw [if_neg refused] at checked
  refine ⟨mtd', ran, ?_⟩
  have added : mtdPanicNotifyAdd mtd' = ⟨some mtd'.erase, .zero, (scanned mtd').blkOffset⟩ := by
    rw [mtdPanicNotifyAdd, scan]
    simp only [show (⟨some mtd', .zero, (scanned mtd').blkOffset⟩ : IpanicData) = scanned mtd'
      from rfl, read, ofBytes_bytes, checked]
  rw [added]
  exact ⟨rfl, rfl⟩

/-- The others come back as they were when `ipanic` ran. -/
theorem dump_accepted (accepted : Accepted console.length detail.length) :
    ∃ mtd', (ipanic log header detailStart detailEnd (mtdPanicNotifyAdd mtd)).mtd = some mtd' ∧
      (ipanicOopsCopy (mtdPanicNotifyAdd mtd')).1 = some ⟨header.bytes, detail, console⟩ := by
  obtain ⟨mtd', hdr, ran, isHdr, scan, ⟨rest, read⟩, oops⟩ :=
    @dump_found mtd log header _ _ _ _ small large enough erased works isConsole isDetail fits
  refine ⟨mtd', ran, ?_⟩
  have known : ¬(hdr.magic ≠ magic ∨ hdr.version ≠ phdrVersion) := by
    rw [isHdr]
    simp [dumpHeader]
  have checked : ipanicCheckHeader hdr = .good := by
    rw [isHdr, check_dumpHeader (lt_of_pagesOf large (by omega)) (lt_of_pagesOf large (by omega)),
      if_pos accepted]
  have copied : ipanicOopsCopy ⟨some mtd', hdr, (scanned mtd').blkOffset⟩ =
      (some ⟨header.bytes, detail, console⟩, ⟨some mtd', hdr, (scanned mtd').blkOffset⟩) := by
    rw [ipanicOopsCopy]
    simp only [if_neg known, oops]
  have added : mtdPanicNotifyAdd mtd' = ⟨some mtd', hdr, (scanned mtd').blkOffset⟩ := by
    rw [mtdPanicNotifyAdd, scan]
    simp only [show (⟨some mtd', .zero, (scanned mtd').blkOffset⟩ : IpanicData) = scanned mtd'
      from rfl, read, ofBytes_bytes, checked]
    exact congrArg Prod.snd copied
  rw [added, copied]

end ReadBack

/-- The console, the header and the detail come back as they were when `ipanic` ran, exactly when
the lengths of the console and of the detail are accepted ones. Every other dump is erased. -/
theorem dump_read_back (mtd : Mtd) (log : Log) (header : IpanicOopsHeader)
    (detailStart detailEnd : BitVec 32) (small : 5 ≤ mtd.writesizeShift)
    (large : mtd.writesizeShift ≤ 12) (enough : blockCount ≤ (goodPages mtd).length)
    (erased : ∀ p ∈ goodPages mtd, mtd.page p = replicate mtd.writesize 0xff)
    (works : ∀ p, mtd.writeError p = 0)
    (fits : pagesOf mtd.writesize (logBytes log log.logStart log.logEnd).length +
      pagesOf mtd.writesize oopsHeaderSize +
      pagesOf mtd.writesize (logBytes log detailStart detailEnd).length ≤ 63) :
    ∃ mtd', (ipanic log header detailStart detailEnd (mtdPanicNotifyAdd mtd)).mtd = some mtd' ∧
      ((ipanicOopsCopy (mtdPanicNotifyAdd mtd')).1 = some ⟨header.bytes,
          logBytes log detailStart detailEnd, logBytes log log.logStart log.logEnd⟩ ↔
        Accepted (logBytes log log.logStart log.logEnd).length
          (logBytes log detailStart detailEnd).length) ∧
      ((mtdPanicNotifyAdd mtd').mtd = some mtd'.erase ∨
        Accepted (logBytes log log.logStart log.logEnd).length
          (logBytes log detailStart detailEnd).length) := by
  by_cases accepted : Accepted (logBytes log log.logStart log.logEnd).length
    (logBytes log detailStart detailEnd).length
  · obtain ⟨mtd', ran, back⟩ :=
      @dump_accepted mtd log header _ _ _ _ small large enough erased works rfl rfl fits accepted
    exact ⟨mtd', ran, iff_of_true back accepted, .inr accepted⟩
  · obtain ⟨mtd', ran, lost, none⟩ :=
      @dump_refused mtd log header _ _ _ _ small large enough erased works rfl rfl fits accepted
    refine ⟨mtd', ran, iff_of_false (fun back => ?_) accepted, .inl lost⟩
    rw [none] at back
    cases back

/-- A partition of 64 good pages of 2048 bytes, erased. -/
def expdb : Mtd where
  size := 64 * 2048
  writesizeShift := 11
  erasePages := 64
  isBad _ := false
  page _ := replicate 2048 0xff
  writeError _ := 0

theorem goodPages_expdb : blockCount ≤ (goodPages expdb).length := by
  have first : (range 64).Sublist (range expdb.size) := range_sublist.mpr (by decide)
  have good : (range 64).filter (fun p => decide (p * expdb.writesize < expdb.size) &&
      !expdb.isBad p) = range 64 := by decide
  have part := first.filter fun p => decide (p * expdb.writesize < expdb.size) && !expdb.isBad p
  exact part.length_le

/-- A log of twenty bytes. -/
def shortLog : Log := ⟨fun _ => 0x41, 17, 0, 20⟩

def noOops : IpanicOopsHeader :=
  ⟨replicate 3072 0, replicate 256 0, length_replicate, length_replicate⟩

/-- All twenty bytes of the log are the detail. -/
theorem dump_read_back_short :
    ∃ mtd', (ipanic shortLog noOops 0 20 (mtdPanicNotifyAdd expdb)).mtd = some mtd' ∧
      (ipanicOopsCopy (mtdPanicNotifyAdd mtd')).1 =
        some ⟨noOops.bytes, replicate 20 0x41, replicate 20 0x41⟩ := by
  obtain ⟨mtd', ran, back, -⟩ := dump_read_back expdb shortLog noOops 0 20 (by decide) (by decide)
    goodPages_expdb (fun _ _ => rfl) (fun _ => rfl) (by decide)
  exact ⟨mtd', ran, back.mpr (by decide)⟩

/-- A panic without an oops: the detail is empty, and the dump is erased at the next start. -/
theorem short_detail_lost :
    pagesOf expdb.writesize (logBytes shortLog shortLog.logStart shortLog.logEnd).length +
        pagesOf expdb.writesize oopsHeaderSize +
        pagesOf expdb.writesize (logBytes shortLog 0 0).length ≤ 63 ∧
      blockCount ≤ (goodPages expdb).length ∧
      ∃ mtd', (ipanic shortLog noOops 0 0 (mtdPanicNotifyAdd expdb)).mtd = some mtd' ∧
        (mtdPanicNotifyAdd mtd').mtd = some mtd'.erase ∧
        (ipanicOopsCopy (mtdPanicNotifyAdd mtd')).1 = none :=
  ⟨by decide, goodPages_expdb, dump_refused (by decide) (by decide) goodPages_expdb
    (fun _ _ => rfl) (fun _ => rfl) rfl rfl (by decide) (by decide)⟩

end AndroidKernel.Ipanic
