import AndroidKernel.Ipanic.Dump

/-!
Streams of bytes in the pages of the partition.

`Stored ctx mtd p xs` says that the bytes are in the numbered pages from `p` on: cut into pages,
the last one filled up with zero bytes, and scrambled. Writing a stream to erased pages stores it
and leaves the other pages as they are (`writeLogLoop_stored`, `writeHeaderLoop_stored`), and
reading what is stored gives the bytes back (`ipanicBlockRead_stored`).
-/

namespace AndroidKernel.Ipanic

open Lib List

/-! ### Scrambling -/

theorem scramble_length (buf : List Byte) : (ipanicBlockScramble buf).length = buf.length := by
  rw [ipanicBlockScramble, length_mapIdx]

theorem scramble_scramble (buf : List Byte) :
    ipanicBlockScramble (ipanicBlockScramble buf) = buf := by
  refine ext_getElem (by rw [scramble_length, scramble_length]) fun i low high => ?_
  simp only [ipanicBlockScramble, getElem_mapIdx]
  rw [BitVec.xor_assoc, BitVec.xor_self, BitVec.xor_zero]

/-- Writing to an erased page stores the data. -/
theorem zipWith_erased {n : Nat} {data : List Byte} (size : data.length = n) :
    zipWith (· &&& ·) (replicate n 0xff) data = data := by
  refine ext_getElem (by simp [size]) fun i low high => ?_
  rw [getElem_zipWith, getElem_replicate]
  exact BitVec.allOnes_and

/-- The bytes with zeros up to the end of the page. -/
def pad (w : Nat) (xs : List Byte) : List Byte := xs ++ replicate (w - xs.length) 0

theorem pad_length {w : Nat} {xs : List Byte} (fits : xs.length ≤ w) : (pad w xs).length = w := by
  rw [pad, length_append, length_replicate]
  omega

/-! ### The numbered pages -/

/-- The pages that a stream of `n` bytes takes. -/
def pagesOf (w n : Nat) : Nat := (n + (w - 1)) / w

section Sizes

variable {w n : Nat}

theorem pagesOf_zero (positive : 0 < w) : pagesOf w 0 = 0 := by
  exact Nat.div_eq_of_lt (by omega)

theorem pagesOf_pos (positive : 0 < w) (some : 0 < n) : pagesOf w n = pagesOf w (n - w) + 1 := by
  rcases Nat.lt_or_ge n w with less | more
  · rw [Nat.sub_eq_zero_of_le less.le, pagesOf_zero positive, pagesOf]
    exact Nat.div_eq_of_lt_le (by omega) (by omega)
  · have split : n + (w - 1) = n - w + (w - 1) + w := by omega
    rw [pagesOf, split, Nat.add_div_right _ positive, pagesOf]

theorem roundUp_add_mul (positive : 0 < w) (p : Nat) :
    roundUp (p * w + n) w = (p + pagesOf w n) * w := by
  rw [roundUp, pagesOf, Nat.add_assoc, Nat.mul_comm p w, Nat.mul_add_div positive]

end Sizes

/-- What the numbered page holds. -/
def block (ctx : IpanicData) (mtd : Mtd) (j : Nat) : List Byte :=
  mtd.page (ctx.blkOffset.getD j 0 / mtd.writesize)

/-- Different numbers stand for different pages. -/
def Distinct (ctx : IpanicData) (mtd : Mtd) : Prop :=
  ∀ i j, i < blockCount → j < blockCount →
    ctx.blkOffset.getD i 0 / mtd.writesize = ctx.blkOffset.getD j 0 / mtd.writesize → i = j

/-- Only pages with a number from `low` up to `high` have been written. -/
structure Written (ctx : IpanicData) (mtd mtd' : Mtd) (low high : Nat) : Prop where
  same : mtd' = { mtd with page := mtd'.page }
  rest : ∀ k < blockCount, k < low ∨ high ≤ k → block ctx mtd' k = block ctx mtd k

section Written

variable {ctx : IpanicData} {mtd mtd' mtd'' : Mtd} {low mid high : Nat}

theorem Written.refl : Written ctx mtd mtd low high := ⟨rfl, fun _ _ _ => rfl⟩

theorem Written.trans (first : Written ctx mtd mtd' low mid)
    (second : Written ctx mtd' mtd'' mid high) (le₁ : low ≤ mid) (le₂ : mid ≤ high) :
    Written ctx mtd mtd'' low high := by
  refine ⟨?_, fun k inside outside => ?_⟩
  · rw [second.same, first.same]
  · rw [second.rest k inside (by omega), first.rest k inside (by omega)]

section

variable (written : Written ctx mtd mtd' low high)
include written

theorem Written.writesize : mtd'.writesize = mtd.writesize := by
  rw [written.same]
  rfl

theorem Written.writeError : mtd'.writeError = mtd.writeError := by
  rw [written.same]

theorem Written.distinct (distinct : Distinct ctx mtd) : Distinct ctx mtd' := by
  intro i j
  rw [written.writesize]
  exact distinct i j

/-- The numbered pages from `low` on are erased. -/
def Erased (ctx : IpanicData) (mtd : Mtd) (low : Nat) : Prop :=
  ∀ k < blockCount, low ≤ k → block ctx mtd k = replicate mtd.writesize 0xff

theorem Written.erased (erased : Erased ctx mtd low) (le : low ≤ high) : Erased ctx mtd' high := by
  intro k inside behind
  rw [written.rest k inside (.inr behind), written.writesize]
  exact erased k inside (le.trans behind)

end

/-- One page is written. -/
theorem ipanicBlockWrite_page (distinct : Distinct ctx mtd) (works : ∀ p, mtd.writeError p = 0)
    {j : Nat} {bounce : List Byte} (inside : j < blockCount) (fits : bounce.length ≤ mtd.writesize)
    (erased : block ctx mtd j = replicate mtd.writesize 0xff) :
    ∃ mtd', ipanicBlockWrite ctx mtd (j * mtd.writesize) bounce = ((mtd.writesize : Int), mtd') ∧
      Written ctx mtd mtd' j (j + 1) ∧
      block ctx mtd' j = ipanicBlockScramble (pad mtd.writesize bounce) := by
  have positive : 0 < mtd.writesize := Nat.two_pow_pos _
  have index : j * mtd.writesize / mtd.writesize = j := Nat.mul_div_cancel j positive
  have size : (ipanicBlockScramble (pad mtd.writesize bounce)).length = mtd.writesize := by
    rw [scramble_length, pad_length fits]
  refine ⟨mtd.program (ctx.blkOffset.getD j 0 / mtd.writesize)
    (ipanicBlockScramble (pad mtd.writesize bounce)), ?_, ⟨rfl, fun k low outside => ?_⟩, ?_⟩
  · simp only [ipanicBlockWrite, index, if_neg (not_le.mpr inside), if_neg (not_lt.mpr fits),
      works, ne_eq, not_true_eq_false, if_false]
    rfl
  · change (mtd.program _ _).page (ctx.blkOffset.getD k 0 / mtd.writesize) = _
    refine (Function.update_of_ne (fun same => ?_) ..)
    have := distinct k j low inside same
    omega
  · change (mtd.program _ _).page (ctx.blkOffset.getD j 0 / mtd.writesize) = _
    refine (Function.update_self ..).trans ?_
    rw [show mtd.page (ctx.blkOffset.getD j 0 / mtd.writesize) = _ from erased]
    exact zipWith_erased size

end Written

/-! ### Streams -/

/-- The bytes are in the numbered pages from `p` on. -/
def Stored (ctx : IpanicData) (mtd : Mtd) (p : Nat) (xs : List Byte) : Prop :=
  ∀ i < pagesOf mtd.writesize xs.length, block ctx mtd (p + i) =
    ipanicBlockScramble (pad mtd.writesize ((xs.drop (i * mtd.writesize)).take mtd.writesize))

section Streams

variable {ctx : IpanicData} {mtd mtd' : Mtd} {p : Nat} {xs : List Byte}

theorem Mtd.writesize_pos : 0 < mtd.writesize := Nat.two_pow_pos _

theorem stored_nil : Stored ctx mtd p [] := by
  intro i low
  rw [length_nil, pagesOf_zero Mtd.writesize_pos] at low
  exact absurd low (Nat.not_lt_zero i)

/-- The first page and the rest. -/
theorem stored_of_first (some : 0 < xs.length)
    (first : block ctx mtd p = ipanicBlockScramble (pad mtd.writesize (xs.take mtd.writesize)))
    (rest : Stored ctx mtd (p + 1) (xs.drop mtd.writesize)) : Stored ctx mtd p xs := by
  intro i low
  cases i with
  | zero =>
    rw [Nat.add_zero, Nat.zero_mul, drop_zero]
    exact first
  | succ i =>
    rw [pagesOf_pos Mtd.writesize_pos some] at low
    have later := rest i (by rw [length_drop]; omega)
    rw [drop_drop, Nat.add_assoc, Nat.add_comm 1 i] at later
    rw [later, Nat.succ_mul, Nat.add_comm mtd.writesize]

theorem Stored.first (stored : Stored ctx mtd p xs) (some : 0 < xs.length) :
    block ctx mtd p = ipanicBlockScramble (pad mtd.writesize (xs.take mtd.writesize)) := by
  have here := stored 0 (by
    rw [pagesOf_pos Mtd.writesize_pos some]
    exact Nat.succ_pos _)
  rwa [Nat.add_zero, Nat.zero_mul, drop_zero] at here

theorem Stored.later (stored : Stored ctx mtd p xs) (some : 0 < xs.length) :
    Stored ctx mtd (p + 1) (xs.drop mtd.writesize) := by
  intro i low
  have here := stored (i + 1) (by
    rw [pagesOf_pos Mtd.writesize_pos some]
    rw [length_drop] at low
    omega)
  rw [drop_drop, Nat.add_assoc, Nat.add_comm 1 i, here, Nat.succ_mul, Nat.add_comm mtd.writesize]

/-- Later writes to other pages leave a stream as it is. -/
theorem Stored.frame {low high : Nat} (stored : Stored ctx mtd p xs)
    (written : Written ctx mtd mtd' low high)
    (inside : p + pagesOf mtd.writesize xs.length ≤ blockCount)
    (apart : p + pagesOf mtd.writesize xs.length ≤ low ∨ high ≤ p) : Stored ctx mtd' p xs := by
  intro i below
  rw [written.writesize] at below ⊢
  rw [written.rest (p + i) (by omega) (by omega)]
  exact stored i below

/-- What is stored is read back. -/
theorem ipanicBlockRead_stored {rounds : Nat} (enough : xs.length ≤ rounds)
    (inside : p + pagesOf mtd.writesize xs.length ≤ blockCount) (stored : Stored ctx mtd p xs) :
    ipanicBlockRead ctx mtd rounds (p * mtd.writesize) xs.length = some xs := by
  have positive := @Mtd.writesize_pos mtd
  induction rounds generalizing p xs with
  | zero =>
    obtain rfl := length_eq_zero_iff.mp (Nat.le_zero.mp enough)
    rfl
  | succ rounds ih =>
    rw [ipanicBlockRead]
    rcases Nat.eq_zero_or_pos xs.length with none | some
    · rw [if_pos none, length_eq_zero_iff.mp none]
    rw [if_neg some.ne']
    rw [pagesOf_pos positive some] at inside
    have index : p * mtd.writesize / mtd.writesize = p := Nat.mul_div_cancel p positive
    have start : p * mtd.writesize % mtd.writesize = 0 := Nat.mul_mod_left ..
    have here : p < blockCount := by omega
    simp only [index, start, ipanicBlockReadSingle, if_pos here, Nat.sub_zero, drop_zero]
    have bounce := stored.first some
    rw [block] at bounce
    rw [bounce, scramble_scramble]
    have taken : (pad mtd.writesize (xs.take mtd.writesize)).take
        (min xs.length mtd.writesize) = xs.take mtd.writesize := by
      rw [pad, Nat.min_comm, ← length_take, take_left]
    have rest : ipanicBlockRead ctx mtd rounds ((p + 1) * mtd.writesize)
        (xs.drop mtd.writesize).length = .some (xs.drop mtd.writesize) :=
      ih (by rw [length_drop]; omega) (by rw [length_drop]; omega) (stored.later some)
    rw [length_drop] at rest
    rw [taken]
    rcases Nat.le_total xs.length mtd.writesize with last | more
    · -- the offset does not matter when nothing is left to read
      rw [Nat.min_eq_left last, Nat.sub_self, take_of_length_le last]
      cases rounds with
      | zero | succ => simp [ipanicBlockRead]
    · rw [Nat.min_eq_right more, show p * mtd.writesize + mtd.writesize = (p + 1) * mtd.writesize
        from (Nat.succ_mul ..).symm, rest, Option.map_some, take_append_drop]

/-- The rest behind the first page. -/
theorem drop_length_take (w : Nat) : xs.drop (xs.take w).length = xs.drop w := by
  simp [drop_eq_drop_iff]

/-- The first page of a stream is written, and then the rest. -/
theorem Written.stored_cons {mtd₁ mtd₂ : Mtd} (some : 0 < xs.length)
    (inside : p + pagesOf mtd.writesize xs.length ≤ blockCount)
    (first : Written ctx mtd mtd₁ p (p + 1))
    (page : block ctx mtd₁ p = ipanicBlockScramble (pad mtd.writesize (xs.take mtd.writesize)))
    (second : Written ctx mtd₁ mtd₂ (p + 1)
      (p + 1 + pagesOf mtd.writesize (xs.drop mtd.writesize).length))
    (rest : Stored ctx mtd₂ (p + 1) (xs.drop mtd.writesize)) :
    Stored ctx mtd₂ p xs ∧ Written ctx mtd mtd₂ p (p + pagesOf mtd.writesize xs.length) := by
  have pages := pagesOf_pos (@Mtd.writesize_pos mtd) some
  have size : mtd₂.writesize = mtd.writesize := second.writesize.trans first.writesize
  constructor
  · refine stored_of_first some ?_ (size.symm ▸ rest)
    rw [size, second.rest p (by omega) (.inl (Nat.lt_succ_self p))]
    exact page
  · rw [pages, ← Nat.add_assoc, Nat.add_right_comm]
    rw [List.length_drop] at second
    exact first.trans second (Nat.le_succ p) (Nat.le_add_right _ _)

/-- The loop that writes the oops header. -/
theorem writeHeaderLoop_stored (distinct : Distinct ctx mtd) (works : ∀ q, mtd.writeError q = 0)
    {off rounds wlen : Nat} (enough : xs.length ≤ rounds)
    (here : 0 < xs.length → off + wlen = p * mtd.writesize)
    (inside : p + pagesOf mtd.writesize xs.length ≤ blockCount) (erased : Erased ctx mtd p) :
    ∃ mtd', writeHeaderLoop ctx off rounds xs wlen mtd = (((wlen + xs.length : Nat) : Int), mtd') ∧
      Stored ctx mtd' p xs ∧
      Written ctx mtd mtd' p (p + pagesOf mtd.writesize xs.length) := by
  have positive := @Mtd.writesize_pos mtd
  induction rounds generalizing p xs wlen mtd with
  | zero =>
    obtain rfl := length_eq_zero_iff.mp (Nat.le_zero.mp enough)
    exact ⟨mtd, rfl, stored_nil, .refl⟩
  | succ rounds ih =>
    rw [writeHeaderLoop]
    rcases Nat.eq_zero_or_pos xs.length with none | some
    · obtain rfl := length_eq_zero_iff.mp none
      rw [if_pos rfl]
      exact ⟨mtd, rfl, stored_nil, .refl⟩
    have pages := pagesOf_pos positive some
    rw [if_neg (length_pos_iff.mp some), here some]
    obtain ⟨mtd₁, done, first, page⟩ := ipanicBlockWrite_page distinct works
      (show p < blockCount by omega) (length_take_le mtd.writesize xs)
      (erased p (by omega) (Nat.le_refl p))
    have notFailed : ¬((mtd.writesize : Int) < 0) := by omega
    simp only [done, if_neg notFailed, drop_length_take]
    obtain ⟨mtd₂, finished, rest, second⟩ := @ih mtd₁ (p + 1) (xs.drop mtd.writesize)
      (first.distinct distinct) (fun q => by rw [first.writeError, works])
      (wlen + (xs.take mtd.writesize).length) (by rw [length_drop]; omega)
      (fun more => by
        rw [length_drop] at more
        rw [length_take, Nat.min_eq_left (by omega), first.writesize, Nat.succ_mul,
          ← here some, Nat.add_assoc])
      (by rw [first.writesize, length_drop]; omega)
      (first.erased erased (Nat.le_succ p)) Mtd.writesize_pos
    rw [first.writesize] at second
    obtain ⟨stored, written⟩ := Written.stored_cons some inside first page second rest
    refine ⟨mtd₂, ?_, stored, written⟩
    rw [finished, length_drop, length_take]
    congr 2
    omega

/-! ### The log -/

/-- The bytes of the log from `start` on, up to `stop` or to its end. -/
def logBytes (log : Log) (start stop : BitVec 32) : List Byte :=
  (range (min (log.logEnd - start).toNat (stop - start).toNat)).map
    fun i => log.buf (start + BitVec.ofNat 32 i)

variable {log : Log} {start stop : BitVec 32}

theorem logBytes_length :
    (logBytes log start stop).length = min (log.logEnd - start).toNat (stop - start).toNat := by
  rw [logBytes, length_map, length_range]

theorem logBytes_eq_nil (stops : ¬(start ≠ log.logEnd ∧ start ≠ stop)) :
    logBytes log start stop = [] := by
  refine List.length_eq_zero_iff.mp ?_
  rw [logBytes_length]
  by_cases same : start = log.logEnd
  · rw [← same, BitVec.sub_self]
    rfl
  · have same' : start = stop := by
      by_contra differs
      exact stops ⟨same, differs⟩
    rw [← same', BitVec.sub_self]
    exact Nat.min_zero _

theorem logBytes_cons (more : start ≠ log.logEnd ∧ start ≠ stop) :
    logBytes log start stop = log.buf start :: logBytes log (start + 1) stop := by
  obtain ⟨notEnd, notStop⟩ := more
  have one : min (log.logEnd - start).toNat (stop - start).toNat =
      min (log.logEnd - (start + 1)).toNat (stop - (start + 1)).toNat + 1 := by
    have first : (log.logEnd - start).toNat = (log.logEnd - (start + 1)).toNat + 1 := by bv_omega
    have second : (stop - start).toNat = (stop - (start + 1)).toNat + 1 := by bv_omega
    omega
  rw [logBytes, one, range_succ_eq_map, map_cons, map_map, logBytes]
  congr 1
  · rw [BitVec.add_zero]
  · refine map_congr_left fun i _ => ?_
    rw [Function.comp_apply, Nat.succ_eq_add_one, BitVec.ofNat_add, BitVec.add_assoc,
      BitVec.add_comm (BitVec.ofNat 32 i)]
    rfl

theorem logBufCopy2_eq (n : Nat) :
    logBufCopy2 log stop n start = (logBytes log start stop).take n := by
  induction n generalizing start with
  | zero => rw [List.take_zero, logBufCopy2]
  | succ n ih =>
    rw [logBufCopy2]
    split
    case isTrue more => rw [logBytes_cons more, List.take_succ_cons, ih]
    case isFalse stops => rw [logBytes_eq_nil stops, List.take_nil]

theorem logBytes_drop {n : Nat} (le : n ≤ (logBytes log start stop).length) :
    logBytes log (start + BitVec.ofNat 32 n) stop = (logBytes log start stop).drop n := by
  induction n generalizing start with
  | zero => rw [BitVec.add_zero, List.drop_zero]
  | succ n ih =>
    by_cases more : start ≠ log.logEnd ∧ start ≠ stop
    · rw [logBytes_cons more, List.length_cons] at le
      rw [logBytes_cons more, List.drop_succ_cons, ← ih (Nat.le_of_succ_le_succ le),
        BitVec.add_assoc, Nat.add_comm n 1, BitVec.ofNat_add]
      rfl
    · rw [logBytes_eq_nil more] at le
      exact absurd le (Nat.not_succ_le_zero n)

/-- The loop that writes a part of the log. -/
theorem writeLogLoop_stored (distinct : Distinct ctx mtd) (works : ∀ q, mtd.writeError q = 0)
    {rounds count : Nat} (same : logBytes log start stop = xs)
    (enough : pagesOf mtd.writesize xs.length < rounds)
    (inside : p + pagesOf mtd.writesize xs.length ≤ blockCount) (erased : Erased ctx mtd p) :
    ∃ mtd', writeLogLoop log ctx stop rounds (p * mtd.writesize) start count mtd =
        (((count + xs.length : Nat) : Int), mtd') ∧
      Stored ctx mtd' p xs ∧
      Written ctx mtd mtd' p (p + pagesOf mtd.writesize xs.length) := by
  induction rounds generalizing p xs start count mtd with
  | zero => exact absurd enough (Nat.not_lt_zero _)
  | succ rounds ih =>
    have positive := @Mtd.writesize_pos mtd
    rw [writeLogLoop]
    simp only [logBufCopy2_eq, same]
    rcases Nat.eq_zero_or_pos xs.length with none | some
    · obtain rfl := length_eq_zero_iff.mp none
      rw [take_nil, length_nil, if_pos rfl]
      exact ⟨mtd, rfl, stored_nil, .refl⟩
    have pages := pagesOf_pos positive some
    have chunk : (xs.take mtd.writesize).length ≠ 0 := by
      rw [length_take]
      omega
    obtain ⟨mtd₁, done, first, page⟩ := ipanicBlockWrite_page distinct works
      (show p < blockCount by omega) (length_take_le mtd.writesize xs)
      (erased p (by omega) (Nat.le_refl p))
    have notFailed : ¬((mtd.writesize : Int) ≤ 0) := by omega
    simp only [done, if_neg chunk, if_neg notFailed, first.writesize, ne_eq, ite_not,
      Int.toNat_natCast]
    by_cases full : (xs.take mtd.writesize).length = mtd.writesize
    · rw [if_pos full]
      have more : mtd.writesize ≤ xs.length := by
        rw [length_take] at full
        omega
      have next : logBytes log (start + BitVec.ofNat 32 (xs.take mtd.writesize).length) stop =
          xs.drop mtd.writesize := by
        rw [full, logBytes_drop (same ▸ more), same]
      obtain ⟨mtd₂, finished, rest, second⟩ := @ih mtd₁ (p + 1) (xs.drop mtd.writesize) _
        (first.distinct distinct) (fun q => by rw [first.writeError, works])
        (count + (xs.take mtd.writesize).length) next
        (by rw [first.writesize, length_drop]; omega)
        (by rw [first.writesize, length_drop]; omega)
        (first.erased erased (Nat.le_succ p))
      rw [first.writesize] at second finished
      obtain ⟨stored, written⟩ := Written.stored_cons some inside first page second rest
      refine ⟨mtd₂, ?_, stored, written⟩
      rw [← Nat.succ_mul, finished, length_drop, full]
      congr 2
      omega
    · have last : xs.length < mtd.writesize := by
        rw [length_take] at full
        omega
      have drops : xs.drop mtd.writesize = [] := drop_of_length_le last.le
      rw [if_neg full]
      obtain ⟨stored, written⟩ := Written.stored_cons some inside first page .refl
        (drops ▸ stored_nil)
      exact ⟨mtd₁, by rw [take_of_length_le last.le], stored, written⟩

end Streams

end AndroidKernel.Ipanic
