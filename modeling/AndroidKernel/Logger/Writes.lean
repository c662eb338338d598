import AndroidKernel.Logger.Cursors

/-!
A write into the buffer.

From the write offset on, a write fills the buffer byte by byte, header first;
`Writing` says how far it has come. What is further from the write offset than
the length of the new entry keeps its contents, whether the write ends or meets
a fault (`Clobbered`).
-/

namespace AndroidKernel.Logger

open Lib List

variable {base log log' : LoggerLog} {total : Nat} {done : List UInt8}

/-- A log that differs from `base` in its write offset and in the `total` bytes
after it at most. -/
structure Clobbered (base : LoggerLog) (total : Nat) (log : LoggerLog) : Prop where
  size : log.size = base.size
  head : log.head = base.head
  readers : log.readers = base.readers
  buffer : ∀ k, total ≤ k → k < base.size.bytes →
    log.buffer ((base.wOff + k) % base.size.bytes) = base.buffer ((base.wOff + k) % base.size.bytes)

/-- The bytes `done` of the new entry are in the buffer. -/
structure Writing (base : LoggerLog) (total : Nat) (done : List UInt8) (log : LoggerLog) : Prop
    extends Clobbered base total log where
  wOff : log.wOff = (base.wOff + done.length) % base.size.bytes
  holds : RingHolds base.size.bytes log.buffer base.wOff done

theorem Writing.start (inside : base.wOff < base.size.bytes) : Writing base total [] base where
  size := rfl
  head := rfl
  readers := rfl
  buffer := fun _ _ _ => rfl
  wOff := (Nat.mod_eq_of_lt inside).symm
  holds := RingHolds.nil

/-! ### The two copies -/

theorem blit_zero {α : Type} (buf : Nat → α) (off : Nat) (src : Nat → α) :
    blit buf off src 0 = buf := by
  funext i
  exact blit_outside (by omega)

/-- `do_write_log` copies into the circular buffer. -/
theorem doWriteLog_eq (log : LoggerLog) (buf : Nat → UInt8) (count : Nat) :
    doWriteLog log buf count = { log with
      buffer := ringBlit log.size.bytes log.buffer log.wOff buf count
      wOff := loggerOffset log (log.wOff + count)
      sign := log.sign + BitVec.ofNat 32 count } := by
  unfold doWriteLog ringBlit
  by_cases whole : count = min count (log.size.bytes - log.wOff)
  · have rest : count - min count (log.size.bytes - log.wOff) = 0 := by omega
    simp only [ne_eq, if_neg (not_not.mpr whole), rest, blit_zero]
  · simp only [ne_eq, if_pos whole]

theorem IoVec.copied_eq {v : IoVec} {start n i : Nat} (readable : v.faults start n = false)
    (h : i < n) : v.copied start i = v.base (start + i) := by
  unfold IoVec.faults at readable
  simp only [decide_eq_false_iff_not, Nat.not_lt] at readable
  unfold IoVec.copied
  rw [if_pos (by omega)]

/-- The two ways `do_write_log_from_user` can end. -/
theorem doWriteLogFromUser_cases (log : LoggerLog) (v : IoVec) (count : Nat)
    (inside : log.wOff < log.size.bytes) (fits : count ≤ log.size.bytes) :
    ∃ buffer : Nat → UInt8,
      (∀ k, count ≤ k → k < log.size.bytes → buffer ((log.wOff + k) % log.size.bytes) =
        log.buffer ((log.wOff + k) % log.size.bytes)) ∧
      (doWriteLogFromUser log v count = (false, { log with buffer := buffer }) ∨
        doWriteLogFromUser log v count = (true, { log with
          buffer := buffer
          wOff := loggerOffset log (log.wOff + count)
          sign := log.sign + BitVec.ofNat 32 count }) ∧
        ∀ i, i < count → buffer ((log.wOff + i) % log.size.bytes) = v.base i) := by
  have first : ∀ len,
      (if len ≠ 0 then { log with buffer := blit log.buffer log.wOff (v.copied 0) len } else log) =
        { log with buffer := blit log.buffer log.wOff (v.copied 0) len } := by
    intro len
    split
    · rfl
    · rename_i none
      rw [not_not.mp none, blit_zero]
  unfold doWriteLogFromUser
  simp only [first]
  generalize cut : min count (log.size.bytes - log.wOff) = len
  by_cases fault : (len ≠ 0 && v.faults 0 len) = true
  · -- The first copy meets a fault.
    refine ⟨blit log.buffer log.wOff (v.copied 0) len, fun k after before => ?_, .inl ?_⟩
    · rw [mod_eq_wrap inside before.le]
      split <;> rw [blit_outside (by omega)]
    · rw [if_pos fault]
  rw [if_neg fault]
  have front : ∀ i, i < len → v.copied 0 i = v.base i := by
    intro i h
    have readable : v.faults 0 len = false := by
      simp only [Bool.and_eq_true, not_and, Bool.not_eq_true] at fault
      exact fault (decide_eq_true (by omega))
    rw [IoVec.copied_eq readable h, Nat.zero_add]
  by_cases whole : count = len
  · -- The whole segment lies before the end of the buffer.
    subst whole
    refine ⟨blit log.buffer log.wOff (v.copied 0) count, fun k after before => ?_,
      .inr ⟨?_, fun i h => ?_⟩⟩
    · rw [mod_eq_wrap inside before.le]
      split <;> rw [blit_outside (by omega)]
    · simp
    · rw [Nat.mod_eq_of_lt (by omega), blit_inside h, front i h]
  rw [if_pos whole]
  refine ⟨blit (blit log.buffer log.wOff (v.copied 0) len) 0 (v.copied len) (count - len),
    fun k after before => ?_, ?_⟩
  · rw [mod_eq_wrap inside before.le]
    split <;> rw [blit_outside (by omega), blit_outside (by omega)]
  by_cases fault' : (count ≠ len && v.faults len (count - len)) = true
  · rw [if_pos fault']
    exact .inl rfl
  refine .inr ⟨?_, fun i h => ?_⟩
  · rw [if_neg fault']
  have readable : v.faults len (count - len) = false := by
    simp only [Bool.and_eq_true, not_and, Bool.not_eq_true] at fault'
    exact fault' (decide_eq_true whole)
  rw [mod_eq_wrap inside (by omega)]
  split
  · rw [blit_outside (by omega), blit_inside (by omega), front i (by omega)]
  · rw [show log.wOff + i - log.size.bytes = 0 + (i - len) by omega,
      blit_inside (by omega), IoVec.copied_eq readable (by omega)]
    congr 1
    omega

/-! ### Steps of a write -/

section

variable (writing : Writing base total done log)
include writing

/-- Bytes after those already written lie where the write offset has come to. -/
theorem Writing.place (k : Nat) :
    (log.wOff + k) % log.size.bytes = (base.wOff + (done.length + k)) % base.size.bytes := by
  rw [writing.wOff, writing.size, Nat.mod_add_mod, Nat.add_assoc]

theorem Writing.wOff_lt : log.wOff < log.size.bytes := by
  rw [writing.wOff, writing.size]
  exact Nat.mod_lt _ base.size.bytes_pos

/-- A part of the write that met a fault. -/
theorem Writing.clobbered {buffer : Nat → UInt8} {count : Nat} (fits : done.length + count ≤ total)
    (frame : ∀ k, count ≤ k → k < log.size.bytes →
      buffer ((log.wOff + k) % log.size.bytes) = log.buffer ((log.wOff + k) % log.size.bytes)) :
    Clobbered base total { log with buffer := buffer } where
  size := writing.size
  head := writing.head
  readers := writing.readers
  buffer := by
    intro k after before
    have kept := frame (k - done.length) (by omega) (by rw [writing.size]; omega)
    rw [writing.place, Nat.add_sub_cancel' (by omega)] at kept
    exact kept.trans (writing.buffer k after before)

end

/-- More bytes at the write offset. -/
theorem Writing.extend {buffer : Nat → UInt8} {more : List UInt8} (sign : BitVec 32)
    (writing : Writing base total done log) (fits : done.length + more.length ≤ total)
    (total_le : total ≤ base.size.bytes)
    (frame : ∀ k, more.length ≤ k → k < log.size.bytes →
      buffer ((log.wOff + k) % log.size.bytes) = log.buffer ((log.wOff + k) % log.size.bytes))
    (wrote : RingHolds log.size.bytes buffer log.wOff more) :
    Writing base total (done ++ more) { log with
      buffer := buffer
      wOff := loggerOffset log (log.wOff + more.length)
      sign := sign } where
  toClobbered := { writing.clobbered fits frame with }
  wOff := by
    rw [loggerOffset_eq, writing.place, length_append]
  holds := by
    refine RingHolds.append.mpr ⟨writing.holds.congr fun i h => ?_, ?_⟩
    · -- The bytes written before are almost a whole round behind.
      have kept := frame (base.size.bytes - done.length + i) (by omega)
        (by rw [writing.size]; omega)
      rw [writing.place, show base.wOff + (done.length + (base.size.bytes - done.length + i)) =
        base.wOff + i + base.size.bytes by omega, Nat.add_mod_right] at kept
      exact kept
    · rw [← writing.wOff, ← writing.size]
      exact wrote

theorem Writing.doWriteLog {bytes : List UInt8} (writing : Writing base total done log)
    (fits : done.length + bytes.length ≤ total) (total_le : total ≤ base.size.bytes) :
    Writing base total (done ++ bytes) (doWriteLog log (fun i => bytes.getD i 0) bytes.length) := by
  have size := writing.size
  rw [doWriteLog_eq]
  refine writing.extend _ fits total_le (fun k after before => ?_) fun i h => ?_
  · exact ringBlit_outside writing.wOff_lt after before
  · rw [ringBlit_inside writing.wOff_lt (by rw [size]; omega) h]
    simp [h]

/-- The bytes a segment list adds when `room` are left. -/
def segmentBytes : List IoVec → Nat → List UInt8
  | [], _ => []
  | v :: iov, room =>
    (range (min v.iovLen room)).map v.base ++ segmentBytes iov (room - v.iovLen)

theorem segmentBytes_eq (iov : List IoVec) (room : Nat) :
    segmentBytes iov room = (iov.flatMap fun v => (range v.iovLen).map v.base).take room := by
  induction iov generalizing room with
  | nil => simp [segmentBytes]
  | cons v iov ih =>
    rw [segmentBytes, ih, flatMap_cons, take_append, ← map_take, take_range]
    simp [Nat.min_comm]

/-- The loop over the segments. -/
theorem Writing.writeSegments {headerLen ret : Nat} {iov : List IoVec} {answer : Option Nat}
    (writing : Writing base total done log) (ret_le : ret ≤ headerLen)
    (fits : done.length + (headerLen - ret) ≤ total) (total_le : total ≤ base.size.bytes)
    (run : writeSegments headerLen iov ret log = (answer, log')) :
    (answer = none ∧ Clobbered base total log') ∨
      (answer = some (ret + (segmentBytes iov (headerLen - ret)).length) ∧
        Writing base total (done ++ segmentBytes iov (headerLen - ret)) log') := by
  induction iov generalizing ret done log with
  | nil =>
    cases run
    simp only [segmentBytes, append_nil, length_nil, Nat.add_zero, true_and]
    exact .inr writing
  | cons v iov ih =>
    unfold Logger.writeSegments at run
    simp only at run
    generalize count : min v.iovLen (headerLen - ret) = len at run
    obtain ⟨buffer, frame, failed | ⟨ended, wrote⟩⟩ := doWriteLogFromUser_cases log v len
      writing.wOff_lt (by rw [writing.size]; omega)
    · rw [failed] at run
      cases run
      exact .inl ⟨rfl, writing.clobbered (by omega) frame⟩
    rw [ended] at run
    have length : ((range len).map v.base).length = len := by simp
    have next : Writing base total (done ++ (range len).map v.base) _ :=
      writing.extend (log.sign + BitVec.ofNat 32 len) (by omega) total_le
        (by rw [length]; exact frame) (fun i h => by
          rw [wrote i (by omega)]
          simp)
    rw [length] at next
    have rest := ih next (by omega) (by rw [length_append, length]; omega) run
    -- What is left for the later segments.
    have left : headerLen - (ret + len) = headerLen - ret - v.iovLen := by omega
    rw [left, append_assoc] at rest
    have whole : segmentBytes (v :: iov) (headerLen - ret) =
        (range len).map v.base ++ segmentBytes iov (headerLen - ret - v.iovLen) := by
      rw [segmentBytes, count]
    rw [whole, length_append, length, ← Nat.add_assoc]
    exact rest

/-! ### How a write ends -/

theorem doWriteLogFromUser_faults (log : LoggerLog) (v : IoVec) (count : Nat) :
    (doWriteLogFromUser log v count).1 = !decide (v.readable < count) := by
  unfold doWriteLogFromUser IoVec.faults
  generalize cut : min count (log.size.bytes - log.wOff) = len
  by_cases fault : v.readable < len
  · grind
  · grind

theorem doWriteLogFromUser_sign (log : LoggerLog) (v : IoVec) (count : Nat) :
    (doWriteLogFromUser log v count).2.sign =
      log.sign + if v.readable < count then 0 else BitVec.ofNat 32 count := by
  unfold doWriteLogFromUser IoVec.faults
  generalize cut : min count (log.size.bytes - log.wOff) = len
  by_cases fault : v.readable < len
  · grind
  · grind

/-- Whether the segments meet a fault, and how many bytes are counted before it. -/
theorem writeSegments_ends (headerLen : Nat) (iov : List IoVec) (ret : Nat) (log : LoggerLog) :
    ((writeSegments headerLen iov ret log).1 = none ↔ segmentsFault headerLen iov ret = true) ∧
      (writeSegments headerLen iov ret log).2.sign =
        log.sign + BitVec.ofNat 32 (segmentsCopied headerLen iov ret) := by
  induction iov generalizing ret log with
  | nil => simp [writeSegments, segmentsFault, segmentsCopied]
  | cons v iov ih =>
    have outcome := doWriteLogFromUser_faults log v (min v.iovLen (headerLen - ret))
    have sign := doWriteLogFromUser_sign log v (min v.iovLen (headerLen - ret))
    unfold writeSegments segmentsFault segmentsCopied
    simp only [Bool.or_eq_true, decide_eq_true_eq]
    cases wrote : doWriteLogFromUser log v (min v.iovLen (headerLen - ret)) with
    | mk ended log' =>
      rw [wrote] at outcome sign
      by_cases fault : v.readable < min v.iovLen (headerLen - ret)
      · obtain rfl : ended = false := by simpa [fault] using outcome
        simpa [fault] using sign
      · obtain rfl : ended = true := by simpa [fault] using outcome
        obtain ⟨faults, later⟩ := ih (ret + min v.iovLen (headerLen - ret)) log'
        simp only [fault, if_false] at sign
        simp only [fault, false_or, if_false, faults, later, sign, true_and, BitVec.ofNat_add,
          BitVec.add_assoc]

end AndroidKernel.Logger
