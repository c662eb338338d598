import AndroidKernel.Logger.Writers

/-!
The lost-log warning of the logger.

`log->sign` counts the bytes written and `reader->sign` those that a reader has got beyond; the
warning is due when they are `size` bytes apart. The warning is copied whatever the length of the
reader's buffer; every other read stays within it (`read_within_count`).
-/

namespace AndroidKernel.Logger

open Lib

/-- What a read returns when it is not negative. -/
def Answer.returned : Answer → Nat
  | .ret value => value
  | .entry bytes | .warning bytes => bytes.length
  | .err _ | .waits => 0

/-- How many bytes a read copies to the user, unless it meets a fault on the way. -/
def readLength (log : LoggerLog) (reader : LoggerReader) (count : Nat) : Nat :=
  if log.wOff = reader.rOff then 0
  else if isOverflow (BitVec.ofNat 32 log.size.bytes) log.sign reader.sign then
    (overflowMessage (log.sign - reader.sign).toInt).length
  else if count < getEntryLen log reader.rOff then 0
  else getEntryLen log reader.rOff

/-- There is something to read, the warning is due, and it is longer than the buffer. -/
def WarningTooLong (log : LoggerLog) (reader : LoggerReader) (count : Nat) : Prop :=
  log.wOff ≠ reader.rOff ∧
    isOverflow (BitVec.ofNat 32 log.size.bytes) log.sign reader.sign = true ∧
    count < (overflowMessage (log.sign - reader.sign).toInt).length

section Read

variable {log : LoggerLog} {reader : LoggerReader} {nonblock signal : Bool} {count writable : Nat}

/-- The two copies of an entry meet a fault when the entry does not fit into what can be written. -/
theorem doReadLogToUser_returned : (doReadLogToUser log reader writable count).1.returned =
    if writable < count then 0 else count := by
  unfold doReadLogToUser
  dsimp only
  split
  case isTrue short => rw [if_pos (short.trans_le (Nat.min_le_left ..)), Answer.returned]
  split
  case isTrue short => rw [if_pos short.2, Answer.returned]
  case isFalse =>
    simp only [Answer.returned, List.length_append, List.length_map, List.length_range]
    split <;> omega

/-- What a read returns is what it copies. -/
theorem loggerRead_returned : (loggerRead log reader nonblock signal count writable).1.returned =
    if writable < readLength log reader count then 0 else readLength log reader count := by
  unfold readLength loggerRead
  split
  case isTrue =>
    rw [ite_self]
    split_ifs <;> rfl
  split
  case isTrue =>
    unfold warnOverflow
    dsimp only
    split <;> rfl
  case isFalse =>
    dsimp only
    split
    case isTrue => rw [ite_self, Answer.returned]
    case isFalse => exact doReadLogToUser_returned

theorem loggerRead_einval
    (refused : (loggerRead log reader nonblock signal count writable).1 = .err .einval) :
    (loggerRead log reader nonblock signal count writable).2 = reader := by
  unfold loggerRead warnOverflow doReadLogToUser at refused ⊢
  dsimp only at refused ⊢
  split_ifs at refused ⊢ <;> rfl

theorem readLength_le_iff : readLength log reader count ≤ count ↔ ¬WarningTooLong log reader count := by
  unfold readLength WarningTooLong
  split_ifs <;> grind

end Read

/-- A read stays within the buffer of its caller exactly when no warning is due that does not fit;
a read that is refused leaves the reader where it is. -/
theorem read_within_count (log : LoggerLog) (reader : LoggerReader) (nonblock signal : Bool)
    (count writable : Nat) :
    (readLength log reader count ≤ count ∧
      (loggerRead log reader nonblock signal count writable).1.returned ≤ count ∧
      ((loggerRead log reader nonblock signal count writable).1 = .err .einval →
        (loggerRead log reader nonblock signal count writable).2 = reader)) ↔
    ¬WarningTooLong log reader count := by
  rw [← readLength_le_iff, loggerRead_returned]
  refine ⟨And.left, fun short => ⟨short, ?_, loggerRead_einval⟩⟩
  split
  · exact Nat.zero_le count
  · exact short

/-- Four entries of the greatest length go round a log of 16 KiB. -/
def goRound : List Call :=
  .open 1 true true :: List.replicate 4 (.write (writeOf 4076 65))

/-- A reader that has been overtaken reads one byte and gets the warning. -/
theorem warning_beyond_count :
    ((Call.read 1 true false 1 4096).step (answers Call.step goRound (newLog smallest)).2).1.returned
      = 80 := by
  decide +kernel

end AndroidKernel.Logger
