import AndroidKernel.Logger.Writes

/-!
The log in the buffer behaves as the specification says.

Each call keeps `Represents` and gets the answer of the specification (`logger_step`), so every run
of system calls is answered as the specification answers it.
-/

namespace AndroidKernel.Logger

open Lib

variable {log log' base : LoggerLog} {spec : LogSpec} {stored : List LogEntry} {off i total : Nat}
  {reader : LoggerReader} {r : SpecReader}

/-! ### Places under a change of the log -/

/-- Readers and head have no part in where the entries lie. -/
theorem Points.congr (points : Points log stored off i) (size : log'.size = log.size)
    (wOff : log'.wOff = log.wOff) (buffer : log'.buffer = log.buffer) :
    Points log' stored off i where
  le := points.le
  off_lt := by rw [size]; exact points.off_lt
  room := by rw [size]; exact points.room
  ends := by rw [size, wOff]; exact points.ends
  holds := by rw [size, buffer]; exact points.holds

section

variable (points : Points base stored off i)
include points

/-- The unread bytes of a place are not among the clobbered ones. -/
theorem Points.holds_clobbered (room : unread stored i + total ≤ base.size.bytes)
    (clobbered : Clobbered base total log) :
    RingHolds base.size.bytes log.buffer off (bytesFrom stored i) := by
  refine points.holds.congr fun j h => ?_
  have inside : j < unread stored i := h
  have kept := clobbered.buffer (base.size.bytes - unread stored i + j) (by omega) (by omega)
  rw [← points.ends, Nat.mod_add_mod,
    show off + unread stored i + (base.size.bytes - unread stored i + j) =
      off + j + base.size.bytes by omega, Nat.add_mod_right] at kept
  exact kept

theorem Points.of_clobbered (room : unread stored i + total < base.size.bytes)
    (clobbered : Clobbered base total log) :
    Points { log with wOff := base.wOff } stored off i where
  le := points.le
  off_lt := by rw [clobbered.size]; exact points.off_lt
  room := by rw [clobbered.size]; exact points.room
  ends := by rw [clobbered.size]; exact points.ends
  holds := by
    have holds := points.holds_clobbered room.le clobbered
    rw [← clobbered.size] at holds
    exact holds

/-- After a whole entry is written, it follows the others. -/
theorem Points.of_writing {entry : LogEntry}
    (room : unread stored i + entry.bytes.length < base.size.bytes)
    (writing : Writing base entry.bytes.length entry.bytes log) :
    Points log (stored ++ [entry]) off i where
  le := by
    rw [List.length_append]
    exact Nat.le_add_right_of_le points.le
  off_lt := by rw [writing.size]; exact points.off_lt
  room := by rw [writing.size, unread_append_singleton points.le]; exact room
  ends := by
    rw [writing.size, writing.wOff, unread_append_singleton points.le, ← points.ends,
      Nat.mod_add_mod, Nat.add_assoc]
  holds := by
    rw [writing.size, bytesFrom_append_singleton points.le]
    refine RingHolds.append.mpr ⟨points.holds_clobbered room.le writing.toClobbered, ?_⟩
    change RingHolds _ _ ((off + unread stored i) % base.size.bytes) _
    rw [points.ends]
    exact writing.holds

end

/-! ### Represented logs -/

/-- A reader of the log and what the specification has of it. -/
structure Paired (log : LoggerLog) (stored : List LogEntry) (reader : LoggerReader)
    (r : SpecReader) : Prop where
  file : reader.file = r.file
  sign : reader.sign = r.seen
  points : Points log stored reader.rOff r.place

theorem Paired.congr (paired : Paired log stored reader r) (size : log'.size = log.size)
    (wOff : log'.wOff = log.wOff) (buffer : log'.buffer = log.buffer) :
    Paired log' stored reader r :=
  ⟨paired.file, paired.sign, paired.points.congr size wOff buffer⟩

theorem Represents.wOff_lt (represents : Represents log spec) : log.wOff < log.size.bytes := by
  rw [represents.wOff]
  exact Nat.mod_lt _ log.size.bytes_pos

theorem Represents.head_points (represents : Represents log spec) :
    Points log spec.stored log.head spec.head :=
  (atPlace_iff represents.wOff_lt).mp represents.head

theorem Represents.paired (represents : Represents log spec) :
    List.Forall₂ (Paired log spec.stored) log.readers spec.readers :=
  represents.readers.imp fun _ _ here =>
    ⟨here.1, here.2.1, (atPlace_iff represents.wOff_lt).mp here.2.2⟩

theorem Represents.of_points (wOff : log.wOff = unread spec.stored 0 % log.size.bytes)
    (sign : log.sign = spec.written) (head : Points log spec.stored log.head spec.head)
    (readers : List.Forall₂ (Paired log spec.stored) log.readers spec.readers) :
    Represents log spec :=
  have wOff_lt : log.wOff < log.size.bytes := wOff ▸ Nat.mod_lt _ log.size.bytes_pos
  { wOff, sign
    head := (atPlace_iff wOff_lt).mpr head
    readers := readers.imp fun _ _ here =>
      ⟨here.file, here.sign, (atPlace_iff wOff_lt).mpr here.points⟩ }

theorem represents_newLog (size : LogSize) : Represents (newLog size) emptySpec := by
  refine .of_points (Nat.zero_mod _).symm rfl
    ⟨le_rfl, size.bytes_pos, size.bytes_pos, ?_, RingHolds.nil⟩ .nil
  exact Nat.mod_eq_of_lt size.bytes_pos

/-- The offset of a place, counted from the first entry. -/
theorem Points.off_eq (points : Points log stored off i)
    (wOff : log.wOff = unread stored 0 % log.size.bytes) :
    off = (unread stored 0 - unread stored i) % log.size.bytes := by
  have before : unread stored i ≤ unread stored 0 := unread_anti (Nat.zero_le i)
  have same : off + unread stored i ≡ unread stored 0 - unread stored i + unread stored i
      [MOD log.size.bytes] := by
    rw [Nat.sub_add_cancel before]
    exact points.ends.trans wOff
  rw [← Nat.mod_eq_of_lt points.off_lt]
  exact same.add_right_cancel'

/-! ### Finding a reader -/

section Readers

variable {readers : List LoggerReader} {places : List SpecReader}
  (paired : List.Forall₂ (Paired log stored) readers places)
include paired

/-- A file's reader in the log and in the specification. -/
theorem find_paired (file : Nat) :
    (readers.find? (fun reader => reader.file = file) = none ∧
        (places.find? fun r => r.file = file) = none) ∨
      ∃ reader r, readers.find? (fun reader => reader.file = file) = some reader ∧
        (places.find? fun r => r.file = file) = some r ∧ Paired log stored reader r := by
  induction paired with
  | nil => exact .inl ⟨rfl, rfl⟩
  | cons here rest ih =>
    rename_i reader r _ _
    by_cases this : reader.file = file
    · have that : r.file = file := here.file ▸ this
      exact .inr ⟨reader, r, by simp [this], by simp [that], here⟩
    · have that : ¬r.file = file := here.file ▸ this
      simpa [this, that] using ih

/-- A reader is put back. -/
theorem paired_setReader (new : Paired log stored reader r) :
    List.Forall₂ (Paired log stored) (setReader reader readers) (setPlace r places) := by
  induction paired with
  | nil => exact .nil
  | cons here rest ih =>
    rename_i old place _ _
    unfold setReader setPlace
    rw [← here.file, ← new.file]
    by_cases same : old.file = reader.file
    · rw [if_pos same, if_pos same]
      exact .cons new rest
    · rw [if_neg same, if_neg same]
      exact .cons here ih

theorem paired_filter (file : Nat) :
    List.Forall₂ (Paired log stored) (readers.filter fun reader => reader.file ≠ file)
      (places.filter fun r => r.file ≠ file) := by
  induction paired with
  | nil => exact .nil
  | cons here rest ih =>
    rename_i reader r _ _
    have file' := here.file
    by_cases this : reader.file = file
    · simpa [this, file' ▸ this] using ih
    · simpa [this, file' ▸ this] using And.intro here ih

end Readers

/-! ### Writes -/

/-- What a write leaves of its two lengths in a buffer of at least 16 KiB. -/
theorem WriteRequest.twice_entry_le (req : WriteRequest) (size : LogSize) :
    2 * req.entry.bytes.length ≤ size.bytes := by
  have short := req.entry.length_le
  have big := size.big_bytes
  unfold loggerEntryMaxLen at short
  omega

/-- A reader whose place leaves room for a new entry of `len` bytes. -/
def Spaced (log : LoggerLog) (stored : List LogEntry) (len : Nat) (reader : LoggerReader)
    (r : SpecReader) : Prop :=
  Paired log stored reader r ∧ unread stored r.place + len < log.size.bytes

/-- After `fix_up_readers` every place leaves room for the new entry. -/
structure Roomy (log : LoggerLog) (spec : LogSpec) (len : Nat) : Prop where
  wOff : log.wOff = unread spec.stored 0 % log.size.bytes
  head : Points log spec.stored log.head spec.head ∧
    unread spec.stored spec.head + len < log.size.bytes
  readers : List.Forall₂ (Spaced log spec.stored len) log.readers spec.readers

theorem Represents.fixUpReaders {len : Nat} (represents : Represents log spec) (some_len : 0 < len)
    (short : 2 * len ≤ log.size.bytes) :
    Roomy (fixUpReaders log len) (spec.pulled log.size.bytes len) len := by
  obtain ⟨head, room⟩ := represents.head_points.fixUp some_len short
  refine ⟨represents.wOff, ⟨head.congr rfl rfl rfl, room⟩, ?_⟩
  unfold Logger.fixUpReaders LogSpec.pulled
  rw [List.forall₂_map_left_iff, List.forall₂_map_right_iff]
  refine represents.paired.imp fun reader r here => ?_
  obtain ⟨points, room⟩ := here.points.fixUp some_len short
  exact ⟨⟨here.file, here.sign, points.congr rfl rfl rfl⟩, room⟩

theorem Roomy.clobbered {len : Nat} (roomy : Roomy base spec len)
    (clobbered : Clobbered base len log) :
    Represents { log with wOff := base.wOff } { spec with written := log.sign } := by
  refine .of_points ?_ rfl ?_ ?_
  · rw [clobbered.size]
    exact roomy.wOff
  · have points := roomy.head.1.of_clobbered roomy.head.2 clobbered
    rw [← clobbered.head] at points
    exact points
  · have readers := roomy.readers
    rw [← clobbered.readers] at readers
    refine readers.imp fun reader r here => ?_
    obtain ⟨⟨file, sign, points⟩, room⟩ := here
    exact ⟨file, sign, points.of_clobbered room clobbered⟩

theorem Roomy.store {entry : LogEntry} (roomy : Roomy base spec entry.bytes.length)
    (writing : Writing base entry.bytes.length entry.bytes log) :
    Represents log { spec with stored := spec.stored ++ [entry], written := log.sign } := by
  refine .of_points ?_ rfl ?_ ?_
  · rw [writing.wOff, writing.size, roomy.wOff, unread_append_singleton (Nat.zero_le _),
      Nat.mod_add_mod]
  · rw [writing.head]
    exact roomy.head.1.of_writing roomy.head.2 writing
  · rw [writing.readers]
    refine roomy.readers.imp fun reader r here => ?_
    obtain ⟨⟨file, sign, points⟩, room⟩ := here
    exact ⟨file, sign, points.of_writing room writing⟩

/-! ### Reads -/

theorem LogEntry.length_le_size (entry : LogEntry) (size : LogSize) :
    entry.bytes.length ≤ size.bytes := by
  have short := entry.length_le
  have big := size.big_bytes
  unfold loggerEntryMaxLen at short
  omega

section

variable (points : Points log stored reader.rOff i)
include points

/-- `do_read_log_to_user` of the entry at a place. Its two copies meet a fault when not all of the
entry can be written. -/
theorem Points.doReadLogToUser (h : i < stored.length) (writable : Nat) :
    doReadLogToUser log reader writable (getEntryLen log reader.rOff) =
      if writable < (stored.get ⟨i, h⟩).bytes.length then (.err .efault, reader)
      else (.entry (stored.get ⟨i, h⟩).bytes, { reader with
        rOff := loggerOffset log (reader.rOff + (stored.get ⟨i, h⟩).bytes.length)
        sign := reader.sign + BitVec.ofNat 32 (stored.get ⟨i, h⟩).bytes.length }) := by
  obtain ⟨holds, length⟩ := points.next_entry h
  rw [length]
  unfold Logger.doReadLogToUser
  simp only
  rw [holds.read points.off_lt (LogEntry.length_le_size _ _)]
  split_ifs <;> first | rfl | omega

/-- `LOGGER_GET_LOG_LEN` answers the number of unread bytes. -/
theorem Points.loggerIoctl_logLen (writing : Bool) :
    loggerIoctl log .getLogLen (some reader) writing = (.ret (unread stored i), log) := by
  have ends := points.ends
  have room := points.room
  have inside := points.off_lt
  rw [mod_eq_wrap inside room.le] at ends
  simp only [loggerIoctl]
  split
  · rw [show log.wOff - reader.rOff = unread stored i by split at ends <;> omega]
  · rw [show log.size.bytes - reader.rOff + log.wOff = unread stored i by
      split at ends <;> omega]

/-- `LOGGER_GET_NEXT_ENTRY_LEN` answers the length of the next entry. -/
theorem Points.loggerIoctl_nextLen (writing : Bool) :
    loggerIoctl log .getNextEntryLen (some reader) writing =
      (.ret ((stored[i]?.map fun entry => entry.bytes.length).getD 0), log) := by
  simp only [loggerIoctl]
  by_cases at_end : i = stored.length
  · rw [if_neg (not_not.mpr (points.eq_wOff_iff.mpr at_end)), at_end]
    simp
  · have h : i < stored.length := Nat.lt_of_le_of_ne points.le at_end
    rw [if_pos (fun same => at_end (points.eq_wOff_iff.mp same)), (points.next_entry h).2]
    simp [h]

end

theorem Points.at_end (inside : log.wOff < log.size.bytes) :
    Points log stored log.wOff stored.length where
  le := le_rfl
  off_lt := inside
  room := by rw [unread_length]; exact log.size.bytes_pos
  ends := by rw [unread_length]; exact Nat.mod_eq_of_lt inside
  holds := by rw [bytesFrom_length]; exact RingHolds.nil

/-! ### Calls -/

/-- The relation between a log of some size and the specification. -/
def Shows (size : LogSize) (log : LoggerLog) (spec : LogSpec) : Prop :=
  log.size = size ∧ Represents log spec

section

variable (represents : Represents log spec)
include represents

theorem Represents.reader? (file : Nat) :
    (log.reader? file = none ∧ spec.reader? file = none) ∨
      ∃ reader r, log.reader? file = some reader ∧ spec.reader? file = some r ∧
        Paired log spec.stored reader r :=
  find_paired represents.paired file

theorem Represents.signAt_eq (points : Points log spec.stored off i) :
    signAt log.size.bytes log.sign off = spec.mark log.size.bytes i := by
  rw [LogSpec.mark, represents.sign, ← points.off_eq represents.wOff]

/-- A read answers and moves as in the specification. -/
theorem Represents.loggerRead (paired : Paired log spec.stored reader r) (nonblock signal : Bool)
    (count writable : Nat) :
    (loggerRead log reader nonblock signal count writable).1 =
        (spec.read log.size.bytes r nonblock signal count writable).1 ∧
      Paired log spec.stored (loggerRead log reader nonblock signal count writable).2
        (spec.read log.size.bytes r nonblock signal count writable).2 := by
  have points := paired.points
  unfold Logger.loggerRead LogSpec.read
  by_cases at_end : r.place = spec.stored.length
  · rw [if_pos (points.eq_wOff_iff.mpr at_end), List.getElem?_eq_none at_end.ge]
    cases nonblock <;> cases signal <;> exact ⟨rfl, paired⟩
  have h : r.place < spec.stored.length := Nat.lt_of_le_of_ne points.le at_end
  rw [if_neg (mt points.eq_wOff_iff.mp at_end), List.getElem?_eq_getElem h, represents.sign,
    paired.sign]
  simp only
  split
  · -- the warning
    unfold warnOverflow
    simp only [represents.sign, paired.sign]
    split
    · exact ⟨rfl, paired⟩
    · refine ⟨rfl, paired.file, ?_, points⟩
      rw [← represents.sign]
      exact represents.signAt_eq points
  rw [points.doReadLogToUser h, (points.next_entry h).2]
  change _ ∧ _
  simp only [List.get_eq_getElem]
  split
  · exact ⟨rfl, paired⟩
  split
  · exact ⟨rfl, paired⟩
  · exact ⟨rfl, paired.file, congrArg (· + _) paired.sign, points.next h⟩

/-- A reader put back, in a log that is otherwise the same. -/
theorem Represents.setReader (new : Paired log spec.stored reader r) :
    Represents { log with readers := setReader reader log.readers }
      { spec with readers := setPlace r spec.readers } :=
  .of_points represents.wOff represents.sign (represents.head_points.congr rfl rfl rfl)
    ((paired_setReader represents.paired new).imp fun _ _ here => here.congr rfl rfl rfl)

theorem Represents.loggerOpen (file : Nat) :
    Represents
      { log with readers := log.readers ++ [⟨file, log.head, signAt log.size.bytes log.sign log.head⟩] }
      { spec with
        readers := spec.readers ++ [⟨file, spec.head, spec.mark log.size.bytes spec.head⟩] } := by
  have head := represents.head_points
  refine .of_points represents.wOff represents.sign (head.congr rfl rfl rfl) ?_
  refine List.rel_append (represents.paired.imp fun _ _ here => here.congr rfl rfl rfl) ?_
  exact .cons ⟨rfl, represents.signAt_eq head, head.congr rfl rfl rfl⟩ .nil

theorem Represents.flush :
    Represents
      { log with
        readers := log.readers.map fun reader => { reader with rOff := log.wOff }
        head := log.wOff }
      spec.flushed := by
  have behind : Points log spec.stored log.wOff spec.stored.length := .at_end represents.wOff_lt
  refine .of_points represents.wOff represents.sign (behind.congr rfl rfl rfl) ?_
  unfold LogSpec.flushed
  rw [List.forall₂_map_left_iff, List.forall₂_map_right_iff]
  exact represents.paired.imp fun _ _ here => ⟨here.file, here.sign, behind.congr rfl rfl rfl⟩

theorem Represents.loggerIoctl (cmd : IoctlCmd) (file : Nat) (writing : Bool) :
    (loggerIoctl log cmd (log.reader? file) writing).1 =
        (spec.ioctl log.size.bytes cmd (spec.reader? file) writing).1 ∧
      Shows log.size (loggerIoctl log cmd (log.reader? file) writing).2
        (spec.ioctl log.size.bytes cmd (spec.reader? file) writing).2 := by
  have same : Shows log.size log spec := ⟨rfl, represents⟩
  have reader := represents.reader? file
  cases cmd with
  | getLogBufSize | other => exact ⟨rfl, same⟩
  | getLogLen =>
    rcases reader with ⟨missing, missing'⟩ | ⟨reader, r, found, found', paired⟩
    · rw [missing, missing']
      exact ⟨rfl, same⟩
    · rw [found, found', paired.points.loggerIoctl_logLen]
      exact ⟨rfl, same⟩
  | getNextEntryLen =>
    rcases reader with ⟨missing, missing'⟩ | ⟨reader, r, found, found', paired⟩
    · rw [missing, missing']
      exact ⟨rfl, same⟩
    · rw [found, found', paired.points.loggerIoctl_nextLen]
      exact ⟨rfl, same⟩
  | flushLog =>
    cases writing with
    | false => exact ⟨rfl, same⟩
    | true => exact ⟨rfl, rfl, represents.flush⟩

/-- The two ways a write that is not null can end: it stores its entry, or it meets a fault and puts
the write offset back. -/
theorem Represents.loggerAioWrite (req : WriteRequest) :
    (loggerAioWrite log req).1 = (spec.write log.size.bytes req).1 ∧
      Shows log.size (loggerAioWrite log req).2 (spec.write log.size.bytes req).2 := by
  unfold Logger.loggerAioWrite Logger.aioWriteBody LogSpec.write
  by_cases null : req.len = 0
  · rw [if_pos null, if_pos null]
    exact ⟨rfl, rfl, represents⟩
  have length := req.entry_length
  have short := req.twice_entry_le log.size
  have roomy := represents.fixUpReaders req.entry.pos short
  have total_le : req.entry.bytes.length ≤
      (Logger.fixUpReaders log req.entry.bytes.length).size.bytes := by
    change _ ≤ log.size.bytes
    omega
  -- The header, then the segments.
  have start : Writing _ req.entry.bytes.length [] _ :=
    .start (roomy.wOff ▸ Nat.mod_lt _ log.size.bytes_pos)
  have fits : ([] : List UInt8).length + req.header.length ≤ req.entry.bytes.length := by
    simp
  have header := start.doWriteLog fits total_le
  rw [List.nil_append, req.header_length] at header
  rw [if_neg null, if_neg null, ← length]
  simp only
  generalize started : doWriteLog (Logger.fixUpReaders log req.entry.bytes.length)
    (fun i => req.header.getD i 0) loggerEntrySize = log₁ at header ⊢
  have counted : log₁.sign = spec.written + BitVec.ofNat 32 loggerEntrySize := by
    rw [← started, ← represents.sign, doWriteLog_eq]
    rfl
  obtain ⟨faults, sign⟩ := writeSegments_ends req.len req.iov 0 log₁
  rw [counted, BitVec.add_assoc, ← BitVec.ofNat_add] at sign
  change _ = _ + req.counted at sign
  rw [← WriteRequest.faults] at faults
  cases run : Logger.writeSegments req.len req.iov 0 log₁ with
  | mk answer log' =>
    have ended := header.writeSegments (Nat.zero_le _)
      (by rw [req.header_length, length]; omega) total_le run
    rw [Nat.sub_zero, Nat.zero_add, segmentBytes_eq] at ended
    change _ ∨ answer = some req.payload.length ∧ Writing _ _ req.entry.bytes log' at ended
    rw [run] at faults sign
    rw [← sign]
    rcases ended with ⟨rfl, clobbered⟩ | ⟨rfl, writing⟩
    · rw [if_pos (faults.mp rfl)]
      exact ⟨rfl, clobbered.size, roomy.clobbered clobbered⟩
    · rw [if_neg fun faulty => nomatch faults.mpr faulty]
      exact ⟨congrArg Answer.ret req.payload_length, writing.size, roomy.store writing⟩

end

/-- Each call on a log answers and does what the specification says. -/
theorem logger_step (size : LogSize) (log : LoggerLog) (spec : LogSpec) (call : Call)
    (shows : Shows size log spec) :
    (call.step log).1 = (specStep size.bytes call spec).1 ∧
      Shows size (call.step log).2 (specStep size.bytes call spec).2 := by
  obtain ⟨rfl, represents⟩ := shows
  cases call with
  | «open» file reading allocated =>
    simp only [Call.step, specStep]
    rcases represents.reader? file with ⟨missing, missing'⟩ | ⟨reader, r, found, found', -⟩
    · rw [missing, missing']
      cases reading with
      | false => exact ⟨rfl, rfl, represents⟩
      | true =>
        cases allocated with
        | false => exact ⟨rfl, rfl, represents⟩
        | true => exact ⟨rfl, rfl, represents.loggerOpen file⟩
    · rw [found, found']
      exact ⟨rfl, rfl, represents⟩
  | read file nonblock signal count writable =>
    simp only [Call.step, specStep]
    rcases represents.reader? file with ⟨missing, missing'⟩ | ⟨reader, r, found, found', paired⟩
    · rw [missing, missing']
      exact ⟨rfl, rfl, represents⟩
    · obtain ⟨answer, paired'⟩ := represents.loggerRead paired nonblock signal count writable
      rw [found, found']
      exact ⟨answer, rfl, represents.setReader paired'⟩
  | write req => exact represents.loggerAioWrite req
  | ioctl file cmd writing => exact represents.loggerIoctl cmd file writing
  | release file =>
    exact ⟨rfl, rfl, .of_points represents.wOff represents.sign
      (represents.head_points.congr rfl rfl rfl) ((paired_filter represents.paired file).imp
        fun _ _ here => here.congr rfl rfl rfl)⟩

end AndroidKernel.Logger
