import AndroidKernel.Lib.Ring

/-!
The Android logger (`drivers/staging/android/logger.c`): a log as a ring of
entries in a buffer of a power-of-two size.

A log is its buffer, the offsets `w_off` and `head`, and its open readers. User
memory enters through the system calls' arguments: an `IoVec` gives the bytes
of one segment and how many of them can be read before a fault, and a read
gives how many bytes of its buffer can be written. Offsets are natural numbers;
they stay below the size, so `size_t` never wraps. The two `sign` counters of
the lost-log warning are 32-bit `long`s and do wrap.
-/

namespace AndroidKernel.Logger

open Lib

/-- The size of a log: `DEFINE_LOGGER_DEVICE` takes a power of two, here of at
least 16 KiB. -/
structure LogSize where
  bits : Nat
  big : 14 ≤ bits

def LogSize.bytes (size : LogSize) : Nat := 2 ^ size.bits

/-- `struct logger_reader`, with the file it is the private data of. -/
structure LoggerReader where
  file : Nat
  rOff : Nat
  sign : BitVec 32

/-- `struct logger_log`. -/
structure LoggerLog where
  size : LogSize
  buffer : Nat → UInt8
  readers : List LoggerReader
  wOff : Nat
  head : Nat
  sign : BitVec 32

/-- A log as `DEFINE_LOGGER_DEVICE` sets it up. -/
def newLog (size : LogSize) : LoggerLog where
  size := size
  buffer := fun _ => 0
  readers := []
  wOff := 0
  head := 0
  sign := 0

/-- `sizeof(struct logger_entry)`. -/
def loggerEntrySize : Nat := 20

/-- `LOGGER_ENTRY_MAX_LEN`. -/
def loggerEntryMaxLen : Nat := 4 * 1024

/-- `LOGGER_ENTRY_MAX_PAYLOAD`. -/
def loggerEntryMaxPayload : Nat := loggerEntryMaxLen - loggerEntrySize

inductive Errno where
  | eagain | eintr | einval | efault | enomem | ebadf | enotty
  deriving DecidableEq, Repr

def loggerOffset (log : LoggerLog) (n : Nat) : Nat := n &&& (log.size.bytes - 1)

/-! ### Reading -/

/-- The length of the entry at `off`, header included. Its 16-bit field may be
split by the end of the buffer. -/
def getEntryLen (log : LoggerLog) (off : Nat) : Nat :=
  let high := if log.size.bytes - off = 1 then log.buffer 0 else log.buffer (off + 1)
  loggerEntrySize + ((log.buffer off).toNat + 256 * high.toNat)

/-- What a system call hands back. -/
inductive Answer where
  /-- a return value that is not negative -/
  | ret (value : Nat)
  | err (e : Errno)
  /-- bytes copied from the log to a reader -/
  | entry (bytes : List UInt8)
  /-- the lost-log warning, which is in no log -/
  | warning (bytes : List UInt8)
  /-- the call sleeps and has not returned -/
  | waits
  deriving DecidableEq

/-- `do_read_log_to_user`, into a buffer of which `writable` bytes can be
written. -/
def doReadLogToUser (log : LoggerLog) (reader : LoggerReader) (writable count : Nat) :
    Answer × LoggerReader :=
  let len := min count (log.size.bytes - reader.rOff)
  if writable < len then (.err .efault, reader)
  else if count ≠ len ∧ writable < count then (.err .efault, reader)
  else
    (.entry ((List.range len).map (fun i => log.buffer (reader.rOff + i)) ++
        (List.range (count - len)).map log.buffer),
      { reader with
        rOff := loggerOffset log (reader.rOff + count)
        sign := reader.sign + BitVec.ofNat 32 count })

def isOverflow (size cw lw : BitVec 32) : Bool := BitVec.sle size (cw - lw)

/-- The `sign` of a reader at `off`, counted back from the log's. -/
def signAt (size : Nat) (logSign : BitVec 32) (off : Nat) : BitVec 32 :=
  let size := BitVec.ofNat 32 size
  let sign := logSign - logSign % size + BitVec.ofNat 32 off
  if BitVec.slt logSign sign then sign - size else sign

def asciiBytes (text : String) : List UInt8 := text.toList.map fun c => UInt8.ofNat c.toNat

/-- The message of `warn_overflow`: a header for the payload, the payload's
priority and tag, and the text. -/
def overflowMessage (lost : Int) : List UInt8 :=
  let text := asciiBytes
    ("some logs might have been lost (" ++ toString lost ++ " bytes estimated)")
  UInt8.ofNat (text.length + 6) :: List.replicate 19 0 ++ [5] ++ asciiBytes "AEE" ++ [0] ++ text ++
    [0]

/-- `warn_overflow`. The length of the caller's buffer is not looked at. -/
def warnOverflow (log : LoggerLog) (reader : LoggerReader) (writable : Nat) :
    Answer × LoggerReader :=
  let message := overflowMessage (log.sign - reader.sign).toInt
  if writable < message.length then (.err .efault, reader)
  else (.warning message, { reader with sign := signAt log.size.bytes log.sign reader.rOff })

/-- `logger_read`. The wait loop looks at the log under the mutex, and so does
the part that follows it; the part in between has no effect, and when another
call comes there and leaves nothing to read the call starts over. -/
def loggerRead (log : LoggerLog) (reader : LoggerReader) (nonblock signal : Bool)
    (count writable : Nat) : Answer × LoggerReader :=
  if log.wOff = reader.rOff then
    if nonblock then (.err .eagain, reader)
    else if signal then (.err .eintr, reader)
    else (.waits, reader)
  else if isOverflow (BitVec.ofNat 32 log.size.bytes) log.sign reader.sign then
    warnOverflow log reader writable
  else
    let ret := getEntryLen log reader.rOff
    if count < ret then (.err .einval, reader)
    else doReadLogToUser log reader writable ret

/-! ### Writing -/

/-- The `do … while` of `get_next_entry`. -/
def getNextEntryLoop (log : LoggerLog) (len : Nat) : Nat → Nat → Nat → Nat
  | 0, off, _ => off
  | fuel + 1, off, count =>
    let nr := getEntryLen log off
    let off := loggerOffset log (off + nr)
    let count := count + nr
    if count < len then getNextEntryLoop log len fuel off count else off

/-- `get_next_entry`. An entry has at least one byte, so the loop ends within
`len + 1` rounds. -/
def getNextEntry (log : LoggerLog) (off len : Nat) : Nat := getNextEntryLoop log len (len + 1) off 0

def clockInterval (a b c : Nat) : Bool :=
  if b < a then a < c || c ≤ b else a < c && c ≤ b

/-- What `fix_up_readers` does to the start head and to each reader. -/
def fixUp (log : LoggerLog) (len off : Nat) : Nat :=
  let old := log.wOff
  let new := loggerOffset log (old + len)
  if clockInterval old new off then getNextEntry log off len else off

def fixUpReaders (log : LoggerLog) (len : Nat) : LoggerLog :=
  { log with
    head := fixUp log len log.head
    readers := log.readers.map fun reader => { reader with rOff := fixUp log len reader.rOff } }

/-- `do_write_log`. -/
def doWriteLog (log : LoggerLog) (buf : Nat → UInt8) (count : Nat) : LoggerLog :=
  let len := min count (log.size.bytes - log.wOff)
  let buffer := blit log.buffer log.wOff buf len
  let buffer := if count ≠ len then blit buffer 0 (fun i => buf (len + i)) (count - len) else buffer
  { log with
    buffer := buffer
    wOff := loggerOffset log (log.wOff + count)
    sign := log.sign + BitVec.ofNat 32 count }

/-- A segment of user memory: its bytes, and how many can be read before the
first fault. -/
structure IoVec where
  iovLen : Nat
  base : Nat → UInt8
  readable : Nat

/-- What `copy_from_user` of `base + start` leaves at the destination: after a
fault the rest is cleared. -/
def IoVec.copied (v : IoVec) (start : Nat) : Nat → UInt8 :=
  fun i => if start + i < v.readable then v.base (start + i) else 0

/-- `copy_from_user` of `n` bytes at `base + start` meets a fault. -/
def IoVec.faults (v : IoVec) (start n : Nat) : Bool := v.readable < start + n

/-- `do_write_log_from_user`; `false` is `-EFAULT`. -/
def doWriteLogFromUser (log : LoggerLog) (v : IoVec) (count : Nat) : Bool × LoggerLog :=
  let len := min count (log.size.bytes - log.wOff)
  let first :=
    if len ≠ 0 then { log with buffer := blit log.buffer log.wOff (v.copied 0) len } else log
  if len ≠ 0 && v.faults 0 len then (false, first)
  else
    let second :=
      if count ≠ len then
        { first with buffer := blit first.buffer 0 (v.copied len) (count - len) }
      else first
    if count ≠ len && v.faults len (count - len) then (false, second)
    else
      (true, { second with
        wOff := loggerOffset log (log.wOff + count)
        sign := log.sign + BitVec.ofNat 32 count })

/-- The arguments of a `logger_aio_write`, with what the caller's task and the
clock give its header. `pad` is whatever the stack held. -/
structure WriteRequest where
  iov : List IoVec
  pid : BitVec 32
  tid : BitVec 32
  sec : BitVec 32
  nsec : BitVec 32
  pad : BitVec 16

/-- `iocb->ki_left`. -/
def WriteRequest.kiLeft (req : WriteRequest) : Nat := (req.iov.map IoVec.iovLen).sum

/-- `header.len`. -/
def WriteRequest.len (req : WriteRequest) : Nat := min req.kiLeft loggerEntryMaxPayload

/-- Byte `i` of a number, the lowest first. -/
def byteOf (value i : Nat) : UInt8 := UInt8.ofNat (value / 256 ^ i)

/-- The bytes of a number that takes `n` of them. -/
def bytesOf (value n : Nat) : List UInt8 := (List.range n).map (byteOf value)

/-- The bytes of the `struct logger_entry`. -/
def WriteRequest.header (req : WriteRequest) : List UInt8 :=
  bytesOf req.len 2 ++ bytesOf req.pad.toNat 2 ++ bytesOf req.pid.toNat 4 ++
    bytesOf req.tid.toNat 4 ++ bytesOf req.sec.toNat 4 ++ bytesOf req.nsec.toNat 4

/-- The loop over the segments, with `ret` bytes of the payload written;
`none` is `-EFAULT`. -/
def writeSegments (headerLen : Nat) : List IoVec → Nat → LoggerLog → Option Nat × LoggerLog
  | [], ret, log => (some ret, log)
  | v :: iov, ret, log =>
    let len := min v.iovLen (headerLen - ret)
    match doWriteLogFromUser log v len with
    | (false, log') => (none, log')
    | (true, log') => writeSegments headerLen iov (ret + len) log'

/-- The part of `logger_aio_write` that follows the read of `w_off` into
`orig`; from the write of the header on it holds the mutex. -/
def aioWriteBody (log : LoggerLog) (orig : Nat) (req : WriteRequest) : Answer × LoggerLog :=
  if req.len = 0 then (.ret 0, log)
  else
    let fixed := fixUpReaders log (loggerEntrySize + req.len)
    let started := doWriteLog fixed (fun i => req.header.getD i 0) loggerEntrySize
    match writeSegments req.len req.iov 0 started with
    | (some ret, log') => (.ret ret, log')
    | (none, log') => (.err .efault, { log' with wOff := orig })

/-- `logger_aio_write` of a writer that no other comes in between of. -/
def loggerAioWrite (log : LoggerLog) (req : WriteRequest) : Answer × LoggerLog :=
  aioWriteBody log log.wOff req

/-! ### The other file operations -/

/-- `logger_open` for reading; for writing it does nothing to the log. -/
def loggerOpen (log : LoggerLog) (file : Nat) (reading allocated : Bool) : Answer × LoggerLog :=
  if reading then
    if allocated then
      (.ret 0, { log with
        readers := log.readers ++
          [{ file := file, rOff := log.head, sign := signAt log.size.bytes log.sign log.head }] })
    else (.err .enomem, log)
  else (.ret 0, log)

/-- `logger_release`. -/
def loggerRelease (log : LoggerLog) (file : Nat) : Answer × LoggerLog :=
  (.ret 0, { log with readers := log.readers.filter fun reader => reader.file ≠ file })

inductive IoctlCmd where
  | getLogBufSize | getLogLen | getNextEntryLen | flushLog | other
  deriving DecidableEq, Repr

/-- `logger_ioctl`; `reader` is there when the file is open for reading. -/
def loggerIoctl (log : LoggerLog) (cmd : IoctlCmd) (reader : Option LoggerReader)
    (writing : Bool) : Answer × LoggerLog :=
  match cmd, reader with
  | .getLogBufSize, _ => (.ret log.size.bytes, log)
  | .getLogLen, none => (.err .ebadf, log)
  | .getLogLen, some reader =>
    if reader.rOff ≤ log.wOff then (.ret (log.wOff - reader.rOff), log)
    else (.ret (log.size.bytes - reader.rOff + log.wOff), log)
  | .getNextEntryLen, none => (.err .ebadf, log)
  | .getNextEntryLen, some reader =>
    if log.wOff ≠ reader.rOff then (.ret (getEntryLen log reader.rOff), log) else (.ret 0, log)
  | .flushLog, _ =>
    if writing then
      (.ret 0, { log with
        readers := log.readers.map fun reader => { reader with rOff := log.wOff }
        head := log.wOff })
    else (.err .ebadf, log)
  | .other, _ => (.err .enotty, log)

/-! ### Calls -/

/-- The system calls on a log. -/
inductive Call where
  | open (file : Nat) (reading allocated : Bool)
  | read (file : Nat) (nonblock signal : Bool) (count writable : Nat)
  | write (req : WriteRequest)
  | ioctl (file : Nat) (cmd : IoctlCmd) (writing : Bool)
  | release (file : Nat)

def LoggerLog.reader? (log : LoggerLog) (file : Nat) : Option LoggerReader :=
  log.readers.find? fun reader => reader.file = file

/-- Puts back the reader of a file. -/
def setReader (reader : LoggerReader) : List LoggerReader → List LoggerReader
  | [] => []
  | r :: readers =>
    if r.file = reader.file then reader :: readers else r :: setReader reader readers

/-- One call. The kernel answers `-EBADF` for a read of a file that is not open
for reading, and does not use the number of an open file for another. -/
def Call.step (call : Call) (log : LoggerLog) : Answer × LoggerLog :=
  match call with
  | .open file reading allocated =>
    if (log.reader? file).isSome then (.err .ebadf, log)
    else loggerOpen log file reading allocated
  | .read file nonblock signal count writable =>
    match log.reader? file with
    | none => (.err .ebadf, log)
    | some reader =>
      let (answer, reader') := loggerRead log reader nonblock signal count writable
      (answer, { log with readers := setReader reader' log.readers })
  | .write req => loggerAioWrite log req
  | .ioctl file cmd writing => loggerIoctl log cmd (log.reader? file) writing
  | .release file => loggerRelease log file

end AndroidKernel.Logger
