import AndroidKernel.Lib.Refine
import AndroidKernel.Logger.Log

/-!
What a log is for.

A log is the list of the entries stored in it, oldest first, and for each open reader the place in
that list it reads next. A read hands out the entry at its place and moves on by one, unless it
brings the lost-log warning. A place moves without a read in two cases only: a flush moves every
place behind the last entry, and a write moves the places it *laps*, those with so much unread
behind them that the new entry does not fit into the buffer beside it, on by as many entries as have
its length.
-/

namespace AndroidKernel.Logger

open Lib List

/-- A whole entry: its bytes begin with the length of its payload. -/
structure LogEntry where
  bytes : List UInt8
  length_eq : ∃ lo hi rest, bytes = lo :: hi :: rest ∧
    bytes.length = loggerEntrySize + (lo.toNat + 256 * hi.toNat)
  length_le : bytes.length ≤ loggerEntryMaxLen

namespace LogEntry

variable (entry : LogEntry)

theorem header_le : loggerEntrySize ≤ entry.bytes.length := by
  obtain ⟨lo, hi, rest, -, length⟩ := entry.length_eq
  omega

theorem pos : 0 < entry.bytes.length := by
  have := entry.header_le
  unfold loggerEntrySize at this
  omega

end LogEntry

/-- The bytes of the entries from place `i` on. -/
def bytesFrom (stored : List LogEntry) (i : Nat) : List UInt8 :=
  (stored.drop i).flatMap LogEntry.bytes

/-- How many bytes a reader at place `i` has not read. -/
def unread (stored : List LogEntry) (i : Nat) : Nat := (bytesFrom stored i).length

/-- An open file, with the place it reads next and the count of bytes it has got beyond. -/
structure SpecReader where
  file : Nat
  place : Nat
  seen : BitVec 32

structure LogSpec where
  stored : List LogEntry
  /-- where a new reader starts -/
  head : Nat
  readers : List SpecReader
  /-- the count of bytes written, those of failed writes included -/
  written : BitVec 32

def emptySpec : LogSpec := { stored := [], head := 0, readers := [], written := 0 }

def LogSpec.reader? (spec : LogSpec) (file : Nat) : Option SpecReader :=
  spec.readers.find? fun r => r.file = file

/-- Puts back a reader. -/
def setPlace (r : SpecReader) : List SpecReader → List SpecReader
  | [] => []
  | p :: places => if p.file = r.file then r :: places else p :: setPlace r places

/-- How many entries `get_next_entry` goes over until it has gone over `len` bytes. -/
def passed (len : Nat) : List LogEntry → Nat
  | [] => 0
  | entry :: entries =>
    if entry.bytes.length < len then passed (len - entry.bytes.length) entries + 1 else 1

/-- Where a write of `len` bytes leaves a place. -/
def pull (size len : Nat) (stored : List LogEntry) (i : Nat) : Nat :=
  if unread stored i + len < size then i else i + passed len (stored.drop i)

def LogSpec.pulled (size len : Nat) (spec : LogSpec) : LogSpec :=
  { spec with
    head := pull size len spec.stored spec.head
    readers := spec.readers.map fun r => { r with place := pull size len spec.stored r.place } }

/-- What a reader at place `i` has got beyond when it is opened or warned. -/
def LogSpec.mark (size : Nat) (spec : LogSpec) (i : Nat) : BitVec 32 :=
  signAt size spec.written ((unread spec.stored 0 - unread spec.stored i) % size)

/-! ### The entry of a write -/

/-- The bytes of the segments, as many as an entry takes. -/
def WriteRequest.payload (req : WriteRequest) : List UInt8 :=
  (req.iov.flatMap fun v => (range v.iovLen).map v.base).take req.len

@[simp] theorem bytesOf_length (value n : Nat) : (bytesOf value n).length = n := by
  simp [bytesOf]

variable (req : WriteRequest)

@[simp] theorem WriteRequest.header_length : req.header.length = loggerEntrySize := by
  simp [WriteRequest.header, loggerEntrySize]

theorem WriteRequest.len_le : req.len ≤ loggerEntryMaxPayload :=
  Nat.min_le_right _ _

@[simp] theorem WriteRequest.payload_length : req.payload.length = req.len := by
  have all : (req.iov.flatMap fun v => (range v.iovLen).map v.base).length = req.kiLeft := by
    simp only [length_flatMap, length_map, length_range, WriteRequest.kiLeft]
  unfold WriteRequest.payload
  rw [length_take, all]
  exact Nat.min_eq_left (Nat.min_le_left _ _)

/-- The entry that a write of these segments stores. -/
def WriteRequest.entry (req : WriteRequest) : LogEntry where
  bytes := req.header ++ req.payload
  length_eq := by
    refine ⟨byteOf req.len 0, byteOf req.len 1, _, rfl, ?_⟩
    have bound : req.len < 65536 := by
      have := req.len_le
      unfold loggerEntryMaxPayload loggerEntryMaxLen loggerEntrySize at this
      omega
    have low : (byteOf req.len 0).toNat = req.len % 256 := by simp [byteOf]
    have high : (byteOf req.len 1).toNat = req.len / 256 % 256 := by simp [byteOf]
    rw [length_append, req.header_length, req.payload_length, low, high]
    omega
  length_le := by
    have := req.len_le
    rw [length_append, req.header_length, req.payload_length]
    unfold loggerEntryMaxPayload loggerEntryMaxLen loggerEntrySize at *
    omega

@[simp] theorem WriteRequest.entry_length : req.entry.bytes.length = loggerEntrySize + req.len := by
  simp [WriteRequest.entry]

/-- A segment of which more is kept than can be read. -/
def segmentsFault (headerLen : Nat) : List IoVec → Nat → Bool
  | [], _ => false
  | v :: iov, ret =>
    let len := min v.iovLen (headerLen - ret)
    v.readable < len || segmentsFault headerLen iov (ret + len)

def WriteRequest.faults (req : WriteRequest) : Bool := segmentsFault req.len req.iov 0

/-- The bytes of the segments before such a one. -/
def segmentsCopied (headerLen : Nat) : List IoVec → Nat → Nat
  | [], _ => 0
  | v :: iov, ret =>
    let len := min v.iovLen (headerLen - ret)
    if v.readable < len then 0 else len + segmentsCopied headerLen iov (ret + len)

/-- What a write adds to the count of bytes written. -/
def WriteRequest.counted (req : WriteRequest) : BitVec 32 :=
  BitVec.ofNat 32 (loggerEntrySize + segmentsCopied req.len req.iov 0)

/-! ### Steps -/

section

variable (size : Nat) (spec : LogSpec)

def LogSpec.read (r : SpecReader) (nonblock signal : Bool) (count writable : Nat) :
    Answer × SpecReader :=
  match spec.stored[r.place]? with
  | none => (if nonblock then .err .eagain else if signal then .err .eintr else .waits, r)
  | some entry =>
    if isOverflow (BitVec.ofNat 32 size) spec.written r.seen then
      let message := overflowMessage (spec.written - r.seen).toInt
      if writable < message.length then (.err .efault, r)
      else (.warning message, { r with seen := spec.mark size r.place })
    else if count < entry.bytes.length then (.err .einval, r)
    else if writable < entry.bytes.length then (.err .efault, r)
    else (.entry entry.bytes, { r with
      place := r.place + 1
      seen := r.seen + BitVec.ofNat 32 entry.bytes.length })

def LogSpec.write (req : WriteRequest) : Answer × LogSpec :=
  if req.len = 0 then (.ret 0, spec)
  else
    let after := { spec.pulled size req.entry.bytes.length with
      written := spec.written + req.counted }
    if req.faults then (.err .efault, after)
    else (.ret req.len, { after with stored := spec.stored ++ [req.entry] })

def LogSpec.flushed : LogSpec :=
  { spec with
    head := spec.stored.length
    readers := spec.readers.map fun r => { r with place := spec.stored.length } }

def LogSpec.ioctl (cmd : IoctlCmd) (reader : Option SpecReader) (writing : Bool) :
    Answer × LogSpec :=
  match cmd, reader with
  | .getLogBufSize, _ => (.ret size, spec)
  | .getLogLen, none | .getNextEntryLen, none => (.err .ebadf, spec)
  | .getLogLen, some r => (.ret (unread spec.stored r.place), spec)
  | .getNextEntryLen, some r =>
    (.ret ((spec.stored[r.place]?.map fun entry => entry.bytes.length).getD 0), spec)
  | .flushLog, _ => if writing then (.ret 0, spec.flushed) else (.err .ebadf, spec)
  | .other, _ => (.err .enotty, spec)

end

/-- What a call answers and does; `size` is the size of the buffer. -/
def specStep (size : Nat) (call : Call) (spec : LogSpec) : Answer × LogSpec :=
  match call with
  | .open file reading allocated =>
    if (spec.reader? file).isSome then (.err .ebadf, spec)
    else if reading then
      if allocated then
        (.ret 0, { spec with
          readers := spec.readers ++ [⟨file, spec.head, spec.mark size spec.head⟩] })
      else (.err .enomem, spec)
    else (.ret 0, spec)
  | .read file nonblock signal count writable =>
    match spec.reader? file with
    | none => (.err .ebadf, spec)
    | some r =>
      let (answer, r') := spec.read size r nonblock signal count writable
      (answer, { spec with readers := setPlace r' spec.readers })
  | .write req => spec.write size req
  | .ioctl file cmd writing => spec.ioctl size cmd (spec.reader? file) writing
  | .release file => (.ret 0, { spec with readers := spec.readers.filter fun r => r.file ≠ file })

/-! ### The log in the buffer -/

/-- Following `get_entry_len` from `off` meets exactly these entries, byte for
byte, and ends at `w_off`. -/
def Follows (log : LoggerLog) : Nat → List LogEntry → Prop
  | off, [] => off = log.wOff
  | off, entry :: entries =>
    getEntryLen log off = entry.bytes.length ∧
      RingHolds log.size.bytes log.buffer off entry.bytes ∧
      Follows log (loggerOffset log (off + entry.bytes.length)) entries

/-- The offset `off` is at place `i`: the entries from there on follow, and are
together shorter than the buffer, so that `w_off` is not passed on the way. -/
structure AtPlace (log : LoggerLog) (stored : List LogEntry) (off i : Nat) : Prop where
  le : i ≤ stored.length
  off_lt : off < log.size.bytes
  room : unread stored i < log.size.bytes
  follows : Follows log off (stored.drop i)

/-- The log holds what the specification says. -/
structure Represents (log : LoggerLog) (spec : LogSpec) : Prop where
  wOff : log.wOff = unread spec.stored 0 % log.size.bytes
  sign : log.sign = spec.written
  head : AtPlace log spec.stored log.head spec.head
  readers : List.Forall₂
    (fun reader r => reader.file = r.file ∧ reader.sign = r.seen ∧
      AtPlace log spec.stored reader.rOff r.place)
    log.readers spec.readers

end AndroidKernel.Logger
