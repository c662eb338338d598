import AndroidKernel.Rbtree.Runs

/-!
User wake locks: the files `wake_lock` and `wake_unlock`.

A write names a lock. The locks are in a red-black tree by their names, compared with the
kernel's `strncmp`, and a write to `wake_lock` makes a lock that is not there yet. The memory of
the tree is that of `Rbtree`; beside it stand the names that follow the nodes, and for every
lock which of `wake_lock`, `wake_lock_timeout` and `wake_unlock` was called last. Locks are never
freed. What a write finds in its buffer ends with the first zero byte. An oops is the answer
`none`.
-/

namespace AndroidKernel.UserWakeLock

open Rbtree

abbrev Byte := BitVec 8

/-! ### Characters and numbers -/

/-- `isspace`, by the kernel's table. -/
def isspace (c : Byte) : Bool := (9 ≤ c.toNat && c.toNat ≤ 13) || c = 32 || c = 160

def isdigit (c : Byte) : Bool := 48 ≤ c.toNat && c.toNat ≤ 57

def isxdigit (c : Byte) : Bool :=
  isdigit c || (65 ≤ c.toNat && c.toNat ≤ 70) || (97 ≤ c.toNat && c.toNat ≤ 102)

/-- `TOLOWER`. -/
def tolower (c : Byte) : Byte := c ||| 0x20

/-- `simple_guess_base`. -/
def simpleGuessBase (cp : List Byte) : Nat :=
  if cp.getD 0 0 = 48 then
    if tolower (cp.getD 1 0) = 120 ∧ isxdigit (cp.getD 2 0) = true then 16 else 8
  else 10

/-- The loop of `simple_strtoull`. -/
def strtoullLoop (base : Nat) : List Byte → BitVec 64 → BitVec 64 × List Byte
  | [], result => (result, [])
  | c :: cp, result =>
    let value := if isdigit c then c.toNat - 48 else (tolower c).toNat - 97 + 10
    if isxdigit c = true ∧ value < base then
      strtoullLoop base cp (result * BitVec.ofNat 64 base + BitVec.ofNat 64 value)
    else (result, c :: cp)

/-- `simple_strtoull` with base 0: the number and what follows it. -/
def simpleStrtoull (cp : List Byte) : BitVec 64 × List Byte :=
  let base := simpleGuessBase cp
  let cp := if base = 16 ∧ cp.getD 0 0 = 48 ∧ tolower (cp.getD 1 0) = 120 then cp.drop 2 else cp
  strtoullLoop base cp 0

/-- `strncmp`. The difference of two bytes becomes a `signed char`. -/
def strncmp : Nat → List Byte → List Byte → BitVec 8
  | 0, _, _ => 0
  | count + 1, cs, ct =>
    let res := cs.headD 0 - ct.headD 0
    if res ≠ 0 ∨ cs.headD 0 = 0 then res else strncmp count cs.tail ct.tail

/-! ### What is written -/

/-- The name at the start of a buffer. -/
def nameOf (buf : List Byte) : List Byte := buf.takeWhile fun c => c ≠ 0 && !isspace c

/-- `NSEC_PER_SEC / HZ`. -/
def nsecPerJiffy : BitVec 64 := 10000000

/-- The name and the timeout, or `bad_arg`. -/
def parse (buf : List Byte) (timeoutptr : Bool) : Option (List Byte × BitVec 32) :=
  let name := nameOf buf
  let arg := (buf.drop name.length).dropWhile isspace
  if name = [] then none
  else if timeoutptr = true ∧ arg.getD 0 0 ≠ 0 then
    let (timeout, arg) := simpleStrtoull arg
    if (arg.dropWhile isspace).getD 0 0 ≠ 0 then none
    else
      let timeout := (timeout + (nsecPerJiffy - 1)) / nsecPerJiffy
      let timeout := if timeout = 0 then 1 else timeout
      some (name, timeout.truncate 32)
  else if arg.getD 0 0 ≠ 0 then none
  else some (name, 0)

/-! ### The tree -/

/-- The last call for a wake lock. -/
inductive LockCall where
  | wakeLock
  | wakeLockTimeout (timeout : BitVec 32)
  | wakeUnlock
deriving DecidableEq, Repr

structure State where
  tree : RbState
  name : Ptr → List Byte
  lock : Ptr → LockCall
  /-- The memory that `kzalloc` has given out. -/
  used : List Ptr

def EINVAL : Int := 22
def ENOMEM : Int := 12

/-- The comparison in the loop of `lookup_wake_lock_name`. -/
def compareName (buf : List Byte) (nameLen : Nat) (name : List Byte) : Int :=
  let diff := (strncmp nameLen buf name).toInt
  if diff = 0 ∧ name.getD nameLen 0 ≠ 0 then -1 else diff

inductive Lookup where
  | found (p : Ptr)
  | missing (place : Place)
  | endless
deriving DecidableEq, Repr

/-- The loop of `lookup_wake_lock_name`, from a link on. -/
def lookupLoop (s : State) (buf : List Byte) (nameLen : Nat) : Nat → Ptr → Place → Lookup
  | 0, _, _ => .endless
  | rounds + 1, p, place =>
    if p = null then .missing place
    else
      let diff := compareName buf nameLen (s.name p)
      if diff < 0 then lookupLoop s buf nameLen rounds (s.tree.node p).rbLeft (.child .left p)
      else if 0 < diff then
        lookupLoop s buf nameLen rounds (s.tree.node p).rbRight (.child .right p)
      else .found p

/-- A new lock, linked at its place. -/
def addLock (p : Ptr) (place : Place) (name : List Byte) (s : State) : Option State :=
  match rbLinkNode p place s.tree with
  | .error _ => none
  | .ok (_, tree) =>
    match rbInsertColor p tree with
    | .error _ => none
    | .ok (_, tree) =>
      some { s with tree := tree, name := Function.update s.name p name, used := p :: s.used }

/-- `lookup_wake_lock_name`; `memory` is what `kzalloc` returns. -/
def lookupWakeLockName (buf : List Byte) (allocate timeoutptr : Bool) (memory : Option Ptr)
    (s : State) : Option (Except Int (Ptr × BitVec 32) × State) :=
  match parse buf timeoutptr with
  | none => some (.error (-EINVAL), s)
  | some (name, timeout) =>
    match lookupLoop s buf name.length maxRounds s.tree.root .root with
    | .endless => none
    | .found p => some (.ok (p, timeout), s)
    | .missing place =>
      if allocate = false then some (.error (-EINVAL), s)
      else
        match memory with
        | none => some (.error (-ENOMEM), s)
        | some p => (addLock p place name s).map fun s => (.ok (p, timeout), s)

def setLock (p : Ptr) (call : LockCall) (s : State) : State :=
  { s with lock := Function.update s.lock p call }

/-- The call that a write to `wake_lock` makes. -/
def lockCall (timeout : BitVec 32) : LockCall :=
  if timeout ≠ 0 then .wakeLockTimeout timeout else .wakeLock

def wakeLockStore (buf : List Byte) (memory : Option Ptr) (s : State) : Option Int × State :=
  match lookupWakeLockName buf true true memory s with
  | none => (none, s)
  | some (.error e, s) => (some e, s)
  | some (.ok (p, timeout), s) => (some buf.length, setLock p (lockCall timeout) s)

def wakeUnlockStore (buf : List Byte) (s : State) : Option Int × State :=
  match lookupWakeLockName buf false false none s with
  | none => (none, s)
  | some (.error e, s) => (some e, s)
  | some (.ok (p, _), s) => (some buf.length, setLock p .wakeUnlock s)

inductive Write where
  | wakeLock (buf : List Byte) (memory : Option Ptr)
  | wakeUnlock (buf : List Byte)
deriving DecidableEq, Repr

def step : Write → State → Option Int × State
  | .wakeLock buf memory, s => wakeLockStore buf memory s
  | .wakeUnlock buf, s => wakeUnlockStore buf s

/-- No locks yet. -/
def State.start (tree : RbState) (name : Ptr → List Byte) (lock : Ptr → LockCall) : State :=
  ⟨{ tree with root := null }, name, lock, []⟩

end AndroidKernel.UserWakeLock
