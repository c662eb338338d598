import AndroidKernel.Lib.Run

/-!
Wake locks: `wake_lock`, `wake_lock_timeout`, `wake_unlock`, the timer that expires locks and the
work that suspends the system.

Every function does its work in one section under `list_lock`, and a section is one step here. A
lock with a timeout stays on the active list after it has expired, until a section happens to
look at the list (`has_wake_lock_locked`). The kernel compares 32-bit jiffies; `now` counts all
ticks since the start, and `due` is the tick at which a lock expires, so that `jiffies` and
`expires` are their low words. A lock that is on no active list is on the inactive one, which
nothing reads. Statistics and messages are left out.
-/

namespace AndroidKernel.WakeLocks

open Lib

inductive LockType where
  | suspend | idle
deriving DecidableEq, Repr

/-- `struct wake_lock`, with its flags. -/
structure WakeLock where
  type : LockType
  initialized : Bool
  active : Bool
  autoExpire : Bool
  due : Int
deriving DecidableEq, Repr

/-- Where the worker is in `suspend`. -/
inductive Worker where
  | idle
  /-- Behind `has_wake_lock`, which found no lock. -/
  | checked
  /-- In `pm_suspend`, with `entry_event_num`. -/
  | entered (entryEventNum : BitVec 32)
  /-- Behind `pm_suspend`. -/
  | returned (entryEventNum : BitVec 32)
deriving DecidableEq, Repr

structure State where
  now : Nat
  lock : Nat → WakeLock
  /-- `active_wake_locks`. -/
  active : LockType → List Nat
  /-- When `expire_timer` is pending: the tick it expires at. -/
  timer : Option Nat
  /-- `current_event_num`. -/
  eventNum : BitVec 32
  /-- `suspend_work` is in the queue. -/
  pending : Bool
  worker : Worker
  /-- `suspend_work` was queued after a suspend lock went inactive for the last time. -/
  queued : Bool

def State.jiffies (s : State) : BitVec 32 := BitVec.ofNat 32 s.now

def WakeLock.expires (lock : WakeLock) : BitVec 32 := BitVec.ofInt 32 lock.due

/-- `lock->expires - jiffies` as a `long`. -/
def State.timeout (s : State) (lock : WakeLock) : Int := (lock.expires - s.jiffies).toInt

def HZ : Nat := 100
def LONG_MAX : Int := 2 ^ 31 - 1
def EAGAIN : Int := 11

/-- `main_wake_lock` and `unknown_wakeup`. -/
def mainWakeLock : Nat := 0
def unknownWakeup : Nat := 1

/-! ### Sections under `list_lock` -/

def setLock (id : Nat) (lock : WakeLock) (s : State) : State :=
  { s with lock := Function.update s.lock id lock }

/-- `list_del`, whichever list the lock is on. -/
def listDel (id : Nat) (s : State) : State :=
  { s with active := fun type => (s.active type).filter (· ≠ id) }

/-- A lock leaves the active list. -/
def deactivate (id : Nat) (s : State) : State :=
  let lock := s.lock id
  { listDel id (setLock id { lock with active := false, autoExpire := false } s) with
    queued := s.queued && !(lock.active && lock.type = .suspend) }

def expireWakeLock (id : Nat) (s : State) : State := deactivate id s

/-- The loop of `has_wake_lock_locked` over the rest of the list. -/
def hasWakeLockLoop : List Nat → Int → State → Int × State
  | [], maxTimeout, s => (maxTimeout, s)
  | id :: rest, maxTimeout, s =>
    let lock := s.lock id
    if lock.autoExpire then
      if s.timeout lock ≤ 0 then hasWakeLockLoop rest maxTimeout (expireWakeLock id s)
      else hasWakeLockLoop rest (max maxTimeout (s.timeout lock)) s
    else (-1, s)

def hasWakeLockLocked (type : LockType) (s : State) : Int × State :=
  hasWakeLockLoop (s.active type) 0 s

/-- `queue_work(suspend_work_queue, &suspend_work)`. -/
def queueSuspendWork (s : State) : State := { s with pending := true, queued := true }

/-- The timer function. -/
def expireWakeLocks (s : State) : State :=
  let (hasLock, s) := hasWakeLockLocked .suspend s
  if hasLock = 0 then queueSuspendWork s else s

def powerSuspendLate (s : State) : Int × State :=
  let (hasLock, s) := hasWakeLockLocked .suspend s
  (if hasLock ≠ 0 then -EAGAIN else 0, s)

def wakeLockInit (id : Nat) (type : LockType) (s : State) : State :=
  setLock id ⟨type, true, false, false, (s.lock id).due⟩ s

/-- `wake_lock_destroy`. An active lock leaves its list and keeps its flag. -/
def wakeLockDestroy (id : Nat) (s : State) : State :=
  let lock := s.lock id
  { listDel id (setLock id { lock with initialized := false } s) with
    queued := s.queued && !(lock.active && lock.type = .suspend) }

/-- The end of `wake_lock_internal` and `wake_unlock`: `mod_timer`, or `del_timer` and
`queue_work`. -/
def updateTimer (expireIn : Int) (s : State) : State :=
  if 0 < expireIn then { s with timer := some (s.now + expireIn.toNat) }
  else
    let s := { s with timer := none }
    if expireIn = 0 then queueSuspendWork s else s

/-- The lock goes to the end of its list with a timeout, to the front without. -/
def activate (id : Nat) (timeout : Option (BitVec 32)) (s : State) : State :=
  let lock := s.lock id
  let s := listDel id s
  match timeout with
  | some timeout =>
    { setLock id { lock with active := true, autoExpire := true, due := s.now + timeout.toInt }
        s with
      active := Function.update s.active lock.type (s.active lock.type ++ [id]) }
  | none =>
    { setLock id { lock with active := true, autoExpire := false, due := LONG_MAX } s with
      active := Function.update s.active lock.type (id :: s.active lock.type) }

/-- `wake_lock_internal`: `wake_lock` without a timeout, `wake_lock_timeout` with one. -/
def wakeLockInternal (id : Nat) (timeout : Option (BitVec 32)) (s : State) : State :=
  let type := (s.lock id).type
  let s := activate id timeout s
  if type = .suspend then
    let s := { s with eventNum := s.eventNum + 1 }
    let (expireIn, s) := if timeout.isSome then hasWakeLockLocked type s else (-1, s)
    updateTimer expireIn s
  else s

def wakeUnlock (id : Nat) (s : State) : State :=
  let type := (s.lock id).type
  let s := deactivate id s
  if type = .suspend then
    let (hasLock, s) := hasWakeLockLocked type s
    updateTimer hasLock s
  else s

/-! ### The suspend work -/

/-- The next step of `suspend`. `pm_suspend` comes to the late check, whatever it returns. -/
def suspendWork (s : State) : State :=
  match s.worker with
  | .idle =>
    let (hasLock, s) := hasWakeLockLocked .suspend { s with pending := false }
    if hasLock ≠ 0 then s else { s with worker := .checked }
  | .checked => { s with worker := .entered s.eventNum }
  | .entered entryEventNum =>
    { (powerSuspendLate s).2 with worker := .returned entryEventNum }
  | .returned entryEventNum =>
    let s := { s with worker := .idle }
    if s.eventNum = entryEventNum then
      wakeLockInternal unknownWakeup (some (BitVec.ofNat 32 (HZ / 2))) s
    else s

/-- `pm_suspend` fails before the late check. -/
def suspendFails (s : State) : State :=
  match s.worker with
  | .entered entryEventNum => { s with worker := .returned entryEventNum }
  | _ => s

/-! ### The machine -/

inductive Event where
  | init (id : Nat) (type : LockType)
  | destroy (id : Nat)
  | lock (id : Nat)
  | lockTimeout (id : Nat) (timeout : BitVec 32)
  | unlock (id : Nat)
  /-- Somebody calls `has_wake_lock`. -/
  | has (type : LockType)
  | ticks (n : Nat)
  /-- `expire_timer` expires. -/
  | timer
  | work
  | workFails
deriving DecidableEq, Repr

def step (e : Event) (s : State) : State :=
  match e with
  | .init id type => wakeLockInit id type s
  | .destroy id => wakeLockDestroy id s
  | .lock id => wakeLockInternal id none s
  | .lockTimeout id timeout => wakeLockInternal id (some timeout) s
  | .unlock id => wakeUnlock id s
  | .has type => (hasWakeLockLocked type s).2
  | .ticks n => { s with now := s.now + n }
  | .timer => expireWakeLocks { s with timer := none }
  | .work => suspendWork s
  | .workFails => suspendFails s

/-- The timer is pending and has come to its tick. -/
def State.timerDue (s : State) : Prop := ∃ due ∈ s.timer, due ≤ s.now

instance decidableTimerDue (s : State) : Decidable s.timerDue :=
  inferInstanceAs (Decidable (∃ due ∈ s.timer, due ≤ s.now))

/-- What can happen next. Locks are used between their `wake_lock_init` and their
`wake_lock_destroy`; the two locks of the module itself stay. -/
def enabled (s : State) : Event → Prop
  | .init id _ => (s.lock id).initialized = false
  | .destroy id => (s.lock id).initialized = true ∧ id ≠ mainWakeLock ∧ id ≠ unknownWakeup
  | .lock id | .lockTimeout id _ | .unlock id => (s.lock id).initialized = true
  | .has _ | .ticks _ => True
  | .timer => s.timerDue
  | .work => s.worker = .idle → s.pending = true
  | .workFails => True

instance decidableEnabled (s : State) (e : Event) : Decidable (enabled s e) :=
  match e with
  | .init id _ => inferInstanceAs (Decidable ((s.lock id).initialized = false))
  | .destroy id =>
    inferInstanceAs (Decidable ((s.lock id).initialized = true ∧ id ≠ mainWakeLock ∧
      id ≠ unknownWakeup))
  | .lock id | .lockTimeout id _ | .unlock id =>
    inferInstanceAs (Decidable ((s.lock id).initialized = true))
  | .has _ | .ticks _ | .workFails => inferInstanceAs (Decidable True)
  | .timer => decidableTimerDue s
  | .work => inferInstanceAs (Decidable (s.worker = .idle → s.pending = true))

/-- After `wakelocks_init`: `main_wake_lock` is held. -/
def State.start : State where
  now := 0
  lock id := ⟨.suspend, id = mainWakeLock || id = unknownWakeup, id = mainWakeLock, false, LONG_MAX⟩
  active type := if type = .suspend then [mainWakeLock] else []
  timer := none
  eventNum := 1
  pending := false
  worker := .idle
  queued := false

def machine : Machine State Event Empty where
  init s := s = .start
  enabled := enabled
  exec e s := .ok (step e s)

instance decidableMachine (s : State) (e : Event) : Decidable (machine.enabled s e) :=
  decidableEnabled s e

end AndroidKernel.WakeLocks
