import AndroidKernel.Binder.Write

/-!
`binder_thread_read`.

A read gives up `binder_lock` while it waits, so it is not one call: it starts,
reports a pending error or goes to wait, wakes up, and then takes one work item
after the other. The items of one read are separate calls here; that other calls
may come between them only adds runs. `ptr` is where the next word goes in the
user's buffer.

Writes to user memory may fail (`put`); the read then returns `-EFAULT` from
where it is.
-/

namespace AndroidKernel.Binder

open Lib

/-- The wait queue of a thread in a read. -/
def waitHead (th : Nat) (thread : BinderThread) (waitForProcWork : Bool) : WaitHead :=
  if waitForProcWork then .procWait thread.proc else .threadWait th

/-- `thread` leaves `binder_thread_read`. -/
def readReturn (th : Nat) : BinderM Unit := do
  let thread ← getThread th
  putThread th { thread with read := none }

/-- From the label `done` on. A failure to store `BR_SPAWN_LOOPER` changes only the
result of the read. -/
def readDone (th : Nat) : BinderM Unit := do
  let thread ← getThread th
  let proc ← getProc thread.proc
  ifThen (proc.requestedThreads + proc.readyThreads = 0 ∧
      proc.requestedThreadsStarted < proc.maxThreads ∧ thread.looper.isLooper = true) do
    let count ← incr proc.requestedThreads
    putProc thread.proc { proc with requestedThreads := count }
  readReturn th

/-- The start of a read into a buffer of `size` bytes of which `consumed` are
used. -/
def readStart (th size consumed : Nat) (nonBlock put : Bool) : BinderM Unit := do
  if consumed = 0 ∧ put = false then return
  let thread ← getThread th
  let ptr := if consumed = 0 then 4 else consumed
  putThread th { thread with
    read := some { phase := .retry, size := size, ptr := ptr, nonBlock := nonBlock } }

/-- The scheduling values of a thread that waits for work of its process. -/
def setDefaultSched (pid : Nat) (proc : BinderProc) : BinderM Unit := do
  binderSetNice pid proc.defaultPriority
  let task := (← get).tasks pid
  ifThen (task.isRt = true) (schedSetscheduler pid proc.defaultPolicy proc.defaultRtPrio)

/-- A pending error is reported before anything else. -/
def readErrors (th : Nat) (read : ReadState) (put : Nat → Bool) : BinderM Unit := do
  let thread ← getThread th
  if thread.returnError2 ≠ .ok then
    if !put 0 then readReturn th
    else if read.ptr + 4 = read.size then readDone th
    else
      putThread th { thread with returnError2 := .ok }
      if !put 1 then readReturn th
      else
        putThread th { thread with returnError2 := .ok, returnError := .ok }
        readDone th
  else if !put 1 then readReturn th
  else
    putThread th { thread with returnError := .ok }
    readDone th

/-- From the label `retry` to the release of the lock. -/
def readRetry (th : Nat) (put : Nat → Bool) : BinderM Unit := do
  let thread ← getThread th
  match thread.read with
  | none => return
  | some read =>
    if thread.returnError ≠ .ok ∧ read.ptr < read.size then readErrors th read put
    else
      let idle := thread.transactionStack.isNone && ((← get).work (.threadTodo th)).isEmpty
      putThread th { thread with
        looper := { thread.looper with waiting := true }
        read := some { read with phase := .waiting, waitForProcWork := idle } }
      ifThen (idle = true) do
        let proc ← getProc thread.proc
        let count ← incr proc.readyThreads
        putProc thread.proc { proc with readyThreads := count }
        setDefaultSched thread.pid proc

/-- The thread puts itself onto its wait queue. -/
def readEnqueue (th : Nat) : BinderM Unit := do
  let thread ← getThread th
  match thread.read with
  | none => return
  | some read =>
    let w := waitHead th thread read.waitForProcWork
    modify fun s => { s with
      waiters := Function.update s.waiters w (if th ∈ s.waiters w then s.waiters w
        else s.waiters w ++ [th]) }

/-- The thread is taken off its wait queue. -/
def leaveQueue (th : Nat) : BinderM Unit := do
  let thread ← getThread th
  match thread.read with
  | none => return
  | some read =>
    let w := waitHead th thread read.waitForProcWork
    modify fun s => { s with
      waiters := Function.update s.waiters w ((s.waiters w).erase th) }

/-- The wait is over, with (`success`) or without work, and the lock is taken
again. -/
def readWake (th : Nat) (success : Bool) : BinderM Unit := do
  leaveQueue th
  let thread ← getThread th
  match thread.read with
  | none => return
  | some read =>
    putThread th { thread with
      looper := { thread.looper with waiting := false }
      read := if success then some { read with phase := .looping } else none }
    ifThen (read.waitForProcWork = true) do
      let proc ← getProc thread.proc
      let count ← decr proc.readyThreads
      putProc thread.proc { proc with readyThreads := count }

/-! ### Work items -/

/-- The read goes on `n` bytes further. -/
def advance (th n : Nat) : BinderM Unit := do
  let thread ← getThread th
  match thread.read with
  | none => return
  | some read => putThread th { thread with read := some { read with ptr := read.ptr + n } }

/-- The command of a node's work item, if there is one, and the node after it. -/
def nodeCommand (node : BinderNode) : BinderM (Option BinderNode) := do
  let strong := node.internalStrongRefs ≠ 0 ∨ node.localStrongRefs ≠ 0
  let weak := node.refs ≠ [] ∨ node.localWeakRefs ≠ 0 ∨ strong
  if weak ∧ node.hasWeakRef = false then
    return some { node with
      hasWeakRef := true, pendingWeakRef := true, localWeakRefs := ← incr node.localWeakRefs }
  else if strong ∧ node.hasStrongRef = false then
    return some { node with
      hasStrongRef := true, pendingStrongRef := true
      localStrongRefs := ← incr node.localStrongRefs }
  else if ¬strong ∧ node.hasStrongRef = true then
    return some { node with hasStrongRef := false }
  else if ¬weak ∧ node.hasWeakRef = true then
    return some { node with hasWeakRef := false }
  else return none

/-- `BINDER_WORK_NODE`: the next reference command for the owner, or the end of
the item and, if nothing refers to it, of the node. -/
def readNode (p th n : Nat) (put : Nat → Bool) : BinderM Unit := do
  let node ← getNode n
  match ← nodeCommand node with
  | some node =>
    putNode n node
    if put 0 && put 1 && put 2 then advance th 12 else readReturn th
  | none =>
    unlinkNode n
    let node ← getNode n
    ifThen (node.internalStrongRefs = 0 ∧ node.localStrongRefs = 0 ∧ node.refs = [] ∧
        node.localWeakRefs = 0) do
      eraseNode p n node
      freeNode n false

/-- The three kinds of death work. -/
def readDeath (p th d : Nat) (put : Nat → Bool) : BinderM Unit := do
  let death ← getDeath d
  if !(put 0 && put 1) then readReturn th
  else
    advance th 8
    unlinkDeath d
    if death.type = .clearDeathNotification then freeDeath d
    else
      putDeath d { death with entry := some (.deliveredDeath p) }
      modify fun s =>
        s.setWork (.deliveredDeath p) (.death d :: s.work (.deliveredDeath p))
      readDone th

/-- Whether picking up `t` raises the priority of the task. -/
def pickUpBoosts (t : BinderTransaction) (task : Task) : Bool :=
  t.policy == .rr && decide (task.rtPriority < t.rtPrio) && !isOneWay t.flags

/-- The nice value of a task that picks up `t` for a node. -/
def setPickUpNice (pid : Nat) (t : BinderTransaction) (node : BinderNode) : BinderM Unit :=
  if t.priority < node.minPriority ∧ isOneWay t.flags = false then binderSetNice pid t.priority
  else if isOneWay t.flags = false ∨ t.savedPriority > node.minPriority then
    binderSetNice pid node.minPriority
  else return

/-- Scheduling on pick-up: the old values are saved in the transaction. -/
def pickUpSched (pid t n : Nat) : BinderM Unit := do
  let node ← getNode n
  let transaction ← getTransaction t
  let task := (← get).tasks pid
  putTransaction t { transaction with savedPriority := task.nice }
  ifThen (pickUpBoosts transaction task = true) (boost t pid)
  setPickUpNice pid (← getTransaction t) node

/-- The sender, whose process is named to the receiver. -/
def senderOf (t : BinderTransaction) : BinderM Unit := do
  ifSome t.fromThread fun sender => do
    let thread ← getThread sender
    let _ ← getProc thread.proc

/-- The transaction is in the user's buffer: it leaves its list. A call goes onto
the stack of the thread, anything else is done. -/
def deliver (p th t b : Nat) (h : ListHead) (node : Option Nat) : BinderM Unit := do
  listDel (.transaction t) h
  putBuffer p b fun buffer => { buffer with allowUserFree := true }
  let transaction ← getTransaction t
  match node with
  | some n =>
    if isOneWay transaction.flags then
      observe (.oneWayDelivered n t)
      putBuffer p b fun buffer => { buffer with transaction := none }
      freeTransaction t
    else
      let thread ← getThread th
      putTransaction t { transaction with
        toParent := thread.transactionStack, toThread := some th }
      putThread th { thread with transactionStack := some t }
  | none =>
    putBuffer p b fun buffer => { buffer with transaction := none }
    freeTransaction t

/-- `BINDER_WORK_TRANSACTION`. -/
def readTransaction (th t : Nat) (h : ListHead) (put : Nat → Bool) : BinderM Unit := do
  let thread ← getThread th
  let transaction ← getTransaction t
  match transaction.buffer with
  | none => throw (.bug .readNoBuffer)
  | some (p, b) =>
    let buffer ← getBuffer p b
    ifSome buffer.targetNode (pickUpSched thread.pid t)
    senderOf transaction
    if !(put 0 && put 1) then readReturn th
    else
      advance th 44
      deliver p th t b h buffer.targetNode
      readDone th

/-- The list and the item the loop takes next. -/
def nextWork (s : BinderState) (th p : Nat) (waitForProcWork : Bool) : Option (ListHead × Work) :=
  match s.work (.threadTodo th) with
  | w :: _ => some (.threadTodo th, w)
  | [] =>
    if waitForProcWork then (s.work (.procTodo p)).head?.map fun w => (.procTodo p, w)
    else none

/-- `end - ptr < sizeof(tr) + 4`, in `size_t`. -/
def noRoom (read : ReadState) : Bool := decide ((read.size + 2 ^ 32 - read.ptr) % 2 ^ 32 < 44)

/-- One round of the loop over work items. -/
def readWork (th : Nat) (put : Nat → Bool) : BinderM Unit := do
  let thread ← getThread th
  match thread.read with
  | none => return
  | some read =>
    match nextWork (← get) th thread.proc read.waitForProcWork with
    | none =>
      if read.ptr = 4 ∧ thread.looper.needReturn = false then
        putThread th { thread with read := some { read with phase := .retry } }
      else readDone th
    | some (h, w) =>
      if noRoom read then readDone th
      else
        match w with
        | .transaction t => readTransaction th t h put
        | .transactionComplete =>
          if !put 0 then readReturn th
          else
            advance th 4
            listDel .transactionComplete h
            deleted .transactionComplete
        | .node n => readNode thread.proc th n put
        | .death d => readDeath thread.proc th d put

end AndroidKernel.Binder
