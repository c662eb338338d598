import AndroidKernel.Binder.Calls

/-!
`binder_transaction` and `binder_transaction_buffer_release`.

A transaction finds its target, copies the user's data into a buffer of the
target process, translates the objects at the given offsets in place, and goes
onto a list. The release of a buffer reads the objects again, by offset, and
gives back what the translation took.

Allocation failures, faults of the user's memory, file descriptors and the
results of the wake-up functions are inputs (`TransactionEnv`).
-/

namespace AndroidKernel.Binder

open Lib Function

/-! ### Objects in a buffer -/

/-- `BINDER_TYPE_*`. -/
inductive ObjectType where
  | binder
  | weakBinder
  | handle
  | weakHandle
  | fd
deriving DecidableEq, Repr

/-- `B_PACK_CHARS`. -/
def packChars (c1 c2 c3 c4 : Nat) : Nat := c1 * 2 ^ 24 + c2 * 2 ^ 16 + c3 * 2 ^ 8 + c4

def ObjectType.encode : ObjectType → Nat
  | .binder => packChars 0x73 0x62 0x2a 0x85
  | .weakBinder => packChars 0x77 0x62 0x2a 0x85
  | .handle => packChars 0x73 0x68 0x2a 0x85
  | .weakHandle => packChars 0x77 0x68 0x2a 0x85
  | .fd => packChars 0x66 0x64 0x2a 0x85

def ObjectType.decode (word : Nat) : Option ObjectType :=
  if word = ObjectType.encode .binder then some .binder
  else if word = ObjectType.encode .weakBinder then some .weakBinder
  else if word = ObjectType.encode .handle then some .handle
  else if word = ObjectType.encode .weakHandle then some .weakHandle
  else if word = ObjectType.encode .fd then some .fd
  else none

/-- `struct flat_binder_object`, four words; `value` is the union of `binder` and
`handle`. -/
structure FlatObject where
  type : Nat
  flags : Nat
  value : Nat
  cookie : Nat
deriving DecidableEq

/-- The size of `struct flat_binder_object`. -/
def objectSize : Nat := 16

/-- The object at a byte offset. Only offsets that pass `validOffset` are read,
and those are multiples of the word size. -/
def objectAt (data : Nat → Nat) (off : Nat) : FlatObject where
  type := data (off / 4)
  flags := data (off / 4 + 1)
  value := data (off / 4 + 2)
  cookie := data (off / 4 + 3)

def storeObject (data : Nat → Nat) (off : Nat) (o : FlatObject) : Nat → Nat :=
  update (update (update (update data (off / 4) o.type)
    (off / 4 + 1) o.flags) (off / 4 + 2) o.value) (off / 4 + 3) o.cookie

/-- The test on an offset in both passes, with `data_size - sizeof(*fp)` in
`size_t`. -/
def validOffset (dataSize off : Nat) : Bool :=
  decide (off ≤ (dataSize + 2 ^ 32 - objectSize) % 2 ^ 32) && decide (objectSize ≤ dataSize) &&
    decide (off % 4 = 0)

/-! ### Releasing a buffer -/

/-- What the release does with one object. -/
def releaseObject (p : Nat) (o : FlatObject) : BinderM Unit :=
  match ObjectType.decode o.type with
  | some .binder => releaseLocal true
  | some .weakBinder => releaseLocal false
  | some .handle => releaseHandle true
  | some .weakHandle => releaseHandle false
  | some .fd => return
  | none => return
where
  releaseLocal (strong : Bool) : BinderM Unit := do
    match ← binderGetNode p o.value with
    | none => return
    | some n => binderDecNode n strong false
  releaseHandle (strong : Bool) : BinderM Unit := do
    match ← binderGetRef p o.value with
    | none => return
    | some r => binderDecRef r strong

/-- The loop over the offsets; `h` is the buffer, whose data does not change. -/
def releaseObjects (p : Nat) (h : BinderBuffer) : List Nat → BinderM Unit
  | [] => return
  | off :: offs => do
    ifThen (validOffset h.dataSize off = true) (releaseObject p (objectAt h.data off))
    releaseObjects p h offs

/-- `binder_transaction_buffer_release`; `failedAt` is the index of the offset at
which the translation stopped. -/
def binderTransactionBufferRelease (p b : Nat) (failedAt : Option Nat) : BinderM Unit := do
  let h ← getBuffer p b
  ifSome h.targetNode fun n => binderDecNode n true false
  releaseObjects p h (match failedAt with
    | none => h.offsets
    | some k => h.offsets.take k)

/-- `binder_free_buf` on a buffer of `p`. -/
def freeBuf (p b : Nat) : BinderM Unit := do
  let proc ← getProc p
  match proc.alloc with
  | none => throw (.useAfterFree .buffer)
  | some a =>
    match binderFreeBuf a b with
    | .error fault => throw fault
    | .ok a => putProc p { proc with alloc := some a }

/-! ### Inputs -/

/-- `struct binder_transaction_data` as the sender fills it in, with the contents
of the memory its pointers point to. -/
structure TransactionData where
  handle : Nat := 0
  code : Nat := 0
  flags : Nat := 0
  dataSize : Nat := 0
  offsetsSize : Nat := 0
  data : Nat → Nat := fun _ => 0
  offsets : Nat → Nat := fun _ => 0

/-- The offsets as the loop reads them. -/
def TransactionData.offsetList (tr : TransactionData) : List Nat :=
  (List.range (tr.offsetsSize / 4)).map tr.offsets

/-- What the rest of the kernel answers: `kzalloc` of the transaction and of the
completion, the page allocator, the two copies from user memory; for the object
with a given index `kzalloc` of a node and of a reference, `fget` and the new
descriptor; for a waiting thread whether its wake-up function returns non-zero.
`uninit` is the value of `return_error` where the source has not set it. -/
structure TransactionEnv where
  allocTransaction : Bool := true
  allocComplete : Bool := true
  pages : PageEnv := {}
  copyData : Bool := true
  copyOffsets : Bool := true
  allocNode : Nat → Bool := fun _ => true
  allocRef : Nat → Bool := fun _ => true
  fget : Nat → Bool := fun _ => true
  fd : Nat → Option Nat := fun i => some i
  wake : Nat → Bool := fun _ => true
  uninit : BrCode := .failedReply

/-! ### The target -/

/-- The locals of `binder_transaction` that describe the target. -/
structure Target where
  proc : Nat
  thread : Option Nat
  node : Option Nat
  inReplyTo : Option Nat
deriving DecidableEq, Repr

/-- `return_error` and `in_reply_to` at the error labels. -/
structure Failure where
  code : BrCode
  inReplyTo : Option Nat
deriving DecidableEq, Repr

/-- `binder_set_nice` for the current task. -/
def binderSetNice (pid : Nat) (nice : Int) : BinderM Unit := do
  let task := (← get).tasks pid
  if 20 - nice ≤ task.rlimitNice ∨ task.capSysNice = true then
    modify (·.setTask pid { task with nice := nice })
  else modify (·.setTask pid { task with nice := 20 - task.rlimitNice })

/-- `sched_setscheduler_nocheck`. -/
def schedSetscheduler (pid : Nat) (policy : Policy) (rtPriority : Fin 100) : BinderM Unit :=
  modify fun s => s.setTask pid { s.tasks pid with policy := policy, rtPriority := rtPriority }

/-- The scheduling values saved in `t` go back to the task that replies to it. -/
def restoreSched (pid : Nat) (t : BinderTransaction) : BinderM Unit := do
  binderSetNice pid t.savedPriority
  ifSome t.savedRtPrio (schedSetscheduler pid t.savedPolicy)

/-- The target of a `BC_REPLY`. -/
def replyTarget (th : Nat) : BinderM (Except Failure Target) := do
  let thread ← getThread th
  match thread.transactionStack with
  | none => return .error ⟨.failedReply, none⟩
  | some t =>
    let transaction ← getTransaction t
    restoreSched thread.pid transaction
    if transaction.toThread ≠ some th then return .error ⟨.failedReply, none⟩
    putThread th { thread with transactionStack := transaction.toParent }
    match transaction.fromThread with
    | none => return .error ⟨.deadReply, some t⟩
    | some sender =>
      let target ← getThread sender
      if target.transactionStack ≠ some t then return .error ⟨.failedReply, none⟩
      return .ok ⟨target.proc, some sender, none, some t⟩

/-- The loop that looks for a thread of the target process among the senders of
the calls that led here; the last one found is taken. -/
def routeThread (targetProc : Nat) : Nat → Option Nat → Option Nat → BinderM (Option Nat)
  | _, none, found => return found
  | 0, some _, _ => throw .endlessLoop
  | fuel + 1, some t, found => do
    let transaction ← getTransaction t
    match transaction.fromThread with
    | none => routeThread targetProc fuel transaction.fromParent found
    | some sender =>
      let thread ← getThread sender
      routeThread targetProc fuel transaction.fromParent
        (if thread.proc = targetProc then some sender else found)

/-- The node a `BC_TRANSACTION` is sent to. -/
def targetNode (p handle : Nat) : BinderM (Except Failure Nat) := do
  if handle ≠ 0 then
    match ← binderGetRef p handle with
    | none => return .error ⟨.failedReply, none⟩
    | some r => return .ok (← getRef r).node
  else
    match (← get).contextMgrNode with
    | none => return .error ⟨.deadReply, none⟩
    | some n => return .ok n

/-- The target of a `BC_TRANSACTION`. -/
def callTarget (th : Nat) (tr : TransactionData) : BinderM (Except Failure Target) := do
  let thread ← getThread th
  match ← targetNode thread.proc tr.handle with
  | .error failure => return .error failure
  | .ok n =>
    let node ← getNode n
    match node.proc with
    | none => return .error ⟨.deadReply, none⟩
    | some targetProc =>
      if isOneWay tr.flags then return .ok ⟨targetProc, none, some n, none⟩
      match thread.transactionStack with
      | none => return .ok ⟨targetProc, none, some n, none⟩
      | some t =>
        let transaction ← getTransaction t
        if transaction.toThread ≠ some th then return .error ⟨.failedReply, none⟩
        let found ← routeThread targetProc ((← get).nextId + 1) (some t) none
        return .ok ⟨targetProc, found, some n, none⟩

/-! ### Translation -/

/-- The `min_priority` bit field: eight bits, signed. -/
def minPriorityOf (flags : Nat) : Int :=
  if flags % 256 < 128 then (flags % 256 : Nat) else (flags % 256 : Nat) - 256

/-- The sender's own node that an object of type `BINDER` names, made on first
use. -/
def localNode (p : Nat) (o : FlatObject) (alloc : Bool) : BinderM (Option Nat) := do
  match ← binderGetNode p o.value with
  | some n => return some n
  | none =>
    match ← binderNewNode p o.value o.cookie alloc with
    | none => return none
    | some n =>
      let node ← getNode n
      putNode n { node with
        minPriority := minPriorityOf o.flags
        acceptFds := o.flags.testBit 8 }
      return some n

/-- The case of a local object; `.ok` has the object the target gets. -/
def translateBinder (env : TransactionEnv) (p th targetProc k : Nat) (o : FlatObject)
    (strong : Bool) : BinderM (Except BrCode FlatObject) := do
  match ← localNode p o (env.allocNode k) with
  | none => return .error .failedReply
  | some n =>
    let node ← getNode n
    if o.cookie ≠ node.cookie then return .error env.uninit
    match ← binderGetRefForNode targetProc n (env.allocRef k) with
    | none => return .error .failedReply
    | some r =>
      let ref ← getRef r
      let _ ← binderIncRef r strong (some (.threadTodo th))
      return .ok { o with
        type := ObjectType.encode (if strong then .handle else .weakHandle)
        value := ref.desc }

/-- The case of a handle: it becomes a local object in the process of its node
and a handle anywhere else. -/
def translateHandle (env : TransactionEnv) (p targetProc k : Nat) (o : FlatObject)
    (strong : Bool) : BinderM (Except BrCode FlatObject) := do
  match ← binderGetRef p o.value with
  | none => return .error .failedReply
  | some r =>
    let ref ← getRef r
    let node ← getNode ref.node
    if node.proc = some targetProc then
      let _ ← binderIncNode ref.node strong false none
      return .ok { o with
        type := ObjectType.encode (if strong then .binder else .weakBinder)
        value := node.ptr
        cookie := node.cookie }
    else
      match ← binderGetRefForNode targetProc ref.node (env.allocRef k) with
      | none => return .error .failedReply
      | some new =>
        let newRef ← getRef new
        let _ ← binderIncRef new strong none
        return .ok { o with value := newRef.desc }

/-- Whether the target takes file descriptors: the call a reply belongs to
decides, or the target node. -/
def acceptsFds (target : Target) : BinderM Bool :=
  match target.inReplyTo, target.node with
  | some t, _ => return (← getTransaction t).flags.testBit 4
  | none, some n => return (← getNode n).acceptFds
  | none, none => throw .nullPointer

/-- The case of a file descriptor. -/
def translateFd (env : TransactionEnv) (target : Target) (k : Nat) (o : FlatObject) :
    BinderM (Except BrCode FlatObject) := do
  if !(← acceptsFds target) || !env.fget k then return .error .failedReply
  match env.fd k with
  | none => return .error .failedReply
  | some fd => return .ok { o with value := fd }

/-- The translation of one object by process `p` and thread `th`. -/
def translateObject (env : TransactionEnv) (p th : Nat) (target : Target) (k : Nat)
    (o : FlatObject) : BinderM (Except BrCode FlatObject) :=
  match ObjectType.decode o.type with
  | some .binder => translateBinder env p th target.proc k o true
  | some .weakBinder => translateBinder env p th target.proc k o false
  | some .handle => translateHandle env p target.proc k o true
  | some .weakHandle => translateHandle env p target.proc k o false
  | some .fd => translateFd env target k o
  | none => return .error .failedReply

/-- The loop over the offsets from index `k` on, in buffer `b` of the target. The
result is the error and the index it occurred at, if any. -/
def translateObjects (env : TransactionEnv) (p th : Nat) (target : Target) (b : Nat) :
    Nat → List Nat → BinderM (Option (BrCode × Nat))
  | _, [] => return none
  | k, off :: offs => do
    let h ← getBuffer target.proc b
    if !validOffset h.dataSize off then return some (.failedReply, k)
    match ← translateObject env p th target k (objectAt h.data off) with
    | .error code => return some (code, k)
    | .ok o =>
      putBuffer target.proc b fun h => { h with data := storeObject h.data off o }
      translateObjects env p th target b (k + 1) offs

/-! ### Sending -/

/-- `binder_alloc_buf` on the area of `p`. -/
def allocBuf (p : Nat) (env : PageEnv) (dataSize offsetsSize : Nat) (isAsync : Bool) :
    BinderM (Option Nat) := do
  let proc ← getProc p
  match proc.alloc with
  | none => return none
  | some a =>
    match binderAllocBuf a env dataSize offsetsSize isAsync with
    | .error fault => throw fault
    | .ok (found, a) =>
      putProc p { proc with alloc := some a }
      return found

/-- Whether waking the waiter for `t` raises its priority. -/
def wakeBoosts (t : BinderTransaction) (task : Task) : Bool :=
  t.flags.testBit 5 && t.policy == .rr && decide (task.rtPriority < t.rtPrio) && !isOneWay t.flags

/-- Task `pid` gets the priority of `t`, which remembers the one it had. -/
def boost (t pid : Nat) : BinderM Unit := do
  let transaction ← getTransaction t
  let task := (← get).tasks pid
  putTransaction t { transaction with
    savedRtPrio := some task.rtPriority, savedPolicy := task.policy }
  schedSetscheduler pid transaction.policy transaction.rtPrio
  observe (.boosted t pid task.policy task.rtPriority)

/-- The loop over the wait queue; waiters on a process are exclusive, so it ends
at the first one that is woken. -/
def wakeWaiters (env : TransactionEnv) (t : Nat) (w : WaitHead) (exclusive : Bool) :
    List Nat → BinderM Unit
  | [] => return
  | x :: rest => do
    let waiter ← getThread x
    let transaction ← getTransaction t
    let task := (← get).tasks waiter.pid
    ifThen (wakeBoosts transaction task = true) (boost t waiter.pid)
    ifThen (env.wake x = true) (modify fun s =>
      { s with waiters := update s.waiters w ((s.waiters w).erase x) })
    ifThen (¬(env.wake x = true ∧ exclusive = true)) (wakeWaiters env t w exclusive rest)

/-- Queues `t` for a thread or, without one, for its process, and wakes a reader. -/
def sendTo (env : TransactionEnv) (t th : Nat) (target : Target) : BinderM Unit := do
  let (list, wait, exclusive) := match target.thread with
    | some x => (ListHead.threadTodo x, WaitHead.threadWait x, false)
    | none => (ListHead.procTodo target.proc, WaitHead.procWait target.proc, true)
  listAddTail (.transaction t) list
  listAddTail .transactionComplete (.threadTodo th)
  wakeWaiters env t wait exclusive ((← get).waiters wait)

/-- What follows a successful translation. -/
def commitTransaction (env : TransactionEnv) (th t b : Nat) (target : Target) : BinderM Unit := do
  let h ← getBuffer target.proc b
  let transaction ← getTransaction t
  match target.inReplyTo with
  | some call =>
    if h.asyncTransaction then throw (.bug .transactionReplyAsync)
    binderPopTransaction target.thread call
    sendTo env t th target
  | none =>
    if !isOneWay transaction.flags then
      if h.asyncTransaction then throw (.bug .transactionCallAsync)
      let thread ← getThread th
      putTransaction t { transaction with
        needReply := true, fromParent := thread.transactionStack }
      putThread th { thread with transactionStack := some t }
      sendTo env t th target
    else
      match target.node with
      | none => throw (.bug .transactionOneWayNode)
      | some n =>
        if !h.asyncTransaction then throw (.bug .transactionOneWayAsync)
        let node ← getNode n
        observe (.oneWaySent n t)
        if node.hasAsyncTransaction then
          putNode n { node with asyncTodo := node.asyncTodo ++ [t] }
          listAddTail .transactionComplete (.threadTodo th)
        else
          putNode n { node with hasAsyncTransaction := true }
          sendTo env t th target

/-- The end of the error path. -/
def failTransaction (th : Nat) (failure : Failure) : BinderM Unit := do
  let thread ← getThread th
  if thread.returnError ≠ .ok then throw (.bug .transactionReturnError)
  match failure.inReplyTo with
  | some t =>
    putThread th { thread with returnError := .transactionComplete }
    binderSendFailedReply t failure.code
  | none => putThread th { thread with returnError := failure.code }

/-- The error path from `err_binder_alloc_buf_failed` on. -/
def dropTransaction (th t : Nat) (failure : Failure) : BinderM Unit := do
  deleted .transactionComplete
  freeTransaction t
  failTransaction th failure

/-- The error path from `err_copy_data_failed` on. -/
def abortTransaction (th t b : Nat) (target : Target) (code : BrCode) (k : Nat) : BinderM Unit := do
  binderTransactionBufferRelease target.proc b (some k)
  putBuffer target.proc b fun h => { h with transaction := none }
  freeBuf target.proc b
  dropTransaction th t ⟨code, target.inReplyTo⟩

/-- The copies from user memory and the translation, into buffer `b`. -/
def fillBuffer (env : TransactionEnv) (p th b : Nat) (target : Target) (tr : TransactionData) :
    BinderM (Option (BrCode × Nat)) := do
  if !env.copyData || !env.copyOffsets then return some (.failedReply, 0)
  putBuffer target.proc b fun h => { h with data := tr.data, offsets := tr.offsetList }
  if tr.offsetsSize % 4 ≠ 0 then return some (.failedReply, 0)
  translateObjects env p th target b 0 tr.offsetList

/-- The transaction as it is before its buffer is allocated. -/
def newTransaction (th : Nat) (task : Task) (target : Target) (tr : TransactionData) :
    BinderTransaction where
  fromThread := if target.inReplyTo.isNone && !isOneWay tr.flags then some th else none
  toProc := some target.proc
  toThread := target.thread
  code := tr.code
  flags := tr.flags
  priority := task.nice
  rtPrio := task.rtPriority
  policy := task.policy

/-- `binder_transaction` once the transaction has a buffer. -/
def sendBuffer (env : TransactionEnv) (p th t b : Nat) (target : Target) (tr : TransactionData) :
    BinderM (Option Nat) := do
  ifSome target.node fun n => do let _ ← binderIncNode n true false none
  match ← fillBuffer env p th b target tr with
  | some (code, k) =>
    abortTransaction th t b target code k
    return none
  | none =>
    commitTransaction env th t b target
    return some t

/-- `binder_transaction` once the target is known. The result is the transaction
that was sent, if it was. -/
def sendTransaction (env : TransactionEnv) (th : Nat) (target : Target) (tr : TransactionData) :
    BinderM (Option Nat) := do
  if !env.allocTransaction then
    failTransaction th ⟨.failedReply, target.inReplyTo⟩
    return none
  let t ← created .transaction
  let thread ← getThread th
  putTransaction t (newTransaction th ((← get).tasks thread.pid) target tr)
  if !env.allocComplete then
    freeTransaction t
    failTransaction th ⟨.failedReply, target.inReplyTo⟩
    return none
  let _ ← created .transactionComplete
  match ← allocBuf target.proc env.pages tr.dataSize tr.offsetsSize
      (target.inReplyTo.isNone && isOneWay tr.flags) with
  | none =>
    dropTransaction th t ⟨.failedReply, target.inReplyTo⟩
    return none
  | some b =>
    let transaction ← getTransaction t
    putTransaction t { transaction with buffer := some (target.proc, b) }
    putBuffer target.proc b fun h => { h with
      allowUserFree := false, transaction := some t, targetNode := target.node,
      data := fun _ => 0, offsets := [] }
    sendBuffer env thread.proc th t b target tr

def binderTransaction (env : TransactionEnv) (th : Nat) (tr : TransactionData) (reply : Bool) :
    BinderM (Option Nat) := do
  match ← (if reply then replyTarget th else callTarget th tr) with
  | .error failure =>
    failTransaction th failure
    return none
  | .ok target => sendTransaction env th target tr

end AndroidKernel.Binder
