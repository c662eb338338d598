import AndroidKernel.Binder.Transaction

/-!
The commands of `binder_thread_write`.

Each command is one call: `binder_lock` is held and nothing else runs. A command
whose arguments cannot be read from user memory has no effect and is not
modelled. `wake_up_interruptible` changes nothing here: a waiting thread may
leave its wait queue at any time.
-/

namespace AndroidKernel.Binder

open Lib

inductive BcCommand where
  | increfs (target : Nat) (alloc : Bool)
  | acquire (target : Nat) (alloc : Bool)
  | release (target : Nat)
  | decrefs (target : Nat)
  | increfsDone (ptr cookie : Nat)
  | acquireDone (ptr cookie : Nat)
  | freeBuffer (dataPtr : Nat)
  | transaction (env : TransactionEnv) (tr : TransactionData)
  | reply (env : TransactionEnv) (tr : TransactionData)
  | registerLooper
  | enterLooper
  | exitLooper
  | requestDeathNotification (target cookie : Nat) (alloc : Bool)
  | clearDeathNotification (target cookie : Nat)
  | deadBinderDone (cookie : Nat)

/-! ### Reference counts -/

/-- `BC_INCREFS` and `BC_ACQUIRE`. Handle 0 makes a reference to the context
manager; without memory for it the source reads through the null pointer. -/
def writeInc (p target : Nat) (strong alloc : Bool) : BinderM Unit := do
  match target, (← get).contextMgrNode with
  | 0, some n =>
    match ← binderGetRefForNode p n alloc with
    | none => throw .nullPointer
    | some r => let _ ← binderIncRef r strong none
  | _, _ =>
    match ← binderGetRef p target with
    | none => return
    | some r => let _ ← binderIncRef r strong none

/-- `BC_RELEASE` and `BC_DECREFS`. -/
def writeDec (p target : Nat) (strong : Bool) : BinderM Unit := do
  match ← binderGetRef p target with
  | none => return
  | some r => binderDecRef r strong

/-- Whether the owner has still to answer `BR_ACQUIRE` or `BR_INCREFS`. -/
def BinderNode.pending (node : BinderNode) (strong : Bool) : Bool :=
  if strong then node.pendingStrongRef else node.pendingWeakRef

def BinderNode.donePending (node : BinderNode) (strong : Bool) : BinderNode :=
  if strong then { node with pendingStrongRef := false } else { node with pendingWeakRef := false }

/-- `BC_ACQUIRE_DONE` and `BC_INCREFS_DONE`. -/
def writeDone (p ptr cookie : Nat) (strong : Bool) : BinderM Unit := do
  match ← binderGetNode p ptr with
  | none => return
  | some n =>
    let node ← getNode n
    if cookie ≠ node.cookie ∨ node.pending strong = false then return
    putNode n (node.donePending strong)
    binderDecNode n strong false

/-! ### Buffers -/

/-- The address of the header for a user address, in `void *` arithmetic. -/
def kernPtr (proc : BinderProc) (dataPtr : Nat) : Nat :=
  (dataPtr + 2 ^ 33 - proc.userBufferOffset - headerSize) % 2 ^ 32

def binderBufferLookup (p dataPtr : Nat) : BinderM (Option Nat) := do
  let proc ← getProc p
  match proc.alloc with
  | none => return none
  | some a =>
    match lookupBuffer a (kernPtr proc dataPtr) a.allocatedBuffers with
    | .error fault => throw fault
    | .ok found => return found

/-- The transaction of a buffer that is freed loses it. -/
def detachBuffer (p b t : Nat) : BinderM Unit := do
  let transaction ← getTransaction t
  putTransaction t { transaction with buffer := none }
  putBuffer p b fun h => { h with transaction := none }

/-- A freed buffer of a one-way transaction lets the next one of its node go: to
the thread that frees. -/
def passAsync (th n : Nat) : BinderM Unit := do
  let node ← getNode n
  if !node.hasAsyncTransaction then throw (.bug .freeBufferNoAsync)
  match node.asyncTodo with
  | [] => putNode n { node with hasAsyncTransaction := false }
  | t :: rest =>
    putNode n { node with asyncTodo := rest }
    listAddTail (.transaction t) (.threadTodo th)

/-- `BC_FREE_BUFFER`. -/
def writeFreeBuffer (p th dataPtr : Nat) : BinderM Unit := do
  match ← binderBufferLookup p dataPtr with
  | none => return
  | some b =>
    let h ← getBuffer p b
    if !h.allowUserFree then return
    ifSome h.transaction (detachBuffer p b)
    ifSome h.targetNode fun n => ifThen (h.asyncTransaction = true) (passAsync th n)
    binderTransactionBufferRelease p b none
    freeBuf p b

/-! ### Death notifications -/

/-- The list a death notification goes onto: the thread's own one if it is a
looper. -/
def deathList (th : Nat) (thread : BinderThread) : ListHead :=
  if thread.looper.isLooper then .threadTodo th else .procTodo thread.proc

/-- `BC_REQUEST_DEATH_NOTIFICATION`. -/
def writeRequestDeath (th target cookie : Nat) (alloc : Bool) : BinderM Unit := do
  let thread ← getThread th
  match ← binderGetRef thread.proc target with
  | none => return
  | some r =>
    let ref ← getRef r
    if ref.death.isSome then return
    if !alloc then
      putThread th { thread with returnError := .error }
      return
    let d ← created .death
    putDeath d { cookie := cookie }
    putRef r { ref with death := some d }
    let node ← getNode ref.node
    ifThen (node.proc = none) do
      putDeath d { cookie := cookie, type := .deadBinder }
      queueDeath d (deathList th thread)

/-- `BC_CLEAR_DEATH_NOTIFICATION`. -/
def writeClearDeath (th target cookie : Nat) : BinderM Unit := do
  let thread ← getThread th
  match ← binderGetRef thread.proc target with
  | none => return
  | some r =>
    let ref ← getRef r
    match ref.death with
    | none => return
    | some d =>
      let death ← getDeath d
      if death.cookie ≠ cookie then return
      putRef r { ref with death := none }
      if death.entry.isNone then
        putDeath d { death with type := .clearDeathNotification }
        queueDeath d (deathList th thread)
      else
        if death.type ≠ .deadBinder then throw (.bug .clearDeathType)
        putDeath d { death with type := .deadBinderAndClear }

/-- The first delivered notification with a cookie. -/
def findDelivered (cookie : Nat) : List Work → BinderM (Option Nat)
  | [] => return none
  | .death d :: l => do
    if (← getDeath d).cookie = cookie then return some d else findDelivered cookie l
  | _ :: l => findDelivered cookie l

/-- `BC_DEAD_BINDER_DONE`. -/
def writeDeadBinderDone (th cookie : Nat) : BinderM Unit := do
  let thread ← getThread th
  match ← findDelivered cookie ((← get).work (.deliveredDeath thread.proc)) with
  | none => return
  | some d =>
    unlinkDeath d
    observe (.deadBinderDone d)
    let death ← getDeath d
    ifThen (death.type = .deadBinderAndClear) do
      putDeath d { death with type := .clearDeathNotification }
      queueDeath d (deathList th thread)

/-! ### Loopers -/

/-- `BC_REGISTER_LOOPER`. -/
def writeRegisterLooper (th : Nat) : BinderM Unit := do
  let thread ← getThread th
  let proc ← getProc thread.proc
  if thread.looper.entered ∨ proc.requestedThreads = 0 then
    putThread th { thread with looper := { thread.looper with invalid := true, registered := true } }
  else
    putProc thread.proc { proc with
      requestedThreads := ← decr proc.requestedThreads
      requestedThreadsStarted := ← incr proc.requestedThreadsStarted }
    putThread th { thread with looper := { thread.looper with registered := true } }

/-- `BC_ENTER_LOOPER`. -/
def writeEnterLooper (th : Nat) : BinderM Unit := do
  let thread ← getThread th
  putThread th { thread with looper := { thread.looper with
    invalid := thread.looper.invalid || thread.looper.registered, entered := true } }

/-- `BC_EXIT_LOOPER`. -/
def writeExitLooper (th : Nat) : BinderM Unit := do
  let thread ← getThread th
  putThread th { thread with looper := { thread.looper with exited := true } }

/-- One round of the loop of `binder_thread_write`. -/
def binderThreadWrite (th : Nat) (cmd : BcCommand) : BinderM Unit := do
  let thread ← getThread th
  match cmd with
  | .increfs target alloc => writeInc thread.proc target false alloc
  | .acquire target alloc => writeInc thread.proc target true alloc
  | .release target => writeDec thread.proc target true
  | .decrefs target => writeDec thread.proc target false
  | .increfsDone ptr cookie => writeDone thread.proc ptr cookie false
  | .acquireDone ptr cookie => writeDone thread.proc ptr cookie true
  | .freeBuffer dataPtr => writeFreeBuffer thread.proc th dataPtr
  | .transaction env tr => do let _ ← binderTransaction env th tr false
  | .reply env tr => do let _ ← binderTransaction env th tr true
  | .registerLooper => writeRegisterLooper th
  | .enterLooper => writeEnterLooper th
  | .exitLooper => writeExitLooper th
  | .requestDeathNotification target cookie alloc => writeRequestDeath th target cookie alloc
  | .clearDeathNotification target cookie => writeClearDeath th target cookie
  | .deadBinderDone cookie => writeDeadBinderDone th cookie

end AndroidKernel.Binder
