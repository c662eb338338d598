import AndroidKernel.Binder.Read

/-!
The file operations of the driver, and its runs.

`Event` lists what can happen: the parts of the system calls that hold
`binder_lock`, the deferred work, and what the rest of the kernel does to the
tasks and wait queues involved. `binderMachine` runs events from the state after
`binder_init`. An event that ends in a fault ends the run.
-/

namespace AndroidKernel.Binder

open Lib

/-! ### Opening and mapping -/

def binderOpen (pid : Nat) : BinderM Unit := do
  let task := (← get).tasks pid
  let p ← created .proc
  putProc p {
    defaultPriority := task.nice
    defaultRtPrio := task.rtPriority
    defaultPolicy := task.policy }

/-- `binder_mmap` of a user area that starts at `vmStart`. -/
def binderMmapProc (p vmStart : Nat) (area : VmArea) (pageArray : Bool) (env : PageEnv) :
    BinderM Unit := do
  let proc ← getProc p
  if proc.alloc.isSome then return
  match binderMmap area pageArray env with
  | .error fault => throw fault
  | .ok none => return
  | .ok (some a) =>
    putProc p { proc with
      alloc := some a
      userBufferOffset := (vmStart + 2 ^ 32 - area.addr) % 2 ^ 32
      files := true }

/-! ### Other ioctls -/

/-- `binder_get_thread`, at the start of every ioctl. -/
def binderGetThread (p pid : Nat) (alloc : Bool) : BinderM Unit := do
  let proc ← getProc p
  if (lookupKey pid proc.threads).isSome || !alloc then return
  let th ← created .thread
  putThread th { proc := p, pid := pid, looper := { needReturn := true } }
  putProc p { proc with threads := insertKey pid th proc.threads }

/-- The end of every ioctl. -/
def ioctlDone (th : Nat) : BinderM Unit := do
  let thread ← getThread th
  putThread th { thread with looper := { thread.looper with needReturn := false } }

/-- `BINDER_SET_MAX_THREADS`. -/
def setMaxThreads (p : Nat) (maxThreads : Int) : BinderM Unit := do
  let proc ← getProc p
  putProc p { proc with maxThreads := maxThreads }

/-- `BINDER_SET_CONTEXT_MGR` by a task with user id `euid`. -/
def setContextMgr (p euid : Nat) (alloc : Bool) : BinderM Unit := do
  let s ← get
  if s.contextMgrNode.isSome || s.contextMgrUid.any (· ≠ euid) then return
  modify fun s => { s with contextMgrUid := some euid }
  match ← binderNewNode p 0 0 alloc with
  | none => return
  | some n =>
    let node ← getNode n
    let weak ← incr node.localWeakRefs
    let strong ← incr node.localStrongRefs
    putNode n { node with
      localWeakRefs := weak
      localStrongRefs := strong
      hasStrongRef := true
      hasWeakRef := true }
    modify fun s => { s with contextMgrNode := some n }

/-! ### Release -/

/-- `binder_deferred_flush`. -/
def flushThreads : List (Nat × Nat) → BinderM Unit
  | [] => return
  | (_, th) :: l => do
    let thread ← getThread th
    putThread th { thread with looper := { thread.looper with needReturn := true } }
    flushThreads l

/-- A death notification is queued on the list of the process that asked for it. -/
def notifyDeath (p d : Nat) : BinderM Unit := do
  let death ← getDeath d
  if death.entry.isSome then throw (.bug .releaseDeathQueued)
  putDeath d { death with type := .deadBinder }
  queueDeath d (.procTodo p)

/-- The references to a node whose process goes: their death notifications are
queued. -/
def notifyDeaths : List Nat → BinderM Unit
  | [] => return
  | r :: l => do
    let ref ← getRef r
    ifSome ref.death (notifyDeath ref.proc)
    notifyDeaths l

/-- A node of a process that is released. -/
def releaseProcNode (p n : Nat) : BinderM Unit := do
  eraseNode p n (← getNode n)
  unlinkNode n
  let node ← getNode n
  if node.refs.isEmpty then freeNode n true
  else
    putNode n { node with proc := none, localStrongRefs := 0, localWeakRefs := 0 }
    notifyDeaths node.refs

/-- A buffer of a process that is released. -/
def releaseProcBuffer (p b : Nat) : BinderM Unit := do
  let h ← getBuffer p b
  ifSome h.transaction (detachBuffer p b)
  freeBuf p b

/-- `rb_first` on one of the trees of a process. -/
def firstOf (tree : BinderProc → List (Nat × Nat)) (p : Nat) : BinderM (Option Nat) := do
  return ((tree (← getProc p)).head?).map Prod.snd

/-- `rb_first(&proc->allocated_buffers)`. -/
def firstBuffer (p : Nat) : BinderM (Option Nat) := do
  return (← getProc p).alloc.bind fun a => a.allocatedBuffers.inorder.head?

/-- The context manager is gone with its process. -/
def dropContextMgr (p : Nat) : BinderM Unit := do
  ifSome (← get).contextMgrNode fun n => do
    let node ← getNode n
    ifThen (node.proc = some p) (modify fun s => { s with contextMgrNode := none })

def binderDeferredRelease (p : Nat) : BinderM Unit := do
  let proc ← getProc p
  if proc.alloc.any (·.vma) then throw (.bug .releaseVma)
  if proc.files then throw (.bug .releaseFiles)
  dropContextMgr p
  drain (firstOf (·.threads) p) binderFreeThread proc.threads.length
  drain (firstOf (·.nodes) p) (releaseProcNode p) (← getProc p).nodes.length
  drain (firstOf (·.refsByDesc) p) binderDeleteRef (← getProc p).refsByDesc.length
  binderReleaseWork (.procTodo p)
  drain (firstBuffer p) (releaseProcBuffer p)
    (((← getProc p).alloc.map fun a => a.buffers.length).getD 0)
  deleted .proc
  modify (·.setProc p none)

/-- One round of `binder_deferred_func`. -/
def binderDeferred (p : Nat) : BinderM Unit := do
  let proc ← getProc p
  putProc p { proc with
    deferredPutFiles := false, deferredFlush := false
    files := proc.files && !proc.deferredPutFiles }
  ifThen (proc.deferredFlush = true) (flushThreads proc.threads)
  ifThen (proc.deferredRelease = true) (binderDeferredRelease p)

/-- `binder_vma_close`. -/
def binderVmaClose (p : Nat) : BinderM Unit := do
  let proc ← getProc p
  putProc p { proc with
    alloc := proc.alloc.map fun a => { a with vma := false }
    deferredPutFiles := true }

/-- `binder_flush`. -/
def binderFlush (p : Nat) : BinderM Unit := do
  let proc ← getProc p
  putProc p { proc with deferredFlush := true }

/-- `binder_release`, when the last reference to the file is gone. -/
def binderRelease (p : Nat) : BinderM Unit := do
  let proc ← getProc p
  putProc p { proc with deferredRelease := true }

/-! ### Runs -/

inductive Event where
  | open (pid : Nat)
  | mmap (p vmStart : Nat) (area : VmArea) (pageArray : Bool) (env : PageEnv)
  | getThread (p pid : Nat) (alloc : Bool)
  | write (th : Nat) (cmd : BcCommand)
  | readStart (th size consumed : Nat) (nonBlock put : Bool)
  | readRetry (th : Nat) (put : Nat → Bool)
  | readEnqueue (th : Nat)
  | leaveQueue (th : Nat)
  | readWake (th : Nat) (success : Bool)
  | readWork (th : Nat) (put : Nat → Bool)
  | ioctlDone (th : Nat)
  | setMaxThreads (p : Nat) (maxThreads : Int)
  | setContextMgr (p euid : Nat) (alloc : Bool)
  | threadExit (th : Nat)
  | vmaClose (p : Nat)
  | flush (p : Nat)
  | release (p : Nat)
  | deferred (p : Nat)
  | setTask (pid : Nat) (task : Task)

def Event.step : Event → BinderM Unit
  | .open pid => binderOpen pid
  | .mmap p vmStart area pageArray env => binderMmapProc p vmStart area pageArray env
  | .getThread p pid alloc => binderGetThread p pid alloc
  | .write th cmd => binderThreadWrite th cmd
  | .readStart th size consumed nonBlock put => Binder.readStart th size consumed nonBlock put
  | .readRetry th put => Binder.readRetry th put
  | .readEnqueue th => Binder.readEnqueue th
  | .leaveQueue th => Binder.leaveQueue th
  | .readWake th success => Binder.readWake th success
  | .readWork th put => Binder.readWork th put
  | .ioctlDone th => Binder.ioctlDone th
  | .setMaxThreads p maxThreads => Binder.setMaxThreads p maxThreads
  | .setContextMgr p euid alloc => Binder.setContextMgr p euid alloc
  | .threadExit th => binderFreeThread th
  | .vmaClose p => binderVmaClose p
  | .flush p => binderFlush p
  | .release p => binderRelease p
  | .deferred p => binderDeferred p
  | .setTask pid task => modify (·.setTask pid task)

/-- The file of `p` is open. -/
def isOpen (s : BinderState) (p : Nat) : Bool := (s.procs p).any fun proc => !proc.deferredRelease

/-- `th` can enter the driver: it is not in a read. -/
def isFree (s : BinderState) (th : Nat) : Bool :=
  (s.threads th).any fun thread => thread.read.isNone && isOpen s thread.proc

/-- `th` is in a read, at the given point. -/
def isReading (s : BinderState) (th : Nat) (phase : ReadPhase) : Bool :=
  (s.threads th).any fun thread => thread.read.any fun read => read.phase == phase

/-- When an event can happen. A read holds the file open, and so does the mapping
of the area; a command is executed only when no error is pending. -/
def Event.canHappen (s : BinderState) : Event → Bool
  | .open _ => true
  | .mmap p .. => isOpen s p
  | .getThread p .. => isOpen s p
  | .write th _ => isFree s th && (s.threads th).any fun thread => thread.returnError == .ok
  | .readStart th .. => isFree s th
  | .readRetry th _ => isReading s th .retry
  | .readEnqueue th => isReading s th .waiting
  | .leaveQueue th => isReading s th .waiting
  | .readWake th _ => isReading s th .waiting
  | .readWork th _ => isReading s th .looping
  | .ioctlDone th => isFree s th
  | .setMaxThreads p _ => isOpen s p
  | .setContextMgr p .. => isOpen s p
  | .threadExit th => isFree s th
  | .vmaClose p => isOpen s p
  | .flush p => isOpen s p
  | .release p => isOpen s p && (s.procs p).any fun proc =>
    !proc.alloc.any (·.vma) && proc.threads.all fun e =>
      (s.threads e.2).all fun thread => thread.read.isNone
  | .deferred p => (s.procs p).isSome
  | .setTask .. => true

/-- The state after `binder_init`. -/
def binderInit : BinderState := {}

def binderMachine : Machine BinderState Event Fault where
  init s := s = binderInit
  enabled s e := e.canHappen s = true
  exec e s := (e.step s).map Prod.snd

end AndroidKernel.Binder
