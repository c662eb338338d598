import AndroidKernel.Binder.Alloc
import AndroidKernel.Lib.Hoare
import AndroidKernel.Lib.Index

/-!
The objects of the binder driver (`drivers/staging/android/binder.c`).

Objects from `kzalloc` are named by numbers that are never used again, and a
table of the state says which of them are allocated: following a pointer to a
freed object is a fault, not a read of something else. The `todo` lists and
`delivered_death` are kept in one table, `work`, by the list head; the other
fields are those of the C structures. Search trees are seen through their
inorder traversal, sorted by key.

The state also has a history, `trace`, of what the driver did and no field of it
shows later. No function reads it.
-/

namespace AndroidKernel.Binder

open Function

/-! ### Values -/

/-- The return codes a thread can have pending; `other` is any other word. -/
inductive BrCode where
  | ok
  | error
  | deadReply
  | transactionComplete
  | failedReply
  | other (code : Nat)
deriving DecidableEq, Repr

/-- Scheduling policies. -/
inductive Policy where
  | normal
  | fifo
  | rr
  | batch
  | idle
deriving DecidableEq, Repr

/-- The fields of `struct task_struct` the driver reads and sets, with the limit
that `can_nice` compares. Real-time priorities are below `MAX_RT_PRIO`. -/
structure Task where
  nice : Int := 0
  policy : Policy := .normal
  rtPriority : Fin 100 := 0
  rlimitNice : Int := 0
  capSysNice : Bool := false
deriving DecidableEq

/-- `rt_task`. -/
def Task.isRt (task : Task) : Bool := task.policy == .fifo || task.policy == .rr

/-- The heads of the lists of work. -/
inductive ListHead where
  | procTodo (proc : Nat)
  | threadTodo (thread : Nat)
  | deliveredDeath (proc : Nat)
deriving DecidableEq, Repr

/-- The heads of the wait queues. -/
inductive WaitHead where
  | procWait (proc : Nat)
  | threadWait (thread : Nat)
deriving DecidableEq, Repr

/-- `struct binder_work`: the object it is part of. -/
inductive Work where
  | transaction (t : Nat)
  | transactionComplete
  | node (n : Nat)
  | death (d : Nat)
deriving DecidableEq, Repr

/-- `work.type` of a `struct binder_ref_death`; `unset` is the zero of `kzalloc`. -/
inductive DeathType where
  | unset
  | deadBinder
  | deadBinderAndClear
  | clearDeathNotification
deriving DecidableEq, Repr

/-- `BINDER_LOOPER_STATE_*`. -/
structure Looper where
  registered : Bool := false
  entered : Bool := false
  exited : Bool := false
  invalid : Bool := false
  waiting : Bool := false
  needReturn : Bool := false
deriving DecidableEq, Repr

def Looper.isLooper (looper : Looper) : Bool := looper.registered || looper.entered

/-! ### Objects -/

/-- `struct binder_node`; `entry` is the list `work.entry` is on. -/
structure BinderNode where
  proc : Option Nat
  entry : Option ListHead := none
  refs : List Nat := []
  internalStrongRefs : Int := 0
  localWeakRefs : Int := 0
  localStrongRefs : Int := 0
  ptr : Nat
  cookie : Nat
  hasStrongRef : Bool := false
  pendingStrongRef : Bool := false
  hasWeakRef : Bool := false
  pendingWeakRef : Bool := false
  hasAsyncTransaction : Bool := false
  acceptFds : Bool := false
  minPriority : Int := 0
  asyncTodo : List Nat := []
deriving DecidableEq

/-- `struct binder_ref`. -/
structure BinderRef where
  proc : Nat
  node : Nat
  desc : Nat
  strong : Int := 0
  weak : Int := 0
  death : Option Nat := none
deriving DecidableEq

/-- `struct binder_ref_death`. -/
structure BinderRefDeath where
  entry : Option ListHead := none
  type : DeathType := .unset
  cookie : Nat
deriving DecidableEq

/-- `struct binder_transaction`. A buffer is named by its process and its
address; `savedRtPrio` is `none` where the source has `MAX_RT_PRIO`. -/
structure BinderTransaction where
  fromThread : Option Nat := none
  fromParent : Option Nat := none
  toProc : Option Nat := none
  toThread : Option Nat := none
  toParent : Option Nat := none
  needReply : Bool := false
  buffer : Option (Nat × Nat) := none
  code : Nat := 0
  flags : Nat := 0
  priority : Int := 0
  savedPriority : Int := 0
  rtPrio : Fin 100 := 0
  policy : Policy := .normal
  savedRtPrio : Option (Fin 100) := none
  savedPolicy : Policy := .normal
deriving DecidableEq

/-- Where a thread is in `binder_thread_read`: at `retry`, waiting without the
lock, or in the loop over work items. -/
inductive ReadPhase where
  | retry
  | waiting
  | looping
deriving DecidableEq, Repr

/-- The locals of `binder_thread_read`; `ptr` counts from the start of the user's
buffer. -/
structure ReadState where
  phase : ReadPhase
  size : Nat
  ptr : Nat
  nonBlock : Bool
  waitForProcWork : Bool := false
deriving DecidableEq, Repr

/-- `struct binder_thread`, with the locals of a read in progress. -/
structure BinderThread where
  proc : Nat
  pid : Nat
  looper : Looper := {}
  transactionStack : Option Nat := none
  returnError : BrCode := .ok
  returnError2 : BrCode := .ok
  read : Option ReadState := none
deriving DecidableEq

/-- `struct binder_proc`; `alloc` is there once the area is mapped. -/
structure BinderProc where
  threads : List (Nat × Nat) := []
  nodes : List (Nat × Nat) := []
  refsByDesc : List (Nat × Nat) := []
  refsByNode : List (Nat × Nat) := []
  alloc : Option BinderAlloc := none
  userBufferOffset : Nat := 0
  files : Bool := false
  deferredPutFiles : Bool := false
  deferredFlush : Bool := false
  deferredRelease : Bool := false
  maxThreads : Int := 0
  requestedThreads : Int := 0
  requestedThreadsStarted : Int := 0
  readyThreads : Int := 0
  defaultPriority : Int
  defaultRtPrio : Fin 100
  defaultPolicy : Policy

/-- What the history records. -/
inductive Obs where
  | oneWaySent (node t : Nat)
  | oneWayDelivered (node t : Nat)
  | boosted (t pid : Nat) (policy : Policy) (rtPriority : Fin 100)
  | deadBinderDone (d : Nat)
  | nodeFreed (n : Nat) (node : BinderNode) (releasing : Bool)
deriving DecidableEq

structure BinderState where
  procs : Nat → Option BinderProc := fun _ => none
  threads : Nat → Option BinderThread := fun _ => none
  nodes : Nat → Option BinderNode := fun _ => none
  refs : Nat → Option BinderRef := fun _ => none
  deaths : Nat → Option BinderRefDeath := fun _ => none
  transactions : Nat → Option BinderTransaction := fun _ => none
  work : ListHead → List Work := fun _ => []
  waiters : WaitHead → List Nat := fun _ => []
  tasks : Nat → Task := fun _ => {}
  contextMgrNode : Option Nat := none
  contextMgrUid : Option Nat := none
  objCreated : ObjectKind → Nat := fun _ => 0
  objDeleted : ObjectKind → Nat := fun _ => 0
  nextId : Nat := 0
  trace : List Obs := []

abbrev BinderM := StateT BinderState (Except Fault)

/-! ### Access -/

/-- Follows a pointer into one of the tables. -/
def deref {α : Type} (kind : ObjectKind) (table : BinderState → Nat → Option α) (i : Nat) :
    BinderM α := do
  match table (← get) i with
  | some object => return object
  | none => throw (.useAfterFree kind)

def getProc (p : Nat) : BinderM BinderProc := deref .proc (·.procs) p
def getThread (th : Nat) : BinderM BinderThread := deref .thread (·.threads) th
def getNode (n : Nat) : BinderM BinderNode := deref .node (·.nodes) n
def getRef (r : Nat) : BinderM BinderRef := deref .ref (·.refs) r
def getDeath (d : Nat) : BinderM BinderRefDeath := deref .death (·.deaths) d
def getTransaction (t : Nat) : BinderM BinderTransaction := deref .transaction (·.transactions) t

def BinderState.setProc (s : BinderState) (p : Nat) (proc : Option BinderProc) : BinderState :=
  { s with procs := update s.procs p proc }

def BinderState.setThread (s : BinderState) (th : Nat) (thread : Option BinderThread) :
    BinderState :=
  { s with threads := update s.threads th thread }

def BinderState.setNode (s : BinderState) (n : Nat) (node : Option BinderNode) : BinderState :=
  { s with nodes := update s.nodes n node }

def BinderState.setRef (s : BinderState) (r : Nat) (ref : Option BinderRef) : BinderState :=
  { s with refs := update s.refs r ref }

def BinderState.setDeath (s : BinderState) (d : Nat) (death : Option BinderRefDeath) :
    BinderState :=
  { s with deaths := update s.deaths d death }

def BinderState.setTransaction (s : BinderState) (t : Nat)
    (transaction : Option BinderTransaction) : BinderState :=
  { s with transactions := update s.transactions t transaction }

def BinderState.setWork (s : BinderState) (h : ListHead) (l : List Work) : BinderState :=
  { s with work := update s.work h l }

def BinderState.setTask (s : BinderState) (pid : Nat) (task : Task) : BinderState :=
  { s with tasks := update s.tasks pid task }

def putProc (p : Nat) (proc : BinderProc) : BinderM Unit := modify (·.setProc p (some proc))
def putThread (th : Nat) (thread : BinderThread) : BinderM Unit :=
  modify (·.setThread th (some thread))
def putNode (n : Nat) (node : BinderNode) : BinderM Unit := modify (·.setNode n (some node))
def putRef (r : Nat) (ref : BinderRef) : BinderM Unit := modify (·.setRef r (some ref))
def putDeath (d : Nat) (death : BinderRefDeath) : BinderM Unit :=
  modify (·.setDeath d (some death))
def putTransaction (t : Nat) (transaction : BinderTransaction) : BinderM Unit :=
  modify (·.setTransaction t (some transaction))

/-- The name of the next object, with its entry in the statistics. -/
def created (kind : ObjectKind) : BinderM Nat := do
  let s ← get
  set { s with
    nextId := s.nextId + 1
    objCreated := update s.objCreated kind (s.objCreated kind + 1) }
  return s.nextId

/-- `binder_stats.obj_deleted[kind]++`. -/
def deleted (kind : ObjectKind) : BinderM Unit :=
  modify fun s => { s with objDeleted := update s.objDeleted kind (s.objDeleted kind + 1) }

def observe (obs : Obs) : BinderM Unit := modify fun s => { s with trace := s.trace ++ [obs] }

/-! ### Counters -/

/-- `INT_MAX`. -/
def intMax : Int := 2 ^ 31 - 1

/-- `x++` on an `int`. -/
def incr (x : Int) : BinderM Int := if intMax ≤ x then throw .intOverflow else return x + 1

/-- `x--` on an `int`. -/
def decr (x : Int) : BinderM Int := if x ≤ -intMax - 1 then throw .intOverflow else return x - 1

/-! ### Lists of work -/

/-- `list_add_tail`. -/
def listAddTail (w : Work) (h : ListHead) : BinderM Unit :=
  modify fun s => s.setWork h (s.work h ++ [w])

/-- `list_del`. -/
def listDel (w : Work) (h : ListHead) : BinderM Unit :=
  modify fun s => s.setWork h ((s.work h).erase w)

/-- `list_add_tail(&node->work.entry, h)`. -/
def queueNode (n : Nat) (h : ListHead) : BinderM Unit := do
  let node ← getNode n
  putNode n { node with entry := some h }
  listAddTail (.node n) h

/-- `list_del_init(&node->work.entry)`. -/
def unlinkNode (n : Nat) : BinderM Unit := do
  let node ← getNode n
  match node.entry with
  | none => return
  | some h =>
    putNode n { node with entry := none }
    listDel (.node n) h

/-- `list_add_tail(&death->work.entry, h)`. -/
def queueDeath (d : Nat) (h : ListHead) : BinderM Unit := do
  let death ← getDeath d
  putDeath d { death with entry := some h }
  listAddTail (.death d) h

/-- `list_del_init(&death->work.entry)`. -/
def unlinkDeath (d : Nat) : BinderM Unit := do
  let death ← getDeath d
  match death.entry with
  | none => return
  | some h =>
    putDeath d { death with entry := none }
    listDel (.death d) h

/-- `while ((x = first)) body(x)`, for loops whose body removes `x`. The fuel is
the number of rounds such a loop takes. -/
def drain {α : Type} (first : BinderM (Option α)) (body : α → BinderM Unit) : Nat → BinderM Unit
  | 0 => do
    match ← first with
    | none => return
    | some _ => throw .endlessLoop
  | fuel + 1 => do
    match ← first with
    | none => return
    | some x =>
      body x
      drain first body fuel

/-! ### Buffers -/

/-- `b` as an allocated buffer of the area of `p`. -/
def getBuffer (p b : Nat) : BinderM BinderBuffer := do
  let proc ← getProc p
  match proc.alloc with
  | none => throw (.useAfterFree .buffer)
  | some a =>
    if b ∈ a.buffers ∧ (a.hdr b).free = false then return a.hdr b
    else throw (.useAfterFree .buffer)

/-- Stores into the header or the data of an allocated buffer. -/
def putBuffer (p b : Nat) (f : BinderBuffer → BinderBuffer) : BinderM Unit := do
  let _ ← getBuffer p b
  let proc ← getProc p
  putProc p { proc with alloc := proc.alloc.map (·.setHdr b f) }

end AndroidKernel.Binder
