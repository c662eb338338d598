import AndroidKernel.Binder.Refs

/-!
The end of transactions and of threads: `binder_pop_transaction`,
`binder_send_failed_reply`, `binder_release_work` and `binder_free_thread`.

A synchronous call lies on the stack of its sender and, once delivered, on the
stack of its receiver; `fromParent` and `toParent` are the rest of the two
stacks. The loops over these links have fuel: a loop that is not done after as
many rounds as there have ever been objects is an endless one.
-/

namespace AndroidKernel.Binder

open Lib

/-- `TF_ONE_WAY`. -/
def isOneWay (flags : Nat) : Bool := flags.testBit 0

/-- `t->buffer->transaction = NULL`, when there is a buffer. -/
def clearBuffer (t : BinderTransaction) : BinderM Unit :=
  ifSome t.buffer fun (p, b) => putBuffer p b fun h => { h with transaction := none }

/-- `kfree(t)`, with its entry in the statistics. -/
def freeTransaction (t : Nat) : BinderM Unit := do
  modify (·.setTransaction t none)
  deleted .transaction

/-- The first part of `binder_pop_transaction`: `t` leaves the stack of its sender. -/
def popStack (t th : Nat) : BinderM Unit := do
  let thread ← getThread th
  if thread.transactionStack ≠ some t then throw (.bug .popTransactionStack)
  let transaction ← getTransaction t
  if transaction.fromThread ≠ some th then throw (.bug .popTransactionFrom)
  putThread th { thread with transactionStack := transaction.fromParent }

def binderPopTransaction (target : Option Nat) (t : Nat) : BinderM Unit := do
  ifSome target (popStack t)
  clearBuffer (← getTransaction t)
  freeTransaction t

/-- A second error code goes to `return_error2`. -/
def BinderThread.makeRoom (thread : BinderThread) : BinderThread :=
  if thread.returnError ≠ .ok ∧ thread.returnError2 = .ok then
    { thread with returnError2 := thread.returnError, returnError := .ok }
  else thread

/-- The loop of `binder_send_failed_reply`: up the `from_parent` links to the
first transaction whose sender is still there. -/
def sendFailedReplyLoop (code : BrCode) : Nat → Nat → BinderM Unit
  | 0, _ => throw .endlessLoop
  | fuel + 1, t => do
    let transaction ← getTransaction t
    match transaction.fromThread with
    | some th =>
      let thread ← getThread th
      putThread th thread.makeRoom
      if thread.makeRoom.returnError = .ok then
        binderPopTransaction (some th) t
        let thread ← getThread th
        putThread th { thread with returnError := code }
    | none =>
      binderPopTransaction none t
      ifSome transaction.fromParent (sendFailedReplyLoop code fuel)

def binderSendFailedReply (t : Nat) (code : BrCode) : BinderM Unit := do
  let transaction ← getTransaction t
  if isOneWay transaction.flags then throw (.bug .failedReplyOneWay)
  sendFailedReplyLoop code ((← get).nextId + 1) t

/-- `list_del_init` on the first entry of a list. -/
def unlinkFirst (h : ListHead) (w : Work) : BinderM Unit := do
  modify fun s => s.setWork h (s.work h).tail
  match w with
  | .node n =>
    let node ← getNode n
    putNode n { node with entry := none }
  | .death d =>
    let death ← getDeath d
    putDeath d { death with entry := none }
  | .transaction _ => return
  | .transactionComplete => return

/-- What `binder_release_work` does with one entry. -/
def releaseWorkItem (w : Work) : BinderM Unit :=
  match w with
  | .transaction t => do
    let transaction ← getTransaction t
    match transaction.buffer with
    | none => throw .nullPointer
    | some (p, b) =>
      let buffer ← getBuffer p b
      ifThen (buffer.targetNode.isSome ∧ isOneWay transaction.flags = false)
        (binderSendFailedReply t .deadReply)
  | .transactionComplete => deleted .transactionComplete
  | .node _ => return
  | .death _ => return

def binderReleaseWork (h : ListHead) : BinderM Unit := do
  drain (do return ((← get).work h).head?) (fun w => do unlinkFirst h w; releaseWorkItem w)
    ((← get).work h).length

/-- The loop of `binder_free_thread` over the stack of the thread. -/
def detachStack (th : Nat) : Nat → Option Nat → BinderM Unit
  | _, none => return
  | 0, some _ => throw .endlessLoop
  | fuel + 1, some t => do
    let transaction ← getTransaction t
    if transaction.toThread = some th then
      clearBuffer transaction
      putTransaction t { transaction with toProc := none, toThread := none, buffer := none }
      detachStack th fuel transaction.toParent
    else if transaction.fromThread = some th then
      putTransaction t { transaction with fromThread := none }
      detachStack th fuel transaction.fromParent
    else throw (.bug .freeThreadStack)

/-- The transaction the thread is working on, if it is the top of its stack. -/
def incomingTop (th : Nat) (stack : Option Nat) : BinderM (Option Nat) :=
  match stack with
  | none => return none
  | some t => do
    let transaction ← getTransaction t
    return if transaction.toThread = some th then some t else none

def binderFreeThread (th : Nat) : BinderM Unit := do
  let thread ← getThread th
  let proc ← getProc thread.proc
  putProc thread.proc { proc with threads := proc.threads.erase (thread.pid, th) }
  let sendReply ← incomingTop th thread.transactionStack
  detachStack th ((← get).nextId + 1) thread.transactionStack
  ifSome sendReply fun t => binderSendFailedReply t .deadReply
  binderReleaseWork (.threadTodo th)
  modify (·.setThread th none)
  deleted .thread

end AndroidKernel.Binder
