import AndroidKernel.Binder.Buffers
import AndroidKernel.Lib.CallStack

/-!
The calls of the driver as nested calls between threads.

A synchronous transaction is a call from the moment it is sent. `Calls s A`
relates the state to an abstract `CallState`: the stack of a thread is the list
of calls that the links of the transactions spell out, a call is queued where
its transaction is listed. It also has what keeps the transactions and their
buffers apart: each points to the other.

`current` is the transaction that `binder_transaction` is about to send, `dying`
the thread that `binder_free_thread` is taking apart.
-/

namespace AndroidKernel.Binder

open Lib

variable {x y : BinderTransaction} {i : Nat}

/-- The thread a list belongs to. -/
def ListHead.owner : ListHead → Option Nat
  | .threadTodo th => some th
  | _ => none

abbrev CallMap := CallState Nat Nat ListHead

structure Calls (s : BinderState) (A : CallMap) (dying current : Option Nat) : Prop where
  transaction_lt : ∀ i t, s.transactions i = some t → i < s.nextId
  thread_lt : ∀ th x, s.threads th = some x → th < s.nextId
  space : Spaces s
  toBuffer : ∀ i t p b, s.transactions i = some t → current ≠ some i → t.buffer = some (p, b) →
    ∃ h, s.buffer p b = some h ∧ h.transaction = some i
  ofBuffer : ∀ p b h i, s.buffer p b = some h → h.transaction = some i →
    ∃ t, s.transactions i = some t ∧ t.buffer = some (p, b)
  /-- Only calls and one-way transactions are for a node. -/
  reply : ∀ i t p b h, s.transactions i = some t → current ≠ some i → t.needReply = false →
    isOneWay t.flags = false → t.buffer = some (p, b) → s.buffer p b = some h →
    h.targetNode = none
  call : ∀ i t p b h, s.transactions i = some t → t.needReply = true → t.buffer = some (p, b) →
    s.buffer p b = some h → h.targetNode ≠ none
  noCall : ∀ i t, s.transactions i = some t → current ≠ some i → t.needReply = false →
    t.fromThread = none ∧ t.fromParent = none
  twoWay : ∀ i t, s.transactions i = some t → t.needReply = true → isOneWay t.flags = false
  unsent : ∀ i, current = some i → ∀ t, s.transactions i = some t → t.needReply = false
  newest : ∀ i, current = some i → ∀ j t, s.transactions j = some t → j ≤ i
  listed_lt : ∀ h i, .transaction i ∈ s.work h → i < s.nextId ∧ current ≠ some i
  async_lt : ∀ n node i, s.nodes n = some node → i ∈ node.asyncTodo →
    i < s.nextId ∧ current ≠ some i ∧ ¬A.live i
  live : ∀ i, A.live i ↔ ∃ t, s.transactions i = some t ∧ t.needReply = true
  links : ∀ i t, s.transactions i = some t → t.needReply = true →
    t.fromThread = A.caller i ∧ t.fromParent = A.parent i
  alive : ∀ th, A.alive th ↔ (∃ x, s.threads th = some x) ∧ dying ≠ some th
  stack : ∀ th x, s.threads th = some x → dying ≠ some th → x.transactionStack = (A.stack th).head?
  active : ∀ th pre i rest t, A.stack th = pre ++ i :: rest → A.place i = .active th →
    s.transactions i = some t → t.toThread = some th ∧ t.toParent = rest.head?
  away : ∀ th i t, i ∈ A.stack th → A.place i ≠ .active th → s.transactions i = some t →
    t.toThread ≠ some th
  queued : ∀ h i, A.live i → A.place i = .queued h → (s.work h).count (.transaction i) = 1
  unqueued : ∀ h i, A.live i → A.place i ≠ .queued h → (s.work h).count (.transaction i) = 0
  waits : ∀ th x, s.threads th = some x → x.waitsForProc = true → x.transactionStack = none
  inv : A.Inv ListHead.owner dying

attribute [grind →] Calls.transaction_lt Calls.thread_lt Calls.toBuffer Calls.ofBuffer Calls.reply
  Calls.call Calls.noCall Calls.twoWay Calls.unsent Calls.newest Calls.listed_lt Calls.async_lt
  Calls.links Calls.stack Calls.active Calls.away Calls.queued Calls.unqueued Calls.waits

/-! ### Steps that leave the calls alone -/

/-- Transactions that differ at most in their buffer and in what they save. -/
structure BinderTransaction.SameCall (x y : BinderTransaction) : Prop where
  needReply : x.needReply = y.needReply
  flags : x.flags = y.flags
  fromThread : x.fromThread = y.fromThread
  fromParent : x.fromParent = y.fromParent
  toThread : x.toThread = y.toThread
  toParent : x.toParent = y.toParent

theorem BinderTransaction.SameCall.refl (x : BinderTransaction) : x.SameCall x :=
  ⟨rfl, rfl, rfl, rfl, rfl, rfl⟩

theorem BinderTransaction.core_buffer (same : x.core = y.core) : x.buffer = y.buffer :=
  (congrArg BinderTransaction.buffer same :)

theorem BinderTransaction.core_fields (same : x.core = y.core) : x.SameCall y where
  needReply := (congrArg BinderTransaction.needReply same :)
  flags := (congrArg BinderTransaction.flags same :)
  fromThread := (congrArg BinderTransaction.fromThread same :)
  fromParent := (congrArg BinderTransaction.fromParent same :)
  toThread := (congrArg BinderTransaction.toThread same :)
  toParent := (congrArg BinderTransaction.toParent same :)

section Frame

attribute [local grind →] BinderTransaction.core_buffer BinderTransaction.core_fields
  BinderThread.core_stack
attribute [local grind →] BinderTransaction.SameCall.needReply BinderTransaction.SameCall.flags
  BinderTransaction.SameCall.fromThread BinderTransaction.SameCall.fromParent
  BinderTransaction.SameCall.toThread BinderTransaction.SameCall.toParent

variable {s t : BinderState} {A : CallMap} {dying current : Option Nat}

section

variable (frame : CallFrame s t)
include frame

theorem CallFrame.buffer (p b : Nat) :
    (t.buffer p b).map BinderBuffer.shape = (s.buffer p b).map BinderBuffer.shape := by
  rw [buffer_space, buffer_space, frame.spaces p]

@[grind →]
theorem CallFrame.thread {th : Nat} {x : BinderThread} (found : t.threads th = some x) :
    ∃ y, s.threads th = some y ∧ x.core = y.core :=
  exists_of_map_eq (frame.threads th) found

@[grind →]
theorem CallFrame.transaction (found : t.transactions i = some x) :
    ∃ y, s.transactions i = some y ∧ x.core = y.core :=
  exists_of_map_eq (frame.transactions i) found

@[grind →]
theorem CallFrame.symm_thread {th : Nat} {y : BinderThread} (found : s.threads th = some y) :
    ∃ x, t.threads th = some x ∧ x.core = y.core := by
  obtain ⟨x, present, core⟩ := exists_of_map_eq (frame.threads th).symm found
  exact ⟨x, present, core.symm⟩

@[grind →]
theorem CallFrame.symm_transaction (found : s.transactions i = some y) :
    ∃ x, t.transactions i = some x ∧ x.core = y.core := by
  obtain ⟨x, present, core⟩ := exists_of_map_eq (frame.transactions i).symm found
  exact ⟨x, present, core.symm⟩

@[grind →]
theorem CallFrame.buffer_some {p b : Nat} {h : BinderBuffer} (found : t.buffer p b = some h) :
    ∃ h', s.buffer p b = some h' ∧
      h.transaction = h'.transaction ∧ h.targetNode = h'.targetNode := by
  obtain ⟨h', present, shape⟩ := exists_of_map_eq (frame.buffer p b) found
  exact ⟨h', present, (congrArg BinderBuffer.transaction shape :),
    (congrArg BinderBuffer.targetNode shape :)⟩

@[grind →]
theorem CallFrame.symm_buffer {p b : Nat} {h : BinderBuffer} (found : s.buffer p b = some h) :
    ∃ h', t.buffer p b = some h' ∧
      h'.transaction = h.transaction ∧ h'.targetNode = h.targetNode := by
  obtain ⟨h', present, shape⟩ := exists_of_map_eq (frame.buffer p b).symm found
  exact ⟨h', present, (congrArg BinderBuffer.transaction shape.symm :),
    (congrArg BinderBuffer.targetNode shape.symm :)⟩

end

/-- The rule for steps that change neither the stacks nor the lists: transactions
keep what makes them calls, and buffers and transactions still match. -/
theorem Calls.rebuffer (calls : Calls s A dying current)
    (only : t = { s with procs := t.procs, transactions := t.transactions })
    (back : ∀ i x, t.transactions i = some x → ∃ y, s.transactions i = some y ∧ x.SameCall y)
    (forth : ∀ i y, s.transactions i = some y → ∃ x, t.transactions i = some x ∧ x.SameCall y)
    (space : Spaces t)
    (toBuffer : ∀ i x p b, t.transactions i = some x → current ≠ some i →
      x.buffer = some (p, b) → ∃ h, t.buffer p b = some h ∧ h.transaction = some i)
    (ofBuffer : ∀ p b h i, t.buffer p b = some h → h.transaction = some i →
      ∃ x, t.transactions i = some x ∧ x.buffer = some (p, b))
    (reply : ∀ i x p b h, t.transactions i = some x → current ≠ some i → x.needReply = false →
      isOneWay x.flags = false → x.buffer = some (p, b) → t.buffer p b = some h →
      h.targetNode = none)
    (call : ∀ i x p b h, t.transactions i = some x → x.needReply = true → x.buffer = some (p, b) →
      t.buffer p b = some h → h.targetNode ≠ none) : Calls t A dying current := by
  have threads : ∀ th, t.threads th = s.threads th := fun _ => by rw [only]
  have nodes : ∀ n, t.nodes n = s.nodes n := fun _ => by rw [only]
  have work : ∀ h, t.work h = s.work h := fun _ => by rw [only]
  have nextId : t.nextId = s.nextId := by rw [only]
  clear only
  constructor
  case space => exact space
  case inv => exact calls.inv
  all_goals grind -linarith [calls.live, calls.alive]

theorem Calls.frame (calls : Calls s A dying current) (frame : CallFrame s t) :
    Calls t A dying current := by
  have space : Spaces t := by
    constructor
    · intro p proc found
      obtain ⟨proc', present, _⟩ := exists_of_map_eq (frame.spaces p) found
      exact lt_of_lt_of_le (calls.space.proc_lt present) frame.nextId
    · intro p proc a found alloc
      obtain ⟨proc', present, space⟩ := exists_of_map_eq (frame.spaces p) found
      obtain ⟨a', alloc', shape⟩ := exists_of_map_eq space alloc
      exact (calls.space.inv present alloc').of_shape shape
  have listed : ∀ h i, .transaction i ∈ t.work h → .transaction i ∈ s.work h := by
    intro h i mem
    rw [← List.one_le_count_iff, ← frame.calls h i, List.one_le_count_iff]
    exact mem
  have nextId := frame.nextId
  have nodes := frame.nodes
  have counts := frame.calls
  have waits := frame.waits
  constructor
  case space => exact space
  case inv => exact calls.inv
  all_goals grind -linarith [calls.live, calls.alive]

end Frame

theorem Calls.needReply {s : BinderState} {A : CallMap} {dying current : Option Nat}
    (calls : Calls s A dying current) (live : A.live i)
    (found : s.transactions i = some x) : x.needReply = true := by
  obtain ⟨y, present, needReply⟩ := (calls.live i).mp live
  rw [found] at present
  cases present
  exact needReply

end AndroidKernel.Binder
