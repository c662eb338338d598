import AndroidKernel.Binder.CallSteps

/-!
The calls along the functions of the driver.
-/

namespace AndroidKernel.Binder

open Lib Function

variable {s : BinderState} {A : CallMap} {dying current : Option Nat} {i p th : Nat} {x :
  BinderTransaction} {code : BrCode} {y : BinderThread}

/-! ### The end of calls -/

/-- `i` is a call nobody works on and during which no other was made. -/
structure Ending (A : CallMap) (i : Nat) : Prop where
  live : A.live i
  childless : ∀ c, ¬A.Child i c
  gone : A.place i = .gone

theorem clearBuffer_nextId : (s.clearBuffer x).nextId = s.nextId := by
  rw [clearBuffer_eq]

/-- The state after `binder_pop_transaction`. -/
theorem Calls.pop {deleted : ObjectKind → Nat}
    (calls : Calls s A dying current) (found : s.transactions i = some x)
    (ending : Ending A i) (other : current ≠ some i) :
    Calls { s.clearBuffer x with
      transactions := update s.transactions i none
      threads := s.popped x
      objDeleted := deleted } (A.finish i) dying current := by
  obtain ⟨y, found', needReply⟩ := (calls.live i).mp ending.live
  rw [found] at found'
  cases found'
  have finished := (calls.dropBuffer found other).finish (x := { x with buffer := none })
    (by simp) needReply rfl ending.childless (by simp [ending.gone])
  have table : (s.clearBuffer x).transactions = s.transactions := by rw [clearBuffer_eq]
  have threads : (s.clearBuffer x).threads = s.threads := by rw [clearBuffer_eq]
  simp only [BinderState.setTransaction, table, update_idem, BinderState.popped,
    threads] at finished
  exact { finished with }

/-- `binder_pop_transaction` on a call that ends, for the sender it still has. -/
theorem binderPopTransaction_calls (calls : Calls s A dying current)
    (ending : Ending A i) (other : current ≠ some i) :
    wp (binderPopTransaction (A.caller i) i) (fun _ t => Calls t (A.finish i) dying current ∧
      t.nextId = s.nextId) Safe s := by
  obtain ⟨x, found, needReply⟩ := (calls.live i).mp ending.live
  obtain ⟨caller, parent⟩ := calls.links i x found needReply
  -- What is left once the sender's stack is done.
  have rest : wp (do clearBuffer (← getTransaction i); freeTransaction i)
      (fun _ t => Calls t (A.finish i) dying current ∧ t.nextId = s.nextId) Safe
      { s with threads := s.popped x } := by
    unfold freeTransaction
    simp only [wp_bind, wp_getTransaction, and_freed]
    intro y found'
    have same : x = y := Option.some.inj (found.symm.trans found')
    subst same
    apply wp_clearBuffer
    have state : BinderState.clearBuffer { s with threads := s.popped x } x =
        { s.clearBuffer x with threads := s.popped x } := by
      unfold BinderState.clearBuffer
      cases x.buffer <;> rfl
    have table : (s.clearBuffer x).transactions = s.transactions := by rw [clearBuffer_eq]
    simp only [wp_modify, wp_deleted, state, BinderState.setTransaction, table]
    exact ⟨calls.pop found ending other, clearBuffer_nextId⟩
  unfold binderPopTransaction
  rw [wp_bind, wp_ifSome]
  refine ⟨fun isNone => ?_, fun th isSome => ?_⟩
  · have same : s.popped x = s.threads := by simp [BinderState.popped, caller, isNone]
    rw [same] at rest
    exact rest
  have top := calls.inv.top_of_childless (calls.inv.caller_mem i th ending.live isSome).2
    ending.childless
  have alive := (calls.inv.caller_mem i th ending.live isSome).1
  unfold popStack
  simp only [wp_bind, wp_getThread, wp_getTransaction, and_freed, wp_ite, wp_throw, wp_putThread]
  intro thread present
  have stack := calls.stack th thread present ((calls.alive th).mp alive).2
  refine ⟨fun differs => absurd (stack.trans top) differs, fun _ y found' => ?_⟩
  rw [found] at found'
  cases found'
  refine ⟨fun differs => absurd (caller.trans isSome) differs, fun _ => ?_⟩
  have same : s.popped x =
      update s.threads th (some { thread with transactionStack := x.fromParent }) := by
    simp [BinderState.popped, caller, isSome, present]
  rw [same] at rest
  simp only [wp_bind, wp_getTransaction, and_freed] at rest
  exact rest

/-- After the end of a call, the call it was made for ends too if its own sender is
gone. -/
theorem Ending.parent (ending : Ending A i)
    (inv : A.Inv ListHead.owner dying) (caller : A.caller i = none) (parent : A.parent i = some p) :
    Ending (A.finish i) p := by
  have child : A.Child p i := ⟨ending.live, parent⟩
  obtain ⟨live, lt, _⟩ := inv.parent_live i p child
  refine ⟨by simpa [CallState.finish, lt.ne] using live, ?_, (inv.child_caller i p child).2 caller⟩
  rintro c ⟨isLive, isParent⟩
  by_cases isI : c = i
  · simp [CallState.finish, isI] at isLive
  · exact isI (inv.only_child c i p ⟨by simpa [CallState.finish, isI] using isLive, isParent⟩ child)

/-- The program keeps the calls, and its faults are none of the stacks. -/
abbrev KeepsCalls {α : Type} (dying : Option Nat) (m : BinderM α) (s : BinderState) : Prop :=
  wp m (fun _ t => ∃ A', Calls t A' dying none) Safe s

theorem Calls.keeps {α : Type} {m : BinderM α} (calls : Calls s A dying none)
    (moves : Moves CallFrame Safe m) : KeepsCalls dying m s :=
  (moves s).returns fun _ _ frame => ⟨A, calls.frame frame⟩

theorem sendFailedReplyLoop_calls {fuel : Nat} (calls : Calls s A dying none)
    (ending : Ending A i) :
    KeepsCalls dying (sendFailedReplyLoop code fuel i) s := by
  induction fuel generalizing s A i with
  | zero => simp [sendFailedReplyLoop]
  | succ fuel ih =>
    obtain ⟨x, found, needReply⟩ := (calls.live i).mp ending.live
    obtain ⟨caller, parent⟩ := calls.links i x found needReply
    have popped := binderPopTransaction_calls calls ending (by simp)
    unfold sendFailedReplyLoop
    refine deref_then fun y found' => ?_
    rw [found] at found'
    cases found'
    rw [caller]
    cases sender : A.caller i with
    | none =>
      rw [sender] at popped
      rw [wp_bind]
      refine popped.returns fun _ t finished => ?_
      rw [wp_ifSome, parent]
      refine ⟨fun _ => ⟨_, finished.1⟩, fun p isParent => ?_⟩
      exact ih finished.1 (ending.parent calls.inv sender isParent)
    | some th =>
      simp only [wp_bind, wp_getThread, and_freed, wp_putThread, wp_ite, wp_pure]
      intro thread present
      have frame : CallFrame s (s.setThread th (some thread.makeRoom)) := by
        refine .setThread present ?_ fun waits => .inr ?_
        · unfold BinderThread.makeRoom
          split <;> rfl
        · unfold BinderThread.makeRoom at waits
          split at waits <;> exact waits
      have calls' := calls.frame frame
      refine ⟨fun _ => ?_, fun _ => ⟨_, calls'⟩⟩
      have popped := binderPopTransaction_calls calls' ending (by simp)
      rw [sender] at popped
      refine popped.returns fun _ t finished thread' present' => ?_
      exact ⟨_, finished.1.frame (.setThread present' rfl .inr)⟩

theorem binderSendFailedReply_calls (calls : Calls s A dying none) (ending : Ending A i) :
    KeepsCalls dying (binderSendFailedReply i code) s := by
  unfold binderSendFailedReply
  simp only [wp_bind, wp_getTransaction, and_freed, wp_ite, wp_throw, avoids_bug, wp_get]
  exact fun _ _ => ⟨fun _ => by decide, fun _ => sendFailedReplyLoop_calls calls ending⟩

theorem failTransaction_calls {failure : Failure} (calls : Calls s A none none)
    (ending : ∀ i, failure.inReplyTo = some i → Ending A i) :
    KeepsCalls none (failTransaction th failure) s := by
  unfold failTransaction
  simp only [wp_bind, wp_getThread, and_freed, wp_ite, wp_throw, avoids_bug]
  intro thread present
  refine ⟨fun _ => by decide, fun _ => ?_⟩
  cases inReplyTo : failure.inReplyTo with
  | none => exact ⟨A, calls.frame (.setThread present rfl .inr)⟩
  | some i =>
    have frame : CallFrame s (s.setThread th (some
        { thread with returnError := .transactionComplete })) := .setThread present rfl .inr
    exact binderSendFailedReply_calls (calls.frame frame) (ending i inReplyTo)

/-! ### The target of a transaction -/

/-- Where a call on the stack of `th` is, by the links of its transaction. -/
theorem Calls.toThread_iff (calls : Calls s A none current)
    (mem : i ∈ A.stack th) (found : s.transactions i = some x) :
    x.toThread = some th ↔ A.place i = .active th := by
  constructor
  · intro toThread
    by_contra notActive
    exact calls.away th i x mem notActive found toThread
  · intro active
    obtain ⟨pre, rest, stack⟩ := List.append_of_mem mem
    exact (calls.active th pre i rest x stack active found).1

/-- What the target of a reply is: the sender of a call that ends. -/
def ReplyReady (A : CallMap) (result : Except Failure Target) : Prop :=
  match result with
  | .error failure => ∀ i, failure.inReplyTo = some i → Ending A i
  | .ok target => target.node = none ∧ ∃ i, target.inReplyTo = some i ∧ Ending A i ∧
      target.thread = A.caller i

theorem replyTarget_calls (calls : Calls s A none none) :
    wp (replyTarget th) (fun result t => (∃ A', Calls t A' none none ∧ ReplyReady A' result) ∧
      (t.threads th).map BinderThread.waitsForProc = (s.threads th).map BinderThread.waitsForProc)
      Safe s := by
  unfold replyTarget
  refine deref_then fun thread present => ?_
  cases top : thread.transactionStack with
  | none => exact ⟨⟨A, calls, by simp [ReplyReady]⟩, rfl⟩
  | some i =>
    simp only [wp_bind, wp_getTransaction, and_freed]
    intro x found
    refine (restoreSched_tasks s).returns ?_
    rintro _ _ ⟨tasks, rfl⟩
    have calls' : Calls { s with tasks := tasks } A none none := { calls with }
    simp only [wp_ite, wp_pure, wp_bind, wp_putThread]
    refine ⟨fun _ => ⟨⟨A, calls', by simp [ReplyReady]⟩, trivial⟩, fun addressed => ?_⟩
    have isTop : (A.stack th).head? = some i :=
      (calls.stack th thread present (by simp)).symm.trans top
    have mem := List.mem_of_head? isTop
    have live := calls.inv.stack_live th i mem
    have toThread : x.toThread = some th := by simpa using addressed
    have active := (calls.toThread_iff mem found).mp toThread
    have left := calls'.leave present isTop active found
    have ending : Ending (A.leave th i) i :=
      ⟨live, calls.inv.childless_of_top isTop active, by simp [CallState.leave]⟩
    have sender := (calls.links i x found (calls.needReply live found)).1
    have waits : (update s.threads th (some { thread with
        transactionStack := x.toParent }) th).map BinderThread.waitsForProc =
        (s.threads th).map BinderThread.waitsForProc := by
      rw [update_self, present]
      rfl
    cases fromThread : x.fromThread with
    | none =>
      refine ⟨⟨_, left, fun j isJ => ?_⟩, waits⟩
      cases isJ
      exact ending
    | some th' =>
      simp only [wp_bind, wp_getThread, and_freed, wp_ite, wp_pure]
      intro target _
      refine ⟨fun _ => ⟨⟨_, left, by simp [ReplyReady]⟩, waits⟩, fun _ => ⟨⟨_, left, ?_⟩, waits⟩⟩
      exact ⟨rfl, i, rfl, ending, fromThread.symm.trans sender⟩

/-- What the search through the senders finds: one that made a call from which `u`
descends. -/
theorem routeThread_calls {targetProc u fuel : Nat} {start found : Option Nat}
    (calls : Calls s A dying current)
    (above : ∀ t, start = some t → Relation.ReflTransGen A.Child t u ∧ A.live t) :
    wp (routeThread targetProc fuel start found) (fun result t => t = s ∧ ∀ y, result = some y →
      found = some y ∨ ∃ b, Relation.ReflTransGen A.Child b u ∧ A.live b ∧ A.caller b = some y)
      Safe s := by
  induction fuel generalizing start found with
  | zero =>
    cases start with
    | none => exact ⟨rfl, fun y same => .inl same⟩
    | some t => simp [routeThread]
  | succ fuel ih =>
    cases start with
    | none => exact ⟨rfl, fun y same => .inl same⟩
    | some t =>
      obtain ⟨path, live⟩ := above t rfl
      unfold routeThread
      refine deref_then fun x present => ?_
      obtain ⟨caller, parent⟩ := calls.links t x present (calls.needReply live present)
      have next : ∀ p, x.fromParent = some p → Relation.ReflTransGen A.Child p u ∧ A.live p := by
        intro p isParent
        have child : A.Child p t := ⟨live, parent.symm.trans isParent⟩
        exact ⟨.head child path, (calls.inv.parent_live t p child).1⟩
      cases sender : x.fromThread with
      | none => exact ih next
      | some th =>
        refine deref_then fun thread _ => ?_
        refine (ih next).returns ?_
        rintro result t' ⟨same, finds⟩
        refine ⟨same, fun y isY => ?_⟩
        rcases finds y isY with chosen | other
        · grind
        · exact .inr other

/-- What the target of a call is: a node, and a thread only if a call comes back to
it. -/
def CallReady (A : CallMap) (th : Nat) (oneWay : Bool) (result : Except Failure Target) : Prop :=
  match result with
  | .error failure => failure.inReplyTo = none
  | .ok target => target.inReplyTo = none ∧ target.node ≠ none ∧
      (oneWay = true → target.thread = none) ∧
      (oneWay = false → (∀ u, (A.stack th).head? = some u → A.place u = .active th) ∧
        ∀ y, target.thread = some y → ∃ b u, (A.stack th).head? = some u ∧
          Relation.ReflTransGen A.Child b u ∧ A.live b ∧ A.caller b = some y)

theorem targetNode_pure {handle : Nat} {sites : List BugSite} :
    wp (targetNode p handle) (fun result t => t = s ∧ ∀ failure, result = .error failure →
      failure.inReplyTo = none) (Avoids sites) s := by
  unfold targetNode
  simp only [wp_ite]
  refine ⟨fun _ => ?_, fun _ => ?_⟩
  · simp only [wp_bind, wp_binderGetRef, and_freed]
    intro proc _
    cases lookupKey handle proc.refsByDesc with
    | none | some => simp
  · simp only [wp_bind, wp_get]
    cases s.contextMgrNode <;> simp

theorem callTarget_calls {tr : TransactionData} (calls : Calls s A none none) :
    wp (callTarget th tr) (fun result t => t = s ∧ CallReady A th (isOneWay tr.flags) result) Safe
      s := by
  unfold callTarget
  simp only [wp_bind, wp_getThread, and_freed]
  intro thread present
  refine targetNode_pure.returns ?_
  rintro (failure | n) _ ⟨rfl, failures⟩
  · exact ⟨rfl, failures failure rfl⟩
  refine deref_then fun node _ => ?_
  cases node.proc with
  | none => exact ⟨rfl, rfl⟩
  | some targetProc =>
    simp only [wp_ite, wp_pure, true_and]
    refine ⟨fun oneWay => ⟨rfl, by simp, by simp, by simp [oneWay]⟩, fun twoWay => ?_⟩
    have twoWay : isOneWay tr.flags = false := by simpa using twoWay
    have stack := calls.stack th thread present (by simp)
    cases top : thread.transactionStack with
    | none =>
      rw [top] at stack
      exact ⟨rfl, rfl, by simp, by simp, by simp [← stack]⟩
    | some t =>
      rw [top] at stack
      simp only [wp_bind, wp_getTransaction, and_freed, wp_ite, wp_pure, wp_get, true_and]
      intro x found
      refine ⟨fun _ => rfl, fun addressed => ?_⟩
      have mem := List.mem_of_head? stack.symm
      have live := calls.inv.stack_live th t mem
      have active := (calls.toThread_iff mem found).mp (by simpa using addressed)
      have search : ∀ t', some t = some t' → Relation.ReflTransGen A.Child t' t ∧ A.live t' := by
        rintro t' same
        cases same
        exact ⟨.refl, live⟩
      refine (routeThread_calls calls search).returns ?_
      rintro result t' ⟨same, finds⟩
      refine ⟨same, rfl, by simp, by simp [twoWay], fun _ => ⟨fun u isTop => ?_, fun y isY => ?_⟩⟩
      · rw [← stack] at isTop
        cases isTop
        exact active
      · rcases finds y isY with impossible | ⟨b, path, liveB, caller⟩
        · cases impossible
        · exact ⟨b, t, stack.symm, path, liveB, caller⟩

/-! ### Sending -/

section Sending

variable {env : TransactionEnv} {b : Nat} {target : Target} {tr : TransactionData}

/-- What `binder_transaction` knows about its target when it starts to send. -/
def Ready (A : CallMap) (th : Nat) (target : Target) (oneWay : Bool) : Prop :=
  ReplyReady A (.ok target) ∨ (CallReady A th oneWay (.ok target) ∧ target.thread ≠ some th)

theorem Ready.ending {oneWay : Bool} (ready : Ready A th target oneWay) :
    ∀ j, target.inReplyTo = some j → Ending A j := by
  intro j inReplyTo
  rcases ready with ⟨_, k, isK, ending, _⟩ | ⟨⟨isNone, _⟩, _⟩
  · rw [isK] at inReplyTo
    cases inReplyTo
    exact ending
  · rw [isNone] at inReplyTo
    cases inReplyTo

/-- Transaction `i` is in the making, its buffer is `b`. -/
structure InFlight (s : BinderState) (A : CallMap) (i th b : Nat) (target : Target)
    (tr : TransactionData) : Prop where
  calls : Calls s A none (some i)
  transaction : ∃ x, s.transactions i = some x ∧ x.fromThread =
    (if target.inReplyTo.isNone && !isOneWay tr.flags then some th else none) ∧
    x.fromParent = none ∧ x.toThread = target.thread ∧ x.flags = tr.flags ∧
    x.buffer = some (target.proc, b)
  buffer : ∃ h, s.buffer target.proc b = some h ∧ h.transaction = some i ∧
    h.targetNode = target.node
  thread : ∃ y, s.threads th = some y ∧ y.waitsForProc = false

theorem InFlight.frame {t : BinderState} (flight : InFlight s A i th b target tr)
    (frame : Frame s t) : InFlight t A i th b target tr where
  calls := flight.calls.frame frame.callFrame
  transaction := by
    rw [frame.transactions]
    exact flight.transaction
  buffer := by
    obtain ⟨h, inSpace, points, node⟩ := flight.buffer
    obtain ⟨h', inSpace', points', node'⟩ := frame.callFrame.symm_buffer inSpace
    exact ⟨h', inSpace', points'.trans points, node'.trans node⟩
  thread := by
    rw [frame.threads]
    exact flight.thread

/-- The list `target` is served from. -/
def Target.todo (target : Target) : ListHead :=
  match target.thread with
  | some y => .threadTodo y
  | none => .procTodo target.proc

theorem Target.todo_owner : target.todo.owner = target.thread := by
  unfold Target.todo
  cases target.thread <;> rfl

theorem sendTo_calls
    (calls : Calls (s.setWork target.todo (s.work target.todo ++ [.transaction i])) A none none) :
    KeepsCalls none (sendTo env i th target) s := by
  -- Both kinds of target differ only in the list and the wait queue.
  have send : ∀ list wait exclusive,
      Calls (s.setWork list (s.work list ++ [.transaction i])) A none none →
      KeepsCalls none (do
        listAddTail (.transaction i) list
        listAddTail .transactionComplete (.threadTodo th)
        wakeWaiters env i wait exclusive ((← get).waiters wait)) s := by
    intro list wait exclusive calls
    exact wakeWaiters_callFrame.after (CallFrame.setWork fun j => by simp [List.count_append])
      fun _ _ framed => ⟨A, calls.frame framed⟩
  unfold Target.todo at calls
  unfold sendTo
  cases thread : target.thread with
  | none | some =>
    rw [thread] at calls
    exact send _ _ _ calls

section

variable (flight : InFlight s A i th b target tr)

include flight

/-- The reply is sent: the call it answers ends. -/
theorem InFlight.commitReply {call : Nat}
    (inReplyTo : target.inReplyTo = some call) (node : target.node = none)
    (ending : Ending A call) (caller : target.thread = A.caller call) :
    KeepsCalls none (do binderPopTransaction target.thread call; sendTo env i th target) s := by
  obtain ⟨x, found, fromThread, fromParent, _, _, buffer⟩ := flight.transaction
  obtain ⟨h, inSpace, points, targetNode⟩ := flight.buffer
  have noReply := flight.calls.unsent i rfl x found
  have calls : Calls s A none none := by
    refine flight.calls.settle found (fun p c back => ?_) (fun _ p c h' back inSpace' => ?_)
      ⟨by rw [fromThread, inReplyTo]; rfl, fromParent⟩
    · rw [buffer] at back
      cases back
      exact ⟨h, inSpace, points⟩
    · rw [buffer] at back
      cases back
      rw [inSpace] at inSpace'
      cases inSpace'
      exact targetNode.trans node
  have dead : ¬A.live i := by
    intro live
    rw [calls.needReply live found] at noReply
    cases noReply
  rw [KeepsCalls, wp_bind, caller]
  refine (binderPopTransaction_calls calls ending (by simp)).returns ?_
  rintro _ t ⟨finished, same⟩
  refine sendTo_calls (finished.enqueue ?_ (by simp) ?_)
  · rw [same]
    exact calls.transaction_lt i x found
  · intro live
    by_cases isCall : i = call
    · simp [CallState.finish, isCall] at live
    · exact dead (by simpa [CallState.finish, isCall] using live)

/-- The call is sent: it is on top of the stack of its sender. -/
theorem InFlight.commitCall (twoWay : isOneWay tr.flags = false)
    (ready : CallReady A th false (.ok target)) (notSelf : target.thread ≠ some th)
    (found : s.transactions i = some x) (present : s.threads th = some y) :
    KeepsCalls none (sendTo env i th target)
      ((s.setTransaction i (some
        { x with needReply := true, fromParent := y.transactionStack })).setThread th (some
          { y with transactionStack := some i })) := by
  obtain ⟨inReplyTo, node, _, isCall⟩ := ready
  obtain ⟨top, routed⟩ := isCall rfl
  obtain ⟨x', found', fromThread, _, toThread, flags, buffer⟩ := flight.transaction
  rw [found] at found'
  cases found'
  obtain ⟨h, inSpace, points, targetNode⟩ := flight.buffer
  obtain ⟨y', present', free⟩ := flight.thread
  rw [present] at present'
  cases present'
  have pushed := flight.calls.push (h := target.todo) found present
    (by rw [fromThread, inReplyTo, twoWay]; rfl) (by rw [flags]; exact twoWay) free
    (fun p c back => by
      rw [buffer] at back
      cases back
      exact ⟨h, inSpace, points, by rw [targetNode]; exact node⟩)
    top (by rw [toThread]; exact notSelf) (fun z isZ => by
      rw [Target.todo_owner] at isZ
      obtain ⟨c, u, isTop, path, live, caller⟩ := routed z isZ
      have ne : z ≠ th := by
        rintro rfl
        exact notSelf isZ
      obtain ⟨alive, v, isTop', caller', path'⟩ :=
        flight.calls.inv.route isTop (top u isTop) path live caller ne
      exact ⟨alive, ne, v, u, isTop', caller', isTop, path'⟩)
  exact sendTo_calls pushed

/-- The one-way transaction is no call. -/
theorem InFlight.settleOneWay (oneWay : isOneWay tr.flags = true) :
    Calls s A none none ∧ i < s.nextId ∧ ¬A.live i := by
  obtain ⟨x, found, fromThread, fromParent, _, flags, buffer⟩ := flight.transaction
  obtain ⟨h, inSpace, points, _⟩ := flight.buffer
  have calls : Calls s A none none := by
    refine flight.calls.settle found (fun p c back => ?_) (fun twoWay => ?_)
      ⟨by rw [fromThread, oneWay]; simp, fromParent⟩
    · rw [buffer] at back
      cases back
      exact ⟨h, inSpace, points⟩
    · rw [flags, oneWay] at twoWay
      cases twoWay
  refine ⟨calls, calls.transaction_lt i x found, fun live => ?_⟩
  have noReply := flight.calls.unsent i rfl x found
  rw [calls.needReply live found] at noReply
  cases noReply

/-- The one-way transaction is sent, or kept by its node while another one is
under way. -/
theorem InFlight.commitOneWay {n : Nat} {node : BinderNode} (oneWay : isOneWay tr.flags = true)
    (present : s.nodes n = some node) :
    KeepsCalls none (do
      observe (.oneWaySent n i)
      if node.hasAsyncTransaction then
        putNode n { node with asyncTodo := node.asyncTodo ++ [i] }
        listAddTail .transactionComplete (.threadTodo th)
      else
        putNode n { node with hasAsyncTransaction := true }
        sendTo env i th target) s := by
  obtain ⟨settled, lt, dead⟩ := flight.settleOneWay oneWay
  have calls : Calls { s with trace := s.trace ++ [.oneWaySent n i] } A none none := { settled with }
  have before := fun j mem => calls.async_lt n node j present mem
  simp only [wp_bind, wp_observe, wp_ite, wp_putNode, wp_listAddTail]
  refine ⟨fun _ => ⟨A, ?_⟩, fun _ => ?_⟩
  · have kept := calls.setAsync (n := n) { node with asyncTodo := node.asyncTodo ++ [i] }
      fun j mem => by
        rcases List.mem_append.mp mem with isBefore | isI
        · exact before j isBefore
        · cases List.mem_singleton.mp isI
          exact ⟨lt, by simp, dead⟩
    exact kept.frame (.setWork fun j => by simp [List.count_append])
  · have flagged := calls.setAsync (n := n) { node with hasAsyncTransaction := true } before
    exact sendTo_calls (flagged.enqueue lt (by simp) dead)

theorem commitTransaction_calls (ready : Ready A th target (isOneWay tr.flags)) :
    KeepsCalls none (commitTransaction env th i b target) s := by
  obtain ⟨x, found, _, _, _, flags, _⟩ := flight.transaction
  unfold commitTransaction
  simp only [wp_bind, wp_getBuffer, wp_getTransaction, and_freed]
  intro h _ x' found'
  rw [found] at found'
  cases found'
  rcases ready with ⟨node, call, inReplyTo, ending, caller⟩ | ⟨ready, notSelf⟩
  · simp only [inReplyTo, wp_ite]
    exact ⟨fun _ => by simp [Safe, avoids_bug, stackSites],
      fun _ => flight.commitReply inReplyTo node ending caller⟩
  have inReplyTo := ready.1
  cases oneWay : isOneWay x.flags with
  | false =>
    rw [flags] at oneWay
    rw [oneWay] at ready
    simp only [inReplyTo, wp_ite, wp_bind, wp_getThread, and_freed, wp_putTransaction, wp_putThread]
    refine ⟨fun _ => ⟨fun _ => ?_, fun _ y present => ?_⟩, fun impossible => ?_⟩
    · exact by simp [Safe, avoids_bug, stackSites]
    · exact flight.commitCall oneWay ready notSelf found present
    · simp at impossible
  | true =>
    rw [flags] at oneWay
    simp only [inReplyTo, wp_ite]
    refine ⟨fun impossible => by simp at impossible, fun _ => ?_⟩
    cases target.node with
    | none => exact by simp [Safe, avoids_bug, stackSites]
    | some n =>
      simp only [wp_ite]
      refine ⟨fun _ => by simp [Safe, avoids_bug, stackSites], fun _ => ?_⟩
      rw [wp_bind, wp_getNode]
      exact ⟨fun node present => flight.commitOneWay oneWay present, by simp⟩

end

/-- A transaction without a buffer is given up. -/
theorem dropTransaction_calls {failure : Failure}
    (calls : Calls s A none (some i)) (found : s.transactions i = some x)
    (unlinked : ∀ p c h, s.buffer p c = some h → h.transaction ≠ some i)
    (ending : ∀ j, failure.inReplyTo = some j → Ending A j) :
    KeepsCalls none (dropTransaction th i failure) s := by
  have forgotten := calls.forget found (calls.unsent i rfl x found) unlinked (.inr ⟨rfl, rfl⟩)
  unfold dropTransaction freeTransaction
  exact failTransaction_calls { forgotten with } ending

theorem abortTransaction_calls {k : Nat} (flight : InFlight s A i th b target tr)
    (ready : Ready A th target (isOneWay tr.flags)) :
    KeepsCalls none (abortTransaction th i b target code k) s := by
  unfold abortTransaction
  rw [KeepsCalls, wp_bind]
  refine (binderTransactionBufferRelease_frame s).mono (fun _ t frame => ?_) fun _ => Avoids.stack
  have flight := flight.frame frame
  obtain ⟨x, found, _, _, _, _, buffer⟩ := flight.transaction
  obtain ⟨h, inSpace, points, _⟩ := flight.buffer
  simp only [wp_bind, wp_putBuffer]
  intro h' _
  have unpointed := flight.calls.unpoint inSpace points
  have stored := buffer_storeBuffer (s := t) (p := target.proc) (b := b)
    (f := fun h => { h with transaction := none }) (fun _ => rfl) target.proc b
  rw [if_pos ⟨rfl, rfl⟩, inSpace] at stored
  refine (freeBuf_spec unpointed.space stored rfl).returns ?_
  rintro _ u ⟨step, gone⟩
  have freed := unpointed.freeBuffer step stored rfl gone
  have found' : u.transactions i = some x := by
    obtain ⟨_, _, _, _, _, _, rfl⟩ := step
    exact found
  refine dropTransaction_calls freed found' ?_ ready.ending
  -- The only buffer that pointed to the transaction is gone.
  intro p c h inSpace back
  obtain ⟨y, present, where'⟩ := freed.ofBuffer p c h i inSpace back
  rw [found'] at present
  cases present
  rw [buffer] at where'
  cases where'
  rw [gone, if_pos ⟨rfl, rfl⟩] at inSpace
  cases inSpace

theorem sendBuffer_calls (flight : InFlight s A i th b target tr)
    (ready : Ready A th target (isOneWay tr.flags)) :
    KeepsCalls none (sendBuffer env p th i b target tr) s := by
  unfold sendBuffer
  have increments : Moves Frame Quiet (ifSome target.node fun n => do
      let _ ← binderIncNode n true false none) :=
    Moves.ifSome fun n => .bind binderIncNode_frame fun _ => .pure _
  rw [KeepsCalls, wp_bind]
  refine (increments s).mono (fun _ t frame => ?_) fun _ => Avoids.stack
  rw [wp_bind]
  refine fillBuffer_frame.mono (fun _ _ => id) (fun _ => Avoids.stack) |>.after frame ?_
  intro result u framed
  have flight := flight.frame framed
  cases result with
  | none =>
    rw [wp_bind]
    exact commitTransaction_calls flight ready
  | some failure =>
    rw [wp_bind]
    exact abortTransaction_calls flight ready

theorem sendTransaction_calls (calls : Calls s A none none)
    (ready : Ready A th target (isOneWay tr.flags)) (present : s.threads th = some y)
    (free : y.waitsForProc = false) :
    KeepsCalls none (sendTransaction env th target tr) s := by
  unfold sendTransaction
  rw [KeepsCalls, wp_ite]
  refine ⟨fun _ => ?_, fun _ => ?_⟩
  · rw [wp_bind]
    exact failTransaction_calls calls ready.ending
  simp only [wp_bind, wp_created, wp_getThread, and_freed, wp_get, wp_putTransaction, wp_ite]
  intro y' present'
  rw [present] at present'
  cases present'
  have made := calls.create (newTransaction th (s.tasks y.pid) target tr)
    (update s.objCreated .transaction (s.objCreated .transaction + 1)) rfl rfl
  have unlinked : ∀ p c h, s.buffer p c = some h → h.transaction ≠ some s.nextId := by
    grind
  refine ⟨fun _ => ?_, fun _ => ?_⟩
  · unfold freeTransaction
    have forgotten := made.forget (update_self _ _ _) rfl unlinked (.inr ⟨rfl, rfl⟩)
    exact failTransaction_calls { forgotten with } ready.ending
  have counted := made.frame (@Frame.countCreated _ .transactionComplete (by simp)).callFrame
  refine (allocBuf_spec counted.space).returns ?_
  rintro result t ⟨failed, taken⟩
  cases result with
  | none =>
    have frame := (failed rfl).callFrame
    obtain ⟨x, found, _⟩ := frame.symm_transaction (update_self s.nextId _ _)
    rw [wp_bind]
    refine dropTransaction_calls (counted.frame frame) found (fun p c h inSpace back => ?_)
      ready.ending
    obtain ⟨h', before, points, _⟩ := frame.buffer_some inSpace
    exact unlinked p c h' before (points.symm.trans back)
  | some b =>
    obtain ⟨step, unused, h, _, _, _, taken⟩ := taken b rfl
    obtain ⟨placed, inSpace⟩ := counted.setBuffer
      (f := fun h => { h with
        allowUserFree := false, transaction := some s.nextId, targetNode := target.node,
        data := fun _ => 0, offsets := [] })
      (update_self _ _ _) rfl step unused taken (fun _ => ⟨rfl, rfl, rfl⟩) fun _ => rfl
    simp only [wp_bind, wp_getTransaction, and_freed, wp_putTransaction, wp_putBuffer]
    intro x found h' _
    have same : newTransaction th (s.tasks y.pid) target tr = x := by
      obtain ⟨_, _, _, _, _, _, rfl⟩ := step
      simpa using found
    subst same
    have flight : InFlight _ A s.nextId th b target tr := {
      calls := placed
      transaction := ⟨_, update_self _ _ _, rfl, rfl, rfl, rfl, rfl⟩
      buffer := ⟨_, inSpace, rfl, rfl⟩
      thread := ⟨y, by
        obtain ⟨_, _, _, _, _, _, rfl⟩ := step
        exact present, free⟩ }
    exact sendBuffer_calls flight ready

/-- The step is not a call that comes back to the thread that makes it. -/
def NotSelf (s : BinderState) (th : Nat) (tr : TransactionData) : Prop :=
  ∀ target t, callTarget th tr s = .ok (.ok target, t) → target.thread ≠ some th

theorem binderTransaction_calls {reply : Bool} (calls : Calls s A none none)
    (present : s.threads th = some y) (free : y.waitsForProc = false)
    (notSelf : reply = false → NotSelf s th tr) :
    KeepsCalls none (binderTransaction env th tr reply) s := by
  unfold binderTransaction
  rw [KeepsCalls, wp_bind]
  cases reply with
  | true =>
    refine (replyTarget_calls calls).returns ?_
    rintro result t ⟨⟨A', calls', ready⟩, waits⟩
    cases result with
    | error failure =>
      rw [wp_bind]
      exact failTransaction_calls calls' ready
    | ok target =>
      rw [present] at waits
      obtain ⟨y', present', same⟩ := Option.map_eq_some_iff.mp waits
      exact sendTransaction_calls calls' (.inl ready) present' (same.trans free)
  | false =>
    refine (callTarget_calls calls).ran.returns ?_
    rintro result t ⟨⟨unchanged, ready⟩, ran⟩
    subst unchanged
    cases result with
    | error failure =>
      rw [wp_bind]
      refine failTransaction_calls calls fun j isJ => ?_
      rw [show failure.inReplyTo = none from ready] at isJ
      cases isJ
    | ok target =>
      have elsewhere := notSelf rfl target t ran
      exact sendTransaction_calls calls (.inr ⟨ready, elsewhere⟩) present free

end Sending

end AndroidKernel.Binder
