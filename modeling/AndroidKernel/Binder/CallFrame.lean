import AndroidKernel.Binder.Frame

/-!
What most of the driver leaves alone of calls, one-way queues and buffers.

`CallFrame` is coarser than `Frame`: threads may change in all but their stack,
transactions in the scheduling values they save, processes in everything but
their buffer space. All functions that neither send, deliver
nor end a transaction satisfy it.
-/

namespace AndroidKernel.Binder

open Lib Function

variable {n d cookie : Nat} {node : BinderNode} {s : BinderState} {proc : BinderProc} {transaction
  : BinderTransaction}

/-- A thread up to its state in the driver. -/
def BinderThread.core (thread : BinderThread) : BinderThread :=
  { thread with looper := {}, returnError := .ok, returnError2 := .ok, read := none }

theorem BinderThread.core_stack {x y : BinderThread} (same : x.core = y.core) :
    x.transactionStack = y.transactionStack :=
  show x.core.transactionStack = y.core.transactionStack by rw [same]

/-- The thread is in a read for work of its process. -/
def BinderThread.waitsForProc (thread : BinderThread) : Bool :=
  thread.read.any fun read => read.waitForProcWork

/-- A transaction up to the values it saves. -/
def BinderTransaction.core (t : BinderTransaction) : BinderTransaction :=
  { t with savedPriority := 0, savedRtPrio := none, savedPolicy := .normal }

/-- The buffer space of a process, up to the contents of its buffers. -/
def BinderProc.space (proc : BinderProc) : Option BinderAlloc := proc.alloc.map BinderAlloc.shape

theorem BinderProc.space_shape : proc.shape.space = proc.space := by
  unfold BinderProc.space BinderProc.shape
  cases proc.alloc <;> rfl

def Obs.isOneWay : Obs → Bool
  | .oneWaySent .. => true
  | .oneWayDelivered .. => true
  | _ => false

/-- The history of one-way transactions. -/
def BinderState.oneWayLog (s : BinderState) : List Obs := s.trace.filter Obs.isOneWay

structure CallFrame (s t : BinderState) : Prop where
  threads : ∀ th, (t.threads th).map BinderThread.core = (s.threads th).map BinderThread.core
  waits : ∀ th x, t.threads th = some x → x.waitsForProc = true →
    x.transactionStack = none ∨ ∃ y, s.threads th = some y ∧ y.waitsForProc = true
  transactions : ∀ i,
    (t.transactions i).map BinderTransaction.core = (s.transactions i).map BinderTransaction.core
  calls : ∀ h i, (t.work h).count (.transaction i) = (s.work h).count (.transaction i)
  spaces : ∀ p, (t.procs p).map BinderProc.space = (s.procs p).map BinderProc.space
  nodes : ∀ n node, t.nodes n = some node →
    (∃ before, s.nodes n = some before ∧
      node.hasAsyncTransaction = before.hasAsyncTransaction ∧ node.asyncTodo = before.asyncTodo) ∨
      (s.nextId ≤ n ∧ node.hasAsyncTransaction = false ∧ node.asyncTodo = [])
  nextId : s.nextId ≤ t.nextId
  created : t.objCreated .transaction = s.objCreated .transaction
  deleted : t.objDeleted .transaction = s.objDeleted .transaction
  log : t.oneWayLog = s.oneWayLog

/-- The faults of functions that do not touch the stacks. -/
abbrev Safe : Fault → Prop := Avoids stackSites

namespace CallFrame

variable {t u : BinderState}

theorem refl (s : BinderState) : CallFrame s s where
  threads _ := rfl
  waits _ x found waits := .inr ⟨x, found, waits⟩
  transactions _ := rfl
  calls _ _ := rfl
  spaces _ := rfl
  nodes _ node found := .inl ⟨node, found, rfl, rfl⟩
  nextId := le_rfl
  created := rfl
  deleted := rfl
  log := rfl

theorem trans (first : CallFrame s t) (second : CallFrame t u) : CallFrame s u where
  threads th := (second.threads th).trans (first.threads th)
  waits th x found waits := by
    rcases second.waits th x found waits with empty | ⟨y, found', waits'⟩
    · exact .inl empty
    rcases first.waits th y found' waits' with empty | before
    · have same := second.threads th
      rw [found, found', Option.map_some, Option.map_some, Option.some.injEq] at same
      exact .inl ((BinderThread.core_stack same).trans empty)
    · exact .inr before
  transactions i := (second.transactions i).trans (first.transactions i)
  calls h i := (second.calls h i).trans (first.calls h i)
  spaces p := (second.spaces p).trans (first.spaces p)
  nodes n node found := by
    rcases second.nodes n node found with ⟨middle, found, flag, todo⟩ | ⟨fresh, empty⟩
    · grind [→ CallFrame.nodes]
    · exact .inr ⟨Nat.le_trans first.nextId fresh, empty⟩
  nextId := Nat.le_trans first.nextId second.nextId
  created := second.created.trans first.created
  deleted := second.deleted.trans first.deleted
  log := second.log.trans first.log

instance : IsPreorder BinderState CallFrame where
  refl := refl
  trans _ _ _ := trans

theorem setThread {th : Nat} {x x' : BinderThread} (found : s.threads th = some x)
    (core : x'.core = x.core)
    (waits : x'.waitsForProc = true → x'.transactionStack = none ∨ x.waitsForProc = true) :
    CallFrame s (s.setThread th (some x')) where
  __ := refl s
  threads := apply_update_same (by simp [found, core])
  waits th' y found' waits' := by
    rcases update_some found' with ⟨rfl, rfl⟩ | ⟨_, present⟩
    · exact (waits waits').imp id fun before => ⟨x, found, before⟩
    · exact .inr ⟨y, present, waits'⟩

theorem setProc {p : Nat} {proc' : BinderProc} (found : s.procs p = some proc)
    (space : proc'.space = proc.space) : CallFrame s (s.setProc p (some proc')) where
  __ := refl s
  spaces := apply_update_same (by simp [found, space])

theorem setTransaction {i : Nat} {t t' : BinderTransaction} (found : s.transactions i = some t)
    (core : t'.core = t.core) : CallFrame s (s.setTransaction i (some t')) where
  __ := refl s
  transactions := apply_update_same (by simp [found, core])

theorem setNode {node' : BinderNode} (found : s.nodes n = some node)
    (flag : node'.hasAsyncTransaction = node.hasAsyncTransaction)
    (todo : node'.asyncTodo = node.asyncTodo) : CallFrame s (s.setNode n (some node')) where
  __ := refl s
  nodes m node'' found' := by
    rcases update_some found' with ⟨rfl, rfl⟩ | ⟨_, present⟩
    · exact .inl ⟨node, found, flag, todo⟩
    · exact .inl ⟨node'', present, rfl, rfl⟩

theorem setTask {pid : Nat} {task : Task} : CallFrame s (s.setTask pid task) where
  __ := refl s

theorem setDeath {death : Option BinderRefDeath} : CallFrame s (s.setDeath d death) where
  __ := refl s

theorem setRef {r : Nat} {ref : Option BinderRef} : CallFrame s (s.setRef r ref) where
  __ := refl s

/-- The lists may change in other items. -/
theorem setWork {h : ListHead} {l : List Work}
    (same : ∀ i, l.count (.transaction i) = (s.work h).count (.transaction i)) :
    CallFrame s (s.setWork h l) where
  __ := refl s
  calls h' i := apply_update_same (g := List.count _) (same i) h'

theorem observe {obs : Obs} (other : obs.isOneWay = false) :
    CallFrame s { s with trace := s.trace ++ [obs] } where
  __ := refl s
  log := by simp [BinderState.oneWayLog, other]

theorem log_oneWay {l l' : List Obs}
    (same : l'.filter (fun obs => !obs.isNodeFreed) = l.filter fun obs => !obs.isNodeFreed) :
    l'.filter Obs.isOneWay = l.filter Obs.isOneWay := by
  have through : ∀ l : List Obs,
      (l.filter fun obs => !obs.isNodeFreed).filter Obs.isOneWay = l.filter Obs.isOneWay := by
    intro l
    rw [List.filter_filter]
    refine List.filter_congr fun obs _ => ?_
    cases obs <;> rfl
  rw [← through l', same, through l]

end CallFrame

theorem Frame.callFrame {t : BinderState} (frame : Frame s t) : CallFrame s t where
  threads th := by rw [frame.threads]
  waits th x found waits := .inr ⟨x, by rwa [← frame.threads], waits⟩
  transactions i := by rw [frame.transactions]
  calls := frame.calls
  spaces p := by
    have same := congrArg (Option.map BinderProc.space) (frame.procs p)
    simpa [Option.map_map, Function.comp_def, BinderProc.space_shape] using same
  nodes n node found := by
    refine (frame.nodes n node found).imp ?_ id
    rintro ⟨before, found, same⟩
    simp only [BinderNode.oneWay, Prod.mk.injEq] at same
    exact ⟨before, found, same.2.1, same.2.2⟩
  nextId := frame.nextId
  created := frame.created
  deleted := frame.deleted
  log := CallFrame.log_oneWay frame.log

theorem callFrame_of_frame {α : Type} {m : BinderM α} (moves : Moves Frame Quiet m) :
    Moves CallFrame Safe m :=
  moves.mono (fun _ _ => Frame.callFrame) fun _ => Avoids.stack

/-- A thread is changed in what may change. -/
theorem changeThread_callFrame {th : Nat} {f : BinderThread → BinderThread}
    (core : ∀ x, (f x).core = x.core) (waits : ∀ x, (f x).waitsForProc = true → x.waitsForProc = true) :
    Moves CallFrame Safe (do putThread th (f (← getThread th))) := by
  intro s
  simp only [wp_bind, wp_getThread, and_freed, wp_putThread]
  exact fun x found => .setThread found (core x) fun waiting => .inr (waits x waiting)

theorem changeProc_callFrame {p : Nat} {f : BinderProc → BinderProc}
    (space : ∀ x, (f x).space = x.space) :
    Moves CallFrame Safe (do putProc p (f (← getProc p))) := by
  intro s
  simp only [wp_bind, wp_getProc, and_freed, wp_putProc]
  exact fun x found => .setProc found (space x)

/-! ### Scheduling -/

section Scheduling

variable {pid t : Nat}

/-- Nothing but the scheduling values of tasks is different. -/
def TasksOnly (s t : BinderState) : Prop := ∃ tasks, t = { s with tasks := tasks }

instance : IsPreorder BinderState TasksOnly where
  refl s := ⟨s.tasks, rfl⟩
  trans := by
    rintro s _ _ ⟨tasks, rfl⟩ ⟨tasks', rfl⟩
    exact ⟨tasks', rfl⟩

theorem TasksOnly.callFrame {t : BinderState} (only : TasksOnly s t) : CallFrame s t := by
  obtain ⟨tasks, rfl⟩ := only
  exact { CallFrame.refl s with }

theorem callFrame_of_tasks {α : Type} {m : BinderM α} (moves : Moves TasksOnly Safe m) :
    Moves CallFrame Safe m :=
  moves.mono (fun _ _ => TasksOnly.callFrame) fun _ => id

section Tasks

variable {fault : Fault → Prop}

theorem binderSetNice_tasks {nice : Int} : Moves TasksOnly fault (binderSetNice pid nice) := by
  intro s
  unfold binderSetNice
  simp only [wp_bind, wp_get, wp_ite, wp_modify]
  exact ⟨fun _ => ⟨_, rfl⟩, fun _ => ⟨_, rfl⟩⟩

theorem schedSetscheduler_tasks {policy : Policy} {rtPriority : Fin 100} :
    Moves TasksOnly fault (schedSetscheduler pid policy rtPriority) :=
  fun _ => ⟨_, rfl⟩

theorem restoreSched_tasks : Moves TasksOnly fault (restoreSched pid transaction) := by
  unfold restoreSched
  exact .bind binderSetNice_tasks fun _ => .ifSome fun _ => schedSetscheduler_tasks

theorem setPickUpNice_tasks : Moves TasksOnly fault (setPickUpNice pid transaction node) := by
  unfold setPickUpNice
  split
  · exact binderSetNice_tasks
  · split
    · exact binderSetNice_tasks
    · exact .pure _

theorem setDefaultSched_tasks : Moves TasksOnly fault (setDefaultSched pid proc) := by
  unfold setDefaultSched
  refine .bind binderSetNice_tasks fun _ => ?_
  exact fun s => Moves.ifThen schedSetscheduler_tasks s

end Tasks

theorem boost_callFrame : Moves CallFrame Safe (boost t pid) := by
  intro s
  unfold boost
  simp only [wp_bind, wp_getTransaction, and_freed, wp_get, wp_putTransaction, wp_observe]
  intro transaction found
  refine (callFrame_of_tasks schedSetscheduler_tasks).after (.setTransaction found rfl) fun _ u framed => ?_
  exact framed.trans (.observe rfl)

theorem wakeWaiters_callFrame {env : TransactionEnv} {w : WaitHead} {exclusive : Bool}
    {l : List Nat} : Moves CallFrame Safe (wakeWaiters env t w exclusive l) := by
  induction l with
  | nil => exact .pure _
  | cons x l ih =>
    intro s
    unfold wakeWaiters
    simp only [wp_bind, wp_getThread, wp_getTransaction, and_freed, wp_get]
    intro waiter _ transaction _
    refine (Moves.ifThen boost_callFrame s).returns fun _ u boosted => ?_
    have leaves : Moves CallFrame Safe (modify fun s : BinderState =>
        { s with waiters := update s.waiters w ((s.waiters w).erase x) }) :=
      fun u => { CallFrame.refl u with }
    refine (Moves.ifThen leaves).after boosted fun _ v left => ?_
    exact (Moves.ifThen ih).last left

theorem pickUpSched_callFrame : Moves CallFrame Safe (pickUpSched pid t n) := by
  intro s
  unfold pickUpSched
  simp only [wp_bind, wp_getNode, wp_getTransaction, and_freed, wp_get, wp_putTransaction]
  intro node _ transaction found
  refine (Moves.ifThen boost_callFrame).after (.setTransaction found rfl) fun _ u boosted => ?_
  exact fun transaction _ => (callFrame_of_tasks setPickUpNice_tasks).last boosted

end Scheduling

/-! ### Reads -/

section Reads

variable {th p : Nat} {put : Nat → Bool}

theorem readReturn_callFrame : Moves CallFrame Safe (readReturn th) :=
  changeThread_callFrame (fun _ => rfl) fun _ waits => by simp [BinderThread.waitsForProc] at waits

theorem readDone_callFrame : Moves CallFrame Safe (readDone th) := by
  intro s
  unfold readDone
  simp only [wp_bind, wp_getThread, wp_getProc, and_freed]
  intro thread _ proc found
  have asks : wp (ifThen (proc.requestedThreads + proc.readyThreads = 0 ∧
      proc.requestedThreadsStarted < proc.maxThreads ∧ thread.looper.isLooper = true) do
        let count ← incr proc.requestedThreads
        putProc thread.proc { proc with requestedThreads := count })
      (fun _ => CallFrame s) Safe s := by
    simp only [wp_ifThen, wp_bind, wp_incr, avoids_intOverflow, implies_true, true_and, wp_putProc]
    exact ⟨fun _ _ => .setProc found rfl, fun _ => .refl s⟩
  exact asks.returns fun _ t framed => readReturn_callFrame.last framed

theorem readStart_callFrame {size consumed : Nat} {nonBlock store : Bool} :
    Moves CallFrame Safe (readStart th size consumed nonBlock store) := by
  intro s
  unfold readStart
  simp only [wp_ite, wp_pure, wp_bind, wp_getThread, and_freed, wp_putThread]
  refine ⟨fun _ => .refl s, fun _ thread found => ?_⟩
  exact .setThread found rfl (by simp [BinderThread.waitsForProc])

theorem readErrors_callFrame {read : ReadState} :
    Moves CallFrame Safe (readErrors th read put) := by
  intro s
  unfold readErrors
  simp only [wp_bind, wp_getThread, and_freed, wp_ite, wp_putThread]
  intro thread found
  have cleared : ∀ code code', CallFrame s (s.setThread th (some
      { thread with returnError := code, returnError2 := code' })) :=
    fun _ _ => .setThread found rfl .inr
  refine ⟨fun _ => ⟨fun _ => readReturn_callFrame s, fun _ => ⟨fun _ => readDone_callFrame s,
    fun _ => ⟨fun _ => ?_, fun _ => ?_⟩⟩⟩, fun _ => ⟨fun _ => readReturn_callFrame s,
    fun _ => ?_⟩⟩
  · exact readReturn_callFrame.last (cleared thread.returnError .ok)
  · refine readDone_callFrame.last ((cleared thread.returnError .ok).trans ?_)
    exact .setThread (update_self _ _ _) rfl .inr
  · exact readDone_callFrame.last (cleared .ok thread.returnError2)

theorem readRetry_callFrame : Moves CallFrame Safe (readRetry th put) := by
  intro s
  unfold readRetry
  refine deref_then fun thread found => ?_
  cases reading : thread.read with
  | none => exact .refl s
  | some read =>
    simp only [wp_ite, wp_bind, wp_get, wp_putThread]
    refine ⟨fun _ => readErrors_callFrame s, fun _ => ?_⟩
    have framed : CallFrame s (s.setThread th (some { thread with
        looper := { thread.looper with waiting := true }
        read := some { read with phase := .waiting, waitForProcWork :=
          thread.transactionStack.isNone && (s.work (.threadTodo th)).isEmpty } })) := by
      refine .setThread found rfl fun waits => .inl ?_
      have idle : thread.transactionStack.isNone = true ∧
          (s.work (.threadTodo th)).isEmpty = true := by
        simpa [BinderThread.waitsForProc] using waits
      simpa using idle.1
    simp only [wp_ifThen, wp_bind, wp_getProc, and_freed,
      wp_incr, avoids_intOverflow, implies_true, true_and, wp_putProc]
    refine ⟨fun _ proc present _ => ?_, fun _ => framed⟩
    exact (callFrame_of_tasks setDefaultSched_tasks).last (framed.trans (.setProc present rfl))

theorem readEnqueue_callFrame : Moves CallFrame Safe (readEnqueue th) := by
  intro s
  unfold readEnqueue
  refine deref_then fun thread _ => ?_
  cases thread.read with
  | none => exact .refl s
  | some read => exact { CallFrame.refl s with }

theorem leaveQueue_callFrame : Moves CallFrame Safe (leaveQueue th) := by
  intro s
  unfold leaveQueue
  refine deref_then fun thread _ => ?_
  cases thread.read with
  | none => exact .refl s
  | some read => exact { CallFrame.refl s with }

theorem readWake_callFrame {success : Bool} : Moves CallFrame Safe (readWake th success) := by
  unfold readWake
  refine .bind leaveQueue_callFrame fun _ => ?_
  intro s
  refine deref_then fun thread found => ?_
  cases reading : thread.read with
  | none => exact .refl s
  | some read =>
    simp only [wp_bind, wp_putThread, wp_ifThen, wp_getProc, and_freed, wp_decr, avoids_intOverflow, implies_true, true_and, wp_putProc]
    have framed : CallFrame s (s.setThread th (some { thread with
        looper := { thread.looper with waiting := false }
        read := if success then some { read with phase := .looping } else none })) := by
      refine .setThread found rfl fun waits => .inr ?_
      cases success
      · simp [BinderThread.waitsForProc] at waits
      · simpa [BinderThread.waitsForProc, reading] using waits
    exact ⟨fun _ proc present _ => framed.trans (.setProc present rfl), fun _ => framed⟩

theorem advance_callFrame : Moves CallFrame Safe (advance th n) := by
  intro s
  unfold advance
  refine deref_then fun thread found => ?_
  cases reading : thread.read with
  | none => exact .refl s
  | some read =>
    exact .setThread found rfl fun waits => .inr (by
      simpa [BinderThread.waitsForProc, reading] using waits)

theorem senderOf_callFrame : Moves CallFrame Safe (senderOf transaction) := by
  unfold senderOf
  refine .ifSome fun sender => ?_
  intro s
  simp only [wp_bind, wp_getThread, wp_getProc, and_freed, wp_pure]
  exact fun _ _ _ _ => .refl s

theorem unlinkNode_callFrame : Moves CallFrame Safe (unlinkNode n) := by
  intro s
  unfold unlinkNode
  refine deref_then fun node found => ?_
  cases node.entry with
  | none => exact .refl s
  | some h =>
    refine CallFrame.trans (.setNode found ?_ ?_) (.setWork fun i => ?_)
    · rfl
    · rfl
    · simp [List.count_erase_of_ne]

theorem eraseNode_callFrame : Moves CallFrame Safe (eraseNode p n node) :=
  changeProc_callFrame fun _ => rfl

theorem freeNode_callFrame {releasing : Bool} : Moves CallFrame Safe (freeNode n releasing) := by
  intro s
  unfold freeNode
  simp only [wp_bind, wp_getNode, and_freed, wp_modify, wp_deleted, wp_observe]
  intro node found
  have gone : CallFrame s (s.setNode n none) := { CallFrame.refl s with
    nodes := fun m node' found' => .inl ⟨node', (update_none found').2, rfl, rfl⟩ }
  exact gone.trans (.trans (Frame.countDeleted (by simp)).callFrame (.observe rfl))

theorem nodeCommand_pure :
    wp (nodeCommand node) (fun result t => t = s ∧ ∀ node', result = some node' →
      node'.hasAsyncTransaction = node.hasAsyncTransaction ∧ node'.asyncTodo = node.asyncTodo)
      Safe s := by
  unfold nodeCommand
  simp

theorem readNode_callFrame : Moves CallFrame Safe (readNode p th n put) := by
  intro s
  unfold readNode
  simp only [wp_bind, wp_getNode, and_freed]
  intro node found
  refine nodeCommand_pure.returns ?_
  rintro (_ | node') s ⟨rfl, same⟩
  · simp only [wp_bind]
    refine (unlinkNode_callFrame s).returns fun _ t unlinked => ?_
    simp only [wp_getNode, and_freed]
    intro node _
    refine Moves.last (Moves.ifThen ?_) unlinked
    exact .bind eraseNode_callFrame fun _ => freeNode_callFrame
  · obtain ⟨flag, todo⟩ := same node' rfl
    simp only [wp_bind, wp_putNode, wp_ite]
    have framed : CallFrame s (s.setNode n (some node')) := .setNode found flag todo
    exact ⟨fun _ => advance_callFrame.last framed, fun _ => readReturn_callFrame.last framed⟩

theorem unlinkDeath_callFrame : Moves CallFrame Safe (unlinkDeath d) :=
  callFrame_of_frame unlinkDeath_frame

theorem queueDeath_callFrame {h : ListHead} : Moves CallFrame Safe (queueDeath d h) := by
  intro s
  unfold queueDeath
  simp only [wp_bind, wp_getDeath, and_freed, wp_putDeath, wp_listAddTail]
  intro death _
  exact CallFrame.setDeath.trans (.setWork fun i => by simp [List.count_append])

theorem readDeath_callFrame : Moves CallFrame Safe (readDeath p th d put) := by
  intro s
  unfold readDeath
  simp only [wp_bind, wp_getDeath, and_freed, wp_ite]
  intro death _
  refine ⟨fun _ => readReturn_callFrame s, fun _ => ?_⟩
  refine (advance_callFrame s).returns fun _ t moved => ?_
  refine unlinkDeath_callFrame.after moved fun _ u unlinked => ?_
  refine ⟨fun _ => (callFrame_of_frame freeDeath_frame).last unlinked, fun _ => ?_⟩
  refine readDone_callFrame.last ?_
  exact unlinked.trans (CallFrame.setDeath.trans (.setWork fun i => by simp))

end Reads

/-! ### Commands and ioctls -/

section Commands

variable {th p : Nat}

theorem writeRequestDeath_callFrame {target : Nat} {alloc : Bool} :
    Moves CallFrame Safe (writeRequestDeath th target cookie alloc) := by
  intro s
  unfold writeRequestDeath
  simp only [wp_bind, wp_getThread, wp_binderGetRef, and_freed]
  intro thread found proc _
  cases lookupKey target proc.refsByDesc with
  | none => exact .refl s
  | some r =>
    simp only [wp_bind, wp_getRef, and_freed, wp_ite, wp_pure,
      wp_putThread, wp_created, wp_putDeath, wp_putRef, wp_getNode]
    intro ref _
    refine ⟨fun _ => .refl s, fun _ => ⟨fun _ => .setThread found rfl .inr, fun _ node _ => ?_⟩⟩
    refine Moves.last (R := CallFrame) (Moves.ifThen ?_)
      ((@Frame.countCreated s .death (by simp)).callFrame.trans (.trans .setDeath .setRef))
    exact .bind (fun _ => CallFrame.setDeath) fun _ => queueDeath_callFrame

theorem writeClearDeath_callFrame {target : Nat} :
    Moves CallFrame Safe (writeClearDeath th target cookie) := by
  intro s
  unfold writeClearDeath
  simp only [wp_bind, wp_getThread, wp_binderGetRef, and_freed]
  intro thread _ proc _
  cases lookupKey target proc.refsByDesc with
  | none => exact .refl s
  | some r =>
    refine deref_then fun ref _ => ?_
    cases ref.death with
    | none => exact .refl s
    | some d =>
      simp only [wp_bind, wp_getDeath, and_freed, wp_ite,
        wp_pure, wp_putRef, wp_putDeath, wp_throw, avoids_bug]
      intro death _
      refine ⟨fun _ => .refl s, fun _ => ⟨fun _ => ?_, fun _ => ⟨fun _ => by decide,
        fun _ => CallFrame.setRef.trans .setDeath⟩⟩⟩
      exact queueDeath_callFrame.last (CallFrame.setRef.trans .setDeath)

theorem findDelivered_pure {l : List Work} :
    wp (findDelivered cookie l) (fun _ t => t = s) Safe s := by
  induction l with
  | nil => rfl
  | cons w l ih =>
    cases w with
    | death d =>
      unfold findDelivered
      simp only [wp_bind, wp_getDeath, and_freed, wp_ite, wp_pure, implies_true, true_and]
      exact fun _ _ _ => ih
    | transaction | transactionComplete | node => exact ih

theorem writeDeadBinderDone_callFrame : Moves CallFrame Safe (writeDeadBinderDone th cookie) := by
  intro s
  unfold writeDeadBinderDone
  simp only [wp_bind, wp_getThread, and_freed, wp_get]
  intro thread _
  refine findDelivered_pure.returns ?_
  rintro (_ | d) s rfl
  · exact .refl s
  simp only [wp_bind, wp_observe]
  refine (unlinkDeath_callFrame s).returns fun _ t unlinked => ?_
  simp only [wp_getDeath, and_freed]
  intro death _
  refine Moves.last (R := CallFrame) (Moves.ifThen ?_) (unlinked.trans (.observe rfl))
  exact .bind (fun _ => CallFrame.setDeath) fun _ => queueDeath_callFrame

theorem writeRegisterLooper_callFrame : Moves CallFrame Safe (writeRegisterLooper th) := by
  intro s
  unfold writeRegisterLooper
  simp only [wp_bind, wp_getThread, wp_getProc, and_freed, wp_ite,
    wp_putThread, wp_decr, wp_incr, avoids_intOverflow, implies_true, true_and, wp_putProc]
  intro thread found proc present
  refine ⟨fun _ => .setThread found rfl .inr, fun _ _ _ => ?_⟩
  refine CallFrame.trans (.setProc present ?_) (.setThread found ?_ .inr)
  · rfl
  · rfl

theorem writeEnterLooper_callFrame : Moves CallFrame Safe (writeEnterLooper th) :=
  changeThread_callFrame (fun _ => rfl) fun _ => id

theorem writeExitLooper_callFrame : Moves CallFrame Safe (writeExitLooper th) :=
  changeThread_callFrame (fun _ => rfl) fun _ => id

theorem ioctlDone_callFrame : Moves CallFrame Safe (ioctlDone th) :=
  changeThread_callFrame (fun _ => rfl) fun _ => id

theorem setMaxThreads_callFrame {maxThreads : Int} : Moves CallFrame Safe (setMaxThreads p maxThreads) :=
  changeProc_callFrame fun _ => rfl

theorem setContextMgr_callFrame {euid : Nat} {alloc : Bool} :
    Moves CallFrame Safe (setContextMgr p euid alloc) := by
  intro s
  unfold setContextMgr
  simp only [wp_bind, wp_get, wp_ite, wp_pure, wp_modify]
  refine ⟨fun _ => .refl s, fun _ => ?_⟩
  have start : CallFrame s { s with contextMgrUid := some euid } := { CallFrame.refl s with }
  refine (callFrame_of_frame binderNewNode_frame).after start fun made t framed => ?_
  cases made with
  | none => exact framed
  | some n =>
    simp only [wp_bind, wp_getNode, and_freed, wp_incr,
      avoids_intOverflow, implies_true, true_and, wp_putNode, wp_modify]
    intro node found _ _
    refine framed.trans (.trans (.setNode found ?_ ?_) { CallFrame.refl _ with })
    · rfl
    · rfl

theorem binderVmaClose_callFrame : Moves CallFrame Safe (binderVmaClose p) := by
  refine changeProc_callFrame fun proc => ?_
  unfold BinderProc.space
  cases proc.alloc <;> rfl

theorem binderFlush_callFrame : Moves CallFrame Safe (binderFlush p) :=
  changeProc_callFrame fun _ => rfl

theorem binderRelease_callFrame : Moves CallFrame Safe (binderRelease p) :=
  changeProc_callFrame fun _ => rfl

/-! ### Release -/

theorem flushThreads_callFrame {l : List (Nat × Nat)} : Moves CallFrame Safe (flushThreads l) := by
  induction l with
  | nil => exact .pure _
  | cons e l ih =>
    unfold flushThreads
    intro s
    simp only [wp_bind, wp_getThread, and_freed, wp_putThread]
    exact fun thread found => ih.last (CallFrame.setThread found rfl .inr)

theorem notifyDeath_callFrame : Moves CallFrame Safe (notifyDeath p d) := by
  intro s
  unfold notifyDeath
  simp only [wp_bind, wp_getDeath, and_freed, wp_ite, wp_throw, avoids_bug, wp_putDeath]
  intro death _
  exact ⟨fun _ => by decide, fun _ => queueDeath_callFrame.last CallFrame.setDeath⟩

theorem notifyDeaths_callFrame {l : List Nat} : Moves CallFrame Safe (notifyDeaths l) := by
  induction l with
  | nil => exact .pure _
  | cons r l ih =>
    unfold notifyDeaths
    refine .bind (callFrame_of_frame getRef_frame) fun ref => ?_
    exact .bind (Moves.ifSome fun _ => notifyDeath_callFrame) fun _ => ih

theorem releaseProcNode_callFrame : Moves CallFrame Safe (releaseProcNode p n) := by
  unfold releaseProcNode
  refine .bind (callFrame_of_frame getNode_frame) fun node => ?_
  refine .bind eraseNode_callFrame fun _ => .bind unlinkNode_callFrame fun _ => ?_
  intro s
  simp only [wp_bind, wp_getNode, and_freed, wp_ite, wp_putNode]
  intro node found
  refine ⟨fun _ => freeNode_callFrame s, fun _ => ?_⟩
  exact notifyDeaths_callFrame.last (CallFrame.setNode found rfl rfl)

theorem dropContextMgr_callFrame : Moves CallFrame Safe (dropContextMgr p) := by
  unfold dropContextMgr
  refine .bind (fun s => CallFrame.refl s) fun s => .ifSome fun n => ?_
  refine .bind (callFrame_of_frame getNode_frame) fun node => .ifThen ?_
  exact fun s => { CallFrame.refl s with }

end Commands

end AndroidKernel.Binder
