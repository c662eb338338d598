import AndroidKernel.Binder.CallRuns

/-!
The calls along `BC_FREE_BUFFER` and `binder_thread_read`.
-/

namespace AndroidKernel.Binder

open Lib

variable {s : BinderState} {A : CallMap} {th : Nat}

/-! ### Freeing a buffer -/

theorem passAsync_calls {n : Nat} (calls : Calls s A none none) :
    wp (passAsync th n) (fun _ t => Calls t A none none ∧ t.procs = s.procs) Safe s := by
  unfold passAsync
  simp only [wp_bind, wp_getNode, and_freed, wp_ite, wp_throw]
  intro node present
  refine ⟨fun _ => (avoids_bug _).mpr (by decide), fun _ => ?_⟩
  have before := fun i mem => calls.async_lt n node i present mem
  cases todo : node.asyncTodo with
  | nil =>
    exact ⟨calls.setAsync _ fun i mem => absurd mem (by simp), rfl⟩
  | cons i rest =>
    rw [todo] at before
    obtain ⟨lt, other, dead⟩ := before i List.mem_cons_self
    have shorter := calls.setAsync (n := n) { node with asyncTodo := rest }
      fun j mem => before j (List.mem_cons_of_mem i mem)
    exact ⟨shorter.enqueue lt other dead, rfl⟩

theorem writeFreeBuffer_calls {p dataPtr : Nat} (calls : Calls s A none none) :
    wp (writeFreeBuffer p th dataPtr) (fun _ t => Calls t A none none) Safe s := by
  unfold writeFreeBuffer
  rw [wp_bind]
  refine binderBufferLookup_pure.mono ?_ fun _ => Avoids.stack
  rintro (_ | b) s rfl
  · exact calls
  simp only [wp_bind, wp_getBuffer, wp_ite, wp_pure]
  intro h inSpace
  refine ⟨fun _ => calls, fun _ => ?_⟩
  -- The buffer and its transaction part.
  have detach : wp (ifSome h.transaction (detachBuffer p b)) (fun _ t => Calls t A none none ∧
      t.buffer p b = some { h with transaction := none }) Safe s := by
    rw [wp_ifSome]
    refine ⟨fun isNone => ⟨calls, ?_⟩, fun i points => ?_⟩
    · rw [inSpace, ← isNone]
    · exact detachBuffer_calls calls inSpace points (by simp)
  refine detach.returns ?_
  rintro _ t ⟨detached, alone⟩
  -- The next one-way transaction goes onto a list.
  have pass : wp (ifSome h.targetNode fun n => ifThen (h.asyncTransaction = true) (passAsync th n))
      (fun _ u => Calls u A none none ∧ u.procs = t.procs) Safe t := by
    rw [wp_ifSome]
    refine ⟨fun _ => ⟨detached, rfl⟩, fun n _ => ?_⟩
    rw [wp_ifThen]
    exact ⟨fun _ => passAsync_calls detached, fun _ => ⟨detached, rfl⟩⟩
  refine pass.returns ?_
  rintro _ u ⟨passed, same⟩
  have alone' : u.buffer p b = some { h with transaction := none } := by
    rw [← alone]
    unfold BinderState.buffer
    rw [same]
  refine (binderTransactionBufferRelease_frame u).mono (fun _ v frame => ?_) fun _ => Avoids.stack
  obtain ⟨h', inSpace', points, _⟩ := frame.callFrame.symm_buffer alone'
  exact freeBuf_calls (passed.frame frame.callFrame) inSpace' points

/-! ### Delivery -/

variable {i : Nat} {h : ListHead} {x : BinderTransaction}

/-- A transaction that is no call is taken off its list and freed. -/
theorem Calls.deliver {p b : Nat} (calls : Calls s A none none)
    (found : s.transactions i = some x) (noReply : x.needReply = false)
    (buffer : x.buffer = some (p, b)) :
    Calls ((((s.setWork h ((s.work h).erase (.transaction i))).storeBuffer p b fun buffer =>
      { buffer with allowUserFree := true }).storeBuffer p b fun buffer =>
        { buffer with transaction := none }).setTransaction i none) A none none := by
  have dead : ¬A.live i := by
    intro live
    rw [calls.needReply live found] at noReply
    cases noReply
  have listed : Calls (s.setWork h ((s.work h).erase (.transaction i))) A none none := by
    grind [Calls.relist]
  have stored := listed.storeBuffer (p := p) (b := b)
    (f := fun buffer => { buffer with allowUserFree := true }) (fun _ => ⟨rfl, rfl, rfl⟩)
    fun _ => ⟨rfl, rfl⟩
  have freed := stored.discard (i := i) (x := x) found noReply
  unfold BinderState.clearBuffer at freed
  rw [buffer] at freed
  exact freed

/-- `readDone` ends the read of the thread; otherwise it changes at most a counter of
the process. -/
theorem readDone_spec {sites : List BugSite} :
    wp (readDone th) (fun _ t => ∃ y procs, s.threads th = some y ∧
      (∀ p, (procs p).map BinderProc.space = (s.procs p).map BinderProc.space) ∧
      t = { s with
        procs := procs
        threads := Function.update s.threads th (some { y with read := none }) })
      (Avoids sites) s := by
  unfold readDone readReturn
  simp only [wp_bind, wp_getThread, wp_getProc, and_freed,
    wp_ifThen, wp_incr, avoids_intOverflow, implies_true, true_and, wp_putProc, wp_putThread]
  intro y present proc found
  refine ⟨fun _ _ y' present' => ?_, fun _ y' present' => ?_⟩
  · have framed : CallFrame s (s.setProc y.proc (some { proc with
        requestedThreads := proc.requestedThreads + 1 })) := .setProc found rfl
    exact ⟨y', _, present', framed.spaces, rfl⟩
  · exact ⟨y', s.procs, present', fun _ => rfl, rfl⟩

theorem deliver_calls {p b : Nat} {y : BinderThread} {buffer : BinderBuffer}
    (calls : Calls s A none none) (found : s.transactions i = some x)
    (place : x.buffer = some (p, b)) (inSpace : s.buffer p b = some buffer)
    (present : s.threads th = some y) (listed : .transaction i ∈ s.work h)
    (target : h.owner = some th ∨ (h.owner = none ∧ y.transactionStack = none)) :
    KeepsCalls none (do deliver p th i b h buffer.targetNode; readDone th) s := by
  -- Without a node, or one-way, it is no call.
  have freed : x.needReply = false → ∀ trace, KeepsCalls none (do
      putBuffer p b fun buffer => { buffer with transaction := none }
      freeTransaction i
      readDone th)
      { (s.setWork h ((s.work h).erase (.transaction i))).storeBuffer p b fun buffer =>
        { buffer with allowUserFree := true } with trace := trace } := by
    intro noReply trace
    unfold freeTransaction
    simp only [wp_bind, wp_putBuffer, wp_modify, wp_deleted]
    intro _ _
    refine readDone_callFrame.after (.refl _) fun _ t framed => ⟨A, Calls.frame ?_ framed⟩
    exact { calls.deliver (h := h) found noReply place with }
  unfold deliver
  simp only [wp_bind, wp_listDel, wp_putBuffer, wp_getTransaction, and_freed]
  intro _ _ x' found'
  have same : x = x' := Option.some.inj (found.symm.trans found')
  subst same
  simp only [wp_bind] at freed
  cases node : buffer.targetNode with
  | none =>
    have noReply : x.needReply = false := by
      by_contra needReply
      exact calls.call i x p b buffer found (by simpa using needReply) place inSpace node
    simp only [wp_bind]
    exact freed noReply s.trace
  | some n =>
    simp only [wp_ite, wp_bind, wp_observe, wp_getThread, and_freed, wp_putTransaction, wp_putThread]
    refine ⟨fun oneWay => ?_, fun twoWay y' present' => ?_⟩
    · grind
    have same : y = y' := Option.some.inj (present.symm.trans present')
    subst same
    have needReply : x.needReply = true := by grind
    have live := (calls.live i).mpr ⟨x, found, needReply⟩
    have queued : A.place i = .queued h := by
      by_contra elsewhere
      exact List.count_eq_zero.mp (calls.unqueued h i live elsewhere) listed
    have taken := calls.take { y with transactionStack := some i, read := none } found
      needReply queued present target rfl rfl
    have stored := taken.storeBuffer (p := p) (b := b)
      (f := fun buffer => { buffer with allowUserFree := true }) (fun _ => ⟨rfl, rfl, rfl⟩)
      fun _ => ⟨rfl, rfl⟩
    refine readDone_spec.returns ?_
    rintro _ _ ⟨y', procs, present', spaces, rfl⟩
    have same : { y with transactionStack := some i } = y' := by simpa using present'
    subst same
    simp only [BinderState.setThread, BinderState.setTransaction, Function.update_idem]
    exact ⟨_, stored.frame { CallFrame.refl _ with spaces := spaces }⟩

theorem readTransaction_calls {y : BinderThread} {put : Nat → Bool} (calls : Calls s A none none)
    (present : s.threads th = some y) (listed : .transaction i ∈ s.work h)
    (target : h.owner = some th ∨ (h.owner = none ∧ y.transactionStack = none)) :
    KeepsCalls none (readTransaction th i h put) s := by
  unfold readTransaction
  simp only [wp_bind, wp_getThread, wp_getTransaction, and_freed]
  intro y' present' x found
  cases place : x.buffer with
  | none => exact (avoids_bug _).mpr (by decide)
  | some at' =>
    simp only [wp_bind, wp_getBuffer]
    intro buffer inSpace
    have schedules : Moves CallFrame Safe (ifSome buffer.targetNode (pickUpSched y'.pid i)) :=
      Moves.ifSome fun _ => pickUpSched_callFrame
    refine (schedules s).returns fun _ t scheduled => ?_
    refine senderOf_callFrame.after scheduled fun _ u named => ?_
    simp only [wp_ite, wp_bind]
    refine ⟨fun _ => ?_, fun _ => ?_⟩
    · exact readReturn_callFrame.after named fun _ _ framed => ⟨A, calls.frame framed⟩
    refine advance_callFrame.after named fun _ v framed => ?_
    -- The transaction, its buffer and the thread are as before where it matters.
    obtain ⟨x', found', core⟩ := framed.symm_transaction found
    obtain ⟨buffer', inSpace', _, node⟩ := framed.symm_buffer inSpace
    obtain ⟨y'', present'', stack⟩ := framed.symm_thread present
    have listed' : .transaction i ∈ v.work h := by
      rw [← List.one_le_count_iff, framed.calls h i, List.one_le_count_iff]
      exact listed
    rw [BinderThread.core_stack stack.symm] at target
    have delivers := deliver_calls (calls.frame framed) found'
      ((BinderTransaction.core_buffer core).trans place) inSpace' present'' listed' target
    rw [KeepsCalls, wp_bind, node] at delivers
    exact delivers

/-- Where the next work item comes from: the thread's own list, or that of the process
if the thread waits for it. -/
theorem nextWork_some {p : Nat} {waits : Bool} {w : Work}
    (next : nextWork s th p waits = some (h, w)) :
    w ∈ s.work h ∧ (h = .threadTodo th ∨ (h = .procTodo p ∧ waits = true)) := by
  unfold nextWork at next
  cases own : s.work (.threadTodo th) with
  | cons w' l =>
    rw [own] at next
    cases next
    exact ⟨by rw [own]; exact List.mem_cons_self, .inl rfl⟩
  | nil =>
    rw [own] at next
    cases waits with
    | false => cases next
    | true =>
      obtain ⟨w', first, same⟩ := Option.map_eq_some_iff.mp next
      cases same
      exact ⟨List.mem_of_head? first, .inr ⟨rfl, rfl⟩⟩

theorem readWork_calls {put : Nat → Bool} (calls : Calls s A none none) :
    KeepsCalls none (readWork th put) s := by
  unfold readWork
  refine deref_then fun y present => ?_
  cases reading : y.read with
  | none => exact ⟨A, calls⟩
  | some read =>
    simp only [wp_bind, wp_get]
    cases next : nextWork s th y.proc read.waitForProcWork with
    | none =>
      simp only [wp_ite, wp_putThread]
      refine ⟨fun _ => ⟨A, calls.frame ?_⟩, fun _ => calls.keeps readDone_callFrame⟩
      refine .setThread present rfl fun waits => .inr ?_
      simpa [BinderThread.waitsForProc, reading] using waits
    | some item =>
      obtain ⟨h, w⟩ := item
      obtain ⟨listed, source⟩ := nextWork_some next
      simp only [wp_ite]
      refine ⟨fun _ => calls.keeps readDone_callFrame, fun _ => ?_⟩
      cases w with
      | transaction i =>
        refine readTransaction_calls calls present listed ?_
        rcases source with rfl | ⟨rfl, waits⟩
        · exact .inl rfl
        · refine .inr ⟨rfl, calls.waits th y present ?_⟩
          simp [BinderThread.waitsForProc, reading, waits]
      | transactionComplete =>
        simp only [wp_ite, wp_bind, wp_listDel, wp_deleted]
        refine ⟨fun _ => calls.keeps readReturn_callFrame, fun _ => ?_⟩
        refine (advance_callFrame s).returns fun _ t advanced => ⟨A, calls.frame ?_⟩
        refine advanced.trans (.trans (.setWork fun j => ?_)
          (Frame.countDeleted (by simp)).callFrame)
        exact List.count_erase_of_ne (by simp)
      | node n => exact calls.keeps readNode_callFrame
      | death d => exact calls.keeps readDeath_callFrame

end AndroidKernel.Binder
