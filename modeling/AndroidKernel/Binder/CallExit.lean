import AndroidKernel.Binder.CallRead

/-!
The calls when threads and processes go away.
-/

namespace AndroidKernel.Binder

open Lib List

variable {s : BinderState} {A : CallMap} {dying current : Option Nat} {th : Nat}
  {tree : BinderProc → List (Nat × Nat)} {i p : Nat} {x : BinderTransaction} {l done : List Nat}

/-! ### Released work -/

theorem releaseWorkItem_calls {h : ListHead} {l : List Work}
    (calls : Calls s A dying none) (list : s.work h = .transaction i :: l) :
    KeepsCalls dying (releaseWorkItem (.transaction i)) (s.setWork h l) := by
  unfold releaseWorkItem
  refine deref_then fun x found => ?_
  cases place : x.buffer with
  | none => simp
  | some at' =>
    obtain ⟨p, b⟩ := at'
    simp only [wp_bind, wp_getBuffer, wp_ifThen]
    intro buffer inSpace
    have found' : s.transactions i = some x := found
    by_cases live : A.live i
    · have queued : A.place i = .queued h := by
        by_contra elsewhere
        have absent := calls.unqueued h i live elsewhere
        rw [list, count_cons_self] at absent
        cases absent
      have dropped := calls.drop live queued list
      refine ⟨fun _ => binderSendFailedReply_calls dropped ⟨live, ?_, ?_⟩, fun _ => ⟨_, dropped⟩⟩
      · intro c child
        exact (calls.inv.parent_live c i child).2.2 h queued
      · simp [CallState.drop]
    · have noReply : x.needReply = false := by
        by_contra needReply
        exact live ((calls.live i).mpr ⟨x, found', by simpa using needReply⟩)
      refine ⟨?_, fun _ => ⟨A, calls.relist ?_ ?_⟩⟩
      · rintro ⟨toNode, twoWay⟩
        rw [calls.reply i x p b buffer found' (by simp) noReply twoWay place inSpace] at toNode
        cases toNode
      · intro j mem
        rw [list]
        exact mem_cons_of_mem _ mem
      · grind

theorem binderReleaseWork_calls {h : ListHead} (calls : Calls s A dying none) :
    wp (binderReleaseWork h) (fun _ t => (∃ A', Calls t A' dying none) ∧ t.work h = []) Safe s := by
  unfold binderReleaseWork
  refine wp_drain ?_ ⟨A, calls⟩
  rintro t ⟨B, calls⟩
  simp only [wp_bind, wp_get, wp_pure, true_and]
  refine ⟨fun empty => head?_eq_none_iff.mp empty, fun w first => ?_⟩
  obtain ⟨l, list⟩ := head?_eq_some_iff.mp first
  unfold unlinkFirst
  simp only [wp_bind, wp_modify, list, tail_cons]
  have other : (∀ i, w ≠ .transaction i) → CallFrame t (t.setWork h l) := by
    intro notCall
    refine .setWork fun i => ?_
    rw [list, count_cons_of_ne (notCall i)]
  cases w with
  | transaction i => exact releaseWorkItem_calls calls list
  | transactionComplete =>
    exact ⟨B, calls.frame ((other (by simp)).trans (Frame.countDeleted (by simp)).callFrame)⟩
  | node n =>
    simp only [wp_bind, wp_getNode, and_freed, wp_putNode]
    exact fun node found => ⟨B, calls.frame ((other (by simp)).trans (.setNode found rfl rfl))⟩
  | death d =>
    simp only [wp_bind, wp_getDeath, and_freed, wp_putDeath]
    exact fun death _ => ⟨B, calls.frame ((other (by simp)).trans .setDeath)⟩

/-! ### The stack of a thread that exits -/

/-- What `binder_free_thread` does to the links of a transaction on the stack of
`th`. -/
def BinderTransaction.detach (th : Nat) (x : BinderTransaction) : BinderTransaction :=
  if x.toThread = some th then { x with toProc := none, toThread := none }
  else if x.fromThread = some th then { x with fromThread := none }
  else x

/-- The links of the transactions of `l` are detached. -/
def BinderState.detach (s : BinderState) (th : Nat) (l : List Nat) : BinderState :=
  { s with transactions := fun i =>
      if i ∈ l then (s.transactions i).map (BinderTransaction.detach th) else s.transactions i }

/-- `y` is `x` but for the links to thread `th`. -/
structure BinderTransaction.Detached (th : Nat) (x y : BinderTransaction) : Prop where
  needReply : y.needReply = x.needReply
  buffer : y.buffer = x.buffer
  flags : y.flags = x.flags
  fromParent : y.fromParent = x.fromParent
  toParent : y.toParent = x.toParent
  fromThread : x.fromThread = none → y.fromThread = none
  toThread : ∀ z, z ≠ th → (y.toThread = some z ↔ x.toThread = some z)

theorem BinderTransaction.Detached.detached : x.Detached th (if i ∈ l then x.detach th else x) := by
  by_cases mem : i ∈ l
  · rw [if_pos mem]
    unfold BinderTransaction.detach
    by_cases isTo : x.toThread = some th
    · rw [if_pos isTo]
      exact ⟨rfl, rfl, rfl, rfl, rfl, id, fun z other => by simp [isTo, other.symm]⟩
    · rw [if_neg isTo]
      split
      · exact ⟨rfl, rfl, rfl, rfl, rfl, fun _ => rfl, fun _ _ => Iff.rfl⟩
      · exact ⟨rfl, rfl, rfl, rfl, rfl, id, fun _ _ => Iff.rfl⟩
  · rw [if_neg mem]
    exact ⟨rfl, rfl, rfl, rfl, rfl, id, fun _ _ => Iff.rfl⟩

theorem transactions_detach : (s.detach th l).transactions i =
    (s.transactions i).map fun x => if i ∈ l then x.detach th else x := by
  by_cases mem : i ∈ l <;> simp [BinderState.detach, mem]

theorem detach_some {y : BinderTransaction}
    (found : (s.detach th l).transactions i = some y) : ∃ x, s.transactions i = some x ∧
      y = (if i ∈ l then x.detach th else x) ∧ x.Detached th y := by
  rw [transactions_detach] at found
  obtain ⟨x, present, rfl⟩ := Option.map_eq_some_iff.mp found
  exact ⟨x, present, rfl, .detached⟩

theorem detach_found (found : s.transactions i = some x) :
    (s.detach th l).transactions i = some (if i ∈ l then x.detach th else x) := by
  rw [transactions_detach, found, Option.map_some]

/-- What is left of the sender of a call when `th` exits. -/
theorem Calls.detach_fromThread (calls : Calls s A none current)
    (found : s.transactions i = some x) (needReply : x.needReply = true) :
    (if i ∈ A.stack th then x.detach th else x).fromThread = (A.exit th).caller i := by
  have live := (calls.live i).mpr ⟨x, found, needReply⟩
  have caller := (calls.links i x found needReply).1
  by_cases mem : i ∈ A.stack th
  · rw [if_pos mem]
    unfold BinderTransaction.detach
    by_cases active : A.place i = .active th
    · have notCaller : A.caller i ≠ some th := fun isCaller =>
        (calls.inv.caller_ne i th live isCaller).1 active
      simp [(calls.toThread_iff mem found).mpr active, CallState.exit, notCaller, caller]
    · have isCaller : A.caller i = some th :=
        ((calls.inv.linked th).end_of_mem mem).resolve_right active
      have notTo : x.toThread ≠ some th := mt (calls.toThread_iff mem found).mp active
      simp [notTo, CallState.exit, isCaller, caller]
  · have notCaller : A.caller i ≠ some th := fun isCaller =>
      mem (calls.inv.caller_mem i th live isCaller).2
    simp [mem, CallState.exit, notCaller, caller]

/-- The thread has left all the calls on its stack. -/
theorem Calls.exit (calls : Calls s A none none) :
    Calls (s.detach th (A.stack th)) (A.exit th) (some th) none := by
  exact {
    transaction_lt := fun i y found => by
      obtain ⟨x, present, _⟩ := detach_some found
      exact calls.transaction_lt i x present
    thread_lt := calls.thread_lt
    space := calls.space
    toBuffer := fun i y p b found other points => by
      obtain ⟨x, present, _, same⟩ := detach_some found
      exact calls.toBuffer i x p b present other (same.buffer ▸ points)
    ofBuffer := fun p b h i inSpace points => by
      obtain ⟨x, present, buffer⟩ := calls.ofBuffer p b h i inSpace points
      exact ⟨_, detach_found present, BinderTransaction.Detached.detached.buffer.trans buffer⟩
    reply := fun i y p b h found other noReply twoWay points inSpace => by
      obtain ⟨x, present, _, same⟩ := detach_some found
      exact calls.reply i x p b h present other (same.needReply ▸ noReply) (same.flags ▸ twoWay)
        (same.buffer ▸ points) inSpace
    call := fun i y p b h found needReply points inSpace => by
      obtain ⟨x, present, _, same⟩ := detach_some found
      exact calls.call i x p b h present (same.needReply ▸ needReply) (same.buffer ▸ points) inSpace
    noCall := fun i y found other noReply => by
      obtain ⟨x, present, _, same⟩ := detach_some found
      obtain ⟨fromThread, fromParent⟩ := calls.noCall i x present other (same.needReply ▸ noReply)
      exact ⟨same.fromThread fromThread, same.fromParent.trans fromParent⟩
    twoWay := fun i y found needReply => by
      obtain ⟨x, present, _, same⟩ := detach_some found
      rw [same.flags]
      exact calls.twoWay i x present (same.needReply ▸ needReply)
    unsent := fun i isCurrent => by cases isCurrent
    newest := fun i isCurrent => by cases isCurrent
    listed_lt := calls.listed_lt
    async_lt := calls.async_lt
    live := fun i => by
      refine (calls.live i).trans ⟨?_, ?_⟩
      · rintro ⟨x, present, needReply⟩
        exact ⟨_, detach_found present, BinderTransaction.Detached.detached.needReply.trans needReply⟩
      · rintro ⟨y, found, needReply⟩
        obtain ⟨x, present, _, same⟩ := detach_some found
        exact ⟨x, present, same.needReply ▸ needReply⟩
    links := fun i y found needReply => by
      obtain ⟨x, present, rfl, same⟩ := detach_some found
      have before : x.needReply = true := same.needReply ▸ needReply
      exact ⟨calls.detach_fromThread present before,
        same.fromParent.trans (calls.links i x present before).2⟩
    alive := fun y => by
      by_cases isTh : y = th
      · subst isTh
        simp [CallState.exit]
      · have other : th ≠ y := fun same => isTh same.symm
        have before : A.alive y ↔ (∃ x, (s.detach th (A.stack th)).threads y = some x) ∧
            none ≠ some y := calls.alive y
        simpa [CallState.exit, isTh, other] using before
    stack := fun y thread present other => by
      have isTh : y ≠ th := by
        rintro rfl
        exact other rfl
      rw [CallState.exit_stack isTh]
      exact calls.stack y thread present (by simp)
    active := fun y pre i rest x' isStack isActive found => by
      obtain ⟨active, isTh⟩ := CallState.exit_active.mp isActive
      rw [CallState.exit_stack isTh] at isStack
      obtain ⟨x, present, _, same⟩ := detach_some found
      obtain ⟨toThread, toParent⟩ := calls.active y pre i rest x isStack active present
      exact ⟨(same.toThread y isTh).mpr toThread, same.toParent.trans toParent⟩
    away := fun y i x' mem notActive found toThread => by
      by_cases isTh : y = th
      · subst isTh
        simp [CallState.exit] at mem
      rw [CallState.exit_stack isTh] at mem
      obtain ⟨x, present, _, same⟩ := detach_some found
      exact calls.away y i x mem (fun active => notActive (CallState.exit_active.mpr ⟨active, isTh⟩))
        present ((same.toThread y isTh).mp toThread)
    queued := fun h i live isQueued => calls.queued h i live (CallState.exit_queued.mp isQueued)
    unqueued := fun h i live isNot => calls.unqueued h i live (mt CallState.exit_queued.mpr isNot)
    waits := calls.waits
    inv := calls.inv.exit }

/-- One more transaction is detached. -/
theorem detach_append {y : BinderTransaction}
    (found : s.transactions i = some x) (same : y = x.detach th) :
    (s.detach th done).setTransaction i (some y) = s.detach th (done ++ [i]) := by
  unfold BinderState.detach BinderState.setTransaction
  congr 1
  funext j
  by_cases isI : j = i
  · subst isI
    simp [found, same]
  · simp [isI]

theorem detach_clearBuffer :
    (s.detach th l).clearBuffer x = { s.clearBuffer x with
      transactions := (s.detach th l).transactions } := by
  unfold BinderState.clearBuffer
  cases x.buffer <;> rfl

/-- A received transaction is detached and loses its buffer. -/
theorem detach_append_received
    (found : s.transactions i = some x) (fresh : i ∉ done) (toThread : x.toThread = some th) :
    ((s.detach th done).clearBuffer x).setTransaction i (some
        { x with toProc := none, toThread := none, buffer := none }) =
      ((s.clearBuffer x).setTransaction i (some { x with buffer := none })).detach th
        (done ++ [i]) := by
  rw [detach_clearBuffer]
  have table : (s.clearBuffer x).transactions = s.transactions := by rw [clearBuffer_eq]
  unfold BinderState.detach BinderState.setTransaction
  congr 1
  funext j
  by_cases isI : j = i
  · subst isI
    simp [BinderTransaction.detach, toThread]
  · simp [isI, table]

theorem detachStack_calls {rest : List Nat} (fuel : Nat) (calls : Calls s A none none)
    (stack : A.stack th = done ++ rest) :
    wp (detachStack th fuel rest.head?) (fun _ t => ∃ s', Calls s' A none none ∧
      t = s'.detach th (A.stack th)) Safe (s.detach th done) := by
  induction rest generalizing s done fuel with
  | nil =>
    rw [append_nil] at stack
    rw [stack]
    unfold detachStack
    exact ⟨s, calls, rfl⟩
  | cons i rest ih =>
    have mem : i ∈ A.stack th := by simp [stack]
    have fresh : i ∉ done := by
      have nodup := calls.inv.stack_nodup th
      rw [stack] at nodup
      exact fun isDone => (List.nodup_append.mp nodup).2.2 i isDone i mem_cons_self rfl
    have stack' : A.stack th = (done ++ [i]) ++ rest := by simp [stack]
    obtain ⟨x, found, needReply⟩ := (calls.live i).mp (calls.inv.stack_live th i mem)
    cases fuel with
    | zero => simp [detachStack]
    | succ fuel =>
      unfold detachStack
      simp only [head?_cons, wp_bind, wp_getTransaction, and_freed, wp_ite, wp_putTransaction, wp_throw]
      intro x' found'
      have same : x = x' := by
        have here : (s.detach th done).transactions i = _ := detach_found found
        rw [if_neg fresh] at here
        exact Option.some.inj (here.symm.trans found')
      subst same
      refine ⟨fun toThread => ?_, fun notTo => ⟨fun fromThread => ?_, fun notFrom => ?_⟩⟩
      · -- It was delivered to this thread.
        have active := (calls.toThread_iff mem found).mp toThread
        have next := ih fuel (calls.dropBuffer found (by simp)) stack'
        rw [← (calls.active th done i rest x stack active found).2] at next
        apply wp_clearBuffer
        rw [detach_append_received found fresh toThread]
        exact next
      · -- It was sent by this thread.
        have notActive := mt (calls.toThread_iff mem found).mpr notTo
        have linked := calls.inv.linked th
        rw [stack] at linked
        have below : x.fromParent = rest.head? := by
          rcases linked.over_split with ⟨_, parent, _⟩ | ⟨active, _⟩
          · exact (calls.links i x found needReply).2.trans parent
          · exact absurd active notActive
        rw [detach_append found (by simp [BinderTransaction.detach, notTo, fromThread]), below]
        exact ih fuel calls stack'
      · have notActive := mt (calls.toThread_iff mem found).mpr notTo
        have caller := ((calls.inv.linked th).end_of_mem mem).resolve_right notActive
        exact absurd ((calls.links i x found needReply).1.trans caller) notFrom

/-- The thread is gone, and so are the calls that waited for it. -/
theorem Calls.bury (calls : Calls s A (some th) none) (empty : s.work (.threadTodo th) = []) :
    Calls (s.setThread th none) A none none :=
  { calls with
    thread_lt := fun y thread found => calls.thread_lt y thread (update_none found).2
    alive := fun y => by
      rw [calls.alive y]
      by_cases isTh : y = th
      · simp [isTh]
      · have other : th ≠ y := fun same => isTh same.symm
        simp [isTh, other]
    stack := fun y thread found _ => by
      obtain ⟨isTh, present⟩ := update_none found
      exact calls.stack y thread present fun same => isTh (Option.some.inj same).symm
    waits := fun y thread found => calls.waits y thread (update_none found).2
    inv := by
      refine calls.inv.settle fun i h live queued owned => ?_
      have isTodo : h = .threadTodo th := by
        cases h with
        | threadTodo y =>
          cases owned
          rfl
        | procTodo | deliveredDeath => cases owned
      have once := calls.queued h i live queued
      rw [isTodo, empty] at once
      cases once }

/-- What `incomingTop` finds: the call the thread works on. -/
theorem incomingTop_calls {y : BinderThread} (calls : Calls s A none none)
    (present : s.threads th = some y) :
    wp (incomingTop th y.transactionStack) (fun result t => t = s ∧ ∀ i, result = some i →
      Ending (A.exit th) i) Safe s := by
  have stack := calls.stack th y present (by simp)
  unfold incomingTop
  cases top : y.transactionStack with
  | none => exact ⟨rfl, by simp⟩
  | some i =>
    rw [top] at stack
    simp only [wp_bind, wp_getTransaction, and_freed, wp_pure, true_and]
    intro x found j isJ
    split at isJ
    · rename_i toThread
      cases isJ
      have mem := List.mem_of_head? stack.symm
      have active := (calls.toThread_iff mem found).mp toThread
      exact ⟨calls.inv.stack_live th i mem, calls.inv.childless_of_top stack.symm active,
        by simp [CallState.exit, active]⟩
    · cases isJ

theorem detachStack_exit {fuel : Nat} {y : BinderThread} (calls : Calls s A none none)
    (present : s.threads th = some y) :
    wp (detachStack th fuel y.transactionStack) (fun _ t => Calls t (A.exit th) (some th) none) Safe
      s := by
  have start : s.detach th [] = s := by simp [BinderState.detach]
  have detaches := detachStack_calls fuel calls (nil_append (A.stack th)).symm
  rw [start, ← calls.stack th y present (by simp)] at detaches
  refine detaches.returns ?_
  rintro _ _ ⟨s', calls', rfl⟩
  exact calls'.exit

theorem binderFreeThread_calls (calls : Calls s A none none) :
    KeepsCalls none (binderFreeThread th) s := by
  unfold binderFreeThread
  simp only [wp_bind, wp_getThread, wp_getProc, and_freed,
    wp_putProc, wp_get, wp_modify, wp_deleted]
  intro y present proc found
  have unlisted : Calls (s.setProc y.proc (some { proc with
      threads := proc.threads.erase (y.pid, th) })) A none none :=
    calls.frame (.setProc found rfl)
  refine (incomingTop_calls unlisted present).returns ?_
  rintro sendReply t ⟨rfl, ending⟩
  refine (detachStack_exit unlisted present).returns fun _ t exited => ?_
  -- The caller of the call the thread was working on is told.
  have reply : wp (ifSome sendReply fun i => binderSendFailedReply i .deadReply)
      (fun _ u => ∃ A', Calls u A' (some th) none) Safe t := by
    rw [wp_ifSome]
    exact ⟨fun _ => ⟨_, exited⟩, fun i isI => binderSendFailedReply_calls exited (ending i isI)⟩
  refine reply.returns ?_
  rintro _ u ⟨B, told⟩
  refine (binderReleaseWork_calls told).returns ?_
  rintro _ v ⟨⟨C, released⟩, empty⟩
  exact ⟨C, { released.bury empty with }⟩

/-! ### Processes -/

/-- Processes change, their buffers do not. -/
theorem Calls.reproc {procs : Nat → Option BinderProc} (calls : Calls s A dying current)
    (space : Spaces { s with procs := procs })
    (same : ∀ p b, BinderState.buffer { s with procs := procs } p b = s.buffer p b) :
    Calls { s with procs := procs } A dying current := by
  apply calls.rebuffer
  case only => rfl
  case space => exact space
  all_goals grind [BinderTransaction.SameCall.refl]

theorem releaseProcBuffer_calls {b : Nat} (calls : Calls s A dying none) :
    wp (releaseProcBuffer p b) (fun _ t => Calls t A dying none) Safe s := by
  unfold releaseProcBuffer
  simp only [wp_bind, wp_getBuffer]
  intro h inSpace
  rw [wp_ifSome]
  refine ⟨fun idle => freeBuf_calls calls inSpace idle, fun i points => ?_⟩
  refine (detachBuffer_calls calls inSpace points (by simp)).returns ?_
  rintro _ t ⟨detached, alone⟩
  exact freeBuf_calls detached alone rfl

/-- Without allocated buffers in the tree there are none. -/
theorem firstBuffer_calls (calls : Calls s A dying current) :
    wp (firstBuffer p) (fun found t => t = s ∧ (found = none → ∀ b, s.buffer p b = none)) Safe
      s := by
  unfold firstBuffer
  simp only [wp_bind, wp_getProc, and_freed, wp_pure, true_and]
  intro proc found noFirst b
  unfold BinderState.buffer
  rw [found, Option.bind_some]
  cases alloc : proc.alloc with
  | none => rfl
  | some a =>
    rw [alloc, Option.bind_some, head?_eq_none_iff] at noFirst
    rw [Option.bind_some, live_eq_none]
    rintro ⟨mem, taken⟩
    have inTree : b ∈ a.allocatedBuffers.inorder := by
      rw [(calls.space.inv found alloc).trees.allocated]
      simp [mem, taken, everyBuffer]
    rw [noFirst] at inTree
    cases inTree

theorem firstOf_pure {sites : List BugSite} :
    wp (firstOf tree p) (fun _ t => t = s) (Avoids sites) s := by
  unfold firstOf
  simp

/-- The process is gone, after its buffers. -/
theorem Calls.removeProc (calls : Calls s A dying current)
    (empty : ∀ b, s.buffer p b = none) : Calls (s.setProc p none) A dying current := by
  refine calls.reproc ⟨fun q proc found => calls.space.proc_lt (update_none found).2,
    fun q proc a found => calls.space.inv (update_none found).2⟩ fun q b => ?_
  by_cases isP : q = p
  · subst isP
    rw [empty b]
    simp [BinderState.buffer]
  · simp [BinderState.buffer, isP]

/-- A loop over a tree of the process whose rounds keep the calls. -/
theorem drain_calls {fuel : Nat} {body : Nat → BinderM Unit}
    (round : ∀ t B x, Calls t B none none →
      KeepsCalls none (body x) t) (calls : Calls s A none none) :
    KeepsCalls none (drain (firstOf tree p) body fuel) s := by
  have run : wp (drain (firstOf tree p) body fuel)
      (fun _ t => (∃ A', Calls t A' none none) ∧ True) Safe s := by
    refine wp_drain ?_ ⟨A, calls⟩
    rintro t ⟨B, calls⟩
    refine firstOf_pure.returns ?_
    rintro x t rfl
    exact ⟨rfl, fun _ => trivial, fun a _ => round t B a calls⟩
  exact run.returns fun _ _ => And.left

theorem binderDeferredRelease_calls (calls : Calls s A none none) :
    KeepsCalls none (binderDeferredRelease p) s := by
  unfold binderDeferredRelease
  simp only [wp_bind, wp_getProc, and_freed, wp_ite, wp_throw]
  intro proc found
  refine ⟨fun _ => (avoids_bug _).mpr (by decide), fun _ =>
    ⟨fun _ => (avoids_bug _).mpr (by decide), fun _ => ?_⟩⟩
  refine (dropContextMgr_callFrame s).returns fun _ t framed => ?_
  refine (drain_calls (fun _ _ _ calls => binderFreeThread_calls calls)
    (calls.frame framed)).returns ?_
  rintro _ t ⟨B, calls⟩ _ _
  refine (drain_calls (fun u B n calls => (releaseProcNode_callFrame u).returns fun _ _ framed =>
    ⟨B, calls.frame framed⟩) calls).returns ?_
  rintro _ t ⟨B, calls⟩ _ _
  refine (drain_calls (fun u B r calls => (callFrame_of_frame binderDeleteRef_frame u).returns
    fun _ _ framed => ⟨B, calls.frame framed⟩) calls).returns ?_
  rintro _ t ⟨B, calls⟩
  refine (binderReleaseWork_calls calls).returns ?_
  rintro _ t ⟨⟨B, calls⟩, _⟩ _ _
  have buffers : ∀ fuel, wp (drain (firstBuffer p) (releaseProcBuffer p) fuel)
      (fun _ t => Calls t B none none ∧ ∀ b, t.buffer p b = none) Safe t := by
    intro fuel
    refine wp_drain (fun u calls => (firstBuffer_calls calls).returns ?_) calls
    rintro found u ⟨rfl, empty⟩
    exact ⟨rfl, empty, fun b _ => releaseProcBuffer_calls calls⟩
  refine (buffers _).returns ?_
  rintro _ t ⟨calls, empty⟩
  exact ⟨B, { calls.removeProc empty with }⟩

end AndroidKernel.Binder
