import AndroidKernel.Binder.CallExit
import AndroidKernel.Binder.Runs

/-!
The call stacks in all runs.

The walk over the stack of a thread follows `to_parent` from the transactions it
received and `from_parent` from those it sent (`Walk`). As long as no call comes
back to the thread that makes it, the walk ends, meets only transactions that
are there and were sent or received by the thread, and none of the `BUG`s on
stacks is reached (`callStacks_of_reach`). A thread that waits for a call may be
chosen as the target of its own next one (`walk_endless`).
-/

namespace AndroidKernel.Binder

open Lib

variable {s : BinderState} {A : CallMap} {th : Nat}

/-! ### Events -/

/-- The senders of the calls along `from_parent`. -/
def senders (s : BinderState) : Nat → Option Nat → List Nat
  | fuel + 1, some t =>
    match s.transactions t with
    | some x => x.fromThread.toList ++ senders s fuel x.fromParent
    | none => []
  | _, _ => []

/-- The process that has the node of a handle. -/
def handleProc (s : BinderState) (p handle : Nat) : Option Nat := do
  let n ← if handle ≠ 0 then do
      let proc ← s.procs p
      let r ← lookupKey handle proc.refsByDesc
      (s.refs r).map (·.node)
    else s.contextMgrNode
  (← s.nodes n).proc

/-- A two-way call that a thread makes to its own process while it handles a call does not come back
to it: among the senders of the calls that led here, it is not the last one of the process. -/
def routesAway (s : BinderState) : Event → Bool
  | .write th (.transaction _ tr) =>
    match s.threads th with
    | none => true
    | some thread =>
      isOneWay tr.flags || handleProc s thread.proc tr.handle != some thread.proc ||
        (thread.transactionStack.bind s.transactions).bind (·.toThread) != some th ||
        ((senders s (s.nextId + 1) thread.transactionStack).filter fun y =>
          (s.threads y).map (·.proc) = some thread.proc).getLast? != some th
  | _ => true

/-- The condition on runs. -/
def RoutesAway (s : BinderState) (e : Event) : Prop := routesAway s e = true

instance decidableRoutesAway (s : BinderState) (e : Event) : Decidable (RoutesAway s e) :=
  inferInstanceAs (Decidable (_ = true))

/-- The search takes the last sender of the target process. -/
theorem routeThread_senders {p fuel : Nat} {start found : Option Nat} :
    wp (routeThread p fuel start found) (fun result _ => result =
      ((senders s fuel start).filter fun y => (s.threads y).map (·.proc) = some p).getLast?.or found)
      (Avoids []) s := by
  induction fuel generalizing start found with
  | zero =>
    cases start with
    | none => simp [routeThread, senders]
    | some t => simp [routeThread]
  | succ fuel ih =>
    cases start with
    | none => simp [routeThread, senders]
    | some t =>
      unfold routeThread
      refine deref_then fun x present => ?_
      rw [senders, present]
      simp only
      cases sender : x.fromThread with
      | none => exact ih
      | some y =>
        refine deref_then fun thread here => ih.returns ?_
        rintro result _ rfl
        rw [Option.toList_some, List.singleton_append, List.filter_cons, here, Option.map_some]
        simp only [Option.some.injEq, decide_eq_true_eq]
        generalize (senders s fuel x.fromParent).filter _ = later
        by_cases own : thread.proc = p
        · rw [if_pos own, if_pos own, List.getLast?_cons]
          cases later.getLast? <;> rfl
        · rw [if_neg own, if_neg own]

theorem targetNode_handleProc {p handle : Nat} :
    wp (targetNode p handle) (fun result t => t = s ∧ ∀ n node, result = .ok n →
      s.nodes n = some node → handleProc s p handle = node.proc) (Avoids []) s := by
  unfold targetNode handleProc
  rw [wp_ite]
  refine ⟨fun named => ?_, fun isZero => ?_⟩
  · rw [wp_bind, wp_binderGetRef, and_freed, if_pos named]
    intro proc found
    rw [found]
    cases r : lookupKey handle proc.refsByDesc with
    | none => simp
    | some r =>
      refine deref_then fun ref isRef => ⟨rfl, fun n node isNode here => ?_⟩
      cases isNode
      simp [r, isRef, here]
  · rw [wp_bind, wp_get, if_neg isZero]
    cases s.contextMgrNode with
    | none => simp
    | some m =>
      refine ⟨rfl, fun n node isNode here => ?_⟩
      cases isNode
      simp [here]

/-- A call that is routed to the thread that makes it is one that the condition excludes. -/
theorem RoutesAway.notSelf {env : TransactionEnv} {tr : TransactionData}
    (away : RoutesAway s (.write th (.transaction env tr))) : NotSelf s th tr := by
  have chosen : wp (callTarget th tr) (fun result _ => ∀ target, result = .ok target →
      target.thread ≠ some th) (Avoids []) s := by
    unfold callTarget
    refine deref_then fun thread present => ?_
    simp only [RoutesAway, routesAway, present, Bool.or_eq_true, bne_iff_ne] at away
    rw [wp_bind]
    refine targetNode_handleProc.returns ?_
    rintro (failure | n) _ ⟨rfl, isProc⟩
    · simp
    refine deref_then fun node here => ?_
    have isProc := isProc n node rfl here
    cases owner : node.proc with
    | none => simp
    | some p =>
      simp only [wp_ite, wp_pure]
      refine ⟨fun _ target isTarget => by cases isTarget; simp, fun twoWay => ?_⟩
      cases top : thread.transactionStack with
      | none => exact fun target isTarget => by cases isTarget; simp
      | some t =>
        refine deref_then fun x found => ?_
        simp only [wp_ite, wp_pure, wp_bind, wp_get]
        refine ⟨fun _ => by simp, fun addressed => ?_⟩
        refine routeThread_senders.returns ?_
        rintro result _ rfl target isTarget last
        cases isTarget
        rw [Option.or_none] at last
        -- the last sender of the target process can be the thread only if that is its own
        have own : thread.proc = p := by
          have mem := (List.mem_filter.mp (List.mem_of_getLast? last)).2
          simpa [present] using mem
        subst own
        rw [isProc, owner, top, Option.bind_some, found, Option.bind_some] at away
        rcases away with ((oneWay | other) | unaddressed) | elsewhere
        · exact twoWay oneWay
        · exact other rfl
        · exact addressed unaddressed
        · exact elsewhere last
  intro target t run
  exact chosen.of_ok run target rfl

section

variable (calls : Calls s A none none)
include calls

theorem binderThreadWrite_calls {cmd : BcCommand} {y : BinderThread}
    (present : s.threads th = some y) (free : y.waitsForProc = false)
    (away : RoutesAway s (.write th cmd)) : KeepsCalls none (binderThreadWrite th cmd) s := by
  unfold binderThreadWrite
  rw [KeepsCalls, wp_bind, wp_getThread]
  refine ⟨fun thread _ => ?_, fun _ => avoids_useAfterFree _⟩
  cases cmd with
  | increfs | acquire => exact calls.keeps (callFrame_of_frame writeInc_frame)
  | release | decrefs => exact calls.keeps (callFrame_of_frame writeDec_frame)
  | increfsDone | acquireDone => exact calls.keeps (callFrame_of_frame writeDone_frame)
  | freeBuffer dataPtr => exact (writeFreeBuffer_calls calls).returns fun _ _ calls => ⟨A, calls⟩
  | transaction env tr =>
    rw [wp_bind]
    exact binderTransaction_calls calls present free fun _ => away.notSelf
  | reply env tr =>
    rw [wp_bind]
    exact binderTransaction_calls calls present free (by rintro ⟨⟩)
  | registerLooper => exact calls.keeps writeRegisterLooper_callFrame
  | enterLooper => exact calls.keeps writeEnterLooper_callFrame
  | exitLooper => exact calls.keeps writeExitLooper_callFrame
  | requestDeathNotification target cookie alloc => exact calls.keeps writeRequestDeath_callFrame
  | clearDeathNotification target cookie => exact calls.keeps writeClearDeath_callFrame
  | deadBinderDone cookie => exact calls.keeps writeDeadBinderDone_callFrame

theorem binderOpen_calls {pid : Nat} : KeepsCalls none (binderOpen pid) s := by
  unfold binderOpen
  have counted := calls.frame (@Frame.countCreated _ .proc (by simp)).callFrame
  refine ⟨A, counted.reproc ⟨fun p proc found => ?_, fun p proc a found alloc => ?_⟩ fun p b => ?_⟩
  · rcases update_some found with ⟨rfl, _⟩ | ⟨_, present⟩
    · exact Nat.lt_succ_self _
    · exact counted.space.proc_lt present
  · rcases update_some found with ⟨rfl, rfl⟩ | ⟨_, present⟩
    · cases alloc
    · exact counted.space.inv present alloc
  · by_cases isNew : p = s.nextId
    · subst isNew
      have unused : s.procs s.nextId = none := by
        by_contra present
        obtain ⟨proc, found⟩ := Option.ne_none_iff_exists'.mp present
        exact lt_irrefl _ (calls.space.proc_lt found)
      simp [BinderState.buffer, unused]
    · simp [BinderState.buffer, isNew]

theorem binderMmapProc_calls {p vmStart : Nat} {area : VmArea} {pageArray : Bool} {env : PageEnv} :
    KeepsCalls none (binderMmapProc p vmStart area pageArray env) s := by
  unfold binderMmapProc
  simp only [wp_bind, wp_getProc, and_freed, wp_ite, wp_pure]
  intro proc found
  refine ⟨fun _ => ⟨A, calls⟩, fun unmapped => ?_⟩
  obtain ⟨mapped, run, inv⟩ := binderMmap_spec area pageArray env
  rw [run]
  cases mapped with
  | none => exact ⟨A, calls⟩
  | some a =>
    obtain ⟨inv, empty⟩ := inv a rfl
    have before : proc.alloc = none := by simpa using unmapped
    refine ⟨A, calls.reproc ⟨fun q proc' found' => ?_, fun q proc' a' found' alloc => ?_⟩
      fun q b => ?_⟩
    · rcases update_some found' with ⟨rfl, _⟩ | ⟨_, present⟩
      · exact calls.space.proc_lt found
      · exact calls.space.proc_lt present
    · rcases update_some found' with ⟨rfl, rfl⟩ | ⟨_, present⟩
      · cases alloc
        exact inv
      · exact calls.space.inv present alloc
    · by_cases isP : q = p
      · subst isP
        simp [BinderState.buffer, found, before, empty]
      · simp [BinderState.buffer, isP]

theorem binderGetThread_calls {p pid : Nat} {alloc : Bool} :
    KeepsCalls none (binderGetThread p pid alloc) s := by
  unfold binderGetThread
  simp only [wp_bind, wp_getProc, and_freed, wp_ite, wp_pure, wp_created, wp_putThread, wp_putProc]
  intro proc found
  refine ⟨fun _ => ⟨A, calls⟩, fun _ => ?_⟩
  have entered := calls.enter { proc := p, pid := pid, looper := { needReturn := true } }
    (Function.update s.objCreated .thread (s.objCreated .thread + 1)) rfl rfl
  exact ⟨_, entered.frame (.setProc found rfl)⟩

omit calls in
/-- What a thread that can enter the driver is not doing. -/
theorem isFree_thread (free : isFree s th = true) :
    ∃ y, s.threads th = some y ∧ y.waitsForProc = false := by
  unfold isFree at free
  cases present : s.threads th with
  | none => simp [present] at free
  | some y =>
    simp only [present, Option.any_some, Bool.and_eq_true, Option.isNone_iff_eq_none] at free
    exact ⟨y, rfl, by simp [BinderThread.waitsForProc, free.1]⟩

theorem binderDeferred_calls {p : Nat} : KeepsCalls none (binderDeferred p) s := by
  unfold binderDeferred
  simp only [wp_bind, wp_getProc, and_freed, wp_putProc]
  intro proc found
  refine (Moves.ifThen flushThreads_callFrame).after (CallFrame.setProc found rfl) fun _ t framed => ?_
  rw [wp_ifThen]
  exact ⟨fun _ => binderDeferredRelease_calls (calls.frame framed),
    fun _ => ⟨A, calls.frame framed⟩⟩

theorem Event.step_calls {e : Event} (can : e.canHappen s = true) (away : RoutesAway s e) :
    KeepsCalls none e.step s := by
  cases e with
  | «open» pid => exact binderOpen_calls calls
  | mmap p vmStart area pageArray env => exact binderMmapProc_calls calls
  | getThread p pid alloc => exact binderGetThread_calls calls
  | write th cmd =>
    obtain ⟨y, present, free⟩ := isFree_thread (Bool.and_eq_true_iff.mp can).1
    exact binderThreadWrite_calls calls present free away
  | readStart th size consumed nonBlock put => exact calls.keeps readStart_callFrame
  | readRetry th put => exact calls.keeps readRetry_callFrame
  | readEnqueue th => exact calls.keeps readEnqueue_callFrame
  | leaveQueue th => exact calls.keeps leaveQueue_callFrame
  | readWake th success => exact calls.keeps readWake_callFrame
  | readWork th put => exact readWork_calls calls
  | ioctlDone th => exact calls.keeps ioctlDone_callFrame
  | setMaxThreads p maxThreads => exact calls.keeps setMaxThreads_callFrame
  | setContextMgr p euid alloc => exact calls.keeps setContextMgr_callFrame
  | threadExit th => exact binderFreeThread_calls calls
  | vmaClose p => exact calls.keeps binderVmaClose_callFrame
  | flush p => exact calls.keeps binderFlush_callFrame
  | release p => exact calls.keeps binderRelease_callFrame
  | deferred p => exact binderDeferred_calls calls
  | setTask pid task => exact ⟨A, calls.frame .setTask⟩

end

/-! ### Runs -/

/-- No thread, no call. -/
def noCalls : CallMap where
  alive _ := False
  live _ := False
  parent _ := none
  caller _ := none
  place _ := .gone
  stack _ := []

theorem noCalls_inv : noCalls.Inv ListHead.owner none where
  parent_live _ _ child := child.1.elim
  only_child _ _ _ child := child.1.elim
  child_caller _ _ child := child.1.elim
  active_mem _ _ live := live.elim
  caller_mem _ _ live := live.elim
  caller_ne _ _ live := live.elim
  stack_live _ _ mem := (List.not_mem_nil mem).elim
  stack_dead _ _ := rfl
  linked _ := trivial
  queued_top _ _ _ live := live.elim

theorem Calls.initial : Calls binderInit noCalls none none where
  transaction_lt _ _ found := nomatch found
  thread_lt _ _ found := nomatch found
  space := ⟨fun _ _ found => (nomatch found), fun _ _ _ found => (nomatch found)⟩
  toBuffer _ _ _ _ found := nomatch found
  ofBuffer _ _ _ _ found := nomatch found
  reply _ _ _ _ _ found := nomatch found
  call _ _ _ _ _ found := nomatch found
  noCall _ _ found := nomatch found
  twoWay _ _ found := nomatch found
  unsent _ isCurrent := nomatch isCurrent
  newest _ isCurrent := nomatch isCurrent
  listed_lt _ _ mem := (List.not_mem_nil mem).elim
  async_lt _ _ _ found := nomatch found
  live _ := ⟨False.elim, by rintro ⟨_, found, _⟩; cases found⟩
  links _ _ found := nomatch found
  alive _ := ⟨False.elim, by rintro ⟨⟨_, found⟩, _⟩; cases found⟩
  stack _ _ found := nomatch found
  active _ _ _ _ _ _ _ found := nomatch found
  away _ _ _ _ _ found := nomatch found
  queued _ _ live := live.elim
  unqueued _ _ live := live.elim
  waits _ _ found := nomatch found
  inv := noCalls_inv

/-- The transactions are nested calls. -/
def Nested (s : BinderState) : Prop := ∃ A, Calls s A none none

theorem nested_of_reach (reach : binderMachine.Reach RoutesAway s) : Nested s := by
  refine reach.invariant ?_ ?_
  · rintro _ rfl
    exact ⟨noCalls, .initial⟩
  · rintro s e t ⟨A, calls⟩ can away run
    exact (Event.step_calls calls can away).of_ok (exec_ok run)

/-- The walk over the stack of `th` from `start` on: the transactions it meets. -/
inductive Walk (s : BinderState) (th : Nat) : Option Nat → List Nat → Prop where
  | done : Walk s th none []
  | received {i : Nat} {x : BinderTransaction} {l : List Nat} : s.transactions i = some x →
      x.toThread = some th → Walk s th x.toParent l → Walk s th (some i) (i :: l)
  | sent {i : Nat} {x : BinderTransaction} {l : List Nat} : s.transactions i = some x →
      x.toThread ≠ some th → x.fromThread = some th → Walk s th x.fromParent l →
      Walk s th (some i) (i :: l)

/-- The links of the transactions spell out the abstract stack. -/
theorem Calls.walk {done rest : List Nat} (calls : Calls s A none none)
    (stack : A.stack th = done ++ rest) : Walk s th rest.head? rest := by
  induction rest generalizing done with
  | nil => exact .done
  | cons i rest ih =>
    have split : A.stack th = (done ++ [i]) ++ rest := by simp [stack]
    have next := ih split
    have mem : i ∈ A.stack th := by simp [stack]
    obtain ⟨x, found, needReply⟩ := (calls.live i).mp (calls.inv.stack_live th i mem)
    by_cases active : A.place i = .active th
    · obtain ⟨toThread, toParent⟩ := calls.active th done i rest x stack active found
      rw [← toParent] at next
      exact .received found toThread next
    obtain ⟨fromThread, fromParent⟩ := calls.links i x found needReply
    have linked := calls.inv.linked th
    rw [stack] at linked
    rcases linked.over_split with ⟨caller, parent, _⟩ | ⟨isActive, _⟩
    · rw [← parent, ← fromParent] at next
      exact .sent found (calls.away th i x mem active found) (fromThread.trans caller) next
    · exact absurd isActive active

/-- Every thread's walk ends, and no event ends in a `BUG` on stacks. -/
structure CallStacks (s : BinderState) (ok : BinderState → Event → Prop) : Prop where
  walk : ∀ th thread, s.threads th = some thread → ∃ l, Walk s th thread.transactionStack l
  noBug : ∀ e fault, binderMachine.enabled s e → ok s e → binderMachine.exec e s = .error fault →
    ∀ site ∈ stackSites, fault ≠ .bug site

/-- In every run in which no call comes back to the thread that makes it. -/
theorem callStacks_of_reach (s : BinderState) (reach : binderMachine.Reach RoutesAway s) :
    CallStacks s RoutesAway := by
  obtain ⟨A, calls⟩ := nested_of_reach reach
  refine ⟨fun th thread present => ⟨A.stack th, ?_⟩, fun e fault can away run => ?_⟩
  · rw [calls.stack th thread present (by simp)]
    exact calls.walk (List.nil_append _).symm
  · exact (Event.step_calls calls can away).of_error (exec_error run)

/-! ### A call to oneself -/

/-- Two threads of one process call each other through its node, which is the context
manager: thread 1 makes a call, thread 3 takes it and makes another, which thread 1
takes. -/
def callBack : List Event :=
  [.open 1, .mmap 0 0x1000 twoPages true {}, .getThread 0 10 true, .setContextMgr 0 7 true,
    .getThread 0 11 true, .write 1 (.transaction {} {})] ++
  startRead 3 ++ [takeWork 3, .write 3 (.transaction {} {})] ++
  startRead 1 ++ [takeWork 1, takeWork 1]

/-- Thread 1 has the call it received, the one it made, and nothing else on its
stack. -/
theorem callStacks_after_callBack : ∃ s, afterEvents RoutesAway callBack = some s ∧
    (s.threads 1).map (·.transactionStack) = some (some 6) ∧ CallStacks s RoutesAway := by
  have seen : (afterEvents RoutesAway callBack).map
      (fun s => (s.threads 1).map (·.transactionStack)) = some (some (some 6)) := by decide +kernel
  obtain ⟨s, run, stack⟩ := Option.map_eq_some_iff.mp seen
  exact ⟨s, run, stack, callStacks_of_reach s (reach_afterEvents run)⟩

/-- A transaction that is its own `to_parent` is met again and again. -/
theorem Walk.endless {i : Nat} {x : BinderTransaction} {l : List Nat}
    (found : s.transactions i = some x) (toThread : x.toThread = some th)
    (toParent : x.toParent = some i) : ¬Walk s th (some i) l := by
  intro walk
  induction l with
  | nil => cases walk
  | cons j l ih =>
    cases walk with
    | received found' _ rest =>
      rw [found] at found'
      cases found'
      rw [toParent] at rest
      exact ih rest
    | sent found' notTo _ _ =>
      rw [found] at found'
      cases found'
      exact notTo toThread

/-- Thread 1 makes one more call. It is itself among the senders of the calls that led
here, so it is the target, and when it takes the call its stack runs in a circle. -/
theorem walk_endless : ∃ s thread, binderMachine.Reach anyEvent s ∧ s.threads 1 = some thread ∧
    ¬∃ l, Walk s 1 thread.transactionStack l := by
  have seen : (afterEvents anyEvent (callBack ++ [.write 1 (.transaction {} {})] ++ startRead 1 ++
      [takeWork 1])).map (fun s => ((s.threads 1).map (·.transactionStack),
        (s.transactions 8).map fun x => (x.toThread, x.toParent))) =
      some (some (some 8), some (some 1, some 8)) := by decide +kernel
  obtain ⟨s, run, values⟩ := Option.map_eq_some_iff.mp seen
  obtain ⟨stack, links⟩ := Prod.mk.inj values
  obtain ⟨thread, present, top⟩ := Option.map_eq_some_iff.mp stack
  obtain ⟨x, found, ends⟩ := Option.map_eq_some_iff.mp links
  obtain ⟨toThread, toParent⟩ := Prod.mk.inj ends
  refine ⟨s, thread, reach_afterEvents run, present, ?_⟩
  rintro ⟨l, walk⟩
  rw [top] at walk
  exact Walk.endless found toThread toParent walk

end AndroidKernel.Binder
