import AndroidKernel.Lib.Run

/-!
Early suspend: `request_suspend_state`, the worker that runs `early_suspend` and `late_resume`,
and the registration of handlers.

A step of the machine is what one party does between two points where others can run: a thread
that has the spin lock `state_lock` runs to the end of its section, so the lock is seen taken
only while its holder sleeps inside, which is what `wait_for_completion` in
`request_suspend_state` does. On a single processor the spin lock only disables preemption, and
the sleeping thread keeps nobody out; `exclusive` says which of the two is meant. The mutex
`early_suspend_lock` is taken by the worker during a pass and by `register_early_suspend` while
it calls the new handler. The callbacks, `sys_sync` and the messages have no effect here; `log`
keeps the calls of the callbacks and their returns in order.
-/

namespace AndroidKernel.EarlySuspend

open Lib

/-- The two work items, and the callback that each of them makes. -/
inductive Pass where
  | earlySuspend | lateResume
deriving DecidableEq, Repr

/-- `struct early_suspend`; the flags say which callbacks are not `NULL`. A handler that is
registered again counts as another one. -/
structure Handler where
  id : Nat
  level : Int
  suspend : Bool
  resume : Bool
deriving DecidableEq, Repr

def Handler.has (h : Handler) : Pass → Bool
  | .earlySuspend => h.suspend
  | .lateResume => h.resume

def levelDisableFb : Int := 150

/-- Where the worker is. -/
inductive Worker where
  | idle
  /-- Before `mutex_lock(&early_suspend_lock)`. -/
  | locking (pass : Pass)
  /-- Before the section under `state_lock` that sets or clears `SUSPENDED`. -/
  | deciding (pass : Pass)
  /-- In the loop over the handlers; `completed` is `late_resume`'s variable. -/
  | visiting (pass : Pass) (rest : List Handler) (completed : Bool)
  /-- In the callback of a handler. -/
  | calling (pass : Pass) (h : Handler) (rest : List Handler) (completed : Bool)
  /-- Behind the loop of `early_suspend`, before its last section under `state_lock`. -/
  | syncing
deriving DecidableEq, Repr

/-- `suspend_state_t`. -/
abbrev SuspendState := Int

def PM_SUSPEND_ON : SuspendState := 0

/-- Where a thread is in its call of `request_suspend_state`. -/
inductive Call where
  | outside
  /-- Before `state_lock` is taken. -/
  | entering (newState : SuspendState)
  /-- In `wait_for_completion`. -/
  | waiting (newState : SuspendState)
deriving DecidableEq, Repr

inductive Entry where
  /-- A callback starts, in a pass with this number or from `register_early_suspend`. -/
  | called (number : Option Nat) (pass : Pass) (h : Handler)
  | returned (pass : Pass) (h : Handler)
deriving DecidableEq, Repr

structure State where
  /-- The bits `SUSPEND_REQUESTED` and `SUSPENDED` of `state`. -/
  requested : Bool
  suspended : Bool
  /-- `early_suspend_handlers`. -/
  handlers : List Handler
  /-- All handlers that were ever registered. -/
  known : List Handler
  /-- The handler whose suspend callback `register_early_suspend` is in. -/
  registering : Option Handler
  /-- `suspend_work_queue`. -/
  queue : List Pass
  worker : Worker
  thread : Nat → Call
  /-- The thread that sleeps with `state_lock` taken. -/
  stateLock : Option Nat
  /-- The counter of the completion `fb_drv_ready`. -/
  ready : Nat
  requestedSuspendState : SuspendState
  mainWakeLock : Bool
  /-- How many passes there were. -/
  number : Nat
  log : List Entry

/-- After the start: `main_wake_lock` is held. -/
def State.start : State where
  requested := false
  suspended := false
  handlers := []
  known := []
  registering := none
  queue := []
  worker := .idle
  thread _ := .outside
  stateLock := none
  ready := 0
  requestedSuspendState := PM_SUSPEND_ON
  mainWakeLock := true
  number := 0
  log := []

/-- The worker has `early_suspend_lock`. -/
def Worker.locked : Worker → Bool
  | .idle | .locking _ | .syncing => false
  | .deciding _ | .visiting .. | .calling .. => true

/-! ### Requests -/

/-- `queue_work`: nothing happens to work that is pending already. -/
def queueWork (pass : Pass) (s : State) : State :=
  if pass ∈ s.queue then s else { s with queue := s.queue ++ [pass] }

theorem queueWork_eq {pass : Pass} {s : State} : queueWork pass s =
    { s with queue := if pass ∈ s.queue then s.queue else s.queue ++ [pass] } := by
  rw [queueWork]
  split <;> rfl

/-- The end of `request_suspend_state`. -/
def finishRequest (t : Nat) (newState : SuspendState) (s : State) : State :=
  { s with
    requestedSuspendState := newState
    stateLock := none
    thread := Function.update s.thread t .outside }

/-- `request_suspend_state` from where it has `state_lock`. -/
def requestSuspendState (exclusive : Bool) (t : Nat) (newState : SuspendState) (s : State) :
    State :=
  if s.requested = false ∧ newState ≠ PM_SUSPEND_ON then
    finishRequest t newState (queueWork .earlySuspend { s with requested := true })
  else if s.requested = true ∧ newState = PM_SUSPEND_ON then
    let s' := { s with requested := false, mainWakeLock := true }
    if .lateResume ∈ s.queue then finishRequest t newState s'
    else
      { queueWork .lateResume s' with
        thread := Function.update s.thread t (.waiting newState)
        stateLock := if exclusive then some t else none }
  else finishRequest t newState s

/-! ### The worker -/

/-- `complete(&fb_drv_ready)`. -/
def complete (s : State) : State := { s with ready := s.ready + 1 }

/-- The handlers in the order of a pass. -/
def order : Pass → List Handler → List Handler
  | .earlySuspend, handlers => handlers
  | .lateResume, handlers => handlers.reverse

/-- The section in which a pass finds out whether it is still wanted. When it is not,
`early_suspend` goes on with its last section and `late_resume` ends. -/
def decidePass (pass : Pass) (s : State) : State :=
  match pass with
  | .earlySuspend =>
    if s.requested = true ∧ s.suspended = false then
      { s with
        suspended := true
        number := s.number + 1
        worker := .visiting .earlySuspend (order .earlySuspend s.handlers) false }
    else { s with worker := .syncing }
  | .lateResume =>
    if s.requested = false ∧ s.suspended = true then
      { s with
        suspended := false
        number := s.number + 1
        worker := .visiting .lateResume (order .lateResume s.handlers) false }
    else complete { s with worker := .idle }

/-- `late_resume` completes before the first handler behind the frame buffer. -/
def completesAt (pass : Pass) (completed : Bool) (h : Handler) : Bool :=
  pass = .lateResume && !completed && h.level < levelDisableFb

/-- One round of the loop over the handlers: up to the callback, or past a handler without
one. -/
def visitHandler (pass : Pass) (h : Handler) (rest : List Handler) (completed : Bool)
    (s : State) : State :=
  let s := if completesAt pass completed h then complete s else s
  let completed := completed || completesAt pass completed h
  if h.has pass then
    { s with
      worker := .calling pass h rest completed
      log := s.log ++ [.called (some s.number) pass h] }
  else { s with worker := .visiting pass rest completed }

/-- What follows the loop, up to the release of `early_suspend_lock`. -/
def finishPass (pass : Pass) (completed : Bool) (s : State) : State :=
  match pass with
  | .earlySuspend => { s with worker := .syncing }
  | .lateResume =>
    let s := { s with worker := .idle }
    if completed then s else complete s

/-- The last section of `early_suspend`. -/
def releaseMain (s : State) : State :=
  let s := { s with worker := .idle }
  if s.requested = true ∧ s.suspended = true then { s with mainWakeLock := false } else s

/-- The next step of the worker. -/
def work (s : State) : State :=
  match s.worker with
  | .idle =>
    match s.queue with
    | [] => s
    | pass :: queue => { s with queue := queue, worker := .locking pass }
  | .locking pass => { s with worker := .deciding pass }
  | .deciding pass => decidePass pass s
  | .visiting pass [] completed => finishPass pass completed s
  | .visiting pass (h :: rest) completed => visitHandler pass h rest completed s
  | .calling pass h rest completed =>
    { s with worker := .visiting pass rest completed, log := s.log ++ [.returned pass h] }
  | .syncing => releaseMain s

/-- The worker is not blocked where it is. -/
def canWork (s : State) : Worker → Prop
  | .idle => s.queue ≠ []
  | .locking _ => s.registering = none
  | .deciding _ | .syncing => s.stateLock = none
  | .visiting .. | .calling .. => True

instance decidableCanWork (s : State) (worker : Worker) : Decidable (canWork s worker) :=
  match worker with
  | .idle => inferInstanceAs (Decidable (s.queue ≠ []))
  | .locking _ => inferInstanceAs (Decidable (s.registering = none))
  | .deciding _ | .syncing => inferInstanceAs (Decidable (s.stateLock = none))
  | .visiting .. | .calling .. => inferInstanceAs (Decidable True)

/-! ### Handlers -/

/-- The loop of `register_early_suspend`: before the first handler of a higher level. -/
def insertHandler (h : Handler) : List Handler → List Handler
  | [] => [h]
  | e :: rest => if h.level < e.level then h :: e :: rest else e :: insertHandler h rest

/-- `register_early_suspend`, up to the suspend callback if it makes it. -/
def registerEarlySuspend (h : Handler) (s : State) : State :=
  let s := { s with handlers := insertHandler h s.handlers, known := h :: s.known }
  if s.suspended && h.suspend then
    { s with registering := some h, log := s.log ++ [.called none .earlySuspend h] }
  else s

/-- `unregister_early_suspend`. -/
def unregisterEarlySuspend (h : Handler) (s : State) : State :=
  { s with handlers := s.handlers.erase h }

/-! ### The machine -/

inductive Event where
  /-- A thread calls `request_suspend_state`. -/
  | call (t : Nat) (newState : SuspendState)
  /-- A thread goes on in its call. -/
  | request (t : Nat)
  | work
  | register (h : Handler)
  /-- The suspend callback that `register_early_suspend` made returns. -/
  | registered
  | unregister (h : Handler)
deriving DecidableEq, Repr

def step (exclusive : Bool) (e : Event) (s : State) : State :=
  match e with
  | .call t newState => { s with thread := Function.update s.thread t (.entering newState) }
  | .request t =>
    match s.thread t with
    | .outside => s
    | .entering newState => requestSuspendState exclusive t newState s
    | .waiting newState => finishRequest t newState { s with ready := s.ready - 1 }
  | .work => work s
  | .register h => registerEarlySuspend h s
  | .registered =>
    match s.registering with
    | none => s
    | some h => { s with registering := none, log := s.log ++ [.returned .earlySuspend h] }
  | .unregister h => unregisterEarlySuspend h s

/-- `early_suspend_lock` is free. -/
def State.unlocked (s : State) : Prop := s.worker.locked = false ∧ s.registering = none

instance decidableUnlocked (s : State) : Decidable s.unlocked :=
  inferInstanceAs (Decidable (s.worker.locked = false ∧ s.registering = none))

/-- A thread is not blocked where it is in its call. -/
def canRequest (s : State) : Call → Prop
  | .outside => False
  | .entering _ => s.stateLock = none
  | .waiting _ => 0 < s.ready

instance decidableCanRequest (s : State) (call : Call) : Decidable (canRequest s call) :=
  match call with
  | .outside => inferInstanceAs (Decidable False)
  | .entering _ => inferInstanceAs (Decidable (s.stateLock = none))
  | .waiting _ => inferInstanceAs (Decidable (0 < s.ready))

/-- What can happen next. -/
def enabled (s : State) : Event → Prop
  | .call t _ => s.thread t = .outside
  | .request t => canRequest s (s.thread t)
  | .work => canWork s s.worker
  | .register h => s.unlocked ∧ h ∉ s.known
  | .registered => s.registering ≠ none
  | .unregister h => s.unlocked ∧ h ∈ s.handlers

instance decidableEnabled (s : State) (e : Event) : Decidable (enabled s e) :=
  match e with
  | .call t _ => inferInstanceAs (Decidable (s.thread t = .outside))
  | .request t => inferInstanceAs (Decidable (canRequest s (s.thread t)))
  | .work => inferInstanceAs (Decidable (canWork s s.worker))
  | .register h => inferInstanceAs (Decidable (s.unlocked ∧ h ∉ s.known))
  | .registered => inferInstanceAs (Decidable (s.registering ≠ none))
  | .unregister h => inferInstanceAs (Decidable (s.unlocked ∧ h ∈ s.handlers))

def machine (exclusive : Bool) : Machine State Event Empty where
  init s := s = .start
  enabled := enabled
  exec e s := .ok (step exclusive e s)

instance decidableMachine (exclusive : Bool) (s : State) (e : Event) :
    Decidable ((machine exclusive).enabled s e) :=
  decidableEnabled s e

/-- The state after a run in which every step was possible. -/
def runs (exclusive : Bool) (events : List Event) (s : State) : Option State :=
  (machine exclusive).execute (fun _ _ => True) events s

theorem reach_runs {exclusive : Bool} {events : List Event} {s : State}
    (run : runs exclusive events .start = some s) :
    (machine exclusive).Reach (fun _ _ => True) s :=
  Machine.Reach.execute (.start rfl) run

end AndroidKernel.EarlySuspend
