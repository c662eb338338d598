import AndroidKernel.EarlySuspend.Worker

/-!
Waiting for the frame buffer with `state_lock` taken.

`request_suspend_state` sleeps in `wait_for_completion` inside its section, and `late_resume`
needs `state_lock` before it completes. When the lock keeps others out, the first wake-up that
finds suspend requested therefore never returns (`Stuck`), and as long as there is no such
wake-up nobody waits at all (`Free`).
-/

namespace AndroidKernel.EarlySuspend

open Lib Function

/-- The worker is busy with `late_resume`. -/
def Worker.late : Worker → Bool
  | .locking .lateResume | .deciding .lateResume | .visiting .lateResume _ _
  | .calling .lateResume _ _ _ => true
  | _ => false

/-- The worker is in the loop of `late_resume`. -/
def Worker.resuming : Worker → Bool
  | .visiting .lateResume _ _ | .calling .lateResume _ _ _ => true
  | _ => false

/-- No wake-up has waited so far. -/
structure Free (s : State) : Prop where
  lock : s.stateLock = none
  ready : s.ready = 0
  queue : .lateResume ∉ s.queue
  worker : s.worker.late = false
  thread : ∀ t newState, s.thread t ≠ .waiting newState

/-- A thread waits with `state_lock` taken, and the `late_resume` that it queued has not come to
its loop. -/
structure Stuck (t : Nat) (newState : SuspendState) (s : State) : Prop where
  lock : s.stateLock = some t
  ready : s.ready = 0
  worker : s.worker.resuming = false
  thread : s.thread t = .waiting newState

/-- A wake-up is requested only while suspend is not. -/
def Sound (s : State) : Event → Prop
  | .request t => s.thread t = .entering PM_SUSPEND_ON → s.requested = false
  | _ => True

instance decidableSound (s : State) (e : Event) : Decidable (Sound s e) :=
  match e with
  | .request t =>
    inferInstanceAs (Decidable (s.thread t = .entering PM_SUSPEND_ON → s.requested = false))
  | .call .. | .work | .register _ | .registered | .unregister _ => inferInstanceAs (Decidable True)

section Steps

variable {s : State} {t : Nat} {newState : SuspendState} {e : Event}

theorem thread_update {thread : Nat → Call} {call : Call} {t' : Nat} {newState' : SuspendState}
    (free : ∀ t newState, thread t ≠ .waiting newState) (other : ∀ newState, call ≠ .waiting newState) :
    update thread t call t' ≠ .waiting newState' := by
  by_cases same : t' = t
  · rw [same, update_self]
    exact other newState'
  · rw [update_of_ne same]
    exact free t' newState'

/-- A request that does not wait. -/
theorem requestSuspendState_returns (sound : newState = PM_SUSPEND_ON → s.requested = false) :
    requestSuspendState true t newState s = finishRequest t newState
      (if s.requested = false ∧ newState ≠ PM_SUSPEND_ON then
        queueWork .earlySuspend { s with requested := true } else s) := by
  rw [requestSuspendState]
  split
  case isTrue => rfl
  case isFalse =>
    rw [if_neg]
    rintro ⟨requested, wakeup⟩
    rw [sound wakeup] at requested
    cases requested

theorem requestSuspendState_waits (requested : s.requested = true) (first : .lateResume ∉ s.queue) :
    requestSuspendState true t PM_SUSPEND_ON s = { s with
      requested := false
      mainWakeLock := true
      queue := s.queue ++ [.lateResume]
      thread := update s.thread t (.waiting PM_SUSPEND_ON)
      stateLock := some t } := by
  rw [requestSuspendState, if_neg fun both => both.2 rfl, if_pos ⟨requested, rfl⟩]
  simp only [if_neg first, queueWork_eq]
  rfl

theorem Free.requestSuspendState (free : Free s)
    (sound : newState = PM_SUSPEND_ON → s.requested = false) :
    Free (requestSuspendState true t newState s) := by
  rw [requestSuspendState_returns sound]
  split
  case isTrue =>
    rw [queueWork_eq]
    refine ⟨rfl, free.ready, ?_, free.worker, fun _ _ => thread_update free.thread (by rintro _ ⟨⟩)⟩
    change Pass.lateResume ∉ if _ then s.queue else s.queue ++ [Pass.earlySuspend]
    split
    · exact free.queue
    · rw [List.mem_append, List.mem_singleton, not_or]
      exact ⟨free.queue, by decide⟩
  case isFalse =>
    exact ⟨rfl, free.ready, free.queue, free.worker,
      fun _ _ => thread_update free.thread (by rintro _ ⟨⟩)⟩

theorem Free.work (free : Free s) : Free (work s) := by
  have notLate := free.worker
  rw [EarlySuspend.work]
  cases inside : s.worker with
  | idle =>
    cases queue : s.queue with
    | nil => exact free
    | cons pass later =>
      have others := free.queue
      rw [queue, List.mem_cons, not_or] at others
      refine ⟨free.lock, free.ready, others.2, ?_, free.thread⟩
      cases pass with
      | earlySuspend => rfl
      | lateResume => exact absurd rfl others.1
  | locking pass | calling pass =>
    rw [inside] at notLate
    cases pass with
    | earlySuspend => exact { free with worker := rfl }
    | lateResume => cases notLate
  | deciding pass =>
    rw [inside] at notLate
    cases pass with
    | earlySuspend =>
      dsimp only [decidePass]
      split <;> exact { free with worker := rfl }
    | lateResume => cases notLate
  | visiting pass rest completed =>
    rw [inside] at notLate
    cases pass with
    | lateResume => cases notLate
    | earlySuspend =>
      cases rest with
      | nil => exact { free with worker := rfl }
      | cons h rest =>
        have same : completesAt .earlySuspend completed h = false := rfl
        simp only [visitHandler, same, Bool.false_eq_true, if_false]
        split_ifs <;> exact { free with worker := rfl }
  | syncing =>
    dsimp only [releaseMain]
    split <;> exact { free with worker := rfl }

theorem Free.step (free : Free s) (sound : Sound s e) : Free (step true e s) := by
  cases e with
  | call t newState =>
    exact ⟨free.lock, free.ready, free.queue, free.worker,
      fun _ _ => thread_update free.thread (by rintro _ ⟨⟩)⟩
  | request t =>
    rw [EarlySuspend.step]
    cases call : s.thread t with
    | outside => exact free
    | entering newState =>
      exact free.requestSuspendState fun wakeup => sound (wakeup ▸ call)
    | waiting newState => exact absurd call (free.thread t newState)
  | work => exact free.work
  | register h =>
    dsimp only [EarlySuspend.step, registerEarlySuspend]
    split <;> exact { free with }
  | registered =>
    rw [EarlySuspend.step]
    cases s.registering <;> exact { free with }
  | unregister h => exact { free with }

/-- A wake-up that finds suspend requested queues `late_resume` and waits for it. -/
theorem Free.waits (free : Free s) (requested : s.requested = true)
    (call : s.thread t = .entering PM_SUSPEND_ON) :
    Stuck t PM_SUSPEND_ON (EarlySuspend.step true (.request t) s) := by
  have notLate : s.worker.resuming = false := by
    have notLate := free.worker
    cases inside : s.worker with
    | visiting pass | calling pass => cases pass with
      | earlySuspend => rfl
      | lateResume =>
        rw [inside] at notLate
        cases notLate
    | _ => rfl
  simp only [EarlySuspend.step, call]
  rw [requestSuspendState_waits requested free.queue]
  exact ⟨rfl, free.ready, notLate, update_self ..⟩

/-- Nothing gets the waiting thread any further: whoever needs `state_lock` is blocked, and only
the loop of `late_resume` behind it completes. -/
theorem Stuck.work (stuck : Stuck t newState s) (can : canWork s s.worker) :
    Stuck t newState (work s) := by
  have notLate := stuck.worker
  rw [EarlySuspend.work]
  cases inside : s.worker with
  | idle =>
    cases queue : s.queue with
    | nil => exact stuck
    | cons pass later => exact { stuck with worker := rfl }
  | locking pass => exact { stuck with worker := rfl }
  | deciding | syncing =>
    rw [inside, canWork, stuck.lock] at can
    cases can
  | visiting pass rest completed =>
    rw [inside] at notLate
    cases pass with
    | lateResume => cases notLate
    | earlySuspend =>
      cases rest with
      | nil => exact { stuck with worker := rfl }
      | cons h rest =>
        have same : completesAt .earlySuspend completed h = false := rfl
        simp only [visitHandler, same, Bool.false_eq_true, if_false]
        split_ifs <;> exact { stuck with worker := rfl }
  | calling pass h rest completed =>
    rw [inside] at notLate
    cases pass with
    | earlySuspend => exact { stuck with worker := rfl }
    | lateResume => cases notLate

theorem Stuck.step (stuck : Stuck t newState s) (can : enabled s e) :
    Stuck t newState (step true e s) := by
  cases e with
  | call t' newState' =>
    have other : t ≠ t' := by
      rintro rfl
      rw [enabled, stuck.thread] at can
      cases can
    exact ⟨stuck.lock, stuck.ready, stuck.worker, (update_of_ne other _ _).trans stuck.thread⟩
  | request t' =>
    rw [enabled] at can
    cases call : s.thread t' with
    | outside =>
      rw [call] at can
      cases can
    | entering newState' =>
      rw [call, canRequest, stuck.lock] at can
      cases can
    | waiting newState' =>
      rw [call, canRequest, stuck.ready] at can
      exact absurd can (lt_irrefl 0)
  | work => exact stuck.work can
  | register h =>
    dsimp only [EarlySuspend.step, registerEarlySuspend]
    split <;> exact { stuck with }
  | registered =>
    rw [EarlySuspend.step]
    cases s.registering <;> exact { stuck with }
  | unregister h => exact { stuck with }

theorem Stuck.runs {events : List Event} {s' : State} (stuck : Stuck t newState s)
    (run : runs true events s = some s') : Stuck t newState s' := by
  induction events generalizing s with
  | nil =>
    cases run
    exact stuck
  | cons e events ih =>
    rw [EarlySuspend.runs, Machine.execute] at run
    split at run
    case isTrue can => exact ih (stuck.step can.1) run
    case isFalse => cases run

end Steps

theorem free_start : Free .start :=
  ⟨rfl, rfl, List.not_mem_nil, rfl, by rintro _ _ ⟨⟩⟩

theorem free_reach {s : State} (reach : (machine true).Reach Sound s) : Free s := by
  refine reach.invariant ?_ ?_
  · rintro _ rfl
    exact free_start
  · rintro s e _ free _ sound ⟨⟩
    exact free.step sound

/-- As long as wake-ups are requested only while suspend is not, no caller ever waits, and every
call returns as soon as its thread runs. -/
theorem requests_return (s : State) (reach : (machine true).Reach Sound s) :
    (∀ t newState, s.thread t ≠ .waiting newState) ∧
      ∀ t newState, s.thread t = .entering newState → enabled s (.request t) ∧
        (Sound s (.request t) → (step true (.request t) s).thread t = .outside) := by
  have free := free_reach reach
  refine ⟨free.thread, fun t newState call => ⟨?_, fun sound => ?_⟩⟩
  · rw [enabled, call]
    exact free.lock
  · rw [step]
    simp only [call]
    rw [requestSuspendState_returns fun wakeup => sound (wakeup ▸ call)]
    exact Function.update_self ..

/-- Suspend is requested and carried out. -/
def screenOff : List Event := [.call 0 3, .request 0, .work, .work, .work, .work, .work]

theorem requests_return_off :
    ∃ s, (machine true).execute Sound (screenOff ++ [.call 1 3]) .start = some s ∧
      s.thread 1 = .entering 3 ∧ enabled s (.request 1) ∧
      (step true (.request 1) s).thread 1 = .outside := by
  have called : ((machine true).execute Sound (screenOff ++ [.call 1 3]) .start).map
      (fun s => s.thread 1) = some (.entering 3) := by decide
  obtain ⟨s, run, call⟩ := Option.map_eq_some_iff.mp called
  obtain ⟨can, returns⟩ := (requests_return s (Machine.Reach.execute (.start rfl) run)).2 1 3 call
  refine ⟨s, run, call, can, returns ?_⟩
  intro wakeup
  rw [call] at wakeup
  cases wakeup

/-- A wake-up that finds suspend requested, the first one in its run, never returns. -/
theorem wakeup_never_returns {s s' : State} {t : Nat} {events : List Event}
    (reach : (machine true).Reach Sound s) (call : s.thread t = .entering PM_SUSPEND_ON)
    (requested : s.requested = true) (run : runs true events (step true (.request t) s) = some s') :
    s'.thread t = .waiting PM_SUSPEND_ON :=
  (((free_reach reach).waits requested call).runs run).thread

theorem wakeup_never_returns_off :
    ∃ s, (machine true).Reach Sound s ∧ ∀ events s',
      runs true events (step true (.request 1) s) = some s' → s'.thread 1 = .waiting 0 := by
  have seen : ((machine true).execute Sound (screenOff ++ [.call 1 0]) .start).map
      (fun s => (s.thread 1, s.requested)) = some (.entering 0, true) := by decide
  obtain ⟨s, run, reached⟩ := Option.map_eq_some_iff.mp seen
  obtain ⟨call, requested⟩ := Prod.mk.inj reached
  have reach := Machine.Reach.execute (.start rfl) run
  exact ⟨s, reach, fun _ _ => wakeup_never_returns reach call requested⟩

/-- The screen is switched on again: the caller waits for the worker with `state_lock` taken,
the worker waits for the lock, and whatever happens then the caller does not return. -/
theorem screen_on_hangs :
    ∃ s, runs true (screenOff ++ [.call 1 PM_SUSPEND_ON, .request 1, .work, .work]) .start =
        some s ∧
      s.worker = .deciding .lateResume ∧ ¬enabled s .work ∧
      ∀ events s', runs true events s = some s' → s'.thread 1 = .waiting PM_SUSPEND_ON := by
  have seen : (runs true (screenOff ++ [.call 1 PM_SUSPEND_ON, .request 1, .work, .work])
      .start).map (fun s => (s.stateLock, s.ready, s.worker, s.thread 1)) =
        some (some 1, 0, .deciding .lateResume, .waiting PM_SUSPEND_ON) := by decide
  obtain ⟨s, run, reached⟩ := Option.map_eq_some_iff.mp seen
  rw [Prod.mk.injEq, Prod.mk.injEq, Prod.mk.injEq] at reached
  obtain ⟨lock, ready, worker, thread⟩ := reached
  have stuck : Stuck 1 PM_SUSPEND_ON s := ⟨lock, ready, by rw [worker]; rfl, thread⟩
  refine ⟨s, run, worker, ?_, fun events s' later => (stuck.runs later).thread⟩
  rw [enabled, worker, canWork, lock]
  exact Option.some_ne_none 1

end AndroidKernel.EarlySuspend
