import AndroidKernel.WakeLocks.Expiring

/-!
The timer and the suspend work over whole runs.

As long as only inactive locks are destroyed, and no lock stays on the active list for 2 ^ 31
ticks after it has expired, the timer is pending whenever only locks with a timeout are active,
for a tick at which the last of them has expired; and when the list has become empty without the
timer pending, the suspend work has been queued (`Holds`).
-/

namespace AndroidKernel.WakeLocks

open Lib List
open Function (update_self update_of_ne)

structure Holds (s : State) : Prop extends Listed s where
  forever : ∀ id ∈ s.active .suspend, (s.lock id).autoExpire = false → s.timer = none
  /-- The last lock may have left the list, once the timer has come to its tick. -/
  armed : s.active .suspend ≠ [] → (∀ id ∈ s.active .suspend, (s.lock id).autoExpire = true) →
    ∃ due : Nat, s.timer = some due ∧ (∀ id ∈ s.active .suspend, (s.lock id).due ≤ due) ∧
      ((∃ id ∈ s.active .suspend, (s.lock id).due = due) ∨ due ≤ s.now)
  queued : s.active .suspend = [] → s.timer = none → s.queued = true

theorem holds_start : Holds .start where
  flags type id := by
    cases type <;> simp [State.start]
  nodup type := by cases type <;> simp [State.start]
  range id member auto := by cases auto
  used id on := by
    exact Bool.or_eq_true_iff.mpr (.inl on)
  unknown := rfl
  forever _ _ _ := rfl
  armed _ all := by
    have auto := all mainWakeLock (by decide)
    cases auto
  queued empty := by
    revert empty
    decide

section Steps

variable {type : LockType} {s s' : State} {id : Nat}

/-- Only the suspend locks and the timer matter. -/
theorem Holds.frame (holds : Holds s) (listed : Listed s') (now : s'.now = s.now)
    (timer : s'.timer = s.timer) (active : s'.active .suspend = s.active .suspend)
    (lock : ∀ id ∈ s.active .suspend, s'.lock id = s.lock id) (queued : s'.queued = s.queued) :
    Holds s' where
  toListed := listed
  forever id member infinite := by
    rw [active] at member
    rw [lock id member] at infinite
    rw [timer]
    exact holds.forever id member infinite
  armed nonempty all := by
    rw [active] at nonempty all ⊢
    obtain ⟨due, pending, bound, attained⟩ := holds.armed nonempty fun id member =>
      lock id member ▸ all id member
    refine ⟨due, timer.trans pending, fun id member => ?_, ?_⟩
    · rw [lock id member]
      exact bound id member
    · rcases attained with ⟨id, member, same⟩ | past
      · refine .inl ⟨id, member, ?_⟩
        rw [lock id member]
        exact same
      · exact .inr (now ▸ past)
  queued empty idle := by
    rw [queued]
    exact holds.queued (active ▸ empty) (timer ▸ idle)

/-- Somebody looks at the list and leaves the timer alone. -/
theorem Holds.purge (holds : Holds s) (listed : Listed s') (purge : Purge type s s') :
    Holds s' := by
  have stays : ∀ id ∈ s.active .suspend, (s.lock id).autoExpire = false →
      id ∈ s'.active .suspend := by
    intro id member infinite
    by_contra out
    rw [(purge.gone _ id member out).2.1] at infinite
    cases infinite
  have allBefore : (∀ id ∈ s'.active .suspend, (s'.lock id).autoExpire = true) →
      ∀ id ∈ s.active .suspend, (s.lock id).autoExpire = true := by
    grind [→ Purge.sub]
  refine ⟨listed, ?_, ?_, ?_⟩
  · intro id member infinite
    obtain ⟨before, same⟩ := purge.sub _ id member
    rw [purge.timer]
    exact holds.forever id before (same ▸ infinite)
  · intro nonempty all
    obtain ⟨first, member⟩ := exists_mem_of_ne_nil _ nonempty
    obtain ⟨due, pending, bound, attained⟩ := holds.armed
      (ne_nil_of_mem (purge.sub _ first member).1) (allBefore all)
    refine ⟨due, purge.timer.trans pending, fun id member => ?_, ?_⟩
    · obtain ⟨before, same⟩ := purge.sub _ id member
      rw [same]
      exact bound id before
    rw [purge.now]
    rcases attained with ⟨id, before, same⟩ | past
    · by_cases still : id ∈ s'.active .suspend
      · refine .inl ⟨id, still, ?_⟩
        rw [(purge.sub _ id still).2]
        exact same
      · obtain ⟨_, auto, expired⟩ := purge.gone _ id before still
        rw [holds.timeout_eq before auto] at expired
        exact .inr (by omega)
    · exact .inr past
  · intro empty idle
    by_cases emptyBefore : s.active .suspend = []
    · rw [purge.queued emptyBefore]
      exact holds.queued emptyBefore (purge.timer ▸ idle)
    -- all of them have expired, and then the timer was pending
    have none : ∀ id ∈ s'.active .suspend, (s'.lock id).autoExpire = true := by
      intro id member
      exact absurd (empty ▸ member) not_mem_nil
    obtain ⟨due, pending, _⟩ := holds.armed emptyBefore (allBefore none)
    rw [purge.timer, pending] at idle
    cases idle

theorem updateTimer_infinite : updateTimer (-1) s = { s with timer := none } := rfl

theorem updateTimer_zero : updateTimer 0 s = queueSuspendWork { s with timer := none } := rfl

theorem updateTimer_pos {n : Int} (positive : 0 < n) :
    updateTimer n s = { s with timer := some (s.now + n.toNat) } :=
  if_pos positive

/-- An empty list, with the work just queued. -/
theorem holds_queueSuspendWork (listed : Listed s) (idle : s.timer = none)
    (empty : s.active .suspend = []) : Holds (queueSuspendWork s) where
  toListed := listed.congr rfl rfl rfl
  forever _ _ _ := idle
  armed nonempty := absurd empty nonempty
  queued _ _ := rfl

/-- The timer is set by what `has_wake_lock_locked` has returned for the list. -/
theorem holds_updateTimer (listed : Listed s) {ids : List Nat} {result : Int}
    (known : Result .suspend s ids 0 result) (all : ∀ id ∈ s.active .suspend, id ∈ ids) :
    Holds (updateTimer result s) := by
  rcases known with ⟨rfl, id, member, infinite⟩ | ⟨notNegative, bound, attained⟩
  · rw [updateTimer_infinite]
    refine ⟨listed.congr rfl rfl rfl, fun _ _ _ => rfl, fun _ auto => ?_, fun empty _ => ?_⟩
    · exact absurd ((auto id member).symm.trans infinite) (by decide)
    · exact absurd (empty ▸ member) not_mem_nil
  have timed : ∀ id ∈ s.active .suspend, (s.lock id).autoExpire = true ∧
      0 < (s.lock id).due - s.now ∧ (s.lock id).due - s.now ≤ result := by
    grind [Listed.timeout_eq]
  by_cases zero : result = 0
  · have empty : s.active .suspend = [] := by
      refine eq_nil_iff_forall_not_mem.mpr fun id member => ?_
      have := (timed id member).2
      omega
    rw [zero, updateTimer_zero]
    exact holds_queueSuspendWork (listed.congr rfl rfl rfl) rfl empty
  · rw [updateTimer_pos (by omega)]
    refine ⟨listed.congr rfl rfl rfl, ?_, ?_, ?_⟩
    · intro id member infinite
      exact absurd ((timed id member).1.symm.trans infinite) (by decide)
    · grind [Listed.timeout_eq]
    · rintro _ ⟨⟩

/-- The timer expires: every lock on the list has expired too. -/
theorem Holds.timer (holds : Holds s) (due : s.timerDue) :
    Holds (expireWakeLocks { s with timer := none }) := by
  obtain ⟨due, pending, past⟩ := due
  have listed : Listed { s with timer := none } := holds.congr rfl rfl rfl
  have timed : ∀ id ∈ s.active .suspend, (s.lock id).autoExpire = true := by
    intro id member
    by_contra infinite
    have idle := holds.forever id member (Bool.eq_false_of_not_eq_true infinite)
    rw [Option.mem_def, idle] at pending
    cases pending
  have expired : ∀ id ∈ s.active .suspend, s.timeout (s.lock id) ≤ 0 := by
    intro id member
    obtain ⟨due', pending', bound, _⟩ := holds.armed (ne_nil_of_mem member) timed
    rw [Option.mem_def, pending'] at pending
    cases pending
    have := bound id member
    rw [holds.timeout_eq member (timed id member)]
    omega
  obtain ⟨listed', purge, result⟩ := @hasWakeLockLocked_spec .suspend _ listed
  have empty : (hasWakeLockLocked .suspend { s with timer := none }).2.active .suspend = [] := by
    refine eq_nil_iff_forall_not_mem.mpr fun id still => ?_
    obtain ⟨member, same⟩ := purge.sub _ id still
    rcases result with ⟨_, id', member', infinite⟩ | ⟨_, bound, _⟩
    · obtain ⟨before, same'⟩ := purge.sub _ id' member'
      rw [same'] at infinite
      exact absurd ((timed id' before).symm.trans infinite) (by decide)
    · have time := (bound id member still).2.1
      rw [same, purge.timeout] at time
      exact absurd (expired id member) (not_le.mpr time)
  have zero : (hasWakeLockLocked .suspend { s with timer := none }).1 = 0 := by
    rcases result with ⟨_, id, member, _⟩ | ⟨_, _, zero | ⟨id, member, _⟩⟩
    · exact absurd (empty ▸ member) not_mem_nil
    · exact zero
    · exact absurd (empty ▸ member) not_mem_nil
  simp only [expireWakeLocks, zero, if_true]
  exact holds_queueSuspendWork listed' purge.timer empty

/-! ### Taking and releasing locks -/

variable {timeout : Option (BitVec 32)}

theorem mem_activate {t : LockType} {g : Nat} : g ∈ (activate id timeout s).active t ↔
    g = id ∧ t = (s.lock id).type ∨ g ≠ id ∧ g ∈ s.active t := by
  have rest : ∀ {t'}, g ∈ (s.active t').filter (· ≠ id) ↔ g ≠ id ∧ g ∈ s.active t' := by
    intro t'
    rw [mem_filter, decide_eq_true_eq, and_comm]
  by_cases same : t = (s.lock id).type
  · rw [same]
    cases timeout with
    | some timeout =>
      simp only [activate, listDel, update_self, mem_append, mem_singleton, rest, and_true]
      exact or_comm
    | none => simp only [activate, listDel, update_self, mem_cons, rest, and_true]
  · rw [or_iff_right fun both => same both.2, ← rest]
    cases timeout <;> simp only [activate, listDel, update_of_ne same]

theorem lock_activate {g : Nat} (other : g ≠ id) : (activate id timeout s).lock g = s.lock g := by
  cases timeout <;> exact update_of_ne other _ _

/-- How an activated lock is left. -/
theorem lock_activate_self : ∃ due, (activate id timeout s).lock id =
      { s.lock id with active := true, autoExpire := timeout.isSome, due := due } ∧
    (timeout.isSome = true → (s.now : Int) ≤ due + 2 ^ 31 ∧ due < s.now + 2 ^ 31) := by
  cases timeout with
  | none => exact ⟨_, update_self .., by rintro ⟨⟩⟩
  | some timeout =>
    refine ⟨_, update_self .., fun _ => ?_⟩
    have low := @BitVec.le_toInt 32 timeout
    have high := @BitVec.toInt_lt 32 timeout
    change (s.now : Int) ≤ s.now + timeout.toInt + 2 ^ 31 ∧
      (s.now + timeout.toInt : Int) < s.now + 2 ^ 31
    omega

theorem activate_now : (activate id timeout s).now = s.now := by cases timeout <;> rfl

theorem nodup_activate {t : LockType} (nodup : ∀ t, (s.active t).Nodup) :
    ((activate id timeout s).active t).Nodup := by
  have out : ∀ t', id ∉ (s.active t').filter (· ≠ id) := fun t' member =>
    of_decide_eq_true (mem_filter.mp member).2 rfl
  have rest : ∀ t', ((s.active t').filter (· ≠ id)).Nodup := fun t' => (nodup t').filter _
  by_cases same : t = (s.lock id).type
  · rw [same]
    cases timeout with
    | some timeout =>
      simp only [activate, listDel, update_self]
      exact nodup_append_comm.mp (nodup_cons.mpr ⟨out _, rest _⟩)
    | none =>
      simp only [activate, listDel, update_self]
      exact nodup_cons.mpr ⟨out _, rest _⟩
  · cases timeout <;> simp only [activate, listDel, update_of_ne same] <;> exact rest t

theorem Listed.activate (listed : Listed s) (used : (s.lock id).initialized = true) :
    Listed (activate id timeout s) := by
  obtain ⟨due, self, range⟩ := @lock_activate_self s id timeout
  refine ⟨fun t g => ?_, fun t => nodup_activate listed.nodup, fun g member auto => ?_,
    fun g on => ?_, ?_⟩
  · rw [mem_activate]
    by_cases same : g = id
    · rw [same, self]
      simp only [true_and, ne_eq, not_true_eq_false, false_and, or_false]
      exact eq_comm
    · rw [lock_activate same, or_iff_right fun both => same both.1, and_iff_right same]
      exact listed.flags t g
  · rw [activate_now]
    by_cases same : g = id
    · rw [same, self] at auto ⊢
      exact range auto
    · rw [lock_activate same] at auto ⊢
      have before := (mem_activate.mp member).resolve_left fun both => same both.1
      exact listed.range g before.2 auto
  · by_cases same : g = id
    · rw [same, self]
      exact used
    · rw [lock_activate same] at on ⊢
      exact listed.used g on
  · by_cases same : unknownWakeup = id
    · rw [same, self]
      exact used
    · rw [lock_activate same]
      exact listed.unknown

/-- A lock of the other type changes nothing on the list of suspend locks. -/
theorem Listed.not_mem (listed : Listed s) (other : (s.lock id).type ≠ .suspend) :
    id ∉ s.active .suspend := fun member => other ((listed.flags .suspend id).mp member).2

theorem filter_not_mem {l : List Nat} (out : id ∉ l) : l.filter (· ≠ id) = l := by
  refine filter_eq_self.mpr fun g member => decide_eq_true ?_
  rintro rfl
  exact out member

section

variable (holds : Holds s)
include holds

theorem Holds.wakeLockInternal (used : (s.lock id).initialized = true) :
    Holds (wakeLockInternal id timeout s) := by
  have listed : Listed (WakeLocks.activate id timeout s) := holds.activate used
  rw [WakeLocks.wakeLockInternal]
  split
  case isTrue isSuspend =>
    have listed' : Listed { WakeLocks.activate id timeout s with
        eventNum := (WakeLocks.activate id timeout s).eventNum + 1 } := listed.congr rfl rfl rfl
    rw [isSuspend]
    cases timeout with
    | none =>
      have member : id ∈ (WakeLocks.activate id none s).active .suspend :=
        mem_activate.mpr (.inl ⟨rfl, isSuspend.symm⟩)
      have infinite : ((WakeLocks.activate id none s).lock id).autoExpire = false := by
        obtain ⟨due, self, _⟩ := @lock_activate_self s id none
        rw [self]
        rfl
      exact holds_updateTimer listed' (.inl ⟨rfl, id, member, infinite⟩) fun _ inside => inside
    | some timeout =>
      obtain ⟨listed'', purge, result⟩ := @hasWakeLockLocked_spec .suspend _ listed'
      exact holds_updateTimer listed'' result fun g member => (purge.sub _ g member).1
  case isFalse other =>
    have out := holds.not_mem other
    refine holds.frame listed activate_now (by cases timeout <;> rfl) ?_ (fun g member => ?_)
      (by cases timeout <;> rfl)
    · cases timeout <;>
        simp only [WakeLocks.activate, listDel, update_of_ne (Ne.symm other), filter_not_mem out]
    · exact lock_activate fun same => out (same ▸ member)

theorem Holds.wakeUnlock : Holds (wakeUnlock id s) := by
  have listed : Listed (WakeLocks.deactivate id s) := holds.deactivate
  rw [WakeLocks.wakeUnlock]
  split
  case isTrue isSuspend =>
    rw [isSuspend]
    obtain ⟨listed', purge, result⟩ := @hasWakeLockLocked_spec .suspend _ listed
    exact holds_updateTimer listed' result fun g member => (purge.sub _ g member).1
  case isFalse other =>
    have out := holds.not_mem other
    refine holds.frame listed rfl rfl (filter_not_mem out) (fun g member => ?_) ?_
    · exact lock_deactivate fun same => out (same ▸ member)
    · change (s.queued && !((s.lock id).active && decide ((s.lock id).type = .suspend))) = s.queued
      rw [decide_eq_false other, Bool.and_false, Bool.not_false, Bool.and_true]

/-! ### The rest -/

theorem Holds.setLock {lock : WakeLock} (off : (s.lock id).active = false)
    (off' : lock.active = false) (stays : unknownWakeup = id → lock.initialized = true) :
    Holds (setLock id lock s) := by
  have self : (WakeLocks.setLock id lock s).lock id = lock := update_self ..
  have others : ∀ g, g ≠ id → (WakeLocks.setLock id lock s).lock g = s.lock g := fun g other =>
    update_of_ne other _ _
  have out : ∀ t, id ∉ s.active t := fun t member => by
    rw [((holds.flags t id).mp member).1] at off
    cases off
  refine holds.frame ⟨fun t g => ?_, holds.nodup, fun g member => ?_, fun g on => ?_, ?_⟩ rfl rfl rfl
    (fun g member => ?_) rfl
  · by_cases same : g = id
    · rw [same, self]
      exact iff_of_false (out t) fun both => absurd both.1 (by rw [off']; decide)
    · rw [others g same]
      exact holds.flags t g
  · rw [others g fun same => out _ (same ▸ member)]
    exact holds.range g member
  · by_cases same : g = id
    · rw [same, self, off'] at on
      cases on
    · rw [others g same] at on ⊢
      exact holds.used g on
  · by_cases same : unknownWakeup = id
    · rw [same, self]
      exact stays same
    · rw [others _ same]
      exact holds.unknown
  · exact others g fun same => out _ (same ▸ member)

theorem Holds.wakeLockInit (unused : (s.lock id).initialized = false) :
    Holds (wakeLockInit id type s) := by
  refine holds.setLock ?_ rfl fun _ => rfl
  by_contra on
  rw [holds.used id (Bool.eq_true_of_not_eq_false on)] at unused
  cases unused

theorem Holds.wakeLockDestroy (off : (s.lock id).active = false) (stays : id ≠ unknownWakeup) :
    Holds (wakeLockDestroy id s) := by
  have out : ∀ t, id ∉ s.active t := fun t member => by
    rw [((holds.flags t id).mp member).1] at off
    cases off
  have same : WakeLocks.wakeLockDestroy id s =
      WakeLocks.setLock id { s.lock id with initialized := false } s := by
    simp only [WakeLocks.wakeLockDestroy, WakeLocks.setLock, listDel, filter_not_mem (out _), off,
      Bool.false_and, Bool.not_false, Bool.and_true]
  rw [same]
  exact holds.setLock off off fun isIt => absurd isIt.symm stays

/-- The clock goes on, while no expired lock is too old. -/
theorem Holds.ticks {n : Nat} (recent : ∀ id ∈ s.active .suspend,
    (s.lock id).autoExpire = true → ((s.now + n : Nat) : Int) ≤ (s.lock id).due + 2 ^ 31) :
    Holds { s with now := s.now + n } := by
  refine ⟨⟨holds.flags, holds.nodup, fun id member auto => ⟨recent id member auto, ?_⟩, holds.used,
    holds.unknown⟩, holds.forever, fun nonempty all => ?_, holds.queued⟩
  · have := (holds.range id member auto).2
    change (s.lock id).due < ((s.now + n : Nat) : Int) + 2 ^ 31
    omega
  · obtain ⟨due, pending, bound, attained⟩ := holds.armed nonempty all
    exact ⟨due, pending, bound, attained.imp_right fun past => past.trans (Nat.le_add_right _ _)⟩

theorem Holds.has : Holds (hasWakeLockLocked type s).2 := by
  obtain ⟨listed, purge, _⟩ := @hasWakeLockLocked_spec type s holds.toListed
  exact holds.purge listed purge

theorem Holds.suspendWork : Holds (suspendWork s) := by
  rw [WakeLocks.suspendWork]
  cases s.worker with
  | idle =>
    have started : Holds { s with pending := false, worker := .idle } :=
      holds.frame (holds.congr rfl rfl rfl) rfl rfl rfl (fun _ _ => rfl) rfl
    have looked := @Holds.has .suspend _ started
    dsimp only
    split
    · exact looked
    · exact looked.frame (looked.congr rfl rfl rfl) rfl rfl rfl (fun _ _ => rfl) rfl
  | checked => exact holds.frame (holds.congr rfl rfl rfl) rfl rfl rfl (fun _ _ => rfl) rfl
  | entered entryEventNum =>
    have looked := @Holds.has .suspend _ holds
    exact looked.frame (looked.congr rfl rfl rfl) rfl rfl rfl (fun _ _ => rfl) rfl
  | returned entryEventNum =>
    have ended : Holds { s with worker := .idle } :=
      holds.frame (holds.congr rfl rfl rfl) rfl rfl rfl (fun _ _ => rfl) rfl
    dsimp only
    split
    · exact ended.wakeLockInternal ended.unknown
    · exact ended

end

end Steps

/-- Only inactive locks are destroyed, and the clock does not go on for 2 ^ 31 ticks while an
expired lock is on the list. -/
def Sound (s : State) : Event → Prop
  | .destroy id => (s.lock id).active = false
  | .ticks n => ∀ id ∈ s.active .suspend, (s.lock id).autoExpire = true →
      ((s.now + n : Nat) : Int) ≤ (s.lock id).due + 2 ^ 31
  | _ => True

instance decidableSound (s : State) (e : Event) : Decidable (Sound s e) :=
  match e with
  | .destroy id => inferInstanceAs (Decidable ((s.lock id).active = false))
  | .ticks n =>
    inferInstanceAs (Decidable (∀ id ∈ s.active .suspend, (s.lock id).autoExpire = true →
      ((s.now + n : Nat) : Int) ≤ (s.lock id).due + 2 ^ 31))
  | .init .. | .lock _ | .lockTimeout .. | .unlock _ | .has _ | .timer | .work | .workFails =>
    inferInstanceAs (Decidable True)

theorem Holds.step {s : State} {e : Event} (holds : Holds s) (can : enabled s e)
    (sound : Sound s e) : Holds (step e s) := by
  cases e with
  | init id type => exact holds.wakeLockInit can
  | destroy id => exact holds.wakeLockDestroy sound can.2.2
  | lock | lockTimeout => exact holds.wakeLockInternal can
  | unlock id => exact holds.wakeUnlock
  | has type => exact holds.has
  | ticks n => exact holds.ticks sound
  | timer => exact holds.timer can
  | work => exact holds.suspendWork
  | workFails =>
    rw [WakeLocks.step, suspendFails]
    split
    · exact holds.frame (holds.congr rfl rfl rfl) rfl rfl rfl (fun _ _ => rfl) rfl
    · exact holds

theorem holds_reach {s : State} (reach : machine.Reach Sound s) : Holds s := by
  refine reach.invariant ?_ ?_
  · rintro _ rfl
    exact holds_start
  · rintro s e _ holds can sound ⟨⟩
    exact holds.step can sound

/-- The lock holds the system awake at this time. -/
def State.unexpired (s : State) (id : Nat) : Prop :=
  (s.lock id).autoExpire = false ∨ (s.now : Int) < (s.lock id).due

instance decidableUnexpired (s : State) (id : Nat) : Decidable (s.unexpired id) :=
  inferInstanceAs (Decidable ((s.lock id).autoExpire = false ∨ (s.now : Int) < (s.lock id).due))

section Late

variable {s : State} {id : Nat}

/-- The late check sees every lock that has not expired. -/
theorem Holds.powerSuspendLate (holds : Holds s) (member : id ∈ s.active .suspend)
    (unexpired : s.unexpired id) : (powerSuspendLate s).1 = -EAGAIN := by
  obtain ⟨listed, purge, result⟩ := @hasWakeLockLocked_spec .suspend s holds.toListed
  have still : id ∈ (hasWakeLockLocked .suspend s).2.active .suspend := by
    by_contra out
    obtain ⟨_, auto, expired⟩ := purge.gone _ id member out
    rw [holds.timeout_eq member auto] at expired
    rcases unexpired with infinite | ahead
    · rw [auto] at infinite
      cases infinite
    · omega
  have notZero : (hasWakeLockLocked .suspend s).1 ≠ 0 := by
    rcases result with ⟨infinite, _⟩ | ⟨_, bound, _⟩
    · rw [infinite]
      decide
    · have := (bound id member still).2
      omega
  exact if_pos notZero

end Late

/-- In every state reached: the list has the active locks; no timer is pending beside a lock
without a timeout; if only unexpired locks with a timeout are active, the timer is pending for
the latest of them; if there is none, and no timer, the suspend work has been queued since the
last lock went inactive; and the late check refuses while a lock is unexpired. -/
theorem suspend_not_missed (s : State) (reach : machine.Reach Sound s) :
    (∀ type id, id ∈ s.active type ↔ (s.lock id).active = true ∧ (s.lock id).type = type) ∧
      (∀ id ∈ s.active .suspend, (s.lock id).autoExpire = false → s.timer = none) ∧
      (s.active .suspend ≠ [] →
        (∀ id ∈ s.active .suspend,
          (s.lock id).autoExpire = true ∧ (s.now : Int) < (s.lock id).due) →
        ∃ due : Nat, s.timer = some due ∧ (∀ id ∈ s.active .suspend, (s.lock id).due ≤ due) ∧
          ∃ id ∈ s.active .suspend, (s.lock id).due = due) ∧
      ((∀ id ∈ s.active .suspend, ¬s.unexpired id) → s.timer = none → s.queued = true) ∧
      ∀ id ∈ s.active .suspend, s.unexpired id → (powerSuspendLate s).1 = -EAGAIN := by
  have holds := holds_reach reach
  refine ⟨holds.flags, holds.forever, fun nonempty timed => ?_, fun expired idle => ?_,
    fun id member unexpired => holds.powerSuspendLate member unexpired⟩
  · obtain ⟨due, pending, bound, attained⟩ := holds.armed nonempty fun id member =>
      (timed id member).1
    refine ⟨due, pending, bound, attained.resolve_right fun past => ?_⟩
    obtain ⟨id, member⟩ := exists_mem_of_ne_nil _ nonempty
    have := (timed id member).2
    have := bound id member
    omega
  · by_cases empty : s.active .suspend = []
    · exact holds.queued empty idle
    have timed : ∀ id ∈ s.active .suspend, (s.lock id).autoExpire = true := fun id member =>
      Bool.eq_true_of_not_eq_false (not_or.mp (expired id member)).1
    obtain ⟨due, pending, _⟩ := holds.armed empty timed
    rw [pending] at idle
    cases idle

/-- A lock is taken for five seconds and the main lock released. -/
theorem suspend_not_missed_timed :
    ∃ s, machine.execute Sound [.init 2 .suspend, .lockTimeout 2 500, .unlock 0, .ticks 100]
        .start = some s ∧
      s.active .suspend = [2] ∧ s.timer = some 500 ∧
      (powerSuspendLate s).1 = -EAGAIN := by
  have seen : (machine.execute Sound [.init 2 .suspend, .lockTimeout 2 500, .unlock 0,
      .ticks 100] .start).map (fun s => (s.active .suspend, s.timer, s.now, (s.lock 2).due)) =
        some ([2], some 500, 100, 500) := by decide +kernel
  obtain ⟨s, run, reached⟩ := Option.map_eq_some_iff.mp seen
  rw [Prod.mk.injEq, Prod.mk.injEq, Prod.mk.injEq] at reached
  obtain ⟨active, timer, now, due⟩ := reached
  have late := (suspend_not_missed s (Machine.Reach.execute (.start rfl) run)).2.2.2.2 2
    (by rw [active]; decide) (.inr (by rw [now, due]; decide))
  exact ⟨s, run, active, timer, late⟩

/-- Destroying the only active lock leaves its flag set and queues no work. A lock that stays on
the list for too long looks unexpired to the timer function, which then queues no work either. -/
theorem suspend_missed :
    ((machine.execute (fun _ _ => True) [.init 2 .suspend, .lock 2, .unlock 0, .destroy 2]
        .start).map fun s => (s.active .suspend, (s.lock 2).active, s.timer, s.queued)) =
        some ([], true, none, false) ∧
      ((machine.execute (fun _ _ => True) [.init 2 .suspend, .init 3 .suspend, .lockTimeout 2 1,
          .lockTimeout 3 0x7fffffff, .unlock 0, .ticks 0x80000002, .timer] .start).map fun s =>
        (s.active .suspend, decide (s.unexpired 2), s.timer, s.queued)) =
        some ([2], false, none, false) := by
  decide +kernel

end AndroidKernel.WakeLocks
