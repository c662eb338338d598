import AndroidKernel.WakeLocks.Locks

/-!
What `has_wake_lock_locked` does to the active list, and what it returns.

`Purge` relates the states before and after: some locks of the list with a timeout have been
found expired and have left it. `Result` is what is known about the number returned: -1 when the
list has a lock without a timeout, and else the longest time that a lock on it has left.
-/

namespace AndroidKernel.WakeLocks

open List

/-- The lists have the active locks, and none of those with a timeout has expired so long ago
that its `expires` lies ahead again. -/
structure Listed (s : State) : Prop where
  flags : ∀ type id, id ∈ s.active type ↔ (s.lock id).active = true ∧ (s.lock id).type = type
  nodup : ∀ type, (s.active type).Nodup
  range : ∀ id ∈ s.active .suspend, (s.lock id).autoExpire = true →
    (s.now : Int) ≤ (s.lock id).due + 2 ^ 31 ∧ (s.lock id).due < s.now + 2 ^ 31
  used : ∀ id, (s.lock id).active = true → (s.lock id).initialized = true
  unknown : (s.lock unknownWakeup).initialized = true

theorem Listed.congr {s s' : State} (listed : Listed s) (now : s'.now = s.now)
    (lock : s'.lock = s.lock) (active : s'.active = s.active) : Listed s' := by
  refine ⟨?_, ?_, ?_, ?_, ?_⟩
  · rw [active, lock]
    exact listed.flags
  · rw [active]
    exact listed.nodup
  · rw [active, lock, now]
    exact listed.range
  · rw [lock]
    exact listed.used
  · rw [lock]
    exact listed.unknown

section Timeout

variable {s : State} {lock : WakeLock} {id : Nat}

theorem timeout_eq (past : (s.now : Int) ≤ lock.due + 2 ^ 31) (ahead : lock.due < s.now + 2 ^ 31) :
    s.timeout lock = lock.due - s.now := by
  rw [State.timeout, WakeLock.expires, State.jiffies, ← BitVec.ofInt_natCast, BitVec.toInt_sub,
    BitVec.toInt_ofInt, BitVec.toInt_ofInt, Int.sub_bmod_bmod, Int.bmod_sub_bmod]
  apply Int.bmod_eq_of_le <;> omega

theorem Listed.timeout_eq (listed : Listed s) (member : id ∈ s.active .suspend)
    (auto : (s.lock id).autoExpire = true) : s.timeout (s.lock id) = (s.lock id).due - s.now :=
  WakeLocks.timeout_eq (listed.range id member auto).1 (listed.range id member auto).2

end Timeout

/-! ### Leaving the list -/

structure Purge (type : LockType) (s s' : State) : Prop where
  now : s'.now = s.now
  timer : s'.timer = s.timer
  sub : ∀ t id, id ∈ s'.active t → id ∈ s.active t ∧ s'.lock id = s.lock id
  gone : ∀ t id, id ∈ s.active t → id ∉ s'.active t →
    t = type ∧ (s.lock id).autoExpire = true ∧ s.timeout (s.lock id) ≤ 0
  queued : s.active .suspend = [] → s'.queued = s.queued

section Purge

variable {type : LockType} {s s' s'' : State} {id : Nat}

theorem Purge.refl : Purge type s s :=
  ⟨rfl, rfl, fun _ _ member => ⟨member, rfl⟩, fun _ _ member out => absurd member out, fun _ => rfl⟩

theorem Purge.timeout (purge : Purge type s s') (lock : WakeLock) :
    s'.timeout lock = s.timeout lock := by
  rw [State.timeout, State.jiffies, purge.now, State.timeout, State.jiffies]

theorem Purge.trans (first : Purge type s s') (second : Purge type s' s'') : Purge type s s'' where
  now := second.now.trans first.now
  timer := second.timer.trans first.timer
  sub t id member := by
    obtain ⟨between, same⟩ := second.sub t id member
    obtain ⟨before, same'⟩ := first.sub t id between
    exact ⟨before, same.trans same'⟩
  gone t id member out := by
    by_cases between : id ∈ s'.active t
    · have result := second.gone t id between out
      rw [(first.sub t id between).2, first.timeout] at result
      exact result
    · exact first.gone t id member between
  queued empty := by
    have empty' : s'.active .suspend = [] :=
      List.eq_nil_iff_forall_not_mem.mpr fun id member =>
        not_mem_nil (empty ▸ (first.sub _ id member).1)
    exact (second.queued empty').trans (first.queued empty)

theorem mem_deactivate {t : LockType} {g : Nat} :
    g ∈ (deactivate id s).active t ↔ g ∈ s.active t ∧ g ≠ id := by
  simp only [deactivate, listDel, setLock, mem_filter, decide_eq_true_eq]

theorem lock_deactivate {g : Nat} (other : g ≠ id) : (deactivate id s).lock g = s.lock g :=
  Function.update_of_ne other _ _

theorem lock_deactivate_self :
    (deactivate id s).lock id = { s.lock id with active := false, autoExpire := false } :=
  Function.update_self ..

theorem Listed.deactivate (listed : Listed s) : Listed (deactivate id s) where
  flags t g := by
    rw [mem_deactivate]
    by_cases same : g = id
    · rw [same, lock_deactivate_self]
      exact iff_of_false (fun both => both.2 rfl) fun both =>
        Bool.false_ne_true both.1
    · rw [lock_deactivate same, listed.flags t g, and_iff_left same]
  nodup t := (listed.nodup t).filter _
  range g member := by
    obtain ⟨member, other⟩ := mem_deactivate.mp member
    rw [lock_deactivate other]
    exact listed.range g member
  used g on := by
    by_cases same : g = id
    · rw [same, lock_deactivate_self] at on
      cases on
    · rw [lock_deactivate same] at on ⊢
      exact listed.used g on
  unknown := by
    by_cases same : unknownWakeup = id
    · rw [← same, lock_deactivate_self]
      exact listed.unknown
    · rw [lock_deactivate same]
      exact listed.unknown

/-- One lock that is found expired. -/
theorem Purge.expireWakeLock (listed : Listed s) (member : id ∈ s.active type)
    (auto : (s.lock id).autoExpire = true) (expired : s.timeout (s.lock id) ≤ 0) :
    Purge type s (expireWakeLock id s) where
  now := rfl
  timer := rfl
  sub t g inside := by
    obtain ⟨inside, other⟩ := mem_deactivate.mp inside
    exact ⟨inside, lock_deactivate other⟩
  gone t g inside out := by
    have same : g = id := by
      by_contra other
      exact out (mem_deactivate.mpr ⟨inside, other⟩)
    rw [same] at inside ⊢
    refine ⟨?_, auto, expired⟩
    rw [← ((listed.flags t id).mp inside).2, ((listed.flags type id).mp member).2]
  queued empty := by
    have idle : ¬((s.lock id).active = true ∧ (s.lock id).type = .suspend) := fun both =>
      not_mem_nil (empty ▸ (listed.flags .suspend id).mpr both)
    change (s.queued && !((s.lock id).active && decide ((s.lock id).type = .suspend))) = s.queued
    have kept : ((s.lock id).active && decide ((s.lock id).type = .suspend)) = false := by
      rw [Bool.eq_false_iff, ne_eq, Bool.and_eq_true, decide_eq_true_eq]
      exact idle
    rw [kept, Bool.not_false, Bool.and_true]

/-! ### The loop -/

/-- What the loop returns for a part of the list, of which `s` is the state at its end. -/
def Result (type : LockType) (s : State) (ids : List Nat) (start result : Int) : Prop :=
  (result = -1 ∧ ∃ id ∈ s.active type, (s.lock id).autoExpire = false) ∨
    start ≤ result ∧
      (∀ id ∈ ids, id ∈ s.active type → (s.lock id).autoExpire = true ∧
        0 < s.timeout (s.lock id) ∧ s.timeout (s.lock id) ≤ result) ∧
      (result = start ∨ ∃ id ∈ s.active type, s.timeout (s.lock id) = result)

theorem hasWakeLockLoop_spec {ids : List Nat} {start : Int} (listed : Listed s)
    (inside : ∀ id ∈ ids, id ∈ s.active type) (nodup : ids.Nodup) :
    Listed (hasWakeLockLoop ids start s).2 ∧ Purge type s (hasWakeLockLoop ids start s).2 ∧
      Result type (hasWakeLockLoop ids start s).2 ids start (hasWakeLockLoop ids start s).1 := by
  induction ids generalizing s start with
  | nil => exact ⟨listed, .refl, .inr ⟨le_refl _, fun _ member => absurd member not_mem_nil,
      .inl rfl⟩⟩
  | cons id rest ih =>
    obtain ⟨notLater, nodup⟩ := List.nodup_cons.mp nodup
    have member := inside id mem_cons_self
    rw [hasWakeLockLoop]
    split
    case isFalse infinite =>
      exact ⟨listed, .refl, .inl ⟨rfl, id, member, Bool.eq_false_of_not_eq_true infinite⟩⟩
    rename_i auto
    split
    case isTrue expired =>
      have first := Purge.expireWakeLock listed member auto expired
      have inside' : ∀ g ∈ rest, g ∈ (expireWakeLock id s).active type := fun g later =>
        mem_deactivate.mpr ⟨inside g (mem_cons_of_mem _ later),
          fun same => notLater (same ▸ later)⟩
      obtain ⟨listed', purge, result⟩ := @ih (expireWakeLock id s) start listed.deactivate
        inside' nodup
      refine ⟨listed', first.trans purge, ?_⟩
      rcases result with infinite | ⟨least, bound, attained⟩
      · exact .inl infinite
      refine .inr ⟨least, fun g at' still => ?_, attained⟩
      rcases List.mem_cons.mp at' with rfl | later
      · -- the expired lock is not on the list any more
        exact absurd rfl (mem_deactivate.mp (purge.sub type g still).1).2
      · exact bound g later still
    case isFalse unexpired =>
      obtain ⟨listed', purge, result⟩ := @ih s (max start (s.timeout (s.lock id))) listed
        (fun g later => inside g (mem_cons_of_mem _ later)) nodup
      refine ⟨listed', purge, ?_⟩
      have still : id ∈ (hasWakeLockLoop rest (max start (s.timeout (s.lock id))) s).2.active
          type := by
        by_contra out
        exact unexpired (purge.gone type id member out).2.2
      have same := (purge.sub type id still).2
      have time := purge.timeout (s.lock id)
      rcases result with infinite | ⟨least, bound, attained⟩
      · exact .inl infinite
      · obtain ⟨startLe, timeLe⟩ := max_le_iff.mp least
        refine .inr ⟨startLe, fun g at' stays => ?_, ?_⟩
        · grind
        · grind

theorem hasWakeLockLocked_spec (listed : Listed s) :
    Listed (hasWakeLockLocked type s).2 ∧ Purge type s (hasWakeLockLocked type s).2 ∧
      Result type (hasWakeLockLocked type s).2 (s.active type) 0 (hasWakeLockLocked type s).1 :=
  hasWakeLockLoop_spec listed (fun _ => id) (listed.nodup type)

end Purge

end AndroidKernel.WakeLocks
