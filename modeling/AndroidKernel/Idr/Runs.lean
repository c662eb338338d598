import AndroidKernel.Idr.Removal

/-!
Runs of calls on an idr, and the map they implement.

The specification is a map from ids to pointers. A run implements it as long as
no search wraps and no id is removed whose alias in the tree is another id that
is allocated (`idr_refines_map`). The shape of the tree does not depend on this:
after every run the state stands for some map (`idr_holds`).
-/

namespace AndroidKernel.Idr

open Lib Function

variable {s : IdrState} {ptr start : Nat} {σ : Slots}

/-! ### The slots of a map -/

/-- An id is full as soon as it is allocated. -/
def slotsOf (m : Nat → Option Nat) : Slots where
  used x := (m x).isSome
  full x := (m x).isSome
  ptr x := (m x).getD 0
  full_used _ full := full
  unused_ptr x unused := by
    rw [Option.isSome_eq_false_iff, Option.isNone_iff_eq_none] at unused
    rw [unused, Option.getD_none]

theorem Slots.ext_fields {σ' : Slots} (used : σ.used = σ'.used) (full : σ.full = σ'.full)
    (ptr : σ.ptr = σ'.ptr) : σ = σ' := by
  cases σ
  cases σ'
  cases used
  cases full
  cases ptr
  rfl

section Slots

variable {m : Nat → Option Nat} {x a : Nat}

theorem slotsOf_enter (busy : ((slotsOf m).occupy x a).used x = true) :
    ((slotsOf m).occupy x a).mark x busy = slotsOf (update m x (some a)) := by
  refine Slots.ext_fields ?_ ?_ ?_ <;> funext y <;> by_cases same : y = x <;>
    simp [Slots.mark, Slots.occupy, slotsOf, same]

theorem slotsOf_vacate : (slotsOf m).vacate x = slotsOf (update m x none) := by
  refine Slots.ext_fields ?_ ?_ ?_ <;> funext y <;> by_cases same : y = x <;>
    simp [Slots.vacate, slotsOf, same]

theorem slotsOf_replace (allocated : (m x).isSome = true) :
    (slotsOf m).occupy x a = slotsOf (update m x (some a)) := by
  refine Slots.ext_fields ?_ ?_ ?_ <;> funext y <;> by_cases same : y = x <;>
    simp [Slots.occupy, slotsOf, same, allocated]

theorem slotsOf_full_false : (slotsOf m).full x = false ↔ m x = none := by
  simp [slotsOf]

end Slots

/-! ### Allocation -/

section Calls

variable {t : IdrState} {m : Nat → Option Nat} {pa : Nat → Nat} {never : Fault → Prop}

/-- The end of `idr_get_new_above`: the pointer is entered. -/
theorem enter_spec {h i : Nat} {pos : Nat → Nat → Nat} (standing : Standing s h pos (slotsOf m))
    (room : (slotsOf m).full (i % 32 ^ (h + 1)) = false) (path : Path pos h pa i) :
    wp (do
        change (pa 0) (.setAry (i &&& idrMask) ptr)
        change (pa 0) (.addCount 1)
        idrMarkFull pa i
        return (.ok i : Except Errno Nat))
      (fun r t => r = .ok i ∧ t.layers = h + 1 ∧
        Holds t (slotsOf (update m (i % 32 ^ (h + 1)) (some ptr)))) never s := by
  have present := (path.all 0 (Nat.zero_le h)).2
  have installed := standing.install ptr path room
  have busy : ((slotsOf m).occupy (i % 32 ^ (h + 1)) ptr).used (i % 32 ^ (h + 1)) = true := by
    simp [Slots.occupy]
  simp only [wp_bind, wp_change present, wp_pure, true_and]
  refine (idrMarkFull_spec installed path busy).returns fun _ t marked => ?_
  rw [slotsOf_enter] at marked
  exact ⟨marked.layers, marked.holds⟩

/-- For every starting id: the slot of the id that is returned was empty and
holds the pointer. -/
theorem idrGetNewAbove_any (holds : Holds s (slotsOf m)) (bound : start < maxIdBit) :
    wp (idrGetNewAbove ptr start pa) (fun r t => match r with
      | .ok i => ∃ h, t.layers = h + 1 ∧ i < maxIdBit ∧ m (i % 32 ^ (h + 1)) = none ∧
          Holds t (slotsOf (update m (i % 32 ^ (h + 1)) (some ptr)))
      | .error _ => Holds t (slotsOf m)) (· = .endless) s := by
  obtain ⟨pos, laid⟩ := holds
  rw [idrGetNewAbove, wp_bind]
  refine (emptySlotLoop_any laid (.inl bound)).returns fun r t landed => ?_
  cases r with
  | slot i pa =>
    obtain ⟨h, pos', standing, room, small, path, -⟩ := landed
    refine (enter_spec standing room path).returns ?_
    rintro - u ⟨rfl, layers, entered⟩
    exact ⟨h, layers, small, slotsOf_full_false.mp room, entered⟩
  | noMemory | noMoreSpace => exact landed

/-- When the search does not wrap: the least id that was free. -/
theorem idrGetNewAbove_first (holds : Holds s (slotsOf m))
    (small : start < 32 ^ 6) (straight : ¬(slotsOf m).Wraps s.layers start) :
    wp (idrGetNewAbove ptr start pa) (fun r t => match r with
      | .ok i => IsLeast { j | start ≤ j ∧ m j = none } i ∧
          Holds t (slotsOf (update m i (some ptr)))
      | .error _ => Holds t (slotsOf m)) never s := by
  obtain ⟨pos, laid⟩ := holds
  rw [idrGetNewAbove, wp_bind]
  refine (idrGetEmptySlot_first laid small straight).returns fun r t landed => ?_
  cases r with
  | slot i pa =>
    obtain ⟨h, pos', standing, room, -, path, inside, first, -⟩ := landed
    refine (enter_spec standing room path).returns ?_
    rintro - u ⟨rfl, -, entered⟩
    rw [Nat.mod_eq_of_lt inside] at entered
    simp only [Slots.First, slotsOf_full_false] at first
    exact ⟨first, entered⟩
  | noMemory | noMoreSpace => exact landed

end Calls

/-! ### Calls and answers -/

/-- `stack` is what the array `pa` of the call holds at first. -/
inductive IdrCall where
  | preGet (room : Nat)
  | getNew (ptr : Nat) (stack : Nat → Nat)
  | getNewAbove (ptr : Nat) (start : Fin (2 ^ 31)) (stack : Nat → Nat)
  | remove (id : BitVec 32)
  | replace (ptr : Nat) (id : BitVec 32)
  | find (id : BitVec 32)

inductive IdrAnswer where
  | ready (enough : Bool)
  | allocated (id : Nat)
  | failed (errno : Errno)
  | pointer (ptr : Nat)
  | done
  | fault (fault : Fault)
deriving DecidableEq, Repr

def ofResult : Except Errno Nat → (Nat → IdrAnswer) → IdrAnswer
  | .ok a, answer => answer a
  | .error e, _ => .failed e

/-- After a fault there is no next state; it is left as it was. -/
def runCall {α : Type} (p : Prog α) (answer : α → IdrAnswer) (s : IdrState) : IdrAnswer × IdrState :=
  match p s with
  | .ok (a, t) => (answer a, t)
  | .error f => (.fault f, s)

def idrStep : IdrCall → IdrState → IdrAnswer × IdrState
  | .preGet room => runCall (idrPreGet room) .ready
  | .getNew ptr stack => runCall (idrGetNew ptr stack) (ofResult · .allocated)
  | .getNewAbove ptr start stack => runCall (idrGetNewAbove ptr start stack) (ofResult · .allocated)
  | .remove id => runCall (idrRemove id) fun _ => .done
  | .replace ptr id => runCall (idrReplace ptr id) (ofResult · .pointer)
  | .find id => runCall (idrFind id) .pointer

theorem runCall_of_wp {α : Type} {p : Prog α} (answer : α → IdrAnswer)
    {post : α → IdrState → Prop} {fault : Fault → Prop} (run : wp p post fault s) :
    (∃ a t, post a t ∧ runCall p answer s = (answer a, t)) ∨
      ∃ f, fault f ∧ runCall p answer s = (.fault f, s) := by
  unfold runCall
  cases result : p s with
  | ok r => exact .inl ⟨r.1, r.2, run.of_ok result, rfl⟩
  | error f => exact .inr ⟨f, run.of_error result, rfl⟩

/-- Whatever is called, the state stands for some map. -/
theorem idrStep_holds (call : IdrCall) (holds : ∃ m, Holds s (slotsOf m)) :
    ∃ m, Holds (idrStep call s).2 (slotsOf m) := by
  obtain ⟨m, holds⟩ := holds
  -- a call that returns or faults keeps a property of states that its program keeps
  have keep : ∀ {α : Type} {p : Prog α} {answer : α → IdrAnswer} (fault : Fault → Prop),
      wp p (fun _ t => ∃ m, Holds t (slotsOf m)) fault s →
      ∃ m, Holds (runCall p answer s).2 (slotsOf m) := by
    intro α p answer fault run
    rcases runCall_of_wp answer run with ⟨a, t, next, eq⟩ | ⟨f, -, eq⟩
    · rwa [eq]
    · rw [eq]
      exact ⟨m, holds⟩
  have get : ∀ ptr start stack, start < maxIdBit → wp (idrGetNewAbove ptr start stack)
      (fun _ t => ∃ m, Holds t (slotsOf m)) (· = .endless) s := by
    intro ptr start stack bound
    refine (idrGetNewAbove_any holds bound).returns fun r t result => ?_
    cases r with
    | ok i =>
      obtain ⟨h, -, -, -, next⟩ := result
      exact ⟨_, next⟩
    | error e => exact ⟨m, result⟩
  cases call with
  | preGet room =>
    obtain ⟨pos, laid⟩ := holds
    obtain ⟨free, pool⟩ := laid.pool
    exact keep (fun _ => False) ((idrPreGet_spec room pool).returns
      fun _ t kept => ⟨m, pos, laid.kept kept.1 kept.2⟩)
  | getNew ptr stack => exact keep _ (get ptr 0 stack (by decide))
  | getNewAbove ptr start stack => exact keep _ (get ptr start stack start.2)
  | remove id =>
    refine keep (fun _ => False) ?_
    by_cases full : (slotsOf m).full (maskId id % 32 ^ s.layers) = true
    · refine (idrRemove_used holds full).returns fun _ t removed => ?_
      rw [slotsOf_vacate] at removed
      exact ⟨_, removed⟩
    · exact (idrRemove_unused holds (by simpa using full)).returns fun _ t same => ⟨m, same⟩
  | replace ptr id =>
    refine keep (fun _ => False) ((idrReplace_spec ptr id holds).returns fun r t result => ?_)
    split at result
    · rename_i full
      obtain ⟨-, replaced⟩ := result
      rw [slotsOf_replace full] at replaced
      exact ⟨_, replaced⟩
    · obtain ⟨-, rfl⟩ := result
      exact ⟨m, holds⟩
  | find id =>
    refine keep (fun _ => False) ((idrFind_spec id holds).returns ?_)
    rintro a t ⟨rfl, -⟩
    exact ⟨m, holds⟩

theorem idr_holds (calls : List IdrCall) :
    ∃ m, Holds (answers idrStep calls idrInit).2 (slotsOf m) :=
  admits_true.kept (I := fun s => ∃ m, Holds s (slotsOf m)) ⟨fun _ => none, holds_init⟩
    fun _ call holds _ => idrStep_holds call holds

/-! ### The map -/

/-- What a call may answer, and the map after it. Which error a failing call
reports is left open. -/
def idrSpec (m : Nat → Option Nat) : IdrCall → IdrAnswer → (Nat → Option Nat) → Prop
  | .preGet _, .ready _, m' => m' = m
  | .getNew ptr _, .allocated i, m' => IsLeast { j | 0 ≤ j ∧ m j = none } i ∧
      m' = update m i (some ptr)
  | .getNew _ _, .failed _, m' => m' = m
  | .getNewAbove ptr start _, .allocated i, m' => IsLeast { j | start.val ≤ j ∧ m j = none } i ∧
      m' = update m i (some ptr)
  | .getNewAbove _ _ _, .failed _, m' => m' = m
  | .remove id, .done, m' => m' = update m (maskId id) none
  | .replace ptr id, .pointer old, m' => m (maskId id) = some old ∧
      m' = update m (maskId id) (some ptr)
  | .replace _ id, .failed _, m' => m (maskId id) = none ∧ m' = m
  | .find id, .pointer a, m' => a = (m (maskId id)).getD 0 ∧ m' = m
  | _, _, _ => False

/-- The leaf bit of an id that the tree has a place for. -/
def IdrState.allocated (s : IdrState) (i : Nat) : Bool :=
  decide (i < 32 ^ s.layers) && match replaceLoop (s.layers - 1) i s.top s with
    | .ok (p, _) => decide (p ≠ 0) && (s.mem p).bitmap.getLsbD (i % 32)
    | .error _ => false

theorem Holds.allocated_eq (holds : Holds s σ) (i : Nat) : s.allocated i = σ.full i := by
  obtain ⟨pos, laid⟩ := holds
  rcases laid.tree with ⟨top, layers, -, unused⟩ | ⟨h, layers, tree⟩
  · rw [Slots.not_full (unused i), IdrState.allocated, layers, top]
    simp [replaceLoop, pure, StateT.pure, Except.pure]
  by_cases inside : i < 32 ^ (h + 1)
  · have walk : wp (replaceLoop h i (pos h (i / 32 ^ (h + 1))))
        (fun p t => t = s ∧ p = pos 0 (i / 32)) (fun _ => False) s := replaceLoop_spec tree le_rfl
    obtain ⟨p, t, run, rfl, rfl⟩ := walk.total
    rw [tree.root_eq inside] at run
    rw [IdrState.allocated, layers, Nat.add_sub_cancel, run]
    have slot : i % 32 < 32 := Nat.mod_lt i (by decide)
    by_cases missing : pos 0 (i / 32) = 0
    · have unused := tree.vacant_below (Nat.zero_le h) missing slot
      rw [Nat.div_add_mod] at unused
      rw [Slots.not_full unused]
      simp [missing]
    · have bit := tree.bits missing slot
      rw [Nat.div_add_mod, Slots.full_zero, ← Bool.eq_iff_iff] at bit
      simp [inside, missing, bit]
  · rw [Slots.not_full (tree.unused_of_le (not_lt.mp inside)), IdrState.allocated, layers]
    simp [inside]

/-- The search from `start` on wraps: there is no free id from `start` on in the
tree, and the tree cannot grow, or there is one before `start` in its last
subtree. -/
def IdrState.Wraps (s : IdrState) (start : Nat) : Prop :=
  start < 32 ^ s.layers ∧ (∀ j < 32 ^ s.layers, start ≤ j → s.allocated j = true) ∧
    (s.layers = 6 ∨ ∃ j < start, 31 * 32 ^ (s.layers - 1) ≤ j ∧ s.allocated j = false)

instance decidableWraps (s : IdrState) (start : Nat) : Decidable (s.Wraps start) :=
  inferInstanceAs (Decidable (_ ∧ _ ∧ _))

/-- The calls that cannot reach another id than they are asked for. -/
def IdrState.straight (s : IdrState) : IdrCall → Prop
  | .getNew _ _ => ¬s.Wraps 0
  | .getNewAbove _ start _ => start.val < 2 ^ 30 ∧ ¬s.Wraps start
  | .remove id => maskId id < 32 ^ s.layers ∨ s.allocated (maskId id % 32 ^ s.layers) = false
  | _ => True

instance decidableStraight (s : IdrState) (call : IdrCall) : Decidable (s.straight call) :=
  match call with
  | .getNew _ _ => inferInstanceAs (Decidable (¬_))
  | .getNewAbove _ _ _ => inferInstanceAs (Decidable (_ ∧ ¬_))
  | .remove _ => inferInstanceAs (Decidable (_ ∨ _))
  | .preGet _ | .replace _ _ | .find _ => inferInstanceAs (Decidable True)

theorem Holds.wraps_iff (holds : Holds s σ) (start : Nat) :
    s.Wraps start ↔ σ.Wraps s.layers start := by
  unfold IdrState.Wraps Slots.Wraps
  simp only [holds.allocated_eq]
  refine and_congr_right fun _ => and_congr ?_ (or_congr_right ?_)
  · exact ⟨fun all j low high => all j high low, fun all j high low => all j low high⟩
  · refine exists_congr fun j => ?_
    tauto

/-- A call whose program cannot fault. -/
theorem runCall_total {α : Type} {p : Prog α} (answer : α → IdrAnswer)
    {post : α → IdrState → Prop} (run : wp p post (fun _ => False) s) :
    ∃ a t, post a t ∧ runCall p answer s = (answer a, t) :=
  (runCall_of_wp answer run).resolve_right fun fault => fault.elim fun _ both => both.1

theorem getNewAbove_implements {m : Nat → Option Nat}
    {stack : Nat → Nat} (holds : Holds s (slotsOf m)) (small : start < 2 ^ 30)
    (straight : ¬s.Wraps start) :
    ∃ r t, runCall (idrGetNewAbove ptr start stack) (ofResult · .allocated) s =
        (ofResult r .allocated, t) ∧ match r with
      | .ok i => IsLeast { j | start ≤ j ∧ m j = none } i ∧
          Holds t (slotsOf (update m i (some ptr)))
      | .error _ => Holds t (slotsOf m) := by
  rw [holds.wraps_iff] at straight
  obtain ⟨r, t, result, eq⟩ := runCall_total (ofResult · .allocated)
    (idrGetNewAbove_first holds small straight)
  exact ⟨r, t, eq, result⟩

theorem idr_implements : Implements idrStep idrSpec IdrState.straight
    fun s m => Holds s (slotsOf m) := by
  intro s m call holds straight
  cases call with
  | preGet room =>
    obtain ⟨pos, laid⟩ := holds
    obtain ⟨free, pool⟩ := laid.pool
    obtain ⟨a, t, kept, eq⟩ := runCall_total .ready (idrPreGet_spec room pool)
    rw [idrStep, eq]
    exact ⟨m, rfl, pos, laid.kept kept.1 kept.2⟩
  | getNew ptr stack =>
    obtain ⟨r, t, eq, result⟩ := getNewAbove_implements holds (by decide) straight
    rw [idrStep, idrGetNew, eq]
    cases r with
    | ok i => exact ⟨_, ⟨result.1, rfl⟩, result.2⟩
    | error e => exact ⟨m, rfl, result⟩
  | getNewAbove ptr start stack =>
    obtain ⟨small, straight⟩ := straight
    obtain ⟨r, t, eq, result⟩ := getNewAbove_implements holds small straight
    rw [idrStep, eq]
    cases r with
    | ok i => exact ⟨_, ⟨result.1, rfl⟩, result.2⟩
    | error e => exact ⟨m, rfl, result⟩
  | remove id =>
    by_cases full : (slotsOf m).full (maskId id % 32 ^ s.layers) = true
    · obtain ⟨a, t, removed, eq⟩ := runCall_total (fun _ => .done) (idrRemove_used holds full)
      have own : maskId id % 32 ^ s.layers = maskId id := by
        refine Nat.mod_eq_of_lt (straight.resolve_right fun free => ?_)
        rw [holds.allocated_eq, full] at free
        cases free
      rw [own, slotsOf_vacate] at removed
      rw [idrStep, eq]
      exact ⟨_, rfl, removed⟩
    · have clear : (slotsOf m).full (maskId id % 32 ^ s.layers) = false := by simpa using full
      obtain ⟨a, t, same, eq⟩ := runCall_total (fun _ => .done) (idrRemove_unused holds clear)
      have unallocated : m (maskId id) = none := by
        rw [← slotsOf_full_false]
        by_cases inside : maskId id < 32 ^ s.layers
        · rwa [Nat.mod_eq_of_lt inside] at clear
        · rw [← holds.allocated_eq, IdrState.allocated]
          simp [inside]
      rw [idrStep, eq]
      have kept := update_eq_self (maskId id) m
      rw [unallocated] at kept
      exact ⟨m, kept.symm, same⟩
  | replace ptr id =>
    obtain ⟨r, t, result, eq⟩ := runCall_total (ofResult · .pointer) (idrReplace_spec ptr id holds)
    rw [idrStep, eq]
    split at result
    · rename_i full
      obtain ⟨rfl, replaced⟩ := result
      rw [slotsOf_replace full] at replaced
      refine ⟨_, ⟨?_, rfl⟩, replaced⟩
      obtain ⟨old, value⟩ := Option.isSome_iff_exists.mp full
      simp [slotsOf, value]
    · rename_i clear
      obtain ⟨⟨e, rfl⟩, rfl⟩ := result
      exact ⟨m, ⟨slotsOf_full_false.mp (by simpa using clear), rfl⟩, holds⟩
  | find id =>
    obtain ⟨a, t, ⟨rfl, rfl⟩, eq⟩ := runCall_total .pointer (idrFind_spec id holds)
    rw [idrStep, eq]
    exact ⟨m, ⟨rfl, rfl⟩, holds⟩

/-- In every run of calls that do not reach another id than they are asked for,
the answers are those of a map from ids below `2 ^ 30` to pointers, and every
lookup in the state reached is one in that map. -/
theorem idr_refines_map (calls : List IdrCall)
    (straight : Admits idrStep IdrState.straight calls idrInit) :
    ∃ m, SpecRun idrSpec (fun _ => none) calls (answers idrStep calls idrInit).1 m ∧
      (∀ i, m i ≠ none → i < 2 ^ 30) ∧ ∀ id, idrFind id (answers idrStep calls idrInit).2 =
        .ok ((m (maskId id)).getD 0, (answers idrStep calls idrInit).2) := by
  have start : Holds idrInit (slotsOf fun _ => none) := holds_init
  obtain ⟨m, run, holds⟩ := idr_implements.run start straight
  refine ⟨m, run, fun i busy => ?_, fun id => ?_⟩
  · have used : (slotsOf m).used i = true := Option.isSome_iff_ne_none.mpr busy
    obtain ⟨h, pos, -, -, tree⟩ := holds.standing used
    have low := tree.low
    calc i < 32 ^ (h + 1) := tree.used_lt used
      _ ≤ 32 ^ 6 := Nat.pow_le_pow_right (by decide) (by omega)
      _ = 2 ^ 30 := by norm_num
  · obtain ⟨a, t, eq, rfl, rfl⟩ := (idrFind_spec id holds).total
    exact eq

/-- A run with an id that is removed and given out again. -/
theorem idr_refines_map_reuse :
    Admits idrStep IdrState.straight
      [.preGet 14, .getNew 7 fun _ => 0, .getNewAbove 8 3 fun _ => 0, .remove 0, .getNew 9 fun _ => 0,
        .find 3] idrInit ∧
    ∃ m, SpecRun idrSpec (fun _ => none)
      [.preGet 14, .getNew 7 fun _ => 0, .getNewAbove 8 3 fun _ => 0, .remove 0, .getNew 9 fun _ => 0,
        .find 3] [.ready true, .allocated 0, .allocated 3, .done, .allocated 0, .pointer 8] m := by
  refine (and_iff_left_of_imp fun straight => ?_).mpr (by decide +kernel)
  obtain ⟨m, run, -⟩ := idr_refines_map _ straight
  refine ⟨m, ?_⟩
  convert run
  decide +kernel

/-- A search that ends in a layer below the top goes on at the slot 0: the second
call returns the id 1024, which `idr_find` does not find; the pointer is found
under the id 0. -/
theorem idr_not_refines_map : ¬∃ m, SpecRun idrSpec (fun _ => none)
    [.preGet 14, .getNewAbove 7 1023 fun _ => 0, .getNewAbove 9 1023 fun _ => 0, .find 1024, .find 0]
    (answers idrStep [.preGet 14, .getNewAbove 7 1023 fun _ => 0, .getNewAbove 9 1023 fun _ => 0,
      .find 1024, .find 0] idrInit).1 m := by
  have same : (answers idrStep [.preGet 14, .getNewAbove 7 1023 fun _ => 0,
      .getNewAbove 9 1023 fun _ => 0, .find 1024, .find 0] idrInit).1 =
      [.ready true, .allocated 1023, .allocated 1024, .pointer 0, .pointer 9] := by decide +kernel
  rw [same]
  rintro ⟨m, run⟩
  cases run with
  | cons first run =>
  cases run with
  | cons second run =>
  cases run with
  | cons third run =>
  cases run with
  | cons lookup run =>
    obtain ⟨-, rfl⟩ := third
    obtain ⟨found, -⟩ := lookup
    have own : maskId 1024 = 1024 := by decide
    rw [own, update_self] at found
    cases found

end AndroidKernel.Idr
