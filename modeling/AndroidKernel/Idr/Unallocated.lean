import AndroidKernel.Idr.IdaRuns

/-!
Removing ids that are not allocated.

Both allocators look an id up by its digits in a tree of the current height, so
an id beyond the tree stands for the slot that its low digits name. `idr_remove`
frees that slot when it is taken; `ida_remove` reads the chunk in that slot when
the layer of the slot is there, whether there is a chunk or not.
-/

namespace AndroidKernel.Idr

open Lib

/-- Every lookup and every allocated id is the same, and the full-bits of the layers
are right for the same slots. -/
structure Unchanged (s t : IdrState) : Prop where
  find : ∀ id, (idrFind id t).map Prod.fst = (idrFind id s).map Prod.fst
  allocated : ∀ i, t.allocated i = s.allocated i
  fullBits : ∃ σ, Holds s σ ∧ Holds t σ

theorem Unchanged.of_holds {s t : IdrState} {σ : Slots} (before : Holds s σ) (after : Holds t σ) :
    Unchanged s t := by
  refine ⟨fun id => ?_, fun i => ?_, σ, before, after⟩
  · obtain ⟨a, u, eq, rfl, rfl⟩ := (idrFind_spec id before).total
    obtain ⟨b, v, eq', rfl, rfl⟩ := (idrFind_spec id after).total
    rw [eq, eq']
    rfl
  · rw [before.allocated_eq, after.allocated_eq]

theorem idrRemove_unchanged_iff {s : IdrState} {m : Nat → Option Nat} (id : BitVec 32)
    (holds : Holds s (slotsOf m)) :
    (∃ t, idrRemove id s = .ok ((), t) ∧ Unchanged s t) ↔
      s.allocated (maskId id % 32 ^ s.layers) = false := by
  constructor
  · rintro ⟨t, eq, same⟩
    by_contra busy
    rw [holds.allocated_eq, Bool.not_eq_false] at busy
    have removed : wp _ _ (fun _ => False) s := idrRemove_used holds busy
    replace removed := removed.of_ok eq
    have := same.allocated (maskId id % 32 ^ s.layers)
    rw [holds.allocated_eq, removed.allocated_eq, busy] at this
    simp [Slots.vacate] at this
  · intro clear
    rw [holds.allocated_eq] at clear
    obtain ⟨⟨⟩, t, eq, after⟩ := (idrRemove_unused holds clear).total
    exact ⟨t, eq, .of_holds holds after⟩

/-- The same for the ids of an ida: every lookup of a chunk, every allocated id, the
full-bits, and the counts of the chunks. -/
structure IdaUnchanged (s t : IdaState) : Prop where
  idr : Unchanged s.idr t.idr
  has : ∀ id, t.has id = s.has id
  counts : t.Consistent

/-- A slot in use has a leaf layer. -/
theorem Holds.leaf_ne {s : IdrState} {σ : Slots} {x : Nat} (holds : Holds s σ)
    (busy : σ.used x = true) : s.leaf x ≠ 0 := by
  obtain ⟨h, pos, standing⟩ := holds.standing busy
  have tree := standing.tree
  rw [standing.leaf_eq (tree.used_lt busy)]
  exact tree.used busy

theorem idaRemove_unchanged_iff {s : IdaState} {σ : Slots} {x : Nat} (id : BitVec 32)
    (own : x = id.toNat / 992 % 32 ^ s.idr.layers) (holds : Holds s.idr σ) (chunks : Chunks s σ) :
    (∃ t, idaRemove id s = .ok ((), t) ∧ IdaUnchanged s t) ↔
      s.idr.leaf x = 0 ∨
        s.chunk x ≠ 0 ∧ (s.chunks (s.chunk x)).bitmap.getLsbD (id.toNat % 992) = false := by
  have run := idaRemove_spec own holds chunks
  have used : s.chunk x ≠ 0 ↔ σ.used x = true := by
    rw [Chunks.chunk_eq holds]
    exact ⟨Slots.used_of_ptr, chunks.present⟩
  constructor
  · rintro ⟨t, eq, same⟩
    obtain ⟨present, σ', removed⟩ := run.of_ok eq
    refine or_iff_not_imp_left.mpr fun leaf => ?_
    have busy := present.resolve_right leaf
    refine ⟨used.mpr busy, ?_⟩
    by_contra set
    rw [Chunks.chunk_eq holds, Bool.not_eq_false] at set
    -- the bit of the slot is gone
    have slot : id.toNat % 992 < 992 := Nat.mod_lt _ (by decide)
    have gone := same.has (x * 992 + id.toNat % 992)
    rw [Bool.eq_iff_iff, chunks.has_iff holds, removed.chunks.has_iff removed.holds, removed.bits,
      show (x * 992 + id.toNat % 992) / 992 = x by omega,
      show (x * 992 + id.toNat % 992) % 992 = id.toNat % 992 by omega] at gone
    exact (gone.mpr ⟨busy, set⟩).2 ⟨rfl, rfl⟩
  · intro safe
    have clear : ¬s.bit σ x (id.toNat % 992) := by
      rintro ⟨busy, set⟩
      rcases safe with missing | ⟨-, off⟩
      · exact holds.leaf_ne busy missing
      · rw [Chunks.chunk_eq holds, set] at off
        cases off
    have returns : wp (idaRemove id) (fun _ u => ∃ σ', Removed s u σ σ' x (id.toNat % 992))
        (fun _ => False) s := by grind
    obtain ⟨⟨⟩, t, eq, σ', removed⟩ := returns.total
    obtain rfl := removed.same clear
    refine ⟨t, eq, .of_holds holds removed.holds, fun j => ?_, removed.chunks.consistent removed.holds⟩
    rw [Bool.eq_iff_iff, chunks.has_iff holds, removed.chunks.has_iff removed.holds, removed.bits]
    refine and_iff_left_of_imp fun bit => ?_
    rintro ⟨rfl, same⟩
    exact clear (same ▸ bit)

/-- In every state that is reached, removing an id changes nothing exactly when: for
an idr, the slot of the id in the tree is not allocated; for an ida, the leaf layer
for the chunk of the id is missing, or the chunk is there and the bit is clear. -/
theorem remove_unchanged_iff (idrCalls : List IdrCall) (idaCalls : List IdaCall) (id : BitVec 32)
    {s : IdrState} {r : IdaState} {x : Nat} (idrReached : s = (answers idrStep idrCalls idrInit).2)
    (idaReached : r = (answers idaStep idaCalls idaInit).2)
    (slot : x = id.toNat / 992 % 32 ^ r.idr.layers) :
    ((∃ t, idrRemove id s = .ok ((), t) ∧ Unchanged s t) ↔
      s.allocated (maskId id % 32 ^ s.layers) = false) ∧
    ((∃ t, idaRemove id r = .ok ((), t) ∧ IdaUnchanged r t) ↔ r.idr.leaf x = 0 ∨
      r.chunk x ≠ 0 ∧ (r.chunks (r.chunk x)).bitmap.getLsbD (id.toNat % 992) = false) := by
  constructor
  · rw [idrReached]
    obtain ⟨m, holds⟩ := idr_holds idrCalls
    exact idrRemove_unchanged_iff id holds
  · rw [idaReached] at slot ⊢
    obtain ⟨σ, holds, chunks⟩ := ida_holds idaCalls
    exact idaRemove_unchanged_iff id slot holds chunks

/-- The id 3 is allocated and 4 is not. -/
theorem remove_unchanged_small :
    (∃ t, idrRemove 4 (answers idrStep [.preGet 14, .getNewAbove 7 3 fun _ => 0] idrInit).2 =
      .ok ((), t) ∧ Unchanged (answers idrStep [.preGet 14, .getNewAbove 7 3 fun _ => 0] idrInit).2 t) ∧
    ∃ t, idaRemove 4 (answers idaStep [.preGet 14 (some ⟨0, 0⟩), .getNewAbove 3 fun _ => 0] idaInit).2 =
      .ok ((), t) ∧
      IdaUnchanged (answers idaStep [.preGet 14 (some ⟨0, 0⟩), .getNewAbove 3 fun _ => 0] idaInit).2 t := by
  have both := remove_unchanged_iff [.preGet 14, .getNewAbove 7 3 fun _ => 0]
    [.preGet 14 (some ⟨0, 0⟩), .getNewAbove 3 fun _ => 0] 4 rfl rfl rfl
  exact ⟨both.1.mpr (by decide +kernel), both.2.mpr (by decide +kernel)⟩

/-- The id 35 is not allocated, but in a tree of one layer it stands for the slot 3,
which is freed. The id 992 is not allocated, and the chunk for it is missing in a
leaf layer that is there. -/
theorem remove_not_unchanged :
    (∃ (calls : List IdrCall) (id : BitVec 32),
      (answers idrStep calls idrInit).2.allocated id.toNat = false ∧
      ¬∃ t, idrRemove id (answers idrStep calls idrInit).2 = .ok ((), t) ∧
        Unchanged (answers idrStep calls idrInit).2 t) ∧
    ∃ (calls : List IdaCall) (id : BitVec 32),
      (answers idaStep calls idaInit).2.has id.toNat = false ∧
      idaRemove id (answers idaStep calls idaInit).2 = .error .nullDereference := by
  refine ⟨⟨[.preGet 14, .getNewAbove 7 3 fun _ => 0], 35, by decide +kernel, ?_⟩,
    [.preGet 14 (some ⟨0, 0⟩), .getNewAbove 0 fun _ => 0], 992, by decide +kernel, ?_⟩
  · obtain ⟨m, holds⟩ := idr_holds [.preGet 14, .getNewAbove 7 3 fun _ => 0]
    rw [idrRemove_unchanged_iff 35 holds]
    decide +kernel
  have fault : (idaStep (.remove 992) (answers idaStep
      [.preGet 14 (some ⟨0, 0⟩), .getNewAbove 0 fun _ => 0] idaInit).2).1 =
      .fault .nullDereference := by decide +kernel
  rw [idaStep, runIda] at fault
  cases result : idaRemove 992 (answers idaStep
      [.preGet 14 (some ⟨0, 0⟩), .getNewAbove 0 fun _ => 0] idaInit).2 with
  | ok r =>
    rw [result] at fault
    cases fault
  | error f =>
    rw [result] at fault
    rw [IdaAnswer.fault.inj fault]

end AndroidKernel.Idr
