import AndroidKernel.Binder.Access

/-!
The descriptor of a new reference.

`binder_get_ref_for_node` goes through the references of the process in the order of their
descriptors and takes the first gap. The value 0 is kept for the node of the context manager, but a
reference to a former context manager may still have it.
-/

namespace AndroidKernel.Binder

open Lib Function

/-- The two trees of references. -/
structure BinderProc.Sorted (proc : BinderProc) : Prop where
  byDesc : KeySorted proc.refsByDesc
  byNode : KeySorted proc.refsByNode

/-- The trees after a reference `r` was added, and no other one. -/
structure Assigned (proc proc' : BinderProc) (n r desc : Nat) : Prop where
  sorted : proc'.Sorted
  byDesc : ∀ d, lookupKey d proc'.refsByDesc =
    if d = desc then some r else lookupKey d proc.refsByDesc
  byNode : ∀ m, lookupKey m proc'.refsByNode =
    if m = n then some r else lookupKey m proc.refsByNode

variable {l : List (Nat × Nat)} {desc : Nat}

/-- The search may start above a descriptor by one at most; it then goes on where it started. -/
theorem firstGap_isLeast (sorted : KeySorted l) (near : ∀ e ∈ l, desc ≤ e.1 + 1) :
    IsLeast {d | desc ≤ d ∧ lookupKey d l = none} (firstGap desc l) := by
  induction l generalizing desc with
  | nil => exact ⟨⟨le_rfl, rfl⟩, fun _ unused => unused.1⟩
  | cons e l ih =>
    obtain ⟨least, rest⟩ := List.pairwise_cons.mp sorted
    rw [firstGap]
    split
    case isTrue before =>
      refine ⟨⟨le_rfl, lookupKey_eq_none.mpr ?_⟩, fun _ unused => unused.1⟩
      rw [List.forall_mem_cons]
      refine ⟨before.ne', fun e' mem => ?_⟩
      exact (before.trans (least e' mem)).ne'
    case isFalse behind =>
      -- The descriptor of `e` is used or below the start.
      have same : {d | desc ≤ d ∧ lookupKey d (e :: l) = none} =
          {d | e.1 + 1 ≤ d ∧ lookupKey d l = none} := by
        ext d
        have := near e List.mem_cons_self
        simp only [Set.mem_ofPred_eq, lookupKey_eq_none, List.forall_mem_cons]
        refine ⟨fun ⟨low, differs, free⟩ => ⟨?_, free⟩, fun ⟨low, free⟩ => ⟨?_, ?_, free⟩⟩ <;> omega
      rw [same]
      exact ih rest fun e' mem => Nat.le_succ_of_le (least e' mem)

/-- Every reference moves the search by one at most. -/
theorem firstGap_le : firstGap desc l ≤ l.length + desc := by
  induction l generalizing desc with
  | nil => rw [firstGap, List.length_nil, Nat.zero_add]
  | cons e l ih =>
    rw [firstGap, List.length_cons]
    split
    · omega
    · have := @ih (e.1 + 1)
      omega

variable {s : BinderState} {p n r : Nat} {proc : BinderProc}

theorem BinderProc.Sorted.assigned (sorted : proc.Sorted)
    (new : lookupKey n proc.refsByNode = none) (unused : lookupKey desc proc.refsByDesc = none) :
    Assigned proc { proc with
      refsByNode := insertKey n r proc.refsByNode
      refsByDesc := insertKey desc r proc.refsByDesc } n r desc where
  sorted := ⟨sorted.byDesc.insertKey unused, sorted.byNode.insertKey new⟩
  byDesc := lookupKey_insertKey unused
  byNode := lookupKey_insertKey new

section Calls

variable (owner : s.procs p = some proc)
include owner

theorem binderGetRefForNode_found (found : lookupKey n proc.refsByNode = some r) (alloc : Bool) :
    (binderGetRefForNode p n alloc).run s = .ok (some r, s) := by
  refine wp.eq_ok (m := binderGetRefForNode p n alloc) ?_
  simp [binderGetRefForNode, owner, found]

theorem binderGetRefForNode_no_memory (new : lookupKey n proc.refsByNode = none) :
    (binderGetRefForNode p n false).run s = .ok (none, s) := by
  refine wp.eq_ok (m := binderGetRefForNode p n false) ?_
  simp [binderGetRefForNode, owner, new]

theorem binderGetRefForNode_new (live : (s.nodes n).isSome)
    (new : lookupKey n proc.refsByNode = none) (unused : lookupKey desc proc.refsByDesc = none)
    (gap : firstGap (if s.contextMgrNode = some n then 0 else 1) proc.refsByDesc = desc) :
    ∃ s', (binderGetRefForNode p n true).run s = .ok (some s.nextId, s') ∧
      s'.refs s.nextId = some { proc := p, node := n, desc := desc } ∧
      s'.procs p = some { proc with
        refsByNode := insertKey n s.nextId proc.refsByNode
        refsByDesc := insertKey desc s.nextId proc.refsByDesc } := by
  obtain ⟨node, present⟩ := Option.isSome_iff_exists.mp live
  have run : wp (binderGetRefForNode p n true) (fun a t => a = some s.nextId ∧
      t.refs s.nextId = some { proc := p, node := n, desc := desc } ∧
      t.procs p = some { proc with
        refsByNode := insertKey n s.nextId proc.refsByNode
        refsByDesc := insertKey desc s.nextId proc.refsByDesc }) (fun _ => False) s := by
    simp [binderGetRefForNode, owner, new, gap, unused, present, BinderState.setNode,
      BinderState.setProc, BinderState.setRef]
  obtain ⟨_, s', ran, rfl, ref, proc'⟩ := run.total
  exact ⟨s', ran, ref, proc'⟩

end Calls

/-- **A new reference gets the least descriptor that is free**, from 0 on for the node of the context
manager and from 1 on for another one. Both trees stay in order and get this one entry, and asked
again the function finds it. The bound shows that the 32 bits of a descriptor suffice. -/
theorem binderGetRefForNode_assigns (s : BinderState) (p n : Nat) (proc : BinderProc)
    (owner : s.procs p = some proc) (live : (s.nodes n).isSome) (sorted : proc.Sorted)
    (new : lookupKey n proc.refsByNode = none) :
    (binderGetRefForNode p n false).run s = .ok (none, s) ∧
      ∃ r s' ref proc', (binderGetRefForNode p n true).run s = .ok (some r, s') ∧
        s'.refs r = some ref ∧ s'.procs p = some proc' ∧ ref.proc = p ∧ ref.node = n ∧
        IsLeast {d | (if s.contextMgrNode = some n then 0 else 1) ≤ d ∧
          lookupKey d proc.refsByDesc = none} ref.desc ∧
        ref.desc ≤ proc.refsByDesc.length + 1 ∧ Assigned proc proc' n r ref.desc ∧
        ∀ alloc, (binderGetRefForNode p n alloc).run s' = .ok (some r, s') := by
  refine ⟨binderGetRefForNode_no_memory owner new, ?_⟩
  have start : (if s.contextMgrNode = some n then 0 else 1) ≤ 1 := by
    split <;> decide
  have least := firstGap_isLeast sorted.byDesc fun e _ => start.trans (Nat.le_add_left 1 e.1)
  have few := firstGap_le.trans (Nat.add_le_add_left start proc.refsByDesc.length)
  obtain ⟨s', ran, ref, proc'⟩ := binderGetRefForNode_new owner live new least.1.2 rfl
  have assigned := sorted.assigned (r := s.nextId) new least.1.2
  have again := (assigned.byNode n).trans (if_pos rfl)
  exact ⟨s.nextId, s', _, _, ran, ref, proc', rfl, rfl, least, few, assigned,
    binderGetRefForNode_found proc' again⟩

/-- The descriptors 0, 1 and 3 are used, the first for a former context manager. -/
def holder : BinderProc where
  refsByDesc := [(0, 10), (1, 11), (3, 12)]
  refsByNode := [(5, 10), (6, 11), (8, 12)]
  defaultPriority := (binderInit.tasks 1).nice
  defaultRtPrio := (binderInit.tasks 1).rtPriority
  defaultPolicy := (binderInit.tasks 1).policy

def holding : BinderState :=
  { binderInit with
    procs p := if p = 1 then some holder else none
    nodes n := if n = 7 then some { proc := none, ptr := 0, cookie := 0 } else none
    contextMgrNode := some 7 }

/-- The new context manager gets 2. -/
theorem binderGetRefForNode_assigns_former : ∃ r s' ref,
    (binderGetRefForNode 1 7 true).run holding = .ok (some r, s') ∧ s'.refs r = some ref ∧
      ref.desc = 2 := by
  have sorted : holder.Sorted := ⟨by simp [KeySorted, holder], by simp [KeySorted, holder]⟩
  obtain ⟨-, r, s', ref, -, ran, stored, -, -, -, least, -⟩ :=
    binderGetRefForNode_assigns holding 1 7 holder rfl rfl sorted rfl
  refine ⟨r, s', ref, ran, stored, le_antisymm (least.2 ⟨by decide, by decide⟩) ?_⟩
  have unused := lookupKey_eq_none.mp least.1.2
  have := unused (0, 10) (by decide)
  have := unused (1, 11) (by decide)
  omega

end AndroidKernel.Binder
