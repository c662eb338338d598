import AndroidKernel.Binder.AllocFree

/-!
Runs of a buffer space.

After `binder_mmap`, any sequence of allocations, frees of allocated buffers and
stores into them leaves the space in order: `bufferSpace_of_reach` is about the
list and the trees, `pageMap_of_reach` about the backed pages. Both say that the
next call, whatever it is, returns without a `BUG_ON` and without freeing a page
twice.
-/

namespace AndroidKernel.Binder

open Lib

/-- Every call of a run; the condition `ok` of `Machine.Reach` that admits all. -/
def anyCall (_ : BinderAlloc) (_ : AllocCall) : Prop := True

variable {a : BinderAlloc}

/-- An enabled call returns and keeps the invariant. -/
theorem AllocInv.exec {call : AllocCall} (inv : AllocInv a)
    (enabled : call.Enabled a) : ∃ a', call.exec a = .ok a' ∧ AllocInv a' := by
  cases call with
  | alloc env dataSize offsetsSize isAsync =>
    obtain ⟨found, a', run, inv', -⟩ := inv.alloc env dataSize offsetsSize isAsync
    exact ⟨a', by simp [AllocCall.exec, run, Except.map], inv'⟩
  | free b =>
    obtain ⟨a', run, inv', -⟩ := inv.free enabled.1 enabled.2
    exact ⟨a', run, inv'⟩
  | store b transaction targetNode allowUserFree data offsets =>
    exact ⟨_, rfl, inv.store b fun _ => ⟨rfl, rfl, rfl⟩⟩
  | vmaClose => exact ⟨_, rfl, inv.setQuota _ false⟩

instance (a : BinderAlloc) (call : AllocCall) : Decidable (allocMachine.enabled a call) :=
  match call with
  | .alloc .. => inferInstanceAs (Decidable True)
  | .free b => inferInstanceAs (Decidable ((b ∈ a.buffers ∧ (a.hdr b).free = false) ∧
      (a.hdr b).transaction = none))
  | .store b .. => inferInstanceAs (Decidable (b ∈ a.buffers ∧ (a.hdr b).free = false))
  | .vmaClose => inferInstanceAs (Decidable True)

instance (a : BinderAlloc) (call : AllocCall) : Decidable (anyCall a call) :=
  inferInstanceAs (Decidable True)

theorem AllocInv.of_reach (reach : allocMachine.Reach anyCall a) :
    AllocInv a := by
  refine reach.invariant ?_ ?_
  · rintro a ⟨area, pageArray, env, run⟩
    obtain ⟨mapped, run', inv⟩ := binderMmap_spec area pageArray env
    rw [run] at run'
    cases run'
    exact (inv a rfl).1
  · intro a call a' inv enabled _ run
    obtain ⟨a'', run', inv'⟩ := inv.exec enabled
    have same : call.exec a = .ok a' := run
    rw [same] at run'
    cases run'
    exact inv'

/-- No call the driver can make next faults. -/
def NoFault (a : BinderAlloc) : Prop :=
  ∀ call : AllocCall, call.Enabled a → ∃ a', call.exec a = .ok a'

/-- The list of buffers and the two trees are in order. -/
structure BufferSpace (a : BinderAlloc) : Prop where
  increasing : a.buffers.Pairwise (· < ·)
  tiles : Tiles (binderBufferSize a) a.top a.buffer a.buffers
  apart : Apart a.hdr a.buffers
  freeBuffers : a.freeBuffers.inorder.Perm (a.buffers.filter fun b => (a.hdr b).free)
  freeOrder : a.freeBuffers.inorder.Pairwise fun x y => binderBufferSize a x ≤ binderBufferSize a y
  allocatedBuffers : a.allocatedBuffers.inorder = a.buffers.filter fun b => !(a.hdr b).free
  fits : ∀ b, a.Allocated b →
    ((a.hdr b).dataSize + 3) / 4 * 4 + ((a.hdr b).offsetsSize + 3) / 4 * 4 ≤ binderBufferSize a b

theorem AllocInv.bufferSpace (inv : AllocInv a) : BufferSpace a := by
  have sizes : sizeIn a.top a.buffers = binderBufferSize a :=
    funext fun b => (binderBufferSize_eq a b).symm
  refine ⟨inv.layout.sorted, ?_, inv.apart, ?_, inv.trees.order, ?_, ?_⟩
  · have tiles := inv.layout.tiles
    rw [sizes] at tiles
    have head := inv.head
    cases l : a.buffers with
    | nil => simp [l] at head
    | cons b l' =>
      rw [l] at head tiles
      simp only [List.head?_cons, Option.some.injEq] at head
      rw [List.headD_cons] at tiles
      rwa [← head]
  · simpa [everyBuffer] using inv.trees.free
  · simpa [everyBuffer] using inv.trees.allocated
  · rintro b ⟨mem, taken⟩
    obtain ⟨data, offsets⟩ := inv.sound b mem taken
    have := (inv.fits b mem taken).1
    rw [← requestSize_no_wrap data offsets]
    exact this

/-- Page `i` of the area holds a byte of `[lo, hi)`. -/
def HoldsByte (a : BinderAlloc) (i lo hi : Nat) : Prop :=
  ∃ x, lo ≤ x ∧ x < hi ∧ a.buffer + i * pageSize ≤ x ∧ x < a.buffer + (i + 1) * pageSize

/-- Page `i` of the area lies inside `[lo, hi)`. -/
def LiesInside (a : BinderAlloc) (i lo hi : Nat) : Prop :=
  lo ≤ a.buffer + i * pageSize ∧ a.buffer + (i + 1) * pageSize ≤ hi

/-- The backed pages against the buffers. -/
structure PageMap (a : BinderAlloc) : Prop where
  header : ∀ b ∈ a.buffers, ∀ i, HoldsByte a i b (dataOf b) → a.pages i = true
  data : ∀ b, a.Allocated b → ∀ i,
    HoldsByte a i (dataOf b) (dataOf b + (((a.hdr b).dataSize + 3) / 4 * 4 +
      ((a.hdr b).offsetsSize + 3) / 4 * 4)) → a.pages i = true
  free : ∀ b ∈ a.buffers, (a.hdr b).free = true → ∀ i,
    LiesInside a i (dataOf b) (dataOf b + binderBufferSize a b) → a.pages i = false

theorem AllocInv.pageMap (inv : AllocInv a) : PageMap a := by
  have aligned := inv.aligned
  refine ⟨?_, ?_, ?_⟩
  · rintro b mem i ⟨x, low, high, first, last⟩
    refine (inv.pages i).mpr ⟨b, mem, ?_⟩
    have := used_pos (a.hdr b)
    unfold Meets dataOf headerSize pageSize at *
    omega
  · rintro b ⟨mem, taken⟩ i ⟨x, low, high, first, last⟩
    refine (inv.pages i).mpr ⟨b, mem, ?_⟩
    obtain ⟨data, offsets⟩ := inv.sound b mem taken
    rw [← requestSize_no_wrap data offsets] at high
    have all : used (a.hdr b) = headerSize + requestSize (a.hdr b).dataSize (a.hdr b).offsetsSize := by
      simp [used, taken]
    rw [all]
    generalize requestSize _ _ = size at high
    unfold Meets dataOf headerSize pageSize at *
    omega
  · rintro b mem free i ⟨low, high⟩
    refine Bool.eq_false_iff.mpr fun there => ?_
    obtain ⟨pre, post, split⟩ := List.append_of_mem mem
    obtain ⟨-, bound, layoutPost, -⟩ := cut_buffers inv.layout split
    rw [dataOf_add_size inv.layout split] at high
    have needed := (inv.pages i).mp there
    rw [split, needed_append, needed_cons] at needed
    -- A page inside the data meets neither what lies before `b` nor what lies after it.
    rcases needed with before | ⟨-, own⟩ | after
    · have := before.before (fun x => inv.used_le split)
      unfold dataOf headerSize pageSize at *
      omega
    · simp only [used, free, if_true] at own
      unfold dataOf headerSize pageSize at *
      omega
    · have := after.after layoutPost
      unfold dataOf headerSize pageSize at *
      omega

/-- In every state of every run the buffers tile the area, free neighbours are
merged, the trees are exact and ordered, allocated buffers are large enough, and
the next call returns. -/
theorem bufferSpace_of_reach (a : BinderAlloc) (reach : allocMachine.Reach anyCall a) :
    BufferSpace a ∧ NoFault a := by
  have inv := AllocInv.of_reach reach
  refine ⟨inv.bufferSpace, fun call enabled => ?_⟩
  obtain ⟨a', run, -⟩ := inv.exec enabled
  exact ⟨a', run⟩

/-- An area of two pages. -/
def twoPages : VmArea where
  addr := 0xE0000000
  size := 0x2000
  addr_aligned := by decide
  size_aligned := by decide
  size_pos := by decide
  below := by decide

/-- The state after mapping two pages and making the given calls. -/
def afterCalls (calls : List AllocCall) : Option BinderAlloc :=
  (binderMmap twoPages true {}).toOption.join.bind (allocMachine.execute anyCall calls)

theorem reach_afterCalls {calls : List AllocCall}
    (run : afterCalls calls = some a) : allocMachine.Reach anyCall a := by
  obtain ⟨first, mapped, run⟩ := Option.bind_eq_some_iff.mp run
  refine Machine.Reach.execute (.start ⟨twoPages, true, {}, ?_⟩) run
  cases result : binderMmap twoPages true {} with
  | error fault => simp [result, Except.toOption] at mapped
  | ok found => simpa [result, Except.toOption] using mapped

/-- After the mapping and one allocation. -/
theorem bufferSpace_after_alloc :
    ∃ a, afterCalls [.alloc {} 100 4 false] = some a ∧
      a.buffers = [0xE0000000, 0xE0000000 + 40 + 104] ∧ BufferSpace a ∧ NoFault a := by
  have seen : (afterCalls [.alloc {} 100 4 false]).map (·.buffers) =
      some [0xE0000000, 0xE0000000 + 40 + 104] := by decide +kernel
  obtain ⟨a, run, buffers⟩ := Option.map_eq_some_iff.mp seen
  exact ⟨a, run, buffers, bufferSpace_of_reach a (reach_afterCalls run)⟩

/-- In every state of every run each header and all requested data are backed,
no page inside a free buffer is, and the next call neither finds a page where it
allocates one nor misses one that it frees. -/
theorem pageMap_of_reach (a : BinderAlloc) (reach : allocMachine.Reach anyCall a) :
    PageMap a ∧ NoFault a := by
  have inv := AllocInv.of_reach reach
  refine ⟨inv.pageMap, fun call enabled => ?_⟩
  obtain ⟨a', run, -⟩ := inv.exec enabled
  exact ⟨a', run⟩

/-- After the mapping, an allocation over the page boundary and its release. -/
theorem pageMap_after_free :
    ∃ a, afterCalls [.alloc {} 5000 0 false, .free 0xE0000000] = some a ∧
      a.pages 0 = true ∧ a.pages 1 = false ∧ PageMap a ∧ NoFault a := by
  have seen : (afterCalls [.alloc {} 5000 0 false, .free 0xE0000000]).map
      (fun a => (a.pages 0, a.pages 1)) = some (true, false) := by decide +kernel
  obtain ⟨a, run, pages⟩ := Option.map_eq_some_iff.mp seen
  obtain ⟨first, second⟩ := Prod.mk.inj pages
  exact ⟨a, run, first, second, pageMap_of_reach a (reach_afterCalls run)⟩

theorem lookupBuffer_eq {k : Nat} {t : RbTree Nat} (sorted : t.inorder.Pairwise (· < ·))
    (taken : ∀ b ∈ t.inorder, (a.hdr b).free = false) :
    lookupBuffer a k t = .ok (if k ∈ t.inorder then some k else none) := by
  induction t with
  | leaf => rfl
  | node c l b r ihl ihr =>
    rw [RbTree.inorder_node, List.pairwise_append, List.pairwise_cons] at sorted
    grind [lookupBuffer, RbTree.inorder_node]

/-- `binder_buffer_lookup` finds exactly the allocated buffers. -/
theorem lookupBuffer_of_reach (reach : allocMachine.Reach anyCall a) (k : Nat) :
    lookupBuffer a k a.allocatedBuffers =
      .ok (if k ∈ a.buffers ∧ (a.hdr k).free = false then some k else none) := by
  have space := (AllocInv.of_reach reach).bufferSpace
  rw [lookupBuffer_eq, space.allocatedBuffers]
  · simp
  · rw [space.allocatedBuffers]
    exact space.increasing.filter _
  · simp [space.allocatedBuffers]

theorem lookupBuffer_after_alloc : ∃ a, afterCalls [.alloc {} 9 0 false] = some a ∧
    lookupBuffer a 0xE0000000 a.allocatedBuffers = .ok (some 0xE0000000) := by
  have seen : (afterCalls [.alloc {} 9 0 false]).any fun a =>
      0xE0000000 ∈ a.buffers ∧ (a.hdr 0xE0000000).free = false := by decide +kernel
  obtain ⟨a, run, found⟩ := (Option.any_eq_true ..).mp seen
  refine ⟨a, run, ?_⟩
  rw [lookupBuffer_of_reach (reach_afterCalls run), if_pos (of_decide_eq_true found)]

end AndroidKernel.Binder
