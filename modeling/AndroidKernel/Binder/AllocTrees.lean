import AndroidKernel.Binder.AllocLayout

/-!
The trees of free and allocated buffers against the list of buffers.

While an operation runs, one or two buffers belong to neither tree. `Trees a S`
says that the trees hold exactly the buffers selected by `S`, the free ones in
the order of their current sizes and the allocated ones in address order; the
lemmas say how each step of the code changes the selection. A size only changes
for a buffer that is outside the trees at that moment (`Trees.relist`).
-/

namespace AndroidKernel.Binder

open Lib List RbTree

variable {l pre post : List Nat} {b : Nat} {p : Nat → Bool}

structure Trees (a : BinderAlloc) (S : Nat → Bool) : Prop where
  free : a.freeBuffers.inorder.Perm (a.buffers.filter fun x => (a.hdr x).free && S x)
  order : a.freeBuffers.inorder.Pairwise fun x y => binderBufferSize a x ≤ binderBufferSize a y
  allocated : a.allocatedBuffers.inorder = a.buffers.filter fun x => !(a.hdr x).free && S x

/-- All buffers are in their trees. -/
def everyBuffer : Nat → Bool := fun _ => true

/-- All buffers but `b` are. -/
def allBut (b : Nat) : Nat → Bool := fun x => decide (x ≠ b)

theorem append_boundary {α : Type} {p : α → Prop} {xs ys us vs : List α}
    (same : xs ++ ys = us ++ vs) (low : ∀ x ∈ xs, ¬p x) (high : ∀ y ∈ ys, p y)
    (low' : ∀ x ∈ us, ¬p x) (high' : ∀ y ∈ vs, p y) : xs = us ∧ ys = vs := by
  induction xs generalizing us with
  | nil =>
    cases us with
    | nil => exact ⟨rfl, same⟩
    | cons u us =>
      have : u ∈ ys := by rw [nil_append] at same; simp [same]
      exact absurd (high u this) (low' u mem_cons_self)
  | cons x xs ih =>
    cases us with
    | nil =>
      have : x ∈ vs := by rw [nil_append] at same; simp [← same]
      exact absurd (high' x this) (low x mem_cons_self)
    | cons u us => grind

theorem filter_allBut (fresh : b ∉ l) : l.filter (fun x => p x && allBut b x) = l.filter p := by
  refine filter_congr fun x mem => ?_
  have : x ≠ b := fun same => fresh (same ▸ mem)
  simp [allBut, this]

/-- The selected part of a list, cut at `b`. -/
theorem filter_cut (notPre : b ∉ pre) (notPost : b ∉ post) :
    (pre ++ b :: post).filter (fun x => p x && allBut b x) = pre.filter p ++ post.filter p := by
  rw [filter_append, filter_cons_of_neg (by simp [allBut]), filter_allBut notPre,
    filter_allBut notPost]

section Insert

variable {a : BinderAlloc}

/-- `binder_insert_free_buffer` puts the one missing buffer into its tree. -/
theorem Trees.insertFree (trees : Trees a (allBut b)) (split : a.buffers = pre ++ b :: post)
    (layout : Layout a.top a.buffers) (free : (a.hdr b).free = true) :
    ∃ t, binderInsertFreeBuffer a b = .ok { a with freeBuffers := t } ∧
      Trees { a with freeBuffers := t } everyBuffer := by
  rw [split] at layout
  obtain ⟨-, -, -, notPre, notPost⟩ := layout.cut
  have member : ∀ x ∈ a.freeBuffers.inorder, (a.hdr x).free = true := by
    grind [→ Trees.free]
  obtain ⟨path, xs, ys, run, seq, left, right, low, high⟩ :=
    descend_split a.freeBuffers (freeDir a b)
      (fun x => decide (binderBufferSize a b < binderBufferSize a x))
      (fun x mem => by simp [freeDir, member x mem])
      (trees.order.imp fun le lt => by simp only [decide_eq_true_eq] at *; omega) []
  have inorder : (rbInsertAt b path).inorder = xs ++ b :: ys := by
    rw [inorder_rbInsertAt, left, right]
    simp
  refine ⟨rbInsertAt b path, ?_, ?_, ?_, ?_⟩
  · simp [binderInsertFreeBuffer, free, run, bind, Except.bind, pure, Except.pure]
  · have old := trees.free
    rw [seq, split, filter_cut notPre notPost] at old
    simp only [inorder, split, everyBuffer, Bool.and_true]
    rw [filter_append, filter_cons_of_pos (by simp [free])]
    exact perm_middle.trans ((old.cons b).trans perm_middle.symm)
  · have old := trees.order
    rw [seq, pairwise_append] at old
    simp only [inorder]
    refine pairwise_append.mpr ⟨old.1, pairwise_cons.mpr ⟨fun y mem => ?_, old.2.1⟩, ?_⟩
    · have := high y mem
      simp only [decide_eq_true_eq] at this
      exact Nat.le_of_lt this
    intro x memX y memY
    rcases mem_cons.mp memY with rfl | memY
    · have := low x memX
      simp only [decide_eq_false_iff_not] at this
      exact Nat.le_of_not_lt this
    · exact old.2.2 x memX y memY
  · have old := trees.allocated
    rw [split, filter_cut notPre notPost] at old
    simp only [split, everyBuffer, Bool.and_true]
    rw [filter_append, filter_cons_of_neg (by simp [free]), old]

/-- `binder_insert_allocated_buffer` puts the one missing buffer into its tree. -/
theorem Trees.insertAllocated (trees : Trees a (allBut b)) (split : a.buffers = pre ++ b :: post)
    (layout : Layout a.top a.buffers) (taken : (a.hdr b).free = false) :
    ∃ t, binderInsertAllocatedBuffer a b = .ok { a with allocatedBuffers := t } ∧
      Trees { a with allocatedBuffers := t } everyBuffer := by
  have sorted := layout.sorted
  rw [split] at layout sorted
  obtain ⟨-, -, -, notPre, notPost⟩ := layout.cut
  have old := trees.allocated
  rw [split, filter_cut notPre notPost] at old
  obtain ⟨-, fromB, before⟩ := pairwise_append.mp sorted
  have below : ∀ x ∈ pre, x < b := fun x mem => before x mem b mem_cons_self
  have above : ∀ y ∈ post, b < y := fun y mem => (pairwise_cons.mp fromB).1 y mem
  have sortedTree : a.allocatedBuffers.inorder.Pairwise (· < ·) := by grind
  obtain ⟨path, xs, ys, run, seq, left, right, low, high⟩ :=
    descend_split a.allocatedBuffers (allocatedDir a b) (fun x => decide (b < x))
      (fun x mem => by
        have inTree := trees.allocated ▸ mem
        have := (mem_filter.mp inTree).2
        simp only [Bool.and_eq_true, Bool.not_eq_true', allBut, decide_eq_true_eq] at this
        rcases Nat.lt_or_gt_of_ne this.2 with lt | gt
        · simp [allocatedDir, this.1, lt, Nat.not_lt_of_gt lt]
        · simp [allocatedDir, this.1, gt])
      (sortedTree.imp fun lt here => by simp only [decide_eq_true_eq] at *; omega) []
  obtain ⟨rfl, rfl⟩ : xs = pre.filter (fun x => !(a.hdr x).free) ∧
      ys = post.filter (fun x => !(a.hdr x).free) := by
    refine append_boundary (p := fun x => b < x) (seq ▸ old) ?_ ?_ ?_ ?_
    · intro x mem; simpa using low x mem
    · intro y mem; simpa using high y mem
    · intro x mem; exact Nat.not_lt_of_gt (below x (mem_filter.mp mem).1)
    · intro y mem; exact above y (mem_filter.mp mem).1
  refine ⟨rbInsertAt b path, ?_, ?_, trees.order, ?_⟩
  · simp [binderInsertAllocatedBuffer, taken, run, bind, Except.bind, pure, Except.pure]
  · have free := trees.free
    rw [split, filter_cut notPre notPost] at free
    simp only [split, everyBuffer, Bool.and_true]
    rwa [filter_append, filter_cons_of_neg (by simp [taken])]
  · simp only [inorder_rbInsertAt, left, right, split, everyBuffer, Bool.and_true]
    rw [filter_append, filter_cons_of_pos (by simp [taken])]
    simp

end Insert

/-! ### Taking buffers out -/

section Remove

variable {a : BinderAlloc} {S : Nat → Bool}

section

variable (trees : Trees a S)
include trees

theorem Trees.nodupFree (nodup : a.buffers.Nodup) : a.freeBuffers.inorder.Nodup :=
  trees.free.nodup_iff.mpr (nodup.filter _)

theorem Trees.mem_free {x : Nat} :
    x ∈ a.freeBuffers.inorder ↔ x ∈ a.buffers ∧ (a.hdr x).free = true ∧ S x = true := by
  rw [trees.free.mem_iff, mem_filter, Bool.and_eq_true]

omit trees in
theorem erase_filter (nodup : l.Nodup) :
    (l.filter p).erase b = l.filter fun x => p x && allBut b x := by
  rw [(nodup.filter p).erase_eq_filter, filter_filter]
  refine filter_congr fun x _ => ?_
  cases h : p x <;> by_cases same : x = b <;> simp [allBut, same]

variable (S' : Nat → Bool)

/-- `rb_erase` of a free buffer. -/
theorem Trees.eraseFree (nodup : a.buffers.Nodup) (mem : b ∈ a.buffers)
    (free : (a.hdr b).free = true) (selected : S b = true)
    (fewer : ∀ x, S' x = (S x && allBut b x)) :
    Trees { a with freeBuffers := a.freeBuffers.rbErase b } S' := by
  have present : b ∈ a.freeBuffers.inorder := trees.mem_free.mpr ⟨mem, free, selected⟩
  have inorder := inorder_rbErase (trees.nodupFree nodup) present
  refine ⟨?_, ?_, ?_⟩
  · rw [inorder]
    have := trees.free.erase b
    rw [erase_filter nodup] at this
    simpa only [fewer, Bool.and_assoc] using this
  · rw [inorder]
    exact trees.order.sublist erase_sublist
  · refine trees.allocated.trans (filter_congr fun x _ => ?_)
    rw [fewer]
    by_cases same : x = b
    · simp [same, free]
    · simp [allBut, same]

/-- `rb_erase` of an allocated buffer. -/
theorem Trees.eraseAllocated (nodup : a.buffers.Nodup) (mem : b ∈ a.buffers)
    (taken : (a.hdr b).free = false) (selected : S b = true)
    (fewer : ∀ x, S' x = (S x && allBut b x)) :
    Trees { a with allocatedBuffers := a.allocatedBuffers.rbErase b } S' := by
  have inTree : a.allocatedBuffers.inorder.Nodup := by
    rw [trees.allocated]
    exact nodup.filter _
  have present : b ∈ a.allocatedBuffers.inorder := by
    rw [trees.allocated]
    exact List.mem_filter.mpr ⟨mem, by simp [taken, selected]⟩
  refine ⟨?_, trees.order, ?_⟩
  · refine trees.free.trans (List.Perm.of_eq (List.filter_congr fun x _ => ?_))
    rw [fewer]
    by_cases same : x = b
    · simp [same, taken]
    · simp [allBut, same]
  · rw [RbTree.inorder_rbErase inTree present, trees.allocated, erase_filter nodup]
    simp only [fewer, Bool.and_assoc]

/-- Fields of a buffer outside the trees may change. -/
theorem Trees.setHdr (outside : S b = false) (f : BinderBuffer → BinderBuffer) :
    Trees (a.setHdr b f) S := by
  have same : ∀ x, S x = true → (a.setHdr b f).hdr x = a.hdr x := by
    intro x selected
    refine Function.update_of_ne (fun eq => ?_) _ _
    rw [eq, outside] at selected
    exact absurd selected (by simp)
  refine ⟨trees.free.trans (List.Perm.of_eq (List.filter_congr fun x _ => ?_)), trees.order,
    trees.allocated.trans (List.filter_congr fun x _ => ?_)⟩ <;>
  · cases selected : S x with
    | false => simp
    | true => rw [same x selected]

/-- Fields the trees do not depend on may change everywhere. -/
theorem Trees.congrHdr (hdr : Nat → BinderBuffer) (same : ∀ x, (hdr x).free = (a.hdr x).free) :
    Trees { a with hdr := hdr } S := by
  refine ⟨?_, trees.order, ?_⟩
  · simpa only [same] using trees.free
  · simpa only [same] using trees.allocated

/-- The list may change around buffers that are outside the trees, as long as
the sizes of those inside stay the same. -/
theorem Trees.relist (filter : ∀ p : Nat → Bool,
      a.buffers.filter (fun x => p x && S x) = l.filter fun x => p x && S' x)
    (sizes : ∀ x ∈ a.buffers, (a.hdr x).free = true → S x = true →
      sizeIn a.top l x = sizeIn a.top a.buffers x) : Trees { a with buffers := l } S' := by
  refine ⟨?_, ?_, ?_⟩
  · exact trees.free.trans (List.Perm.of_eq (filter _))
  · refine trees.order.imp_of_mem fun {x y} memX memY le => ?_
    obtain ⟨inX, freeX, selX⟩ := trees.mem_free.mp memX
    obtain ⟨inY, freeY, selY⟩ := trees.mem_free.mp memY
    rw [binderBufferSize_eq, binderBufferSize_eq] at le ⊢
    change sizeIn a.top l x ≤ sizeIn a.top l y
    rwa [sizes x inX freeX selX, sizes y inY freeY selY]
  · exact trees.allocated.trans (filter _)

end

end Remove

/-! ### Sizes around a change of the list -/

/-- Buffers outside the middle keep their size when the middle is replaced by
another one that starts at the same place. -/
theorem sizeIn_middle {top x : Nat} (m m' : List Nat)
    (start : (m ++ post).headD top = (m' ++ post).headD top)
    (outside : x ∈ pre ∨ x ∉ pre ∧ x ∉ m ∧ x ∉ m') :
    sizeIn top (pre ++ (m ++ post)) x = sizeIn top (pre ++ (m' ++ post)) x := by
  rcases outside with mem | ⟨notPre, notM, notM'⟩
  · rw [sizeIn_append_left top _ mem, sizeIn_append_left top _ mem, start]
  · rw [sizeIn_append_right top notPre, sizeIn_append_right top notPre,
      sizeIn_append_right top notM, sizeIn_append_right top notM']

/-- A merge: while neither of two neighbours is in a tree, the second leaves the
list and the first takes its space. -/
theorem Trees.join {a : BinderAlloc} {prev : Nat} {S : Nat → Bool}
    (trees : Trees a S) (outside : ∀ x, S x = (allBut b x && allBut prev x))
    (split : a.buffers = pre ++ prev :: b :: post) (nodup : a.buffers.Nodup) :
    Trees { a with buffers := pre ++ prev :: post } (allBut prev) := by
  obtain rfl : S = fun x => allBut b x && allBut prev x := funext outside
  rw [split] at nodup
  simp only [List.nodup_append, List.nodup_cons, List.mem_cons, not_or] at nodup
  obtain ⟨-, ⟨-, bPost, -⟩, across⟩ := nodup
  have bPre : b ∉ pre := fun mem => across b mem b (by simp) rfl
  refine trees.relist _ ?_ ?_
  · intro p
    have apart : ∀ l : List Nat, b ∉ l → l.filter (fun x => p x && (allBut b x && allBut prev x)) =
        l.filter fun x => p x && allBut prev x := by
      intro l fresh
      refine List.filter_congr fun x mem => ?_
      have : x ≠ b := fun same => fresh (same ▸ mem)
      simp [allBut, this]
    simp only [split, List.filter_append, List.filter_cons]
    simp [allBut] at apart ⊢
    rw [apart pre bPre, apart post bPost]
  · intro x mem _ selected
    simp only [allBut, Bool.and_eq_true, decide_eq_true_eq] at selected
    rw [split]
    refine sizeIn_middle [prev] [prev, b] rfl ?_
    by_cases inPre : x ∈ pre
    · exact .inl inPre
    · exact .inr ⟨inPre, by simp [selected.2], by simp [selected]⟩

end AndroidKernel.Binder
