import AndroidKernel.Binder.AllocInv

/-!
Freeing a buffer, and the buffer space that `binder_mmap` makes.

`binder_free_buf` works on a buffer that is marked free and in no tree
(`Loose`). `deleteFreeBuffer_run` removes a header with its pages; the two
merges keep `Loose` and make one neighbour allocated each, and the insertion at
the end restores the invariant.
-/

namespace AndroidKernel.Binder

open Lib Function List

variable {a : BinderAlloc} {b : Nat} {pre post : List Nat} {pages : Nat → Bool}

/-- `b`, at its place in the list, is marked free and in no tree. -/
structure Loose (a : BinderAlloc) (pre : List Nat) (b : Nat) (post : List Nat) : Prop
    extends AreaInv a where
  split : a.buffers = pre ++ b :: post
  free : (a.hdr b).free = true
  trees : Trees a (allBut b)
  apartPre : Apart a.hdr pre
  apartPost : Apart a.hdr post

section Delete

variable {prev : Nat} (area : AreaInv a) (split : a.buffers = pre ++ prev :: b :: post)
  (freePrev : (a.hdr prev).free = true) (freeB : (a.hdr b).free = true)
include area split freePrev freeB

/-- `binder_delete_free_buffer` removes the header of `b` from the list and
frees the pages nothing else needs. -/
theorem deleteFreeBuffer_run :
    ∃ pages, binderDeleteFreeBuffer a b =
        .ok { a with buffers := pre ++ prev :: post, pages := pages } ∧
      ∀ i, pages i = true ↔ ¬MergeFrees a.buffer prev b post.head? i ∧ a.pages i = true := by
  obtain ⟨-, gap, layoutB, prevPre, prevPost⟩ := cut_buffers area.layout split
  obtain ⟨-, behind, layoutPost, bPre, -⟩ := cut_buffers area.layout (split.trans (append_cons ..))
  have differs : b ≠ prev := by
    rintro rfl
    exact prevPost mem_cons_self
  have bPre : b ∉ pre := fun mem => bPre (mem_append_left _ mem)
  have low : a.buffer ≤ prev := area.buffer_le (split ▸ by simp)
  have lowB : a.buffer ≤ b := area.buffer_le (split ▸ by simp)
  have prevEntry : prevEntry a.buffers b = some prev := by
    rw [split, prevEntry_split bPre differs]
  have nextEntry : nextEntry a.buffers b = post.head? := by
    rw [split, append_cons, nextEntry_split (by simp [bPre, differs])]
  have erase : a.buffers.erase b = pre ++ prev :: post := by
    rw [split, append_cons, erase_append_right _ (by simp [bPre, differs]), erase_cons_head]
    simp
  simp only [binderDeleteFreeBuffer, prevEntry, nextEntry, erase, freePrev, Bool.not_true,
    Bool.false_eq_true, if_false]
  have headPost : ∀ n ∈ post.head?, dataOf b ≤ n := by grind [Option.mem_def]
  by_cases shared : freePageStart prev b post.head? = true ∨ freePageEnd prev b post.head? = true
  · rw [if_pos (by simpa using shared), mergeStart_index area.aligned lowB,
      mergeStop_index area.aligned lowB]
    have present : ∀ i, mergeStart a.buffer b (freePageStart prev b post.head?) ≤ i →
        i < mergeStop a.buffer b (freePageEnd prev b post.head?) → a.pages i = true := by
      intro i above below
      have meets := (mergeFrees_iff area.aligned low gap headPost).mp ⟨shared, above, below⟩
      refine (area.pages i).mpr ⟨b, split ▸ by simp, ?_⟩
      simpa [used, freeB] using meets.1
    obtain ⟨done, run⟩ := updatePageRange_free { a with buffers := pre ++ prev :: post } {} false
      present
    refine ⟨_, by rw [run]; rfl, fun i => ?_⟩
    rw [setRange_false_iff]
    unfold MergeFrees
    simp only [shared, true_and]
  · refine ⟨a.pages, by rw [if_neg (by simpa using shared)], fun i => ?_⟩
    unfold MergeFrees
    simp only [shared, false_and, not_false_eq_true, true_and]

/-- Without the header of `b` the list, the sizes and the pages still agree. -/
theorem AreaInv.delete {ft : RbTree Nat}
    (backed : ∀ i, pages i = true ↔ ¬MergeFrees a.buffer prev b post.head? i ∧ a.pages i = true) :
    AreaInv { a with buffers := pre ++ prev :: post, freeBuffers := ft, pages := pages } := by
  obtain ⟨layoutPre, gap, layoutB, prevPre, prevPost⟩ := cut_buffers area.layout split
  have sub : ∀ x ∈ pre ++ prev :: post, x ∈ a.buffers := by grind
  have prevData : dataOf prev ≤ post.headD a.top :=
    Nat.le_trans gap (Nat.le_trans (Nat.le_add_right _ _) layoutB.1)
  refine ⟨area.aligned, area.sizeAligned, area.below, ?_, ?_, ?_, ?_, ?_⟩
  · have head := area.head
    rw [split] at head
    cases pre <;> simpa using head
  · exact layout_append.mpr ⟨layoutPre, prevData, layoutB.2⟩
  · intro x mem taken
    have fits := area.fits x (sub x mem) taken
    have same : sizeIn a.top (pre ++ ([prev] ++ post)) x =
        sizeIn a.top (pre ++ ([prev, b] ++ post)) x := by grind [sizeIn_middle]
    rw [binderBufferSize_eq, split] at fits
    rw [binderBufferSize_eq]
    change _ ≤ sizeIn a.top (pre ++ ([prev] ++ post)) x ∧
      sizeIn a.top (pre ++ ([prev] ++ post)) x ≤ _
    rw [same]
    exact fits
  · intro x mem taken
    exact area.sound x (sub x mem) taken
  intro i
  have old := area.pages i
  rw [split, needed_append, needed_cons, needed_cons] at old
  have usedPrev : used (a.hdr prev) = headerSize := by simp [used, freePrev]
  have usedB : used (a.hdr b) = headerSize := by simp [used, freeB]
  rw [usedPrev, usedB] at old
  change pages i = true ↔ Needed a.buffer a.hdr (pre ++ prev :: post) i
  rw [backed, old, needed_append, needed_cons, usedPrev]
  exact needed_merge area.aligned (area.buffer_le (split ▸ by simp)) gap layoutB.1 layoutB.2
    fun x => area.used_le split

omit area freePrev in
/-- A header that is removed while free was no allocated buffer. -/
theorem live_delete {ft : RbTree Nat} :
    BinderAlloc.live { a with buffers := pre ++ prev :: post, freeBuffers := ft, pages := pages } =
      a.live := by
  funext x
  by_cases same : x = b
  · subst same
    simp [BinderAlloc.live, freeB]
  · simp [BinderAlloc.live, split, same]

end Delete

/-! ### The two merges -/

/-- After the first merge the buffer behind `b` is allocated. -/
theorem Loose.mergeNext (loose : Loose a pre b post) :
    ∃ a' post', mergeNext a b = .ok a' ∧ Loose a' pre b post' ∧
      (∀ y ∈ post'.head?, (a'.hdr y).free = false) ∧ a'.live = a.live := by
  obtain ⟨-, -, layoutPost, notPre, notPost⟩ := cut_buffers loose.layout loose.split
  have next : nextEntry a.buffers b = post.head? := by
    rw [loose.split, nextEntry_split notPre]
  unfold Binder.mergeNext
  rw [next]
  cases post with
  | nil => exact ⟨a, [], rfl, loose, by simp, rfl⟩
  | cons y post =>
    cases free : (a.hdr y).free with
    | false => exact ⟨a, y :: post, by simp [free], loose, by simp [free], rfl⟩
    | true =>
      simp only [List.head?_cons, free, if_true]
      have differs : y ≠ b := fun same => notPost (same ▸ mem_cons_self)
      have nodup := loose.layout.nodup
      have erased := loose.trees.eraseFree (fun x => allBut b x && allBut y x) nodup
        (b := y) (loose.split ▸ by simp) free (by simp [allBut, differs]) fun _ => rfl
      have area : AreaInv { a with freeBuffers := a.freeBuffers.rbErase y } :=
        { loose.toAreaInv with }
      obtain ⟨pages, run, backed⟩ := deleteFreeBuffer_run area loose.split loose.free free
      have joined := erased.join (fun x => Bool.and_comm _ _) loose.split nodup
      obtain ⟨headPost, apartPost⟩ := isChain_cons.mp loose.apartPost
      refine ⟨_, post, run, ⟨loose.toAreaInv.delete loose.split loose.free free backed, rfl,
        loose.free, { joined with }, loose.apartPre,
        apartPost⟩, ?_, live_delete loose.split free⟩
      intro z mem
      exact Bool.eq_false_iff.mpr fun freeZ => headPost z mem ⟨free, freeZ⟩

/-- After the second merge the buffer before the loose one is allocated. -/
theorem Loose.mergePrev
    (loose : Loose a pre b post) (behind : ∀ y ∈ post.head?, (a.hdr y).free = false) :
    ∃ b' a' pre', mergePrev a b = .ok (b', a') ∧ Loose a' pre' b' post ∧
      (∀ x ∈ pre'.getLast?, (a'.hdr x).free = false) ∧
      (∀ y ∈ post.head?, (a'.hdr y).free = false) ∧ a'.live = a.live := by
  obtain ⟨-, -, layoutPost, notPre, notPost⟩ := cut_buffers loose.layout loose.split
  unfold Binder.mergePrev
  rcases eq_nil_or_concat pre with rfl | ⟨pre, x, rfl⟩
  · rw [loose.split, nil_append, prevEntry_head notPost]
    exact ⟨b, a, [], rfl, loose, by simp, behind, rfl⟩
  rw [concat_eq_append] at *
  have split : a.buffers = pre ++ x :: b :: post := by simp [loose.split]
  have differs : b ≠ x := fun same => notPre (by simp [same])
  have fresh : b ∉ pre := fun mem => notPre (by simp [mem])
  rw [split, prevEntry_split fresh differs]
  cases free : (a.hdr x).free with
  | false => exact ⟨b, a, pre ++ [x], by simp [free], loose, by simp [free], behind, rfl⟩
  | true =>
    simp only [free, if_true]
    have nodup := loose.layout.nodup
    have erased := loose.trees.eraseFree (fun z => allBut b z && allBut x z) nodup
      (b := x) (split ▸ by simp) free (by simp [allBut, Ne.symm differs]) fun _ => rfl
    have joined := erased.join (fun z => rfl) split nodup
    obtain ⟨pages, run, backed⟩ :=
      deleteFreeBuffer_run loose.toAreaInv split free loose.free
    obtain ⟨apartPre, -, last⟩ := isChain_append.mp loose.apartPre
    refine ⟨x, _, pre, by rw [run]; rfl,
      ⟨loose.toAreaInv.delete split free loose.free backed, rfl, free,
        { joined with }, apartPre, loose.apartPost⟩, ?_, behind,
      live_delete split loose.free⟩
    intro z mem
    exact Bool.eq_false_iff.mpr fun freeZ => last z mem x (by simp) ⟨freeZ, free⟩

/-- A loose buffer between allocated neighbours goes into the tree of free ones. -/
theorem Loose.insert (loose : Loose a pre b post)
    (before : ∀ x ∈ pre.getLast?, (a.hdr x).free = false)
    (behind : ∀ y ∈ post.head?, (a.hdr y).free = false) :
    ∃ a', binderInsertFreeBuffer a b = .ok a' ∧ AllocInv a' ∧ a'.live = a.live := by
  obtain ⟨ft, run, trees⟩ := loose.trees.insertFree loose.split loose.layout loose.free
  refine ⟨_, run, { loose.toAreaInv with apart := ?_, trees := trees }, rfl⟩
  change Apart a.hdr a.buffers
  rw [loose.split]
  refine isChain_middle.mpr ⟨loose.apartPre, fun x mem => ?_, fun y mem => ?_, loose.apartPost⟩
  · simp [before x mem]
  · simp [behind y mem]

/-! ### Freeing a buffer -/

/-- Once its data pages are freed, `b` can be marked free. -/
theorem AllocInv.loosen (inv : AllocInv a)
    (space : Nat) (split : a.buffers = pre ++ b :: post) (taken : (a.hdr b).free = false) :
    Loose { a with
      hdr := update a.hdr b { a.hdr b with free := true }
      allocatedBuffers := a.allocatedBuffers.rbErase b
      freeAsyncSpace := space
      pages := setRange (dataPage a.buffer b) (pageOf a.buffer (post.headD a.top)) false a.pages }
      pre b post := by
  obtain ⟨-, bound, layoutPost, notPre, notPost⟩ := cut_buffers inv.layout split
  have mem : b ∈ a.buffers := split ▸ by simp
  have next := dataOf_add_size inv.layout split
  have fits := (inv.fits b mem taken).1
  rw [BinderBuffer.request] at fits
  have other : ∀ x, x ≠ b → update a.hdr b { a.hdr b with free := true } x = a.hdr x :=
    fun x differs => update_of_ne differs _ _
  have differs : ∀ {x}, (update a.hdr b { a.hdr b with free := true } x).free = false → x ≠ b := by
    rintro x allocated rfl
    simp at allocated
  have otherPre : ∀ x ∈ pre, x ≠ b := fun x inPre same => notPre (same ▸ inPre)
  have otherPost : ∀ x ∈ post, x ≠ b := fun x inPost same => notPost (same ▸ inPost)
  have apart := inv.apart
  rw [split] at apart
  obtain ⟨apartPre, -, -, apartPost⟩ := isChain_middle.mp apart
  have erased := (inv.trees.eraseAllocated (allBut b) inv.layout.nodup mem taken rfl
    fun _ => by simp [everyBuffer]).setHdr (b := b) (by simp [allBut])
      fun h => { h with free := true }
  refine ⟨⟨inv.aligned, inv.sizeAligned, inv.below, inv.head, inv.layout, ?_, ?_, ?_⟩, split,
    by simp, { erased with },
    apart_congr (fun x inPre => congrArg _ (other x (otherPre x inPre))) apartPre,
    apart_congr (fun x inPost => congrArg _ (other x (otherPost x inPost))) apartPost⟩
  · intro x inList allocated
    simp only [other x (differs allocated)] at allocated ⊢
    exact inv.fits x inList allocated
  · intro x inList allocated
    simp only [other x (differs allocated)] at allocated ⊢
    exact inv.sound x inList allocated
  intro i
  have old := inv.pages i
  rw [split, needed_append, needed_cons] at old
  have usedTaken : used (a.hdr b) =
      headerSize + requestSize (a.hdr b).dataSize (a.hdr b).offsetsSize := by
    simp [used, taken]
  rw [usedTaken] at old
  change setRange _ _ false a.pages i = true ↔ Needed a.buffer _ a.buffers i
  rw [setRange_false_iff, old, needed_release inv.aligned inv.top_aligned (inv.buffer_le mem)
    (fun x => inv.used_le split) layoutPost (by omega), split, needed_append, needed_cons,
    needed_congr fun x inPre => congrArg used (other x (otherPre x inPre)),
    needed_congr fun x inPost => congrArg used (other x (otherPost x inPost))]
  simp [used]

theorem live_loosen {space : Nat} {t : RbTree Nat} :
    BinderAlloc.live { a with
      hdr := update a.hdr b { a.hdr b with free := true }
      allocatedBuffers := t
      freeAsyncSpace := space
      pages := pages } = update a.live b none := by
  funext x
  by_cases same : x = b
  · subst same
    simp [BinderAlloc.live]
  · simp [BinderAlloc.live, same]

/-- `binder_free_buf` on an allocated buffer that no transaction points to
returns and keeps the invariant. -/
theorem AllocInv.free (inv : AllocInv a) (allocated : a.Allocated b)
    (idle : (a.hdr b).transaction = none) :
    ∃ a', binderFreeBuf a b = .ok a' ∧ AllocInv a' ∧ a'.live = update a.live b none := by
  obtain ⟨mem, taken⟩ := allocated
  obtain ⟨pre, post, split⟩ := append_of_mem mem
  obtain ⟨-, bound, -⟩ := cut_buffers inv.layout split
  have next := dataOf_add_size inv.layout split
  obtain ⟨fits, slack⟩ := inv.fits b mem taken
  unfold BinderBuffer.request at fits slack
  have low := inv.buffer_le mem
  have high : b ≤ a.top := Nat.le_trans (Nat.le_add_right _ _) (inv.layout.le_top mem)
  have present : ∀ i, dataPage a.buffer b ≤ i → i < pageOf a.buffer (post.headD a.top) →
      a.pages i = true := by
    intro i above below
    refine (inv.pages i).mpr ⟨b, mem, ?_⟩
    have := release_present inv.aligned low (requestSize (a.hdr b).dataSize (a.hdr b).offsetsSize)
      (by omega) above below
    simpa [used, taken] using this
  generalize space : (if (a.hdr b).asyncTransaction then (a.freeAsyncSpace +
    (requestSize (a.hdr b).dataSize (a.hdr b).offsetsSize + headerSize)) % 2 ^ 32
    else a.freeAsyncSpace) = left
  obtain ⟨done, run⟩ := updatePageRange_free { a with freeAsyncSpace := left } {} false present
  obtain ⟨a₁, post', next₁, loose₁, behind₁, live₁⟩ :=
    (inv.loosen left split taken).mergeNext
  obtain ⟨b₂, a₂, pre', prev₂, loose₂, before₂, behind₂, live₂⟩ := loose₁.mergePrev behind₁
  obtain ⟨a₃, insert, inv₃, live₃⟩ := loose₂.insert before₂ behind₂
  refine ⟨a₃, ?_, inv₃, ?_⟩
  swap
  · rw [live₃, live₂, live₁, live_loosen]
  have charge : (if (a.hdr b).asyncTransaction then { a with freeAsyncSpace :=
      (a.freeAsyncSpace + (requestSize (a.hdr b).dataSize (a.hdr b).offsetsSize + headerSize)) %
        2 ^ 32 } else a) = { a with freeAsyncSpace := left } := by
    rw [← space]
    split <;> rfl
  simp only [binderFreeBuf, taken, idle, charge, next, dataPage_index inv.aligned low,
    pageOf_index inv.aligned (x := post.headD a.top) (by unfold dataOf at bound; omega),
    Nat.not_lt.mpr fits, Nat.not_lt.mpr low, gt_iff_lt, Nat.not_lt.mpr high,
    Option.isSome_none, Bool.false_eq_true, if_false, bind, Except.bind]
  simp only [run, BinderAlloc.setHdr, next₁, prev₂, insert]

/-! ### Mapping the area -/

variable (area : VmArea)

theorem VmArea.mapped_aligned : area.mapped % pageSize = 0 := by
  have := area.size_aligned
  unfold VmArea.mapped sz4M pageSize at *
  omega

theorem VmArea.pageSize_le_mapped : pageSize ≤ area.mapped := by
  have := area.size_aligned
  have := area.size_pos
  unfold VmArea.mapped sz4M pageSize at *
  omega

/-- The area with its first page backed and one free buffer that is in no tree. -/
theorem mapped_loose (area : VmArea) :
    Loose { buffer := area.addr, bufferSize := area.mapped, buffers := [area.addr],
            hdr := update (fun _ => {}) area.addr { free := true },
            freeBuffers := .leaf, allocatedBuffers := .leaf, freeAsyncSpace := 0,
            pages := setRange 0 1 true fun _ => false, vma := false } [] area.addr [] := by
  have size := area.pageSize_le_mapped
  have below := area.below
  have aligned := area.addr_aligned
  have cut : area.mapped ≤ area.size := Nat.min_le_left _ _
  refine ⟨⟨aligned, area.mapped_aligned, ?_, rfl, ⟨?_, trivial⟩, by simp, by simp, ?_⟩, rfl,
    by simp, ⟨?_, .nil, ?_⟩, .nil, .nil⟩
  · exact Nat.le_trans (Nat.add_le_add_left cut _) below
  · simp only [headD_nil, BinderAlloc.top]
    unfold dataOf headerSize pageSize at *
    omega
  · intro i
    simp only [setRange_true_iff, Bool.false_eq_true, or_false, Needed, mem_singleton,
      exists_eq_left, update_self, used, if_true, Meets]
    unfold pageSize headerSize at *
    omega
  · simp [allBut, RbTree.inorder]
  · simp [allBut, RbTree.inorder]

/-- The quota and the mapping are no part of the layout. -/
theorem AllocInv.setQuota (inv : AllocInv a) (space : Nat) (vma : Bool) :
    AllocInv { a with freeAsyncSpace := space, vma := vma } :=
  { inv with trees := { inv.trees with } }

/-- `binder_mmap` returns; when it succeeds, the invariant holds and no buffer
is allocated. -/
theorem binderMmap_spec (pageArray : Bool) (env : PageEnv) :
    ∃ mapped, binderMmap area pageArray env = .ok mapped ∧
      ∀ a ∈ mapped, AllocInv a ∧ a.live = fun _ => none := by
  unfold binderMmap
  cases pageArray with
  | false => exact ⟨none, rfl, by simp⟩
  | true =>
    have pages := updatePageRange_alloc (BinderAlloc.mk area.addr area.mapped [] (fun _ => {})
      .leaf .leaf 0 (fun _ => false) false) env (s := 0) (e := 1) true fun _ _ _ => rfl
    rw [Nat.zero_mul, Nat.one_mul, Nat.add_zero] at pages
    simp only [Bool.not_true, Bool.false_eq_true, if_false]
    rcases pages with done | failed
    · obtain ⟨a, insert, inv, seen⟩ := (mapped_loose area).insert (by simp) (by simp)
      refine ⟨some { a with freeAsyncSpace := a.bufferSize / 2, vma := true }, ?_, ?_⟩
      · simp only [done, bind, Except.bind, Bool.not_true, Bool.false_eq_true, if_false,
          BinderAlloc.setHdr, insert, pure, Except.pure]
      rintro a' ⟨⟩
      refine ⟨inv.setQuota _ _, ?_⟩
      change a.live = _
      rw [seen]
      funext x
      simp only [BinderAlloc.live, mem_singleton]
      by_cases same : x = area.addr
      · simp [same]
      · simp [same]
    · refine ⟨none, ?_, by simp⟩
      simp [failed, bind, Except.bind, pure, Except.pure]

/-! ### Stores into an allocated buffer -/

/-- Buffers that are the same in the fields that the allocator owns. -/
def BinderBuffer.Same (h h' : BinderBuffer) : Prop :=
  h'.free = h.free ∧ h'.dataSize = h.dataSize ∧ h'.offsetsSize = h.offsetsSize

theorem AllocInv.setHdrs (inv : AllocInv a) (hdr : Nat → BinderBuffer)
    (same : ∀ x, (a.hdr x).Same (hdr x)) : AllocInv { a with hdr := hdr } := by
  obtain ⟨free, dataSize, offsetsSize⟩ := forall_and.mp same |>.imp_right forall_and.mp
  have request : ∀ x, (hdr x).request = (a.hdr x).request := fun x => by
    simp [BinderBuffer.request, dataSize, offsetsSize]
  refine { inv with
    fits := ?_, sound := ?_, pages := fun i => ?_,
    apart := apart_congr (fun x _ => free x) inv.apart, trees := inv.trees.congrHdr _ free }
  · simp only [request, free]
    exact inv.fits
  · simp only [request, dataSize, offsetsSize, free]
    exact inv.sound
  · refine (inv.pages i).trans (needed_congr fun x _ => ?_).symm
    simp [used, free, dataSize, offsetsSize]

theorem AllocInv.store (inv : AllocInv a) (b : Nat) {f : BinderBuffer → BinderBuffer}
    (same : ∀ h, BinderBuffer.Same h (f h)) : AllocInv (a.setHdr b f) := by
  refine inv.setHdrs _ fun x => ?_
  by_cases here : x = b
  · subst here
    rw [Function.update_self]
    exact same _
  · rw [Function.update_of_ne here]
    exact ⟨rfl, rfl, rfl⟩

end AndroidKernel.Binder
