import AndroidKernel.Binder.AllocPages
import AndroidKernel.Binder.AllocTrees

/-!
The invariant of a buffer space and its preservation by allocation and freeing.

Each operation is taken apart at its calls: `bestFit_spec` and `takeBuffer_spec`
for allocation, `deleteFreeBuffer_spec` and the two merges for freeing. No step
faults in a state with the invariant, so every call of a run returns.
-/

namespace AndroidKernel.Binder

open Lib Function List

variable {a : BinderAlloc} {b x size : Nat} {pre post : List Nat} {hdr : Nat → BinderBuffer} {h :
  BinderBuffer}

/-- The space an allocated buffer was asked for. -/
def BinderBuffer.request (h : BinderBuffer) : Nat := requestSize h.dataSize h.offsetsSize

/-- The part of the invariant that holds throughout a merge: the list, the
sizes and the pages. -/
structure AreaInv (a : BinderAlloc) : Prop where
  aligned : a.buffer % pageSize = 0
  sizeAligned : a.bufferSize % pageSize = 0
  below : a.top ≤ vmallocEnd
  head : a.buffers.head? = some a.buffer
  layout : Layout a.top a.buffers
  fits : ∀ b ∈ a.buffers, (a.hdr b).free = false →
    (a.hdr b).request ≤ binderBufferSize a b ∧ binderBufferSize a b ≤ (a.hdr b).request + 44
  sound : ∀ b ∈ a.buffers, (a.hdr b).free = false →
    (a.hdr b).dataSize ≤ (a.hdr b).request ∧ (a.hdr b).offsetsSize ≤ (a.hdr b).request
  pages : PagesExact a

/-- No two neighbours are both free. -/
def Apart (hdr : Nat → BinderBuffer) (l : List Nat) : Prop :=
  l.IsChain fun x y => ¬((hdr x).free = true ∧ (hdr y).free = true)

/-- What holds of a buffer space between two calls. -/
structure AllocInv (a : BinderAlloc) : Prop extends AreaInv a where
  apart : Apart a.hdr a.buffers
  trees : Trees a everyBuffer

section

variable (layout : Layout a.top a.buffers) (split : a.buffers = pre ++ b :: post)

include layout split

theorem cut_buffers : Layout b pre ∧ dataOf b ≤ post.headD a.top ∧ Layout a.top post ∧ b ∉ pre ∧
    b ∉ post := by
  rw [split] at layout
  exact layout.cut

/-- The data of a buffer reach to the next header. -/
theorem dataOf_add_size : dataOf b + binderBufferSize a b = post.headD a.top := by
  obtain ⟨-, bound, -, notPre, -⟩ := cut_buffers layout split
  rw [binderBufferSize_eq, split, sizeIn_split _ notPre]
  omega

/-- What is left of `b` behind `size` bytes is a new buffer. -/
theorem rest_not_mem (room : dataOf (dataOf b + size) ≤ post.headD a.top) :
    dataOf b + size ∉ pre ∧ dataOf b + size ≠ b ∧ dataOf b + size ∉ post := by
  obtain ⟨layoutPre, -, layoutPost, -⟩ := cut_buffers layout split
  simp only [dataOf, headerSize] at *
  refine ⟨fun mem => ?_, by omega, fun mem => ?_⟩
  · have := layoutPre.le_top mem
    simp only [dataOf, headerSize] at this
    omega
  · have := layoutPost.head_le mem
    omega

end

theorem AreaInv.buffer_le (inv : AreaInv a) (mem : b ∈ a.buffers) : a.buffer ≤ b := by
  have first := inv.layout.head_le mem
  have head := inv.head
  cases h : a.buffers with
  | nil => simp [h] at mem
  | cons x l =>
    rw [h] at first head
    simp only [List.head?_cons, Option.some.injEq] at head
    simpa [← head] using first

theorem AreaInv.top_aligned (inv : AreaInv a) : a.top % pageSize = 0 := by
  have := inv.aligned
  have := inv.sizeAligned
  unfold BinderAlloc.top pageSize at *
  omega

/-- The part of the area a buffer uses ends before the next header. -/
theorem AreaInv.used_le (inv : AreaInv a)
    (split : a.buffers = pre ++ b :: post) (mem : x ∈ pre) : x + used (a.hdr x) ≤ b := by
  obtain ⟨layoutPre, -⟩ := cut_buffers inv.layout split
  obtain ⟨l, m, rfl⟩ := append_of_mem mem
  obtain ⟨-, bound, right, notL, -⟩ := layoutPre.cut
  have next := right.headD_le
  cases free : (a.hdr x).free with
  | true =>
    simp only [used, free, if_true]
    unfold dataOf at bound
    omega
  | false =>
    have size : binderBufferSize a x = m.headD b - dataOf x := by
      rw [binderBufferSize_eq, split, sizeIn_append_left _ _ mem, headD_cons, sizeIn_split _ notL]
    have fits := (inv.fits x (split ▸ mem_append_left _ mem) free).1
    rw [size] at fits
    simp only [used, free, Bool.false_eq_true, if_false]
    unfold BinderBuffer.request at fits
    unfold dataOf at *
    omega

/-- The pages that are backed, when `b` is free. -/
theorem AreaInv.backed (inv : AreaInv a) (split : a.buffers = pre ++ b :: post)
    (free : (a.hdr b).free = true) (i : Nat) : a.pages i = true ↔
      Needed a.buffer a.hdr pre i ∨ Meets a.buffer b headerSize i ∨ Needed a.buffer a.hdr post i := by
  have usedFree : used (a.hdr b) = headerSize := by simp [used, free]
  rw [inv.pages i, split, needed_append, needed_cons, usedFree]

/-! ### What the driver sees of it -/

/-- The allocated buffers with their contents, the abstract state of the space. -/
def BinderAlloc.live (a : BinderAlloc) (b : Nat) : Option BinderBuffer :=
  if b ∈ a.buffers ∧ (a.hdr b).free = false then some (a.hdr b) else none

theorem live_eq_some : a.live b = some h ↔ a.Allocated b ∧ a.hdr b = h := by
  unfold BinderAlloc.live BinderAlloc.Allocated
  split <;> simp_all

theorem live_eq_none : a.live b = none ↔ ¬a.Allocated b := by
  unfold BinderAlloc.live BinderAlloc.Allocated
  split <;> simp_all

/-! ### Allocation -/

/-- The search does not fault on free buffers; it returns one that is large
enough, and says whether it fits exactly. -/
theorem bestFit_spec (size : Nat) (t : RbTree Nat)
    (free : ∀ x ∈ t.inorder, (a.hdr x).free = true) (best : Option Nat) :
    ∃ found exact, bestFit a size t best = .ok (found, exact) ∧
      ((found = best ∧ exact = false) ∨
        ∃ b ∈ t.inorder, found = some b ∧ (exact = true → binderBufferSize a b = size) ∧
          (exact = false → size < binderBufferSize a b)) := by
  induction t generalizing best with
  | leaf => exact ⟨best, false, rfl, .inl ⟨rfl, rfl⟩⟩
  | node c l b r ihl ihr =>
    simp only [RbTree.inorder_node, mem_append, mem_cons] at free ⊢
    have here := free b (.inr (.inl rfl))
    unfold bestFit
    simp only [here, Bool.not_true, Bool.false_eq_true, if_false]
    split
    · rename_i smaller
      obtain ⟨found, exact, run, cases⟩ := ihl (fun x mem => free x (.inl mem)) (some b)
      refine ⟨found, exact, run, .inr ?_⟩
      rcases cases with ⟨rfl, rfl⟩ | ⟨x, mem, rest⟩
      · exact ⟨b, .inr (.inl rfl), rfl, by simp, fun _ => smaller⟩
      · exact ⟨x, .inl mem, rest⟩
    · split
      · obtain ⟨found, exact, run, cases⟩ := ihr (fun x mem => free x (.inr (.inr mem))) best
        refine ⟨found, exact, run, ?_⟩
        rcases cases with same | ⟨x, mem, rest⟩
        · exact .inl same
        · exact .inr ⟨x, .inr (.inr mem), rest⟩
      · exact ⟨some b, true, rfl, .inr ⟨b, .inr (.inl rfl), rfl, fun _ => by omega, by simp⟩⟩

/-- The list after `b` has been taken: its rest is a buffer of its own unless
the request takes all of it. -/
def takenList (pre : List Nat) (b size taken : Nat) (post : List Nat) : List Nat :=
  pre ++ b :: if taken ≠ size then (dataOf b + size) :: post else post

/-- The headers after `b` has been taken. -/
def takenHdr (hdr : Nat → BinderBuffer) (b size taken : Nat) : Nat → BinderBuffer :=
  let hdr := Function.update hdr b { hdr b with free := false }
  if taken ≠ size then
    Function.update hdr (dataOf b + size) { hdr (dataOf b + size) with free := true }
  else hdr

/-- The space after `b` has been taken, with the trees `ft` and `at'`. -/
abbrev BinderAlloc.taken (a : BinderAlloc) (pre : List Nat) (b size taken : Nat) (post : List Nat)
    (ft at' : RbTree Nat) : BinderAlloc :=
  { a with
    buffers := takenList pre b size taken post, hdr := takenHdr a.hdr b size taken,
    freeBuffers := ft, allocatedBuffers := at' }

section Take

variable {taken : Nat}

section
variable (split : a.buffers = pre ++ b :: post) (layout : Layout a.top a.buffers)
  (trees : Trees a everyBuffer) (free : (a.hdr b).free = true)
  (room : taken ≠ size → dataOf (dataOf b + size) ≤ post.headD a.top)
include split layout trees free room

theorem takeBuffer_spec :
    ∃ ft at', takeBuffer a b size taken = .ok (a.taken pre b size taken post ft at') ∧
      Trees (a.taken pre b size taken post ft at') everyBuffer := by
  obtain ⟨layoutPre, bound, layoutPost, notPre, notPost⟩ := cut_buffers layout split
  have erased := trees.eraseFree (allBut b) layout.nodup (split ▸ by simp) free rfl
    fun _ => by simp [everyBuffer]
  have marked := erased.setHdr (b := b) (by simp [allBut]) fun h => { h with free := false }
  obtain ⟨at', insert, inserted⟩ := marked.insertAllocated split layout (by simp [BinderAlloc.setHdr])
  by_cases whole : taken = size
  · refine ⟨a.freeBuffers.rbErase b, at', ?_, ?_⟩
    · simp only [takeBuffer, insert, bind, Except.bind, whole, ne_eq, not_true_eq_false, if_false,
        pure, Except.pure, BinderAlloc.taken, takenList, takenHdr, ← split]
      rfl
    · simp only [BinderAlloc.taken, takenList, takenHdr, whole, ne_eq, not_true_eq_false, if_false, ← split]
      exact inserted
  -- The rest of `b` becomes a free buffer behind the data taken.
  have room := room whole
  obtain ⟨newPre, newB, newPost⟩ := rest_not_mem layout split room
  have list : addAfter (dataOf b + size) a.buffers b = pre ++ b :: (dataOf b + size) :: post := by
    rw [split, addAfter_split notPre]
  have layout' : Layout a.top (pre ++ b :: (dataOf b + size) :: post) := by
    refine layout_append.mpr ⟨layoutPre, ?_, room, layoutPost⟩
    change dataOf b ≤ dataOf b + size
    omega
  have relisted := inserted.relist (allBut (dataOf b + size))
    (l := pre ++ b :: (dataOf b + size) :: post) (by
      intro p
      have := @filter_cut (pre ++ [b]) post (dataOf b + size) p (by simp [newPre, newB]) newPost
      simp only [append_assoc, cons_append, nil_append] at this
      rw [this]
      simp [everyBuffer, BinderAlloc.setHdr, split, filter_cons]
      split <;> simp) (by
      intro x mem freeX _
      have notB : x ≠ b := by
        rintro rfl
        simp [BinderAlloc.setHdr] at freeX
      have memL : x ∈ pre ++ b :: post := split ▸ mem
      rw [split]
      refine sizeIn_middle [b, dataOf b + size] [b] rfl ?_
      by_cases inPre : x ∈ pre
      · exact .inl inPre
      · grind)
  have freed := relisted.setHdr (b := dataOf b + size) (by simp [allBut]) fun h =>
    { h with free := true }
  have place : pre ++ b :: (dataOf b + size) :: post = pre ++ [b] ++ (dataOf b + size) :: post :=
    by simp
  obtain ⟨ft, insertRest, trees'⟩ := freed.insertFree place layout' (by simp [BinderAlloc.setHdr])
  refine ⟨ft, at', ?_, ?_⟩
  · simp only [takeBuffer, insert, bind, Except.bind, whole, ne_eq, not_false_eq_true, if_true]
    simp only [BinderAlloc.setHdr, list] at insertRest ⊢
    rw [insertRest]
    simp only [BinderAlloc.taken, takenList, takenHdr, whole, ne_eq, not_false_eq_true, if_true]
  · simp only [BinderAlloc.taken, takenList, takenHdr, whole, ne_eq, not_false_eq_true, if_true]
    exact trees'

/-- The trees do not depend on the pages. -/
theorem takeBuffer_pages (pages : Nat → Bool) :
    ∃ ft at', takeBuffer { a with pages := pages } b size taken =
        .ok { a.taken pre b size taken post ft at' with pages := pages } ∧
      Trees (a.taken pre b size taken post ft at') everyBuffer := by
  obtain ⟨ft, at', take, trees'⟩ := takeBuffer_spec (a := { a with pages := pages }) split layout
    ⟨trees.free, trees.order, trees.allocated⟩ free room
  exact ⟨ft, at', take, trees'.free, trees'.order, trees'.allocated⟩

end

theorem isChain_middle {R : Nat → Nat → Prop} :
    (pre ++ b :: post).IsChain R ↔
      pre.IsChain R ∧ (∀ x ∈ pre.getLast?, R x b) ∧ (∀ y ∈ post.head?, R b y) ∧ post.IsChain R := by
  rw [isChain_append, isChain_cons]
  simp only [List.head?_cons, Option.mem_def, Option.some.injEq, forall_eq']
  tauto

/-- A chain of headers stays one when the flags of its buffers do. -/
theorem apart_congr {hdr' : Nat → BinderBuffer} {l : List Nat}
    (same : ∀ x ∈ l, (hdr' x).free = (hdr x).free) (apart : Apart hdr l) : Apart hdr' l := by
  refine List.IsChain.imp_of_mem_imp (fun x y memX memY not => ?_) apart
  rwa [same x memX, same y memY]

theorem takenHdr_of_ne (notB : x ≠ b)
    (notNew : taken ≠ size → x ≠ dataOf b + size) : takenHdr hdr b size taken x = hdr x := by
  by_cases whole : taken = size
  · simp [takenHdr, whole, notB]
  · simp [takenHdr, whole, notB, notNew whole]

theorem takenHdr_self : takenHdr hdr b size taken b = { hdr b with free := false } := by
  have : b ≠ dataOf b + size := by unfold dataOf headerSize; omega
  by_cases whole : taken = size
  · simp [takenHdr, whole]
  · simp [takenHdr, whole, this]

theorem takenHdr_new (rest : taken ≠ size) :
    (takenHdr hdr b size taken (dataOf b + size)).free = true := by
  simp [takenHdr, rest]

/-- How much `binder_alloc_buf` takes of the chosen buffer. -/
theorem takenSize_cases {bufferSize : Nat} {exact : Bool}
    (fit : exact = true → bufferSize = size) (larger : exact = false → size < bufferSize) :
    (takenSize size bufferSize exact = size ∧ size ≤ bufferSize ∧ bufferSize ≤ size + 44) ∨
      (takenSize size bufferSize exact = size + headerSize ∧ size + 44 < bufferSize) := by
  cases exact with
  | true =>
    have := fit rfl
    simp only [takenSize, if_true]
    omega
  | false =>
    have := larger rfl
    simp only [takenSize, Bool.false_eq_true, if_false]
    unfold headerSize
    split <;> omega

/-- The pages of the data taken and of the new header are those of the two
buffers the chosen one is cut into. -/
theorem meets_cut {buffer i : Nat} :
    Meets buffer b (headerSize + (size + headerSize)) i ↔
      Meets buffer b (headerSize + size) i ∨ Meets buffer (dataOf b + size) headerSize i := by
  unfold Meets dataOf headerSize pageSize
  omega

theorem mem_takenList : x ∈ takenList pre b size taken post ↔
    (x ∈ pre ∨ x ∈ post) ∨ x = b ∨ taken ≠ size ∧ x = dataOf b + size := by
  by_cases whole : taken = size <;> simp [takenList, whole] <;> tauto

/-- A buffer before or after `b` keeps its size. -/
theorem sizeIn_takenList {top : Nat} (layout : Layout top (pre ++ b :: post))
    (fresh : taken ≠ size → dataOf b + size ∉ post) (mem : x ∈ pre ∨ x ∈ post) :
    sizeIn top (takenList pre b size taken post) x = sizeIn top (pre ++ b :: post) x := by
  obtain ⟨-, -, -, notPre, notPost⟩ := layout.cut
  unfold takenList
  by_cases inPre : x ∈ pre
  · rw [sizeIn_append_left _ _ inPre, sizeIn_append_left _ _ inPre]
    rfl
  have inPost := mem.resolve_left inPre
  have notB : x ∉ [b] := by
    simpa using fun same : x = b => notPost (same ▸ inPost)
  rw [sizeIn_append_right _ inPre, sizeIn_append_right _ inPre]
  by_cases whole : taken = size
  · simp [whole]
  have notNew : x ∉ [b, dataOf b + size] := by
    have differs : x ≠ dataOf b + size := fun same => fresh whole (same ▸ inPost)
    simp only [mem_cons, not_mem_nil, or_false, not_or] at notB ⊢
    exact ⟨notB, differs⟩
  simp only [whole, ne_eq, not_false_eq_true, if_true]
  exact (@sizeIn_append_right [b, dataOf b + size] post x top notNew).trans
    (@sizeIn_append_right [b] post x top notB).symm

/-- Taking a free buffer, with the pages of what is taken backed, keeps the
invariant. `h` is the header the new buffer gets. -/
theorem AllocInv.take {ft at' : RbTree Nat} (inv : AllocInv a) (space : Nat)
    (split : a.buffers = pre ++ b :: post) (free : (a.hdr b).free = true)
    (isTaken : h.free = false) (request : h.request = size)
    (passed : h.dataSize ≤ size ∧ h.offsetsSize ≤ size)
    (amount : (taken = size ∧ size ≤ binderBufferSize a b ∧ binderBufferSize a b ≤ size + 44) ∨
      (taken = size + headerSize ∧ size + 44 < binderBufferSize a b))
    (trees : Trees (a.taken pre b size taken post ft at') everyBuffer) :
    AllocInv { a.taken pre b size taken post ft at' with
      hdr := update (takenHdr a.hdr b size taken) b h
      pages := setRange (dataPage a.buffer b)
        (takeStop a.buffer b taken (post.headD a.top)) true a.pages
      freeAsyncSpace := space } := by
  obtain ⟨layoutPre, bound, layoutPost, notPre, notPost⟩ := cut_buffers inv.layout split
  have next := dataOf_add_size inv.layout split
  have fits : dataOf b + taken ≤ post.headD a.top := by
    unfold headerSize at amount
    omega
  have room : taken ≠ size → dataOf (dataOf b + size) ≤ post.headD a.top := by
    intro rest
    unfold dataOf headerSize at *
    omega
  have new := fun rest => rest_not_mem inv.layout split (room rest)
  have other : ∀ x, x ∈ pre ∨ x ∈ post → update (takenHdr a.hdr b size taken) b h x = a.hdr x := by
    grind [update_of_ne, takenHdr_of_ne]
  have sizes : ∀ x, x ∈ pre ∨ x ∈ post →
      sizeIn a.top (takenList pre b size taken post) x = binderBufferSize a x := by
    intro x mem
    rw [sizeIn_takenList (split ▸ inv.layout) (fun rest => (new rest).2.2) mem, binderBufferSize_eq,
      split]
  have inList : ∀ x, x ∈ pre ∨ x ∈ post → x ∈ a.buffers := by
    rw [split]
    exact fun x => (mem_append.mpr <| ·.imp_right (mem_cons_of_mem b))
  refine ⟨⟨inv.aligned, inv.sizeAligned, inv.below, ?_, ?_, ?_, ?_, ?_⟩, ?_, ?_⟩
  · have head := inv.head
    rw [split] at head
    cases pre <;> simpa [takenList] using head
  · refine layout_append.mpr ⟨layoutPre, ?_⟩
    by_cases whole : taken = size
    · simp only [whole, ne_eq, not_true_eq_false, if_false]
      exact ⟨bound, layoutPost⟩
    · simp only [whole, ne_eq, not_false_eq_true, if_true]
      exact ⟨Nat.le_add_right _ _, room whole, layoutPost⟩
  · intro x mem allocated
    rw [binderBufferSize_eq]
    change _ ≤ sizeIn a.top (takenList pre b size taken post) x ∧
      sizeIn a.top (takenList pre b size taken post) x ≤ _
    rcases mem_takenList.mp mem with old | rfl | ⟨rest, rfl⟩
    · simp only [other x old] at allocated ⊢
      rw [sizes x old]
      exact inv.fits x (inList x old) allocated
    · simp only [update_self, request]
      rw [takenList, sizeIn_split _ notPre]
      by_cases whole : taken = size
      · simp only [whole, ne_eq, not_true_eq_false, if_false]
        unfold headerSize at amount
        omega
      · grind
    · grind [update_of_ne, takenHdr_new, dataOf, headerSize]
  · intro x mem allocated
    rcases mem_takenList.mp mem with old | rfl | ⟨rest, rfl⟩
    · simp only [other x old] at allocated ⊢
      exact inv.sound x (inList x old) allocated
    · simpa only [update_self, request] using passed
    · grind [update_of_ne, takenHdr_new, dataOf, headerSize]
  · intro i
    have usedTaken : used (update (takenHdr a.hdr b size taken) b h b) = headerSize + size := by
      rw [update_self]
      simp only [used, isTaken, Bool.false_eq_true, if_false]
      rw [← request, BinderBuffer.request]
    have step := needed_take (i := i) a.hdr pre inv.aligned inv.top_aligned
      (inv.buffer_le (b := b) (split ▸ by simp)) layoutPost fits
    have samePre : Needed a.buffer (update (takenHdr a.hdr b size taken) b h) pre i ↔
        Needed a.buffer a.hdr pre i :=
      needed_congr fun x mem => congrArg used (other x (.inl mem))
    have samePost : Needed a.buffer (update (takenHdr a.hdr b size taken) b h) post i ↔
        Needed a.buffer a.hdr post i :=
      needed_congr fun x mem => congrArg used (other x (.inr mem))
    change setRange _ _ true a.pages i = true ↔ Needed a.buffer _ (takenList ..) i
    rw [setRange_true_iff, inv.backed split free, step, takenList, needed_append, needed_cons, usedTaken, samePre]
    by_cases whole : taken = size
    · subst whole
      simp only [ne_eq, not_true_eq_false, if_false, samePost]
    have amount : taken = size + headerSize := by omega
    have usedNew : used (update (takenHdr a.hdr b size taken) b h (dataOf b + size)) =
        headerSize := by grind [update_of_ne, used, takenHdr_new]
    simp only [whole, ne_eq, not_false_eq_true, if_true]
    rw [needed_cons, usedNew, samePost, amount, meets_cut, or_assoc]
  · -- `b` is taken, and what follows a free buffer is not free.
    have apart := inv.apart
    rw [split] at apart
    obtain ⟨apartPre, -, headPost, apartPost⟩ := isChain_middle.mp apart
    have apartPre' := apart_congr (fun x mem => congrArg _ (other x (.inl mem))) apartPre
    have apartPost' := apart_congr (fun x mem => congrArg _ (other x (.inr mem))) apartPost
    refine isChain_middle.mpr ⟨apartPre', by simp [isTaken], by simp [isTaken], ?_⟩
    by_cases whole : taken = size
    · subst whole
      simp only [ne_eq, not_true_eq_false, if_false]
      exact apartPost'
    · simp only [whole, ne_eq, not_false_eq_true, if_true]
      refine isChain_cons.mpr ⟨fun y mem => ?_, apartPost'⟩
      rw [other y (.inr (mem_of_mem_head? mem))]
      exact fun both => headPost y mem ⟨free, both.2⟩
  · have marked := trees.congrHdr (update (takenHdr a.hdr b size taken) b h) fun x => by
        by_cases same : x = b
        · subst same
          simp only [update_self, takenHdr_self, isTaken]
        · rw [update_of_ne same]
    exact ⟨marked.free, marked.order, marked.allocated⟩

/-- Taking `b` adds it to the allocated buffers and changes no other one. -/
theorem live_take (ft at' : RbTree Nat) (space : Nat) (pages : Nat → Bool)
    (split : a.buffers = pre ++ b :: post) (isTaken : h.free = false)
    (newFree : taken ≠ size → dataOf b + size ∉ a.buffers) :
    BinderAlloc.live { a.taken pre b size taken post ft at' with
      hdr := update (takenHdr a.hdr b size taken) b h
      pages := pages
      freeAsyncSpace := space } = update a.live b (some h) := by
  funext x
  simp only [BinderAlloc.live, mem_takenList]
  by_cases same : x = b
  · subst same
    simp [isTaken]
  have inOld : x ∈ a.buffers ↔ x ∈ pre ∨ x ∈ post := by
    rw [split]
    simp [same]
  rw [update_of_ne same, update_of_ne same]
  by_cases new : taken ≠ size ∧ x = dataOf b + size
  · obtain ⟨rest, rfl⟩ := new
    rw [if_neg (by simp [takenHdr_new rest])]
    exact (live_eq_none.mpr fun old => newFree rest old.1).symm
  · rw [takenHdr_of_ne same fun rest eq => new ⟨rest, eq⟩]
    simp [BinderAlloc.live, same, new, inOld]

end Take

/-- `binder_alloc_buf` returns in every state with the invariant and keeps it.
When it fails, the buffer space is what it was; otherwise one buffer is new. -/
theorem AllocInv.alloc (inv : AllocInv a) (env : PageEnv)
    (dataSize offsetsSize : Nat) (isAsync : Bool) :
    ∃ found a', binderAllocBuf a env dataSize offsetsSize isAsync = .ok (found, a') ∧
      AllocInv a' ∧ (found = none → a' = a) ∧
      ∀ b, found = some b → a.live b = none ∧
        ∃ h, a'.live = update a.live b (some h) ∧ h.dataSize = dataSize ∧
          h.offsetsSize = offsetsSize ∧ h.asyncTransaction = isAsync := by
  generalize request : requestSize dataSize offsetsSize = size
  unfold binderAllocBuf
  simp only [request]
  split
  · exact ⟨none, a, rfl, inv, fun _ => rfl, by simp⟩
  split
  · exact ⟨none, a, rfl, inv, fun _ => rfl, by simp⟩
  rename_i passed
  simp only [Bool.or_eq_true, decide_eq_true_eq, not_or, Nat.not_lt] at passed
  split
  · exact ⟨none, a, rfl, inv, fun _ => rfl, by simp⟩
  obtain ⟨found, exact, search, result⟩ := bestFit_spec size a.freeBuffers
    (fun x mem => (inv.trees.mem_free.mp mem).2.1) none
  simp only [search, bind, Except.bind]
  rcases result with ⟨rfl, rfl⟩ | ⟨b, mem, rfl, fit, larger⟩
  · exact ⟨none, a, rfl, inv, fun _ => rfl, by simp⟩
  dsimp only
  obtain ⟨memList, free, -⟩ := inv.trees.mem_free.mp mem
  obtain ⟨pre, post, split⟩ := append_of_mem memList
  obtain ⟨-, bound, layoutPost, -⟩ := cut_buffers inv.layout split
  have next := dataOf_add_size inv.layout split
  have amount := takenSize_cases fit larger
  generalize takenSize size (binderBufferSize a b) exact = taken at amount ⊢
  have low := inv.buffer_le memList
  have start := dataPage_index inv.aligned low
  have stop := takeStop_index inv.aligned low taken (show a.buffer ≤ post.headD a.top by
    unfold dataOf at bound; omega)
  have absent : ∀ i, dataPage a.buffer b ≤ i →
      i < takeStop a.buffer b taken (post.headD a.top) → a.pages i = false := by
    intro i above below
    have none := take_absent inv.aligned low (fun x => inv.used_le split) layoutPost above below
    exact Bool.eq_false_iff.mpr fun there => none ((inv.backed split free i).mp there)
  rw [next, start, stop]
  rcases updatePageRange_alloc a env false absent with done | refused
  · have room : taken ≠ size → dataOf (dataOf b + size) ≤ post.headD a.top := by
      intro rest
      unfold dataOf headerSize at *
      omega
    obtain ⟨ft, at', take, trees⟩ := takeBuffer_pages split inv.layout inv.trees free room
      (setRange (dataPage a.buffer b) (takeStop a.buffer b taken (post.headD a.top)) true a.pages)
    simp only [done, Bool.not_true, Bool.false_eq_true, if_false, take]
    have kept := fun space => inv.take space
      (h := { takenHdr a.hdr b size taken b with
        dataSize := dataSize, offsetsSize := offsetsSize, asyncTransaction := isAsync })
      split free (by rw [takenHdr_self]) request passed amount trees
    have unused : a.live b = none := live_eq_none.mpr fun old => by simp [old.2] at free
    have newFree : taken ≠ size → dataOf b + size ∉ a.buffers := by
      intro rest
      rw [split, mem_append, mem_cons, not_or, not_or]
      exact rest_not_mem inv.layout split (room rest)
    have seen := fun space pages => live_take ft at' space pages (h := { takenHdr a.hdr b size taken b with
        dataSize := dataSize, offsetsSize := offsetsSize, asyncTransaction := isAsync })
      split (by rw [takenHdr_self]) newFree
    cases isAsync <;>
      refine ⟨some b, _, rfl, kept _, by simp, fun x eq => ?_⟩ <;>
      obtain rfl : b = x := Option.some.inj eq <;>
      exact ⟨unused, _, seen _ _, rfl, rfl, rfl⟩
  · simp only [refused, Bool.not_false, if_true]
    exact ⟨none, a, rfl, inv, fun _ => rfl, by simp⟩

end AndroidKernel.Binder
