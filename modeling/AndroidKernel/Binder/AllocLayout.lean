import AndroidKernel.Binder.Alloc

/-!
The list of buffers as a layout of the area, and the arithmetic of sizes.

`Layout top l` says that the headers of `l` follow each other without overlap up
to `top`. The size of a buffer depends on the list only through the next entry,
so everything here is stated for a list cut at the buffer that changes:
`sizeIn_append_left` and `sizeIn_append_right` say that the buffers of the other
part keep their size.
-/

namespace AndroidKernel.Binder

open List

variable {pre post l : List Nat} {b top : Nat}

/-! ### Request sizes -/

/-- A request that passes the overflow test of `binder_alloc_buf` is the sum of
the two sizes rounded up, without any wrap-around. -/
theorem requestSize_no_wrap {dataSize offsetsSize : Nat}
    (data : dataSize ≤ requestSize dataSize offsetsSize)
    (offsets : offsetsSize ≤ requestSize dataSize offsetsSize) :
    requestSize dataSize offsetsSize = (dataSize + 3) / 4 * 4 + (offsetsSize + 3) / 4 * 4 := by
  unfold requestSize align at *
  omega

/-! ### Entries -/

theorem nextEntry_split (fresh : b ∉ pre) :
    nextEntry (pre ++ b :: post) b = post.head? := by
  induction pre with
  | nil => simp [nextEntry]
  | cons x pre ih =>
    have differs : x ≠ b := fun same => fresh (same ▸ List.mem_cons_self)
    simp [nextEntry, differs, ih (fun mem => fresh (List.mem_cons_of_mem _ mem))]

theorem prevEntry_head (fresh : b ∉ post) : prevEntry (b :: post) b = none := by
  suffices ∀ (x : Nat) (l : List Nat), b ∉ l → prevEntry (x :: l) b = none from this b post fresh
  intro x l
  induction l generalizing x with
  | nil => intro _; rfl
  | cons y l ih =>
    intro absent
    have differs : y ≠ b := fun same => absent (same ▸ List.mem_cons_self)
    simp [prevEntry, differs, ih y fun mem => absent (List.mem_cons_of_mem _ mem)]

theorem prevEntry_split {prev : Nat} (fresh : b ∉ pre)
    (differs : b ≠ prev) : prevEntry (pre ++ prev :: b :: post) b = some prev := by
  induction pre with
  | nil => simp [prevEntry]
  | cons x pre ih =>
    have inner := ih fun mem => fresh (mem_cons_of_mem _ mem)
    cases pre with
    | nil => simp [prevEntry, Ne.symm differs]
    | cons y pre =>
      have : y ≠ b := fun same => fresh (by simp [same])
      simpa [prevEntry, this] using inner

theorem addAfter_split {new : Nat} (fresh : b ∉ pre) :
    addAfter new (pre ++ b :: post) b = pre ++ b :: new :: post := by
  induction pre with
  | nil => simp [addAfter]
  | cons x pre ih =>
    have differs : x ≠ b := fun same => fresh (same ▸ List.mem_cons_self)
    simp [addAfter, differs, ih fun mem => fresh (List.mem_cons_of_mem _ mem)]

/-! ### Sizes -/

/-- The size of `b` in a list of headers that ends at `top`. -/
def sizeIn (top : Nat) (l : List Nat) (b : Nat) : Nat :=
  (nextEntry l b).getD top - dataOf b

theorem binderBufferSize_eq (a : BinderAlloc) (b : Nat) :
    binderBufferSize a b = sizeIn a.top a.buffers b := by
  unfold binderBufferSize sizeIn
  cases nextEntry a.buffers b <;> rfl

theorem sizeIn_split (top : Nat) (fresh : b ∉ pre) :
    sizeIn top (pre ++ b :: post) b = post.headD top - dataOf b := by
  rw [sizeIn, nextEntry_split fresh]
  cases post <;> rfl

theorem sizeIn_append_right {x : Nat} (top : Nat) (fresh : x ∉ pre) :
    sizeIn top (pre ++ post) x = sizeIn top post x := by
  induction pre with
  | nil => rfl
  | cons y pre ih =>
    have differs : y ≠ x := fun same => fresh (same ▸ List.mem_cons_self)
    have := ih fun mem => fresh (List.mem_cons_of_mem _ mem)
    simpa [sizeIn, nextEntry, differs] using this

theorem sizeIn_append_left {x : Nat} (top : Nat) (post : List Nat)
    (mem : x ∈ pre) : sizeIn top (pre ++ post) x = sizeIn (post.headD top) pre x := by
  induction pre with
  | nil => simp at mem
  | cons y pre ih =>
    by_cases same : y = x
    · subst same
      cases pre <;> cases post <;> simp [sizeIn, nextEntry]
    have : x ∈ pre := by
      rcases mem_cons.mp mem with rfl | mem
      · exact absurd rfl same
      · exact mem
    simpa [sizeIn, nextEntry, same] using ih this

/-! ### Layouts -/

/-- Headers follow each other without overlap, the last one below `top`. -/
def Layout (top : Nat) : List Nat → Prop
  | [] => True
  | b :: l => dataOf b ≤ l.headD top ∧ Layout top l

theorem headD_append (l m : List Nat) (top : Nat) : (l ++ m).headD top = l.headD (m.headD top) := by
  cases l <;> rfl

theorem layout_append :
    Layout top (pre ++ post) ↔ Layout (post.headD top) pre ∧ Layout top post := by
  induction pre with
  | nil => simp [Layout]
  | cons b pre ih => simp only [cons_append, Layout, ih, headD_append, and_assoc]

section

variable (layout : Layout top l)
include layout

theorem Layout.le_top (mem : b ∈ l) : dataOf b ≤ top := by
  induction l generalizing b with
  | nil => simp at mem
  | cons x l ih =>
    rcases mem_cons.mp mem with rfl | mem
    · cases l with
      | nil => exact layout.1
      | cons y l =>
        have first : dataOf b ≤ y := layout.1
        have second : dataOf y ≤ top := ih layout.2 mem_cons_self
        unfold dataOf at *
        omega
    · exact ih layout.2 mem

theorem Layout.head_le (mem : b ∈ l) : l.headD top ≤ b := by
  induction l with
  | nil => simp at mem
  | cons x l ih =>
    rcases mem_cons.mp mem with rfl | mem
    · exact Nat.le_refl _
    have next := ih layout.2 mem
    have first : dataOf x ≤ l.headD top := layout.1
    change x ≤ b
    unfold dataOf at *
    omega

theorem Layout.headD_le : l.headD top ≤ top := by
  cases l with
  | nil => exact Nat.le_refl _
  | cons b l =>
    have := layout.le_top (b := b) mem_cons_self
    change b ≤ top
    unfold dataOf at this
    omega

theorem Layout.pairwise : l.Pairwise fun x y => dataOf x ≤ y := by
  induction l with
  | nil => exact .nil
  | cons b l ih =>
    refine pairwise_cons.mpr ⟨fun y mem => ?_, ih layout.2⟩
    exact Nat.le_trans layout.1 (layout.2.head_le mem)

theorem Layout.sorted : l.Pairwise (· < ·) := by
  refine layout.pairwise.imp fun {x y} le => ?_
  unfold dataOf headerSize at le
  omega

theorem Layout.nodup : l.Nodup :=
  layout.sorted.imp fun lt => Nat.ne_of_lt lt

omit layout in
/-- A layout cut at one of its buffers: what lies before it ends at it, what
lies after it starts behind its header. -/
theorem Layout.cut (layout : Layout top (pre ++ b :: post)) :
    Layout b pre ∧ dataOf b ≤ post.headD top ∧ Layout top post ∧ b ∉ pre ∧ b ∉ post := by
  obtain ⟨left, bound, right⟩ := layout_append.mp layout
  have nodup := layout.nodup
  rw [nodup_middle, nodup_cons, mem_append, not_or] at nodup
  exact ⟨left, bound, right, nodup.1.1, nodup.1.2⟩

/-- The extents of the buffers, header and data, tile `[lo, top)`. -/
def Tiles (size : Nat → Nat) (top : Nat) : Nat → List Nat → Prop
  | lo, [] => lo = top
  | lo, b :: l => b = lo ∧ Tiles size top (dataOf b + size b) l

theorem Layout.tiles : Tiles (sizeIn top l) top (l.headD top) l := by
  suffices ∀ pre post, Layout top (pre ++ post) →
      Tiles (sizeIn top (pre ++ post)) top (post.headD top) post from this [] l layout
  intro pre post
  induction post generalizing pre with
  | nil => intro _; rfl
  | cons b post ih =>
    intro layout
    obtain ⟨-, bound, -, fresh, -⟩ := layout.cut
    refine ⟨rfl, ?_⟩
    have next : dataOf b + sizeIn top (pre ++ b :: post) b = post.headD top := by
      rw [sizeIn_split top fresh]
      omega
    rw [next]
    simpa using ih (pre ++ [b]) (by simpa using layout)

end

end AndroidKernel.Binder
