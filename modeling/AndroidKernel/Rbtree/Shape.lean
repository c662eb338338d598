import AndroidKernel.Rbtree.Memory

/-!
Which tree a memory holds, and what each primitive does to it.

`Shape s t` says that the nodes reachable from the root make up `t`: every node
has the colour, the children and the parent that its place in `t` gives it, and
no node is there twice. The programs work at a place inside the tree, so the
facts are stated for `t.plug path`: `Linked` is the part below the place and
`Hung` the part above it, and `shape_plug` puts them together.
-/

namespace AndroidKernel.Rbtree

open Lib List RbTree

variable {path : List (RbCrumb Ptr)} {side : Side} {v parent hole p : Ptr} {c : RbColor} {t
  sibling near far : RbTree Ptr} {s' s : RbState}

/-! ### Running the primitives -/

@[simp] theorem update_root (s : RbState) (p : Ptr) (f : RbNode → RbNode) :
    (s.update p f).root = s.root := rfl

@[simp] theorem update_node_self (s : RbState) (p : Ptr) (f : RbNode → RbNode) :
    (s.update p f).node p = f (s.node p) := by
  simp [RbState.update]

theorem update_node_of_ne {q : Ptr} (f : RbNode → RbNode) (differ : q ≠ p) :
    (s.update p f).node q = s.node q := by
  simp [RbState.update, differ]

section Rules

variable {never : Fault → Prop} {post : Ptr → RbState → Prop}

theorem wp_load {post : RbNode → RbState → Prop} (present : p ≠ null) :
    wp (load p) post never s ↔ post (s.node p) s := by
  simp [load, present]

theorem wp_change {f : RbNode → RbNode} {post : Unit → RbState → Prop} (present : p ≠ null) :
    wp (change p f) post never s ↔ post () (s.update p f) := by
  simp [change, present]

@[simp] theorem wp_getRoot : wp getRoot post never s ↔ post s.root s := by
  simp [getRoot]

theorem wp_loadChild (present : p ≠ null) :
    wp (loadChild side p) post never s ↔ post ((s.node p).child side) s := by
  simp [loadChild, wp_load present]

theorem wp_loadParent (present : p ≠ null) :
    wp (loadParent p) post never s ↔ post (s.node p).rbParent s := by
  simp [loadParent, wp_load present]

theorem wp_loadColor {post : RbColor → RbState → Prop} (present : p ≠ null) :
    wp (loadColor p) post never s ↔ post (s.node p).rbColor s := by
  simp [loadColor, wp_load present]

end Rules

/-! ### Trees of addresses -/

/-- The pointer to a subtree. -/
def ptr : RbTree Ptr → Ptr
  | .leaf => null
  | .node _ _ v _ => v

/-- The parent of what hangs at `path`. -/
def top : List (RbCrumb Ptr) → Ptr
  | [] => null
  | .left _ v _ :: _ => v
  | .right _ _ v :: _ => v

@[simp] theorem ptr_leaf : ptr .leaf = null := rfl

@[simp] theorem ptr_node (c : RbColor) (l r : RbTree Ptr) (v : Ptr) : ptr (.node c l v r) = v := rfl

@[simp] theorem ptr_branch (side : Side) (c : RbColor) (near far : RbTree Ptr) (v : Ptr) :
    ptr (.branch side c near v far) = v := by
  cases side <;> rfl

@[simp] theorem top_nil : top [] = null := rfl

@[simp] theorem top_on (side : Side) (c : RbColor) (v : Ptr) (sibling : RbTree Ptr)
    (path : List (RbCrumb Ptr)) : top (.on side c v sibling :: path) = v := by
  cases side <;> rfl

/-- The fields of a node that is in the tree. -/
structure Cell (s : RbState) (side : Side) (v parent : Ptr) (c : RbColor) (near far : Ptr) :
    Prop where
  present : v ≠ null
  parent : (s.node v).rbParent = parent
  color : (s.node v).rbColor = c
  near : (s.node v).child side = near
  far : (s.node v).child side.other = far

/-- The subtree under `parent`. -/
def Linked (s : RbState) : Ptr → RbTree Ptr → Prop
  | _, .leaf => True
  | parent, .node c l v r =>
    Cell s .left v parent c (ptr l) (ptr r) ∧ Linked s v l ∧ Linked s v r

/-- The tree around a subtree at `hole`. -/
def Hung (s : RbState) : Ptr → List (RbCrumb Ptr) → Prop
  | hole, [] => s.root = hole
  | hole, .left c v r :: path =>
    Cell s .left v (top path) c hole (ptr r) ∧ Linked s v r ∧ Hung s v path
  | hole, .right c l v :: path =>
    Cell s .right v (top path) c hole (ptr l) ∧ Linked s v l ∧ Hung s v path

/-- The nodes around the hole. -/
def around (path : List (RbCrumb Ptr)) : List Ptr := before path ++ after path

structure Shape (s : RbState) (t : RbTree Ptr) : Prop where
  root : s.root = ptr t
  linked : Linked s null t
  nodup : t.inorder.Nodup

theorem Cell.swap {near far : Ptr} :
    Cell s side.other v parent c far near ↔ Cell s side v parent c near far := by
  constructor
  · rintro ⟨present, parent, color, near, far⟩
    exact ⟨present, parent, color, by simpa using far, near⟩
  · rintro ⟨present, parent, color, near, far⟩
    exact ⟨present, parent, color, far, by simpa using near⟩

@[simp] theorem linked_branch :
    Linked s parent (.branch side c near v far) ↔
      Cell s side v parent c (ptr near) (ptr far) ∧ Linked s v near ∧ Linked s v far := by
  cases side with
  | left => rfl
  | right =>
    rw [← Cell.swap]
    exact ⟨fun ⟨cell, l, r⟩ => ⟨cell, r, l⟩, fun ⟨cell, r, l⟩ => ⟨cell, l, r⟩⟩

@[simp] theorem hung_on :
    Hung s hole (.on side c v sibling :: path) ↔
      Cell s side v (top path) c hole (ptr sibling) ∧ Linked s v sibling ∧ Hung s v path := by
  cases side <;> rfl

@[simp] theorem mem_branch :
    p ∈ (branch side c near v far).inorder ↔ p = v ∨ p ∈ near.inorder ∨ p ∈ far.inorder := by
  cases side <;> simp [branch] <;> tauto

@[simp] theorem mem_around_on :
    p ∈ around (.on side c v sibling :: path) ↔ p = v ∨ p ∈ sibling.inorder ∨ p ∈ around path := by
  cases side <;> simp [around, RbCrumb.on] <;> tauto

theorem mem_around_append {path' : List (RbCrumb Ptr)} :
    p ∈ around (path ++ path') ↔ p ∈ around path ∨ p ∈ around path' := by
  simp only [around, before_append, after_append, mem_append]
  tauto

theorem mem_plug : p ∈ (t.plug path).inorder ↔ p ∈ t.inorder ∨ p ∈ around path := by
  simp only [inorder_plug, around, mem_append]
  tauto

theorem nodup_branch :
    (branch side c near v far).inorder.Nodup ↔
      v ∉ near.inorder ∧ v ∉ far.inorder ∧ near.inorder.Nodup ∧ far.inorder.Nodup ∧
        ∀ p ∈ near.inorder, p ∉ far.inorder := by
  cases side <;> simp only [branch, inorder_node, nodup_append, nodup_cons,
    mem_cons] <;> grind

theorem nodup_around_on :
    (around (.on side c v sibling :: path)).Nodup ↔
      v ∉ sibling.inorder ∧ v ∉ around path ∧ sibling.inorder.Nodup ∧ (around path).Nodup ∧
        ∀ p ∈ sibling.inorder, p ∉ around path := by
  cases side <;> simp only [around, RbCrumb.on, before_left, before_right,
    after_left, after_right, nodup_append, nodup_cons, mem_cons,
    mem_append, cons_append] <;> grind

/-- The tree at a place, taken apart. -/
structure Zip (s : RbState) (t : RbTree Ptr) (path : List (RbCrumb Ptr)) : Prop where
  linked : Linked s (top path) t
  hung : Hung s (ptr t) path
  below : t.inorder.Nodup
  above : (around path).Nodup
  apart : ∀ p ∈ t.inorder, p ∉ around path

theorem zip_on :
    Zip s t (.on side c v sibling :: path) ↔ Zip s (.branch side c t v sibling) path := by
  constructor
  · rintro ⟨linked, hung, below, above, apart⟩
    simp only [hung_on, nodup_around_on, top_on, mem_around_on] at *
    refine ⟨?_, ?_, ?_, above.2.2.2.1, ?_⟩
    · exact linked_branch.mpr ⟨hung.1, linked, hung.2.1⟩
    · rw [ptr_branch]
      exact hung.2.2
    · rw [nodup_branch]
      grind
    · simp only [mem_branch]
      grind
  · rintro ⟨linked, hung, below, above, apart⟩
    simp only [linked_branch, nodup_branch, ptr_branch, mem_branch] at *
    refine ⟨?_, ?_, below.2.2.1, ?_, ?_⟩
    · rw [top_on]
      exact linked.2.1
    · exact hung_on.mpr ⟨linked.1, linked.2.2, hung⟩
    · rw [nodup_around_on]
      grind
    · simp only [mem_around_on]
      grind

theorem shape_plug : Shape s (t.plug path) ↔ Zip s t path := by
  induction path generalizing t with
  | nil =>
    constructor
    · rintro ⟨root, linked, nodup⟩
      exact ⟨linked, root, nodup, nodup_nil, by simp [around]⟩
    · rintro ⟨linked, root, nodup, -, -⟩
      exact ⟨root, linked, nodup⟩
  | cons crumb path ih =>
    obtain ⟨side, c, v, sibling, rfl⟩ := crumb.exists_on
    rw [plug_on, ih, zip_on]

/-! ### Frames -/

theorem Cell.frame {near far : Ptr}
    (cell : Cell s side v parent c near far) (same : s'.node v = s.node v) :
    Cell s' side v parent c near far := by
  obtain ⟨present, parent, color, near, far⟩ := cell
  exact ⟨present, by rwa [same], by rwa [same], by rwa [same], by rwa [same]⟩

theorem Linked.frame (linked : Linked s parent t)
    (same : ∀ p ∈ t.inorder, s'.node p = s.node p) : Linked s' parent t := by
  induction t generalizing parent with
  | leaf => trivial
  | node c l v r ihl ihr =>
    simp only [inorder_node, mem_append, mem_cons] at same
    obtain ⟨cell, left, right⟩ := linked
    exact ⟨cell.frame (same v (.inr (.inl rfl))), ihl left fun p mem => same p (.inl mem),
      ihr right fun p mem => same p (.inr (.inr mem))⟩

theorem Hung.frame (hung : Hung s hole path) (root : s'.root = s.root)
    (same : ∀ p ∈ around path, s'.node p = s.node p) : Hung s' hole path := by
  induction path generalizing hole with
  | nil => exact root.trans hung
  | cons crumb path ih =>
    obtain ⟨side, c, v, sibling, rfl⟩ := crumb.exists_on
    simp only [mem_around_on] at same
    obtain ⟨cell, linked, hung'⟩ := hung_on.mp hung
    refine hung_on.mpr ⟨cell.frame (same v (.inl rfl)), linked.frame fun p mem => ?_, ?_⟩
    · exact same p (.inr (.inl mem))
    · exact ih hung' fun p mem => same p (.inr (.inr mem))

theorem Linked.ne_null (linked : Linked s parent t) (mem : p ∈ t.inorder) : p ≠ null := by
  induction t generalizing parent with
  | leaf => simp at mem
  | node c l v r ihl ihr =>
    obtain ⟨cell, left, right⟩ := linked
    simp only [inorder_node, mem_append, mem_cons] at mem
    rcases mem with mem | rfl | mem
    · exact ihl left mem
    · exact cell.present
    · exact ihr right mem

theorem Hung.ne_null (hung : Hung s hole path) (mem : p ∈ around path) : p ≠ null := by
  induction path generalizing hole with
  | nil => simp [around] at mem
  | cons crumb path ih =>
    obtain ⟨side, c, v, sibling, rfl⟩ := crumb.exists_on
    obtain ⟨cell, linked, hung'⟩ := hung_on.mp hung
    rcases mem_around_on.mp mem with rfl | mem | mem
    · exact cell.present
    · exact linked.ne_null mem
    · exact ih hung' mem

/-- The pointer to a subtree is null or one of its nodes. -/
theorem ptr_mem (present : ptr t ≠ null) : ptr t ∈ t.inorder := by
  cases t with
  | leaf => exact absurd rfl present
  | node c l v r => simp

theorem ne_ptr (present : p ≠ null) (outside : p ∉ t.inorder) : p ≠ ptr t := by
  rintro rfl
  exact outside (ptr_mem present)

/-! ### Changes to one node -/

theorem Zip.recolor (zip : Zip s (.branch side c near v far) path) (c' : RbColor) :
    Zip (s.update v (.rbSetColor c')) (.branch side c' near v far) path := by
  obtain ⟨linked, hung, below, above, apart⟩ := zip
  simp only [linked_branch, nodup_branch, ptr_branch, mem_branch] at *
  obtain ⟨cell, linkedNear, linkedFar⟩ := linked
  have elsewhere : ∀ p, p ≠ v → (s.update v (.rbSetColor c')).node p = s.node p :=
    fun p differ => update_node_of_ne _ differ
  refine ⟨linked_branch.mpr ⟨?_, ?_, ?_⟩, ?_, nodup_branch.mpr below, above, ?_⟩
  · obtain ⟨present, parent, color, near, far⟩ := cell
    exact ⟨present, by simpa, by simp, by simpa, by simpa⟩
  · exact linkedNear.frame fun p mem => elsewhere p (by grind)
  · exact linkedFar.frame fun p mem => elsewhere p (by grind)
  · rw [ptr_branch]
    exact hung.frame rfl fun p mem => elsewhere p (by grind)
  · simpa only [mem_branch] using apart

/-- `if (p) f(p);` -/
def RbState.touch (s : RbState) (p : Ptr) (f : RbNode → RbNode) : RbState :=
  if p = null then s else s.update p f

@[simp] theorem touch_root (s : RbState) (p : Ptr) (f : RbNode → RbNode) :
    (s.touch p f).root = s.root := by
  unfold RbState.touch
  split <;> rfl

theorem touch_node_of_ne {q : Ptr} (f : RbNode → RbNode) (differ : q ≠ p) :
    (s.touch p f).node q = s.node q := by
  unfold RbState.touch
  split
  · rfl
  · exact update_node_of_ne f differ

theorem wp_touch {f : RbNode → RbNode} {post : Unit → RbState → Prop} {never : Fault → Prop} :
    wp (ifThen (p ≠ null) (change p f)) post never s ↔ post () (s.touch p f) := by
  rw [wp_ifThen]
  unfold RbState.touch
  split
  · rename_i absent
    simp [absent]
  · rename_i present
    simp [present, wp_change present]

theorem Linked.reparent (linked : Linked s parent t) (nodup : t.inorder.Nodup) (parent' : Ptr) :
    Linked (s.touch (ptr t) (.rbSetParent parent')) parent' t := by
  cases t with
  | leaf => trivial
  | node c l v r =>
    obtain ⟨cell, left, right⟩ := linked
    obtain ⟨notLeft, notRight, -⟩ :=
      nodup_branch.mp (show (branch .left c l v r).inorder.Nodup from nodup)
    have here : (s.touch v (.rbSetParent parent')).node v = (s.node v).rbSetParent parent' := by
      simp [RbState.touch, cell.present]
    refine ⟨?_, ?_, ?_⟩
    · obtain ⟨present, _, color, near, far⟩ := cell
      rw [ptr_node]
      exact ⟨present, by rw [here]; simp, by rw [here]; simpa, by rw [here]; simpa,
        by rw [here]; simpa⟩
    · exact left.frame fun p mem => touch_node_of_ne _ (by rintro rfl; exact notLeft mem)
    · exact right.frame fun p mem => touch_node_of_ne _ (by rintro rfl; exact notRight mem)

/-- What a change above a place may do. -/
structure Rehung (s s' : RbState) (path : List (RbCrumb Ptr)) (new : Ptr) : Prop where
  hung : Hung s' new path
  same : ∀ p, p ∉ around path → s'.node p = s.node p

/-- Changing the child at the hole. -/
theorem Hung.rehang {old : Ptr}
    (hung : Hung s old (.on side c v sibling :: path))
    (nodup : (around (.on side c v sibling :: path)).Nodup) (new : Ptr) :
    Rehung s (s.update v (.setChild side new)) (.on side c v sibling :: path) new := by
  obtain ⟨cell, linked, hung'⟩ := hung_on.mp hung
  obtain ⟨notSibling, notAbove, -, -, -⟩ := nodup_around_on.mp nodup
  refine ⟨hung_on.mpr ⟨?_, ?_, ?_⟩, ?_⟩
  · obtain ⟨present, parent, color, near, far⟩ := cell
    exact ⟨present, by simpa, by simpa, by simp, by simpa⟩
  · refine linked.frame fun p mem => update_node_of_ne _ ?_
    rintro rfl
    exact notSibling mem
  · refine hung'.frame rfl fun p mem => update_node_of_ne _ ?_
    rintro rfl
    exact notAbove mem
  · intro p outside
    refine update_node_of_ne _ ?_
    rintro rfl
    exact outside (mem_around_on.mpr (.inl rfl))

theorem changeChild_spec {old : Ptr} (side : Side)
    (new : Ptr) {never : Fault → Prop} (hung : Hung s old path) (present : old ≠ null)
    (apart : old ∉ around path) (nodup : (around path).Nodup) :
    wp (changeChild side old new (top path)) (fun _ s' => Rehung s s' path new) never s := by
  cases path with
  | nil =>
    exact ⟨rfl, fun _ _ => rfl⟩
  | cons crumb path =>
    obtain ⟨side', c, v, sibling, rfl⟩ := crumb.exists_on
    have cell := (hung_on.mp hung).1
    have away : old ≠ ptr sibling := by
      refine ne_ptr present fun mem => ?_
      exact apart (mem_around_on.mpr (.inr (.inl mem)))
    simp only [changeChild, top_on, cell.present, if_false, wp_bind,
      wp_loadChild cell.present, wp_ite, wp_change cell.present]
    -- the child that is changed is the one at the hole
    rcases side.eq_or_eq_other side' with rfl | rfl
    · rw [cell.near]
      exact ⟨fun _ => hung.rehang nodup new, fun differ => absurd rfl differ⟩
    · have first := cell.far
      rw [Side.other_other] at first
      rw [first]
      exact ⟨fun same => absurd same away, fun _ => hung.rehang nodup new⟩

end AndroidKernel.Rbtree
