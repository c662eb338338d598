import Mathlib

/-!
Red-black trees as `lib/rbtree.c` rebalances them, over an arbitrary element type.

A C tree is walked down through child pointers and rebalanced up through parent
pointers. Here a position is a *path*: the list of crumbs from a subtree up to
the root, so "the parent" is the head of the path and "the grandparent" the
second crumb. `rbInsertColor` and `rbErase` follow the loops of
`rb_insert_color`, `rb_erase` and `__rb_erase_color` case by case.

The callers of the library decide by their own comparison where a node goes
(`descend`), so the facts proved here are about the in-order sequence:

* `inorder_rbInsertColor`: rebalancing keeps the sequence, with the new node at
  the position it was linked at;
* `inorder_rbErase`: erasing removes exactly the erased element;
* `descend_split`: a descent by a predicate that is monotone along the sequence
  stops at the boundary of that predicate.
-/

namespace AndroidKernel.Lib

inductive RbColor where
  | red
  | black
deriving DecidableEq, Repr

inductive RbTree (α : Type) where
  | leaf : RbTree α
  | node (color : RbColor) (left : RbTree α) (value : α) (right : RbTree α) : RbTree α
deriving DecidableEq, Repr

/-- One step up: the hole is the left (right) child of a node that has the given
colour, value and other child. -/
inductive RbCrumb (α : Type) where
  | left (color : RbColor) (value : α) (right : RbTree α) : RbCrumb α
  | right (color : RbColor) (left : RbTree α) (value : α) : RbCrumb α
deriving DecidableEq, Repr

namespace RbTree

variable {α : Type}

/-- `rb_is_red`; a missing child counts as black everywhere in the source. -/
def isRed : RbTree α → Bool
  | .node .red _ _ _ => true
  | _ => false

/-- `rb_set_black`. -/
def blacken : RbTree α → RbTree α
  | .leaf => .leaf
  | .node _ l v r => .node .black l v r

def inorder : RbTree α → List α
  | .leaf => []
  | .node _ l v r => l.inorder ++ v :: r.inorder

variable (c : RbColor) (l : RbTree α) (v : α) (r t : RbTree α) (path : List (RbCrumb α))

@[simp] theorem inorder_leaf : (leaf : RbTree α).inorder = [] := rfl

@[simp] theorem inorder_node : (node c l v r).inorder = l.inorder ++ v :: r.inorder := rfl

@[simp] theorem inorder_blacken : t.blacken.inorder = t.inorder := by
  cases t <;> rfl

/-- Fill the hole of one crumb. -/
def fill (t : RbTree α) : RbCrumb α → RbTree α
  | .left c v r => .node c t v r
  | .right c l v => .node c l v t

/-- Rebuild the whole tree from a subtree and its path to the root. -/
def plug : RbTree α → List (RbCrumb α) → RbTree α
  | t, [] => t
  | t, crumb :: path => plug (t.fill crumb) path

/-- The elements left of the hole, in order. -/
def before : List (RbCrumb α) → List α
  | [] => []
  | .left _ _ _ :: path => before path
  | .right _ l v :: path => before path ++ (l.inorder ++ [v])

/-- The elements right of the hole, in order. -/
def after : List (RbCrumb α) → List α
  | [] => []
  | .left _ v r :: path => v :: r.inorder ++ after path
  | .right _ _ _ :: path => after path

@[simp] theorem before_nil : before ([] : List (RbCrumb α)) = [] := rfl

@[simp] theorem after_nil : after ([] : List (RbCrumb α)) = [] := rfl

@[simp] theorem before_left : before (.left c v r :: path) = before path := rfl

@[simp] theorem before_right :
    before (.right c l v :: path) = before path ++ (l.inorder ++ [v]) := rfl

@[simp] theorem after_left : after (.left c v r :: path) = v :: r.inorder ++ after path := rfl

@[simp] theorem after_right : after (.right c l v :: path) = after path := rfl

@[simp] theorem inorder_plug : (t.plug path).inorder = before path ++ t.inorder ++ after path := by
  induction path generalizing t with
  | nil => simp [plug]
  | cons crumb path ih =>
    cases crumb with
    | left | right => simp [plug, fill, ih]

/-! ### Insertion -/

/-- The loop of `rb_insert_color`: `t` is the (red) node under consideration. A
red parent at the root has no grandparent; the source never sees one, because
the root of a red-black tree is black. -/
def rbInsertColor : RbTree α → List (RbCrumb α) → RbTree α
  | t, [] => t.blacken
  | t, [parent] => (t.plug [parent]).blacken
  | t, .left .black pv pr :: gparent :: path =>
    (t.plug (.left .black pv pr :: gparent :: path)).blacken
  | t, .right .black pl pv :: gparent :: path =>
    (t.plug (.right .black pl pv :: gparent :: path)).blacken
  | t, .left .red pv pr :: .left _ gv uncle :: path =>
    if uncle.isRed then
      rbInsertColor (.node .red (.node .black t pv pr) gv uncle.blacken) path
    else
      -- rotate right at the grandparent
      ((RbTree.node .black t pv (.node .red pr gv uncle)).plug path).blacken
  | t, .right .red pl pv :: .left gc gv uncle :: path =>
    if uncle.isRed then
      rbInsertColor (.node .red (.node .black pl pv t) gv uncle.blacken) path
    else
      match t with
      | .leaf => (t.plug (.right .red pl pv :: .left gc gv uncle :: path)).blacken
      | .node _ tl tv tr =>
        -- rotate left at the parent, then right at the grandparent
        ((RbTree.node .black (.node .red pl pv tl) tv (.node .red tr gv uncle)).plug path).blacken
  | t, .right .red pl pv :: .right _ uncle gv :: path =>
    if uncle.isRed then
      rbInsertColor (.node .red uncle.blacken gv (.node .black pl pv t)) path
    else
      ((RbTree.node .black (.node .red uncle gv pl) pv t).plug path).blacken
  | t, .left .red pv pr :: .right gc uncle gv :: path =>
    if uncle.isRed then
      rbInsertColor (.node .red uncle.blacken gv (.node .black t pv pr)) path
    else
      match t with
      | .leaf => (t.plug (.left .red pv pr :: .right gc uncle gv :: path)).blacken
      | .node _ tl tv tr =>
        ((RbTree.node .black (.node .red uncle gv tl) tv (.node .red tr pv pr)).plug path).blacken

/-- Rebalancing after an insertion keeps the in-order sequence. -/
@[simp] theorem inorder_rbInsertColor :
    (rbInsertColor t path).inorder = before path ++ t.inorder ++ after path := by
  fun_induction rbInsertColor t path <;> simp_all

/-- `rb_link_node` followed by `rb_insert_color`: a new red leaf at `path`. -/
def rbInsertAt (v : α) (path : List (RbCrumb α)) : RbTree α :=
  rbInsertColor (.node .red .leaf v .leaf) path

@[simp] theorem inorder_rbInsertAt :
    (rbInsertAt v path).inorder = before path ++ v :: after path := by
  simp [rbInsertAt]

/-! ### Erasure -/

/-- What one round of `__rb_erase_color` leaves: the subtree has its black
height back, or the missing black has moved up to its root. -/
inductive EraseStep (α : Type) where
  | settled (t : RbTree α)
  | deficit (t : RbTree α)

/-- One round for a left child `t` that lacks a black, whose sibling `other` is
not red. The source dereferences `other` unchecked; a missing sibling does not
occur in a red-black tree. -/
def eraseStepLeft (t : RbTree α) (pc : RbColor) (pv : α) (other : RbTree α) : EraseStep α :=
  match other with
  | .leaf => .deficit (.node pc t pv .leaf)
  | .node _ ol ov or =>
    if !ol.isRed && !or.isRed then .deficit (.node pc t pv (.node .red ol ov or))
    else if !or.isRed then
      match ol with
      | .leaf => .deficit (.node pc t pv (.node .red ol ov or))
      | .node _ oll olv olr =>
        .settled (.node pc (.node .black t pv oll) olv (.node .black olr ov or))
    else .settled (.node pc (.node .black t pv ol) ov or.blacken)

/-- The mirror image of `eraseStepLeft`. -/
def eraseStepRight (other : RbTree α) (pc : RbColor) (pv : α) (t : RbTree α) : EraseStep α :=
  match other with
  | .leaf => .deficit (.node pc .leaf pv t)
  | .node _ ol ov or =>
    if !ol.isRed && !or.isRed then .deficit (.node pc (.node .red ol ov or) pv t)
    else if !ol.isRed then
      match or with
      | .leaf => .deficit (.node pc (.node .red ol ov or) pv t)
      | .node _ orl orv orr =>
        .settled (.node pc (.node .black ol ov orl) orv (.node .black orr pv t))
    else .settled (.node pc ol.blacken ov (.node .black or pv t))

def EraseStep.tree : EraseStep α → RbTree α
  | .settled t => t
  | .deficit t => t

theorem inorder_eraseStepLeft (pc : RbColor) (pv : α) (other : RbTree α) :
    (eraseStepLeft t pc pv other).tree.inorder = t.inorder ++ pv :: other.inorder := by
  fun_cases eraseStepLeft t pc pv other <;> simp [EraseStep.tree]

theorem inorder_eraseStepRight (other : RbTree α) (pc : RbColor) (pv : α) (t : RbTree α) :
    (eraseStepRight other pc pv t).tree.inorder = other.inorder ++ pv :: t.inorder := by
  fun_cases eraseStepRight other pc pv t <;> simp [EraseStep.tree]

/-- The loop of `__rb_erase_color`: `t` is the node that lacks a black. With a
red sibling the rotation puts a red parent between, so the round below it ends
the loop either way. -/
def rbEraseColor : RbTree α → List (RbCrumb α) → RbTree α
  | t, [] => t.blacken
  | t, .left pc pv other :: path =>
    if t.isRed then t.blacken.plug (.left pc pv other :: path)
    else
      match other with
      | .node .red ol ov or =>
        match eraseStepLeft t .red pv ol with
        | .settled u => (u.plug (.left .black ov or :: path)).blacken
        | .deficit u => u.blacken.plug (.left .black ov or :: path)
      | other =>
        match eraseStepLeft t pc pv other with
        | .settled u => (u.plug path).blacken
        | .deficit u => rbEraseColor u path
  | t, .right pc other pv :: path =>
    if t.isRed then t.blacken.plug (.right pc other pv :: path)
    else
      match other with
      | .node .red ol ov or =>
        match eraseStepRight or .red pv t with
        | .settled u => (u.plug (.right .black ol ov :: path)).blacken
        | .deficit u => u.blacken.plug (.right .black ol ov :: path)
      | other =>
        match eraseStepRight other pc pv t with
        | .settled u => (u.plug path).blacken
        | .deficit u => rbEraseColor u path

theorem inorder_rbEraseColor :
    (rbEraseColor t path).inorder = before path ++ t.inorder ++ after path := by
  induction path generalizing t with
  | nil => simp [rbEraseColor]
  | cons crumb path ih =>
    cases crumb with
    | left pc pv other =>
      unfold rbEraseColor
      split
      · simp
      split
      · rename_i ol ov or
        have round := inorder_eraseStepLeft t .red pv ol
        split <;> rename_i u step <;> rw [step] at round <;>
          simp_all [EraseStep.tree]
      · have round := inorder_eraseStepLeft t pc pv other
        split <;> rename_i u step <;> rw [step] at round <;>
          simp_all [EraseStep.tree]
    | right pc other pv =>
      unfold rbEraseColor
      split
      · simp
      split
      · rename_i ol ov or
        have round := inorder_eraseStepRight or .red pv t
        split <;> rename_i u step <;> rw [step] at round <;>
          simp_all [EraseStep.tree]
      · have round := inorder_eraseStepRight other pc pv t
        split <;> rename_i u step <;> rw [step] at round <;>
          simp_all [EraseStep.tree]

/-- The leftmost node of a non-empty subtree: its colour, value and right child,
and the path from there to the root of the subtree on top of `path`. -/
def leftmost : RbColor → RbTree α → α → RbTree α → List (RbCrumb α) →
    RbColor × α × RbTree α × List (RbCrumb α)
  | c, .leaf, v, r, path => (c, v, r, path)
  | c, .node lc ll lv lr, v, r, path => leftmost lc ll lv lr (.left c v r :: path)

theorem leftmost_spec : before (leftmost c l v r path).2.2.2 = before path ∧
      (leftmost c l v r path).2.1 :: (leftmost c l v r path).2.2.1.inorder ++
        after (leftmost c l v r path).2.2.2 = l.inorder ++ v :: r.inorder ++ after path := by
  induction l generalizing c v r path with
  | leaf => simp [leftmost]
  | node lc ll lv lr ihl _ =>
    obtain ⟨left, rest⟩ := ihl lc lv lr (.left c v r :: path)
    simp only [leftmost]
    exact ⟨by simpa using left, by simpa using rest⟩

/-- Unlink the node at `path` with the given colour and children, as the body
of `rb_erase` does: a node with two children is replaced by its successor, which
takes over its colour and its place. -/
def unlink (c : RbColor) (l r : RbTree α) (path : List (RbCrumb α)) : RbTree α :=
  match l, r with
  | .leaf, r => if c = .black then rbEraseColor r path else r.plug path
  | l, .leaf => if c = .black then rbEraseColor l path else l.plug path
  | l, .node rc rl rv rr =>
    let succ := leftmost rc rl rv rr []
    let path' := succ.2.2.2 ++ .right c l succ.2.1 :: path
    if succ.1 = .black then rbEraseColor succ.2.2.1 path' else succ.2.2.1.plug path'

@[simp] theorem before_append (p q : List (RbCrumb α)) :
    before (p ++ q) = before q ++ before p := by
  induction p with
  | nil => simp
  | cons crumb p ih => cases crumb <;> simp [ih]

@[simp] theorem after_append (p q : List (RbCrumb α)) : after (p ++ q) = after p ++ after q := by
  induction p with
  | nil => simp
  | cons crumb p ih => cases crumb <;> simp [ih]

theorem inorder_unlink :
    (unlink c l r path).inorder = before path ++ (l.inorder ++ r.inorder) ++ after path := by
  have recolored : ∀ (color : RbColor) (t : RbTree α) (p : List (RbCrumb α)),
      (if color = .black then rbEraseColor t p else t.plug p).inorder =
        before p ++ t.inorder ++ after p := by
    intro color t p
    split
    · exact inorder_rbEraseColor t p
    · exact inorder_plug t p
  unfold unlink
  split
  · simp [recolored]
  · simp [recolored]
  · rename_i rc rl rv rr _
    obtain ⟨left, rest⟩ := leftmost_spec rc rl rv rr []
    simp only [recolored]
    simp only [before_append, before_right, after_append, after_right, left, inorder_node]
    simp only [before_nil, after_nil, List.append_nil, List.cons_append] at rest ⊢
    simp [← rest]

/-- Find `a` below `path`. The source holds a pointer to the node; here the node
is found by its value, which is unique in the trees it is used on. -/
def locate [DecidableEq α] (a : α) : RbTree α → List (RbCrumb α) →
    Option (RbColor × RbTree α × RbTree α × List (RbCrumb α))
  | .leaf, _ => none
  | .node c l v r, path =>
    if v = a then some (c, l, r, path)
    else
      match locate a l (.left c v r :: path) with
      | some found => some found
      | none => locate a r (.right c l v :: path)

/-- `rb_erase`. -/
def rbErase [DecidableEq α] (a : α) (t : RbTree α) : RbTree α :=
  match locate a t [] with
  | some (c, l, r, path) => unlink c l r path
  | none => t

/-- Finding an element keeps the tree together. -/
theorem locate_plug [DecidableEq α] {a : α} {t l r : RbTree α} {c : RbColor}
    {path path' : List (RbCrumb α)} (found : locate a t path = some (c, l, r, path')) :
    t.plug path = (node c l a r).plug path' := by
  induction t generalizing path with
  | leaf => simp [locate] at found
  | node tc tl tv tr ihl ihr =>
    unfold locate at found
    split at found
    · rename_i same
      simp only [Option.some.injEq, Prod.mk.injEq] at found
      obtain ⟨rfl, rfl, rfl, rfl⟩ := found
      rw [same]
    · split at found
      · rename_i inLeft
        cases found
        exact ihl inLeft
      · exact ihr found

theorem locate_none [DecidableEq α] {a : α} {t : RbTree α} {path : List (RbCrumb α)}
    (missing : locate a t path = none) : a ∉ t.inorder := by
  induction t generalizing path with
  | leaf => simp
  | node tc tl tv tr ihl ihr =>
    unfold locate at missing
    split at missing
    · simp at missing
    rename_i differs
    split at missing
    · simp at missing
    · rename_i notLeft
      simp [ihl notLeft, ihr missing, Ne.symm differs]

/-- Erasing a present element of a duplicate-free tree removes exactly it. -/
theorem inorder_rbErase [DecidableEq α] {a : α} {t : RbTree α} (nodup : t.inorder.Nodup)
    (present : a ∈ t.inorder) : (rbErase a t).inorder = t.inorder.erase a := by
  unfold rbErase
  split
  · rename_i c l r path found
    have split := congrArg inorder (locate_plug found)
    rw [inorder_plug, inorder_plug, inorder_node] at split
    simp only [before_nil, after_nil, List.nil_append, List.append_nil] at split
    rw [inorder_unlink, split]
    rw [split] at nodup
    have notBefore : a ∉ before path ++ l.inorder := by grind
    have shape : before path ++ (l.inorder ++ a :: r.inorder) ++ after path =
        (before path ++ l.inorder) ++ a :: (r.inorder ++ after path) := by simp
    rw [shape, List.erase_append_right _ notBefore, List.erase_cons_head]
    simp
  · rename_i missing
    exact absurd present (locate_none missing)

/-! ### Descents -/

/-- The link position a search loop finds: `dir` decides at each node whether to
go left, or fails as a `BUG_ON` in the loop does. -/
def descend {ε : Type} (dir : α → Except ε Bool) :
    RbTree α → List (RbCrumb α) → Except ε (List (RbCrumb α))
  | .leaf, path => .ok path
  | .node c l v r, path =>
    match dir v with
    | .error e => .error e
    | .ok true => descend dir l (.left c v r :: path)
    | .ok false => descend dir r (.right c l v :: path)

/-- If `dir` does not fail on the tree and is monotone along its sequence, the
descent succeeds and its position splits the sequence at the boundary. -/
theorem descend_split {ε : Type} (dir : α → Except ε Bool) (goLeft : α → Bool)
    (agree : ∀ v ∈ t.inorder, dir v = .ok (goLeft v))
    (mono : t.inorder.Pairwise fun u v => goLeft u = true → goLeft v = true)
    (path : List (RbCrumb α)) :
    ∃ path' xs ys, descend dir t path = .ok path' ∧ t.inorder = xs ++ ys ∧
      before path' = before path ++ xs ∧ after path' = ys ++ after path ∧
      (∀ x ∈ xs, goLeft x = false) ∧ ∀ y ∈ ys, goLeft y = true := by
  induction t generalizing path with
  | leaf => exact ⟨path, [], [], by simp [descend]⟩
  | node c l v r ihl ihr =>
    simp only [inorder_node, List.mem_append, List.mem_cons] at agree
    rw [inorder_node, List.pairwise_append, List.pairwise_cons] at mono
    obtain ⟨monoL, ⟨fromV, monoR⟩, across⟩ := mono
    have dirV := agree v (.inr (.inl rfl))
    cases side : goLeft v with
    | true =>
      obtain ⟨path', xs, ys, run, seq, left, right, low, high⟩ :=
        ihl (fun u hu => agree u (.inl hu)) monoL (.left c v r :: path)
      refine ⟨path', xs, ys ++ v :: r.inorder, ?_, ?_, ?_, ?_, low, ?_⟩
      · simp [descend, dirV, side, run]
      · simp [seq]
      · simpa using left
      · simpa using right
      · grind
    | false =>
      obtain ⟨path', xs, ys, run, seq, left, right, low, high⟩ :=
        ihr (fun u hu => agree u (.inr (.inr hu))) monoR (.right c l v :: path)
      refine ⟨path', l.inorder ++ v :: xs, ys, ?_, ?_, ?_, ?_, ?_, high⟩
      · simp [descend, dirV, side, run]
      · simp [seq]
      · simpa using left
      · simpa using right
      · grind

end RbTree
end AndroidKernel.Lib
