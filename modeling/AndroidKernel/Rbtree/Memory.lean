import AndroidKernel.Lib.Hoare
import AndroidKernel.Lib.RbBalance

/-!
The red-black trees of `lib/rbtree.c` in memory.

A node is three words: the parent's address with the colour in its lowest bit,
and the two children. Reading or writing through a null pointer is a fault. The
two rotations are mirror images, and so are the two halves of a round of each
rebalancing loop, so each pair is one program over a side. A loop that is not
through after `maxRounds` rounds is a fault too.
-/

namespace AndroidKernel.Rbtree

open Lib BitVec

/-! ### Nodes -/

/-- The address of a node, or null. Nodes are aligned to a word. -/
structure Ptr where
  addr : BitVec 32
  aligned : addr &&& 3 = 0
deriving DecidableEq, Repr

def null : Ptr := ⟨0, rfl⟩

structure RbNode where
  rbParentColor : BitVec 32
  rbRight : Ptr
  rbLeft : Ptr
deriving DecidableEq, Repr

theorem mask_aligned (w : BitVec 32) : (w &&& ~~~3) &&& 3 = 0 := by
  rw [BitVec.and_assoc]
  simp

namespace RbNode

def rbParent (r : RbNode) : Ptr := ⟨r.rbParentColor &&& ~~~3, mask_aligned _⟩

def rbColor (r : RbNode) : RbColor := if r.rbParentColor &&& 1 = 0 then .red else .black

def rbSetRed (r : RbNode) : RbNode := { r with rbParentColor := r.rbParentColor &&& ~~~1 }

def rbSetBlack (r : RbNode) : RbNode := { r with rbParentColor := r.rbParentColor ||| 1 }

def rbSetParent (p : Ptr) (r : RbNode) : RbNode :=
  { r with rbParentColor := (r.rbParentColor &&& 3) ||| p.addr }

/-- `RB_RED` and `RB_BLACK`. -/
def colorBit : RbColor → BitVec 32
  | .red => 0
  | .black => 1

def rbSetColor (c : RbColor) (r : RbNode) : RbNode :=
  { r with rbParentColor := (r.rbParentColor &&& ~~~1) ||| colorBit c }

/-! The parent and the colour share a word and do not disturb each other. -/

variable (c : RbColor) (p : Ptr) (i : Nat) (r : RbNode)

theorem getLsbD_aligned : (p.addr.getLsbD i && (3#32).getLsbD i) = false := by
  rw [← getLsbD_and, show p.addr &&& 3#32 = 0#32 from p.aligned, getLsbD_zero]

theorem getLsbD_one : ((1#32).getLsbD i && (3#32).getLsbD i) = (1#32).getLsbD i := by
  rw [← getLsbD_and]
  rfl

theorem rbSetRed_eq : r.rbSetRed = r.rbSetColor .red := by
  simp [rbSetRed, rbSetColor, colorBit]

theorem rbSetBlack_eq : r.rbSetBlack = r.rbSetColor .black := by
  simp only [rbSetBlack, rbSetColor, colorBit, mk.injEq, and_true]
  apply eq_of_getLsbD_eq
  intro i bound
  simp only [getLsbD_and, getLsbD_or, getLsbD_not, bound, decide_true, Bool.true_and]
  cases getLsbD 1 i <;> simp

@[simp] theorem rbParent_rbSetParent : (r.rbSetParent p).rbParent = p := by
  rw [rbParent, Ptr.mk.injEq]
  apply eq_of_getLsbD_eq
  intro i bound
  have low := getLsbD_aligned p i
  simp only [rbSetParent, getLsbD_and, getLsbD_or, getLsbD_not, bound,
    decide_true, Bool.true_and]
  revert low
  cases p.addr.getLsbD i <;> cases getLsbD 3 i <;> cases r.rbParentColor.getLsbD i <;> simp

@[simp] theorem rbParent_rbSetColor : (r.rbSetColor c).rbParent = r.rbParent := by
  rw [rbParent, rbParent, Ptr.mk.injEq]
  apply eq_of_getLsbD_eq
  intro i bound
  have low := getLsbD_one i
  simp only [rbSetColor, getLsbD_and, getLsbD_or, getLsbD_not, bound,
    decide_true, Bool.true_and]
  revert low
  cases c <;> simp only [colorBit] <;> cases getLsbD 1 i <;>
    cases getLsbD 3 i <;> simp

@[simp] theorem rbColor_rbSetParent : (r.rbSetParent p).rbColor = r.rbColor := by
  have word : (r.rbSetParent p).rbParentColor &&& 1 = r.rbParentColor &&& 1 := by
    apply eq_of_getLsbD_eq
    intro i bound
    have low := getLsbD_aligned p i
    have one := getLsbD_one i
    simp only [rbSetParent, getLsbD_and, getLsbD_or]
    revert low one
    cases p.addr.getLsbD i <;> cases getLsbD 1 i <;> cases getLsbD 3 i <;> simp
  rw [rbColor, rbColor, word]

@[simp] theorem rbColor_rbSetColor : (r.rbSetColor c).rbColor = c := by
  have word : (r.rbSetColor c).rbParentColor &&& 1 = colorBit c := by
    apply eq_of_getLsbD_eq
    intro i bound
    simp only [rbSetColor, getLsbD_and, getLsbD_or, getLsbD_not, bound,
      decide_true, Bool.true_and]
    cases c <;> simp only [colorBit] <;> cases getLsbD 1 i <;> simp
  rw [rbColor, word]
  cases c <;> rfl

/-- The word that `rb_link_node` stores. -/
theorem link_word (right left : Ptr) :
    (⟨p.addr, right, left⟩ : RbNode) = RbNode.rbSetParent p ⟨0, right, left⟩ := by
  simp [rbSetParent]

end RbNode

def RbNode.child : Side → RbNode → Ptr
  | .left => RbNode.rbLeft
  | .right => RbNode.rbRight

def RbNode.setChild (side : Side) (p : Ptr) (r : RbNode) : RbNode :=
  match side with
  | .left => { r with rbLeft := p }
  | .right => { r with rbRight := p }

namespace RbNode

section

variable (side : Side) (p : Ptr) (r : RbNode)

include side p r

@[simp] theorem child_setChild : (r.setChild side p).child side = p := by
  cases side <;> rfl

@[simp] theorem child_setChild_other :
    (r.setChild side p).child side.other = r.child side.other := by
  cases side <;> rfl

@[simp] theorem child_other_setChild : (r.setChild side.other p).child side = r.child side := by
  cases side <;> rfl

@[simp] theorem rbParent_setChild : (r.setChild side p).rbParent = r.rbParent := by
  cases side <;> rfl

@[simp] theorem rbColor_setChild : (r.setChild side p).rbColor = r.rbColor := by
  cases side <;> rfl

@[simp] theorem child_rbSetParent : (r.rbSetParent p).child side = r.child side := by
  cases side <;> rfl

end

@[simp] theorem child_rbSetColor (side : Side) (c : RbColor) (r : RbNode) :
    (r.rbSetColor c).child side = r.child side := by
  cases side <;> rfl

end RbNode

/-! ### Programs -/

/-- A memory of nodes and one `struct rb_root`. -/
structure RbState where
  node : Ptr → RbNode
  root : Ptr

inductive Fault where
  | nullDereference
  | endless
deriving DecidableEq, Repr

abbrev Prog := StateT RbState (Except Fault)

def RbState.update (s : RbState) (p : Ptr) (f : RbNode → RbNode) : RbState :=
  { s with node := Function.update s.node p (f (s.node p)) }

def load (p : Ptr) : Prog RbNode := do
  if p = null then throw .nullDereference
  else return (← get).node p

def change (p : Ptr) (f : RbNode → RbNode) : Prog Unit := do
  if p = null then throw .nullDereference
  else modify fun s => s.update p f

def getRoot : Prog Ptr := do return (← get).root

def setRoot (p : Ptr) : Prog Unit := modify fun s => { s with root := p }

def loadChild (side : Side) (p : Ptr) : Prog Ptr := RbNode.child side <$> load p

def loadParent (p : Ptr) : Prog Ptr := RbNode.rbParent <$> load p

def loadColor (p : Ptr) : Prog RbColor := RbNode.rbColor <$> load p

/-- `p && rb_is_red(p)`. -/
def presentRed (p : Ptr) : Prog Bool :=
  if p = null then pure false else (fun c => decide (c = .red)) <$> loadColor p

/-- Make the parent, or the root when there is none, point to `new` in place of
`old`. The rotation to the right looks at the right child first. -/
def changeChild (side : Side) (old new parent : Ptr) : Prog Unit := do
  if parent = null then setRoot new
  else
    let first ← loadChild side parent
    if old = first then change parent (.setChild side new)
    else change parent (.setChild side.other new)

/-! ### Rotations -/

/-- Written for the rotation to the left: `right` is the child on the other side. -/
def rotate (side : Side) (node : Ptr) : Prog Unit := do
  let right ← loadChild side.other node
  let parent ← loadParent node
  let inner ← loadChild side right
  change node (.setChild side.other inner)
  ifThen (inner ≠ null) do
    let inner ← loadChild side right
    change inner (.rbSetParent node)
  change right (.setChild side node)
  change right (.rbSetParent parent)
  changeChild side node right parent
  change node (.rbSetParent right)

def rbRotateLeft (node : Ptr) : Prog Unit := rotate .left node

def rbRotateRight (node : Ptr) : Prog Unit := rotate .right node

/-! ### Insertion -/

/-- Where a new node goes: into an empty root, or under a node. -/
inductive Place where
  | root
  | child (side : Side) (parent : Ptr)
deriving DecidableEq, Repr

def Place.parent : Place → Ptr
  | .root => null
  | .child _ parent => parent

def rbLinkNode (node : Ptr) (place : Place) : Prog Unit := do
  change node fun _ => { rbParentColor := place.parent.addr, rbRight := null, rbLeft := null }
  match place with
  | .root => setRoot node
  | .child side parent => change parent (.setChild side node)

/-- The body of the loop of `rb_insert_color`, for a parent that is the child on
`side` of the grandparent. Returns the node of the next round. -/
def insertRound (side : Side) (node parent gparent : Ptr) : Prog Ptr := do
  let uncle ← loadChild side.other gparent
  let uncleRed ← presentRed uncle
  if uncleRed then
    change uncle .rbSetBlack
    change parent .rbSetBlack
    change gparent .rbSetRed
    return gparent
  else
    let inner ← loadChild side.other parent
    if inner = node then
      rotate side parent
      change node .rbSetBlack
      change gparent .rbSetRed
      rotate side.other gparent
      return parent
    else
      change parent .rbSetBlack
      change gparent .rbSetRed
      rotate side.other gparent
      return node

/-- A bound on the rounds of the loops. -/
def maxRounds : Nat := 64

def insertLoop : Nat → Ptr → Prog Unit
  | 0, _ => throw .endless
  | rounds + 1, node => do
    let parent ← loadParent node
    let parentRed ← presentRed parent
    if parentRed then
      let gparent ← loadParent parent
      let left ← loadChild .left gparent
      let next ← insertRound (if parent = left then .left else .right) node parent gparent
      insertLoop rounds next
    else return

def rbInsertColor (node : Ptr) : Prog Unit := do
  insertLoop maxRounds node
  let root ← getRoot
  change root .rbSetBlack

/-! ### Erasure -/

/-- The sibling of a node that lacks a black, after a red one was rotated away. -/
def blackSibling (side : Side) (parent : Ptr) : Prog Ptr := do
  let other ← loadChild side.other parent
  let color ← loadColor other
  if color = .red then
    change other .rbSetBlack
    change parent .rbSetRed
    rotate side parent
    loadChild side.other parent
  else return other

/-- The sibling once its child on the far side is red. -/
def redFarChild (side : Side) (parent other : Ptr) : Prog Ptr := do
  let far ← loadChild side.other other
  let farRed ← presentRed far
  if farRed then return other
  else
    let near ← loadChild side other
    ifThen (near ≠ null) (change near .rbSetBlack)
    change other .rbSetRed
    rotate side.other other
    loadChild side.other parent

/-- Whether no child is red. -/
def noRedChild (other : Ptr) : Prog Bool := do
  let left ← loadChild .left other
  let leftRed ← presentRed left
  let right ← loadChild .right other
  let rightRed ← presentRed right
  return !leftRed && !rightRed

/-- The last rotation, for a sibling whose child on the far side is red. -/
def settle (side : Side) (parent other : Ptr) : Prog Unit := do
  let color ← loadColor parent
  change other (.rbSetColor color)
  change parent .rbSetBlack
  let far ← loadChild side.other other
  ifThen (far ≠ null) (change far .rbSetBlack)
  rotate side parent

/-- A round beside a sibling that is not red. Returns the node and parent of the
next round, or nothing when the loop is left. -/
def eraseBeside (side : Side) (parent other : Ptr) : Prog (Option (Ptr × Ptr)) := do
  let noRed ← noRedChild other
  if noRed then
    change other .rbSetRed
    let gparent ← loadParent parent
    return some (parent, gparent)
  else
    let other ← redFarChild side parent other
    settle side parent other
    return none

/-- The body of the loop of `__rb_erase_color`, for a node that is the child on
`side` of the parent. -/
def eraseRound (side : Side) (parent : Ptr) : Prog (Option (Ptr × Ptr)) := do
  let other ← blackSibling side parent
  eraseBeside side parent other

def eraseLoop : Nat → Ptr → Ptr → Prog Ptr
  | 0, _, _ => throw .endless
  | rounds + 1, node, parent => do
    let nodeRed ← presentRed node
    let root ← getRoot
    if !nodeRed && node ≠ root then
      let left ← loadChild .left parent
      let next ← eraseRound (if node = left then .left else .right) parent
      match next with
      | some (node, parent) => eraseLoop rounds node parent
      | none => getRoot
    else return node

def rbEraseColor (node parent : Ptr) : Prog Unit := do
  let node ← eraseLoop maxRounds node parent
  ifThen (node ≠ null) (change node .rbSetBlack)

/-- `while ((left = node->rb_left) != NULL) node = left;` -/
def leftmost : Nat → Ptr → Prog Ptr
  | 0, _ => throw .endless
  | rounds + 1, node => do
    let left ← loadChild .left node
    if left = null then return node else leftmost rounds left

/-- The end of `rb_erase` for a node with at most one child. -/
def eraseSimple (node child : Ptr) : Prog Unit := do
  let parent ← loadParent node
  let color ← loadColor node
  ifThen (child ≠ null) (change child (.rbSetParent parent))
  changeChild .left node child parent
  ifThen (color = .black) (rbEraseColor child parent)

/-- Put `node` where `old` was, with its colour, parent and children. -/
def takePlace (old node : Ptr) : Prog Unit := do
  let cell ← load old
  change node fun _ => cell
  let parent ← loadParent old
  changeChild .left old node parent
  let left ← loadChild .left old
  change left (.rbSetParent node)
  let right ← loadChild .right old
  ifThen (right ≠ null) (change right (.rbSetParent node))

/-- The end of `rb_erase` for a node `old` with two children: its successor
`node` is taken out and put in its place. -/
def eraseSuccessor (old node : Ptr) : Prog Unit := do
  let child ← loadChild .right node
  let parent ← loadParent node
  let color ← loadColor node
  ifThen (child ≠ null) (change child (.rbSetParent parent))
  change parent (.setChild (if parent = old then .right else .left) child)
  takePlace old node
  ifThen (color = .black) (rbEraseColor child (if parent = old then node else parent))

def rbErase (node : Ptr) : Prog Unit := do
  let left ← loadChild .left node
  let right ← loadChild .right node
  if left = null then eraseSimple node right
  else if right = null then eraseSimple node left
  else
    let successor ← leftmost maxRounds right
    eraseSuccessor node successor

end AndroidKernel.Rbtree
