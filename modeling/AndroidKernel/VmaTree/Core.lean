import AndroidKernel.Lib.Hoare

/-!
The reverse map of `mm/prio_tree.c`.

One vma of each range is a node of the priority search tree of the file, the others are
on a list that the tree node points to. The links of the tree and of the list share
their place: `next` and `prev` of the list are `left` and `right` of the tree node, and
`parent` is the same word in both. Of the tree itself the model has the set of its
nodes: an operation on it leaves arbitrary links in the nodes, a parent always among
them.
-/

namespace AndroidKernel.VmaTree

open Lib

abbrev Word := BitVec 32

abbrev Ptr := BitVec 32

structure Vma where
  vmStart : Word
  vmEnd : Word
  vmPgoff : Word
  next : Ptr
  prev : Ptr
  parent : Ptr
  head : Ptr
deriving DecidableEq

def Vma.radixIndex (v : Vma) : Word := v.vmPgoff

/-- `VMA_SIZE` -/
def Vma.size (v : Vma) : Word := (v.vmEnd - v.vmStart) >>> 12

def Vma.heapIndex (v : Vma) : Word := v.vmPgoff + (v.size - 1)

/-- The place of the vma and of its pages in the file. -/
def Vma.range (v : Vma) : Word × Word × Word := (v.vmStart, v.vmEnd, v.vmPgoff)

/-- The vmas map the same pages. -/
def Vma.Same (v w : Vma) : Prop := v.radixIndex = w.radixIndex ∧ v.heapIndex = w.heapIndex

instance decidableSame (v w : Vma) : Decidable (v.Same w) := inferInstanceAs (Decidable (_ ∧ _))

abbrev Memory := Ptr → Vma

structure State where
  mem : Memory
  /-- the nodes of the priority search tree -/
  tree : List Ptr

inductive Bug where
  | radixIndex
  | heapIndex
  /-- the `BUG_ON` on the head of the head -/
  | headOfHead
  | nullDereference
  /-- a vma is taken out of a tree that it is not in -/
  | notInTree
deriving DecidableEq, Repr

abbrev Prog := StateT State (Except Bug)

def load (p : Ptr) : Prog Vma := do
  if p = 0 then throw .nullDereference
  else return (← get).mem p

def change (p : Ptr) (f : Vma → Vma) : Prog Unit := do
  if p = 0 then throw .nullDereference
  else modify fun st => { st with mem := Function.update st.mem p (f (st.mem p)) }

def setNext (p v : Ptr) : Prog Unit := change p fun x => { x with next := v }

def setPrev (p v : Ptr) : Prog Unit := change p fun x => { x with prev := v }

def setHead (p v : Ptr) : Prog Unit := change p fun x => { x with head := v }

/-! ### Lists -/

def initListHead (list : Ptr) : Prog Unit := do
  setNext list list
  setPrev list list

/-- `__list_add` -/
def listLink (new prev next : Ptr) : Prog Unit := do
  setPrev next new
  setNext new next
  setPrev new prev
  setNext prev new

def listAdd (new head : Ptr) : Prog Unit := do
  listLink new head (← load head).next

def listAddTail (new head : Ptr) : Prog Unit := do
  listLink new (← load head).prev head

/-- `__list_del` -/
def listUnlink (prev next : Ptr) : Prog Unit := do
  setPrev next prev
  setNext prev next

def listDelInit (entry : Ptr) : Prog Unit := do
  let x ← load entry
  listUnlink x.prev x.next
  initListHead entry

def listEmpty (head : Ptr) : Prog Bool := do
  return (← load head).next = head

/-! ### The priority search tree -/

/-- The links that an operation on the tree leaves in its nodes. -/
structure Shape where
  left : Ptr → Ptr
  right : Ptr → Ptr
  parent : Ptr → Ptr
  linked : ∀ n, parent n ≠ 0

/-- The links of the nodes are written. -/
def arrange (shape : Shape) (nodes : List Ptr) (mem : Memory) : Memory := fun n =>
  if n ∈ nodes then
    { mem n with next := shape.left n, prev := shape.right n, parent := shape.parent n }
  else mem n

/-- The node of the range that is in the tree, or the new one. -/
def rawPrioTreeInsert (shape : Shape) (node : Ptr) : Prog Ptr := do
  let st ← get
  match st.tree.find? fun cur => (st.mem cur).Same (st.mem node) with
  | some cur => return cur
  | none =>
    set (⟨arrange shape (node :: st.tree) st.mem, node :: st.tree⟩ : State)
    return node

def rawPrioTreeRemove (shape : Shape) (node : Ptr) : Prog Unit := do
  let st ← get
  if node ∈ st.tree then set (⟨arrange shape st.tree st.mem, st.tree.erase node⟩ : State)
  else throw .notInTree

def rawPrioTreeReplace (shape : Shape) (old node : Ptr) : Prog Unit := do
  let st ← get
  if old ∈ st.tree then
    set (⟨arrange shape (node :: st.tree) st.mem, node :: st.tree.erase old⟩ : State)
  else throw .notInTree

/-! ### Vmas -/

def vmaPrioTreeAdd (vma old : Ptr) : Prog Unit := do
  if (← load vma).radixIndex ≠ (← load old).radixIndex then throw .radixIndex
  else if (← load vma).heapIndex ≠ (← load old).heapIndex then throw .heapIndex
  else
    change vma fun x => { x with head := 0, parent := 0 }
    let o ← load old
    if o.parent = 0 then listAdd vma old
    else if o.head ≠ 0 then listAddTail vma o.head
    else
      initListHead vma
      setHead vma old
      setHead old vma

def vmaPrioTreeInsert (shape : Shape) (vma : Ptr) : Prog Unit := do
  setHead vma 0
  let ptr ← rawPrioTreeInsert shape vma
  ifThen (ptr ≠ vma) (vmaPrioTreeAdd vma ptr)

/-- The head of the list takes the place of the tree node. -/
def replaceNode (shape : Shape) (vma head : Ptr) : Prog Unit := do
  if ← listEmpty head then
    rawPrioTreeReplace shape vma head
    setHead head 0
  else
    let newHead := (← load head).next
    listDelInit head
    rawPrioTreeReplace shape vma head
    setHead head newHead
    ifThen (newHead ≠ 0) (setHead newHead head)

/-- The next vma on the list becomes its head. -/
def removeHead (vma node : Ptr) : Prog Unit := do
  if ← listEmpty vma then setHead node 0
  else
    let newHead := (← load vma).next
    listDelInit vma
    setHead node newHead
    setHead newHead node

def vmaPrioTreeRemove (shape : Shape) (vma : Ptr) : Prog Unit := do
  let x ← load vma
  if x.head = 0 then
    if x.parent = 0 then listDelInit vma
    else rawPrioTreeRemove shape vma
  else if (← load x.head).head ≠ vma then throw .headOfHead
  else if x.parent ≠ 0 then replaceNode shape vma x.head
  else removeHead vma x.head

/-- What `prio_tree_next` has still to return. -/
abbrev Iter := List Ptr

def prioTreeNext : Iter → Ptr × Iter
  | [] => (0, [])
  | ptr :: iter => (ptr, iter)

def vmaPrioTreeNext (mem : Memory) (vma : Ptr) (iter : Iter) : Ptr × Iter :=
  if vma = 0 then prioTreeNext iter
  else if (mem vma).parent ≠ 0 then
    if (mem vma).head ≠ 0 then ((mem vma).head, iter) else prioTreeNext iter
  else if (mem (mem vma).next).head = 0 then ((mem vma).next, iter)
  else prioTreeNext iter

/-- `while ((vma = vma_prio_tree_next(vma, iter)))`: the vmas that are returned, if it
ends within the rounds. -/
def iterate (mem : Memory) : Nat → Ptr → Iter → Option (List Ptr)
  | 0, _, _ => none
  | rounds + 1, vma, iter =>
    let (next, iter) := vmaPrioTreeNext mem vma iter
    if next = 0 then some [] else (next :: ·) <$> iterate mem rounds next iter

end AndroidKernel.VmaTree
