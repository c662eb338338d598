import AndroidKernel.Binder.State

/-!
Nodes and references: `binder_get_node` to `binder_dec_ref`.

A node is a local object of its process, a reference is another process's handle
on it. `internal_strong_refs` counts the references with a strong count,
`local_strong_refs` and `local_weak_refs` what the owner's buffers and the user
space of the owner hold.
-/

namespace AndroidKernel.Binder

open Lib

/-! ### Nodes -/

def binderGetNode (p ptr : Nat) : BinderM (Option Nat) := do
  let proc ← getProc p
  return lookupKey ptr proc.nodes

/-- `alloc` says whether `kzalloc` succeeds. -/
def binderNewNode (p ptr cookie : Nat) (alloc : Bool) : BinderM (Option Nat) := do
  let proc ← getProc p
  if (lookupKey ptr proc.nodes).isSome || !alloc then return none
  let n ← created .node
  putNode n { proc := some p, ptr := ptr, cookie := cookie }
  putProc p { proc with nodes := insertKey ptr n proc.nodes }
  return some n

/-- Whether `binder_inc_node` refuses a first internal strong reference. -/
def refusesStrong (contextMgrNode : Option Nat) (n : Nat) (node : BinderNode) (internal : Bool)
    (target : Option ListHead) : Bool :=
  internal && target.isNone && node.internalStrongRefs == 0 &&
    !(contextMgrNode == some n && node.hasStrongRef)

/-- The counter `binder_inc_node` and `binder_dec_node` change, changed by `f`. -/
def changeCounter (f : Int → BinderM Int) (node : BinderNode) (strong internal : Bool) :
    BinderM BinderNode := do
  if strong then
    if internal then
      return { node with internalStrongRefs := ← f node.internalStrongRefs }
    else return { node with localStrongRefs := ← f node.localStrongRefs }
  else if internal then return node
  else return { node with localWeakRefs := ← f node.localWeakRefs }

/-- `binder_inc_node`; the result is whether it returns 0. -/
def binderIncNode (n : Nat) (strong internal : Bool) (target : Option ListHead) : BinderM Bool := do
  let node ← getNode n
  if strong then
    if refusesStrong (← get).contextMgrNode n node internal target then return false
    putNode n (← changeCounter incr node true internal)
    match target with
    | none => return true
    | some h =>
      if node.hasStrongRef then return true
      unlinkNode n
      queueNode n h
      return true
  else
    putNode n (← changeCounter incr node false internal)
    if node.hasWeakRef || node.entry.isSome then return true
    match target with
    | none => return false
    | some h =>
      queueNode n h
      return true

/-- `kfree(node)`, with its entry in the statistics. -/
def freeNode (n : Nat) (releasing : Bool) : BinderM Unit := do
  let node ← getNode n
  modify (·.setNode n none)
  deleted .node
  observe (.nodeFreed n node releasing)

/-- `rb_erase(&node->rb_node, &proc->nodes)`. -/
def eraseNode (p n : Nat) (node : BinderNode) : BinderM Unit := do
  let proc ← getProc p
  putProc p { proc with nodes := proc.nodes.erase (node.ptr, n) }

/-- What `binder_dec_node` does once the counter is down and nothing it looks at
keeps the node: the owner is told, or the node goes. -/
def releaseNode (n : Nat) : BinderM Unit := do
  let node ← getNode n
  match node.proc with
  | some p =>
    if node.hasStrongRef || node.hasWeakRef then
      if node.entry.isNone then queueNode n (.procTodo p)
    else if node.refs.isEmpty && node.localStrongRefs == 0 && node.localWeakRefs == 0 then
      unlinkNode n
      eraseNode p n node
      freeNode n false
  | none =>
    if node.refs.isEmpty && node.localStrongRefs == 0 && node.localWeakRefs == 0 then
      unlinkNode n
      freeNode n false

/-- Whether `binder_dec_node` returns after the counter: something of the same
kind still holds the node. -/
def BinderNode.held (node : BinderNode) (strong : Bool) : Bool :=
  if strong then node.localStrongRefs != 0 || node.internalStrongRefs != 0
  else node.localWeakRefs != 0 || !node.refs.isEmpty

def binderDecNode (n : Nat) (strong internal : Bool) : BinderM Unit := do
  let node ← changeCounter decr (← getNode n) strong internal
  putNode n node
  if node.held strong then return
  releaseNode n

/-! ### References -/

def binderGetRef (p desc : Nat) : BinderM (Option Nat) := do
  let proc ← getProc p
  return lookupKey desc proc.refsByDesc

/-- The search for a descriptor: the first gap in the descriptors from `desc` on. -/
def firstGap : Nat → List (Nat × Nat) → Nat
  | desc, [] => desc
  | desc, (d, _) :: l => if desc < d then desc else firstGap (d + 1) l

/-- `binder_get_ref_for_node`; `alloc` says whether `kzalloc` succeeds. -/
def binderGetRefForNode (p n : Nat) (alloc : Bool) : BinderM (Option Nat) := do
  let proc ← getProc p
  match lookupKey n proc.refsByNode with
  | some r => return some r
  | none =>
    if !alloc then return none
    let r ← created .ref
    let desc := firstGap (if (← get).contextMgrNode == some n then 0 else 1) proc.refsByDesc
    if (lookupKey desc proc.refsByDesc).isSome then throw (.bug .refDescDuplicate)
    putRef r { proc := p, node := n, desc := desc }
    putProc p { proc with
      refsByNode := insertKey n r proc.refsByNode
      refsByDesc := insertKey desc r proc.refsByDesc }
    let node ← getNode n
    putNode n { node with refs := r :: node.refs }
    return some r

/-- `kfree(death)`, with its entry in the statistics. -/
def freeDeath (d : Nat) : BinderM Unit := do
  let _ ← getDeath d
  modify (·.setDeath d none)
  deleted .death

def binderDeleteRef (r : Nat) : BinderM Unit := do
  let ref ← getRef r
  let proc ← getProc ref.proc
  putProc ref.proc { proc with
    refsByDesc := proc.refsByDesc.erase (ref.desc, r)
    refsByNode := proc.refsByNode.erase (ref.node, r) }
  ifThen (ref.strong ≠ 0) (binderDecNode ref.node true true)
  let node ← getNode ref.node
  putNode ref.node { node with refs := node.refs.erase r }
  binderDecNode ref.node false true
  ifSome ref.death fun d => do
    unlinkDeath d
    freeDeath d
  modify (·.setRef r none)
  deleted .ref

/-- The count of a reference that `strong` selects. -/
def BinderRef.count (ref : BinderRef) (strong : Bool) : Int :=
  if strong then ref.strong else ref.weak

def BinderRef.withCount (ref : BinderRef) (strong : Bool) (count : Int) : BinderRef :=
  if strong then { ref with strong := count } else { ref with weak := count }

/-- The first count of a reference also counts at the node. -/
def countAtNode (ref : BinderRef) (strong : Bool) (target : Option ListHead) : BinderM Bool :=
  if ref.count strong = 0 then binderIncNode ref.node strong true target else return true

/-- `binder_inc_ref`; the result is whether it returns 0. -/
def binderIncRef (r : Nat) (strong : Bool) (target : Option ListHead) : BinderM Bool := do
  let ref ← getRef r
  if !(← countAtNode ref strong target) then return false
  let count ← incr (ref.count strong)
  putRef r (ref.withCount strong count)
  return true

/-- `binder_dec_ref`. Its result is not used anywhere. -/
def binderDecRef (r : Nat) (strong : Bool) : BinderM Unit := do
  let ref ← getRef r
  if ref.count strong = 0 then return
  let count ← decr (ref.count strong)
  putRef r (ref.withCount strong count)
  ifThen (strong = true ∧ count = 0) (binderDecNode ref.node true true)
  let ref ← getRef r
  ifThen (ref.strong = 0 ∧ ref.weak = 0) (binderDeleteRef r)

end AndroidKernel.Binder
