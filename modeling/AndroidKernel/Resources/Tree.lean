import AndroidKernel.Lib.Hoare

/-!
The resource tree of `kernel/resource.c`.

A resource is a cell of a memory addressed by words, with 0 for the null pointer.
Its range is from `start` to `stop`, the field `end` of the source, both included.
The children of a resource form a list: `child` points to the first, `sibling` to
the next. Where the source walks with a pointer to a link, the model has a `Link`.
-/

namespace AndroidKernel.Resources

open Lib

abbrev Ptr := BitVec 32

/-- `resource_size_t` -/
abbrev Size := BitVec 32

structure Resource where
  start : Size
  stop : Size
  parent : Ptr
  sibling : Ptr
  child : Ptr
deriving DecidableEq

abbrev Memory := Ptr → Resource

inductive Fault where
  | nullDereference
  | endless
deriving DecidableEq, Repr

abbrev Prog := StateT Memory (Except Fault)

def load (p : Ptr) : Prog Resource := do
  if p = 0 then throw .nullDereference
  else return (← get) p

def change (p : Ptr) (f : Resource → Resource) : Prog Unit := do
  if p = 0 then throw .nullDereference
  else modify fun mem => Function.update mem p (f (mem p))

/-- A field that points to a resource. -/
inductive Link where
  | child (p : Ptr)
  | sibling (p : Ptr)
deriving DecidableEq, Repr

def loadLink : Link → Prog Ptr
  | .child p => do return (← load p).child
  | .sibling p => do return (← load p).sibling

def storeLink (a : Ptr) : Link → Prog Unit
  | .child p => change p fun x => { x with child := a }
  | .sibling p => change p fun x => { x with sibling := a }

/-- A bound on the rounds of loops along a list or down a path, of which there are
less than pointers. -/
def maxRounds : Nat := 2 ^ 32

/-! ### Request and release -/

def requestLoop : Nat → Link → Ptr → Ptr → Size → Size → Prog Ptr
  | 0, _, _, _, _, _ => throw .endless
  | rounds + 1, p, root, new, start, stop => do
    let tmp ← loadLink p
    let place : Prog Ptr := do
      change new fun x => { x with sibling := tmp }
      storeLink new p
      change new fun x => { x with parent := root }
      return 0
    if tmp = 0 then place
    else
      let t ← load tmp
      if stop < t.start then place
      else if t.stop < start then requestLoop rounds (.sibling tmp) root new start stop
      else return tmp

/-- `__request_resource`: the conflicting resource, or null. -/
def rawRequestResource (root new : Ptr) : Prog Ptr := do
  let n ← load new
  if n.stop < n.start then return root
  else
    let r ← load root
    if n.start < r.start then return root
    else if r.stop < n.stop then return root
    else requestLoop maxRounds (.child root) root new n.start n.stop

inductive Answer where
  | ok
  | ebusy
  | einval
  | fault (fault : Fault)
deriving DecidableEq, Repr

/-- What is reported when there is a conflict. -/
def ofConflict (conflict : Ptr) : Answer := if conflict = 0 then .ok else .ebusy

def requestResource (root new : Ptr) : Prog Answer := do
  let conflict ← rawRequestResource root new
  return ofConflict conflict

def releaseLoop : Nat → Link → Ptr → Prog Answer
  | 0, _, _ => throw .endless
  | rounds + 1, p, old => do
    let tmp ← loadLink p
    if tmp = 0 then return .einval
    else if tmp = old then
      let t ← load tmp
      storeLink t.sibling p
      change old fun x => { x with parent := 0 }
      return .ok
    else releaseLoop rounds (.sibling tmp) old

/-- `__release_resource` -/
def releaseResource (old : Ptr) : Prog Answer := do
  let o ← load old
  releaseLoop maxRounds (.child o.parent) old

/-! ### Allocation -/

/-- The macro `ALIGN`. -/
def align (x a : Size) : Size := (x + (a - 1)) &&& ~~~(a - 1)

/-- The range that an alignment function of the caller gives the resource, for a size
and an alignment. -/
abbrev Alignf := Resource → Size → Size → Size × Size

structure Demand where
  size : Size
  min : Size
  max : Size
  align : Size
  alignf : Option Alignf

/-- The range of `new` is cut to the bounds and aligned. -/
def fitRange (new : Ptr) (d : Demand) : Prog Unit := do
  let n ← load new
  ifThen (n.start < d.min) (change new fun x => { x with start := d.min })
  let n ← load new
  ifThen (d.max < n.stop) (change new fun x => { x with stop := d.max })
  change new fun x => { x with start := align x.start d.align }
  ifSome d.alignf fun alignf => change new fun x =>
    { x with start := (alignf x d.size d.align).1, stop := (alignf x d.size d.align).2 }

def findLoop : Nat → Ptr → Ptr → Ptr → Demand → Prog Bool
  | 0, _, _, _, _ => throw .endless
  | rounds + 1, root, new, this, d => do
    if this = 0 then
      let r ← load root
      change new fun x => { x with stop := r.stop }
    else
      let t ← load this
      change new fun x => { x with stop := t.start - 1 }
    fitRange new d
    let n ← load new
    if n.start < n.stop ∧ d.size - 1 ≤ n.stop - n.start then
      change new fun x => { x with stop := x.start + d.size - 1 }
      return true
    else if this = 0 then return false
    else
      let t ← load this
      change new fun x => { x with start := t.stop + 1 }
      findLoop rounds root new t.sibling d

/-- `find_resource`: is there room, and if so with the range of `new` set to it. -/
def findResource (root new : Ptr) (d : Demand) : Prog Bool := do
  let r ← load root
  change new fun x => { x with start := r.start }
  if r.child = 0 then findLoop maxRounds root new 0 d
  else
    let t ← load r.child
    if t.start = 0 then
      -- the end before it would be -1
      change new fun x => { x with start := t.stop + 1 }
      findLoop maxRounds root new t.sibling d
    else findLoop maxRounds root new r.child d

def allocateResource (root new : Ptr) (d : Demand) : Prog Answer := do
  let found ← findResource root new d
  if found then requestResource root new
  else return .ebusy

/-! ### Insertion -/

/-- How the way down to the place of a new resource ends. -/
inductive Descent where
  | placed
  | conflict (p : Ptr)
  | above (parent first : Ptr)

def descendLoop : Nat → Ptr → Ptr → Prog Descent
  | 0, _, _ => throw .endless
  | rounds + 1, parent, new => do
    let first ← rawRequestResource parent new
    if first = 0 then return .placed
    else if first = parent then return .conflict first
    else
      let f ← load first
      let n ← load new
      if n.start < f.start ∨ f.stop < n.stop then return .above parent first
      else if f.start = n.start ∧ f.stop = n.stop then return .above parent first
      else descendLoop rounds first new

/-- The last of the siblings that the new range covers, or one that it covers in
part. -/
def coverLoop : Nat → Ptr → Ptr → Prog (Except Ptr Ptr)
  | 0, _, _ => throw .endless
  | rounds + 1, next, new => do
    let x ← load next
    let n ← load new
    -- partial overlap? bad, and unfixable
    if x.start < n.start ∨ n.stop < x.stop then return .error next
    else if x.sibling = 0 then return .ok next
    else
      let y ← load x.sibling
      if n.stop < y.start then return .ok next
      else coverLoop rounds x.sibling new

def reparentLoop : Nat → Ptr → Ptr → Prog Unit
  | 0, _, _ => throw .endless
  | rounds + 1, next, new => do
    if next = 0 then return
    else
      change next fun x => { x with parent := new }
      let x ← load next
      reparentLoop rounds x.sibling new

/-- The resource whose sibling is `target`, from `next` on. -/
def beforeLoop : Nat → Ptr → Ptr → Prog Ptr
  | 0, _, _ => throw .endless
  | rounds + 1, next, target => do
    let x ← load next
    if x.sibling = target then return next
    else beforeLoop rounds x.sibling target

/-- The siblings from `first` to `last` become the children of `new`. -/
def adopt (parent new first last : Ptr) : Prog Unit := do
  change new fun x => { x with parent := parent }
  let y ← load last
  change new fun x => { x with sibling := y.sibling }
  change new fun x => { x with child := first }
  change last fun x => { x with sibling := 0 }
  reparentLoop maxRounds first new
  let p ← load parent
  if p.child = first then change parent fun x => { x with child := new }
  else
    let next ← beforeLoop maxRounds p.child first
    change next fun x => { x with sibling := new }

/-- `__insert_resource`: the conflicting resource, or null. -/
def rawInsertResource (parent new : Ptr) : Prog Ptr := do
  match ← descendLoop maxRounds parent new with
  | .placed => return 0
  | .conflict p => return p
  | .above parent first =>
    match ← coverLoop maxRounds first new with
    | .error next => return next
    | .ok last =>
      adopt parent new first last
      return 0

def insertResource (parent new : Ptr) : Prog Answer := do
  let conflict ← rawInsertResource parent new
  return ofConflict conflict

def expandLoop : Nat → Ptr → Ptr → Prog Unit
  | 0, _, _ => throw .endless
  | rounds + 1, root, new => do
    let conflict ← rawInsertResource root new
    if conflict = 0 then return
    else if conflict = root then return
    else
      -- expand the resource to cover the conflict
      let c ← load conflict
      let n ← load new
      ifThen (c.start < n.start) (change new fun x => { x with start := c.start })
      let n ← load new
      ifThen (n.stop < c.stop) (change new fun x => { x with stop := c.stop })
      expandLoop rounds root new

/-- A bound on the rounds of `expandLoop`: each of them makes a range longer. -/
def expandRounds : Nat := 2 ^ 33

def insertResourceExpandToFit (root new : Ptr) : Prog Unit := do
  let n ← load new
  if n.parent ≠ 0 then return
  else expandLoop expandRounds root new

/-! ### Adjustment -/

/-- Do the children from `tmp` on lie in the range? -/
def childrenFit : Nat → Ptr → Size → Size → Prog Bool
  | 0, _, _, _ => throw .endless
  | rounds + 1, tmp, start, stop => do
    if tmp = 0 then return true
    else
      let t ← load tmp
      if t.start < start ∨ stop < t.stop then return false
      else childrenFit rounds t.sibling start stop

/-- Is the resource after `res` past the range? -/
def nextFits (sibling : Ptr) (stop : Size) : Prog Bool := do
  if sibling = 0 then return true
  else
    let y ← load sibling
    return decide (stop < y.start)

/-- Is the resource before `res` ahead of the range? -/
def prevFits (first res : Ptr) (start : Size) : Prog Bool := do
  if first = res then return true
  else
    let prev ← beforeLoop maxRounds first res
    let y ← load prev
    return decide (y.stop < start)

def adjustResource (res : Ptr) (start size : Size) : Prog Answer := do
  let r ← load res
  let stop := start + size - 1
  let p ← load r.parent
  if start < p.start ∨ p.stop < stop then return .ebusy
  else if ← childrenFit maxRounds r.child start stop then
    if ← nextFits r.sibling stop then
      if ← prevFits p.child res start then
        change res fun x => { x with start := start }
        change res fun x => { x with stop := stop }
        return .ok
      else return .ebusy
    else return .ebusy
  else return .ebusy

end AndroidKernel.Resources
