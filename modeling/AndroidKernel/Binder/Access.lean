import AndroidKernel.Binder.AllocRuns
import AndroidKernel.Binder.Driver

/-!
Rules for the accesses of the model, and what the two functions on node counters
can do.

A pointer that is followed either leads to an object of its table or ends in a
use after free; everything else about these accesses is an update of one field
of the state. `binder_inc_node` and `binder_dec_node` have three outcomes each,
listed by `IncNode` and `DecNode`; the proofs about them go through these lists.
-/

namespace AndroidKernel.Binder

open Lib Function

variable {post : PUnit → BinderState → Prop} {p i : Nat} {h : ListHead} {α : Type}

/-- A function of the entries does not see a new one on which it has the same value. -/
theorem apply_update_same {ι β : Type} [DecidableEq ι] {g : α → β} {f : ι → α} {i : ι} {v : α}
    (same : g v = g (f i)) (j : ι) : g (update f i v j) = g (f j) := by
  by_cases isI : j = i
  · rw [isI, update_self, same]
  · rw [update_of_ne isI]

/-- Entries that are the same to a function are there together. -/
theorem exists_of_map_eq {β : Type} {g : α → β} {o o' : Option α} {x : α}
    (same : o.map g = o'.map g) (found : o = some x) : ∃ y, o' = some y ∧ g x = g y := by
  rw [found] at same
  obtain ⟨y, present, eq⟩ := Option.map_eq_some_iff.mp same.symm
  exact ⟨y, present, eq.symm⟩

/-- The `BUG`s that guard the stacks of calls. -/
def stackSites : List BugSite := [.popTransactionStack, .popTransactionFrom, .freeThreadStack]

/-- The `BUG`s that guard the death notifications. -/
def deathSites : List BugSite := [.clearDeathType, .releaseDeathQueued]

/-- A fault other than a `BUG` at one of `sites`. -/
def Avoids (sites : List BugSite) (f : Fault) : Prop := ∀ site ∈ sites, f ≠ .bug site

/-- The faults that functions outside these two groups may end in. -/
abbrev Quiet : Fault → Prop := Avoids (stackSites ++ deathSites)

section Faults

variable {sites : List BugSite}

@[simp] theorem avoids_useAfterFree (kind : ObjectKind) : Avoids sites (.useAfterFree kind) := by
  simp [Avoids]

/-- The fault of a reference to a freed object is no concern of `Avoids`. -/
theorem and_freed {p q : Prop} {kind : ObjectKind} :
    (p ∧ (q → Avoids sites (.useAfterFree kind))) ↔ p := by
  simp

@[simp] theorem avoids_intOverflow : Avoids sites .intOverflow := by simp [Avoids]

@[simp] theorem avoids_endlessLoop : Avoids sites .endlessLoop := by simp [Avoids]

@[simp] theorem avoids_nullPointer : Avoids sites .nullPointer := by simp [Avoids]

@[simp] theorem avoids_bug (site : BugSite) : Avoids sites (.bug site) ↔ site ∉ sites := by
  constructor
  · exact fun avoids mem => avoids site mem rfl
  · rintro absent other mem same
    cases same
    exact absent mem

theorem Avoids.mono {sites' : List BugSite} (sub : sites' ⊆ sites) {f : Fault}
    (avoids : Avoids sites f) : Avoids sites' f :=
  fun site mem => avoids site (sub mem)

theorem Avoids.stack {f : Fault} (quiet : Quiet f) : Avoids stackSites f :=
  quiet.mono (List.subset_append_left _ _)

end Faults

section Rules

variable {s : BinderState} {fault : Fault → Prop} {kind : ObjectKind}

@[simp] theorem wp_deref {post : α → BinderState → Prop} {table : BinderState → Nat → Option α} :
    wp (deref kind table i) post fault s ↔
      (∀ x, table s i = some x → post x s) ∧ (table s i = none → fault (.useAfterFree kind)) := by
  unfold deref
  rw [wp_bind, wp_get]
  cases found : table s i <;> simp

/-- The rule for programs that follow a pointer first. -/
theorem deref_then {β : Type} {table : BinderState → Nat → Option α} {k : α → BinderM β}
    {post : β → BinderState → Prop} {sites : List BugSite}
    (next : ∀ x, table s i = some x → wp (k x) post (Avoids sites) s) :
    wp (deref kind table i >>= k) post (Avoids sites) s := by
  rw [wp_bind, wp_deref, and_freed]
  exact next

@[simp] theorem wp_getProc {post : BinderProc → BinderState → Prop} :
    wp (getProc p) post fault s ↔
      (∀ x, s.procs p = some x → post x s) ∧ (s.procs p = none → fault (.useAfterFree .proc)) :=
  wp_deref

@[simp] theorem wp_getThread {post : BinderThread → BinderState → Prop} {th : Nat} :
    wp (getThread th) post fault s ↔
      (∀ x, s.threads th = some x → post x s) ∧
        (s.threads th = none → fault (.useAfterFree .thread)) :=
  wp_deref

@[simp] theorem wp_getNode {post : BinderNode → BinderState → Prop} {n : Nat} :
    wp (getNode n) post fault s ↔
      (∀ x, s.nodes n = some x → post x s) ∧ (s.nodes n = none → fault (.useAfterFree .node)) :=
  wp_deref

@[simp] theorem wp_getRef {post : BinderRef → BinderState → Prop} {r : Nat} :
    wp (getRef r) post fault s ↔
      (∀ x, s.refs r = some x → post x s) ∧ (s.refs r = none → fault (.useAfterFree .ref)) :=
  wp_deref

@[simp] theorem wp_getDeath {post : BinderRefDeath → BinderState → Prop} {d : Nat} :
    wp (getDeath d) post fault s ↔
      (∀ x, s.deaths d = some x → post x s) ∧ (s.deaths d = none → fault (.useAfterFree .death)) :=
  wp_deref

@[simp] theorem wp_getTransaction {post : BinderTransaction → BinderState → Prop} {t : Nat} :
    wp (getTransaction t) post fault s ↔
      (∀ x, s.transactions t = some x → post x s) ∧
        (s.transactions t = none → fault (.useAfterFree .transaction)) :=
  wp_deref

@[simp] theorem wp_putProc {x : BinderProc} :
    wp (putProc p x) post fault s ↔ post ⟨⟩ (s.setProc p (some x)) :=
  Iff.rfl

@[simp] theorem wp_putThread {th : Nat} {x : BinderThread} :
    wp (putThread th x) post fault s ↔ post ⟨⟩ (s.setThread th (some x)) :=
  Iff.rfl

@[simp] theorem wp_putNode {n : Nat} {x : BinderNode} :
    wp (putNode n x) post fault s ↔ post ⟨⟩ (s.setNode n (some x)) :=
  Iff.rfl

@[simp] theorem wp_putRef {r : Nat} {x : BinderRef} :
    wp (putRef r x) post fault s ↔ post ⟨⟩ (s.setRef r (some x)) :=
  Iff.rfl

@[simp] theorem wp_putDeath {d : Nat} {x : BinderRefDeath} :
    wp (putDeath d x) post fault s ↔ post ⟨⟩ (s.setDeath d (some x)) :=
  Iff.rfl

@[simp] theorem wp_putTransaction {t : Nat} {x : BinderTransaction} :
    wp (putTransaction t x) post fault s ↔ post ⟨⟩ (s.setTransaction t (some x)) :=
  Iff.rfl

@[simp] theorem wp_created {post : Nat → BinderState → Prop} :
    wp (created kind) post fault s ↔ post s.nextId { s with
      nextId := s.nextId + 1
      objCreated := update s.objCreated kind (s.objCreated kind + 1) } :=
  Iff.rfl

@[simp] theorem wp_deleted :
    wp (deleted kind) post fault s ↔ post ⟨⟩ { s with
      objDeleted := update s.objDeleted kind (s.objDeleted kind + 1) } :=
  Iff.rfl

@[simp] theorem wp_observe {obs : Obs} :
    wp (observe obs) post fault s ↔ post ⟨⟩ { s with trace := s.trace ++ [obs] } :=
  Iff.rfl

@[simp] theorem wp_listAddTail {w : Work} :
    wp (listAddTail w h) post fault s ↔ post ⟨⟩ (s.setWork h (s.work h ++ [w])) :=
  Iff.rfl

@[simp] theorem wp_listDel {w : Work} :
    wp (listDel w h) post fault s ↔ post ⟨⟩ (s.setWork h ((s.work h).erase w)) :=
  Iff.rfl

@[simp] theorem wp_incr {post : Int → BinderState → Prop} {x : Int} :
    wp (incr x) post fault s ↔
      (intMax ≤ x → fault .intOverflow) ∧ (¬intMax ≤ x → post (x + 1) s) := by
  unfold incr
  simp

@[simp] theorem wp_decr {post : Int → BinderState → Prop} {x : Int} :
    wp (decr x) post fault s ↔
      (x ≤ -intMax - 1 → fault .intOverflow) ∧ (¬x ≤ -intMax - 1 → post (x - 1) s) := by
  unfold decr
  simp

@[simp] theorem wp_binderGetRef {post : Option Nat → BinderState → Prop} {desc : Nat} :
    wp (binderGetRef p desc) post fault s ↔
      (∀ proc, s.procs p = some proc → post (lookupKey desc proc.refsByDesc) s) ∧
        (s.procs p = none → fault (.useAfterFree .proc)) := by
  unfold binderGetRef
  simp

end Rules

/-! ### Buffers -/

/-- The allocated buffer at `b` in the area of `p`. -/
def BinderState.buffer (s : BinderState) (p b : Nat) : Option BinderBuffer :=
  (s.procs p).bind fun proc => proc.alloc.bind fun a => a.live b

def BinderState.storeBuffer (s : BinderState) (p b : Nat) (f : BinderBuffer → BinderBuffer) :
    BinderState :=
  { s with procs := update s.procs p ((s.procs p).map fun proc =>
      { proc with alloc := proc.alloc.map (·.setHdr b f) }) }

section Buffers

variable {s : BinderState} {b : Nat} {sites : List BugSite}

theorem wp_getBuffer {post : BinderBuffer → BinderState → Prop} :
    wp (getBuffer p b) post (Avoids sites) s ↔ ∀ h, s.buffer p b = some h → post h s := by
  unfold getBuffer BinderState.buffer BinderAlloc.live
  rw [wp_bind, wp_getProc]
  cases s.procs p with
  | none => simp
  | some proc =>
    cases alloc : proc.alloc with
    | none => simp [alloc]
    | some a => by_cases taken : b ∈ a.buffers ∧ (a.hdr b).free = false <;> simp [alloc, taken]

theorem wp_putBuffer {f : BinderBuffer → BinderBuffer} :
    wp (putBuffer p b f) post (Avoids sites) s ↔
      ∀ h, s.buffer p b = some h → post ⟨⟩ (s.storeBuffer p b f) := by
  unfold putBuffer
  simp only [wp_bind, wp_getBuffer, wp_getProc, wp_putProc, and_freed]
  refine forall_congr' fun h => forall_congr' fun found => ?_
  cases present : s.procs p with
  | none => simp [BinderState.buffer, present] at found
  | some proc => simp [BinderState.setProc, BinderState.storeBuffer, present]

theorem buffer_storeBuffer {f : BinderBuffer → BinderBuffer} (free : ∀ h, (f h).free = h.free)
    (q c : Nat) : (s.storeBuffer p b f).buffer q c =
      if q = p ∧ c = b then (s.buffer p b).map f else s.buffer q c := by
  unfold BinderState.storeBuffer BinderState.buffer
  by_cases isP : q = p
  · subst isP
    cases s.procs q with
    | none => simp
    | some proc =>
      cases alloc : proc.alloc with
      | none => simp [alloc]
      | some a =>
        by_cases isB : c = b
        · subst isB
          by_cases taken : c ∈ a.buffers ∧ (a.hdr c).free = false <;>
            simp [alloc, BinderAlloc.live, BinderAlloc.setHdr, free, taken]
        · simp [alloc, BinderAlloc.live, BinderAlloc.setHdr, isB]
  · simp [isP]

end Buffers

attribute [simp] BinderState.setProc BinderState.setThread BinderState.setNode BinderState.setRef
  BinderState.setDeath BinderState.setTransaction BinderState.setWork BinderState.setTask

/-! ### Node counters -/

/-- The counter that `strong` and `internal` select, moved by `d`. -/
def BinderNode.add (node : BinderNode) (strong internal : Bool) (d : Int) : BinderNode :=
  if strong then
    if internal then { node with internalStrongRefs := node.internalStrongRefs + d }
    else { node with localStrongRefs := node.localStrongRefs + d }
  else if internal then node
  else { node with localWeakRefs := node.localWeakRefs + d }

/-- The lists without the entry of a node that is on `entry`. -/
def BinderState.workWithout (s : BinderState) (n : Nat) : Option ListHead → ListHead → List Work
  | none => s.work
  | some h => update s.work h ((s.work h).erase (.node n))

/-- The node moved to the end of list `h`. -/
def BinderState.moveNode (s : BinderState) (n : Nat) (node : BinderNode) (h : ListHead) :
    BinderState :=
  { s with
    nodes := update s.nodes n (some { node with entry := some h })
    work := update (s.workWithout n node.entry) h
      (s.workWithout n node.entry h ++ [.node n]) }

/-- The node freed; `p` is the process whose tree it was in. -/
def BinderState.dropNode (s : BinderState) (n : Nat) (node : BinderNode) (p : Option Nat)
    (releasing : Bool) : BinderState :=
  { s with
    nodes := update s.nodes n none
    work := s.workWithout n node.entry
    procs := match p with
      | none => s.procs
      | some p => update s.procs p ((s.procs p).map fun proc =>
        { proc with nodes := proc.nodes.erase (node.ptr, n) })
    objDeleted := update s.objDeleted .node (s.objDeleted .node + 1)
    trace := s.trace ++ [.nodeFreed n { node with entry := none } releasing] }

section Nodes

variable {s : BinderState} {n : Nat} {strong internal : Bool} {target : Option ListHead}
  {fault : Fault → Prop} {node : BinderNode} {d : Int}

theorem wp_changeCounter {f : Int → BinderM Int} {post : BinderNode → BinderState → Prop}
    (moves : ∀ x, wp (f x) (fun y t => y = x + d ∧ t = s) fault s)
    (returns : post (node.add strong internal d) s) :
    wp (changeCounter f node strong internal) post fault s := by
  unfold changeCounter
  unfold BinderNode.add at returns
  cases strong <;> cases internal
  case false.true => simpa using returns
  all_goals
    simp only [Bool.false_eq_true, if_false, if_true, wp_bind, wp_pure] at returns ⊢
    refine (moves _).returns fun y t moved => ?_
    rw [moved.1, moved.2]
    exact returns

/-- What `binder_inc_node` can do. -/
inductive IncNode (s : BinderState) (n : Nat) (strong internal : Bool)
    (target : Option ListHead) : Bool → BinderState → Prop where
  | refused {node : BinderNode} : s.nodes n = some node → strong = true →
      refusesStrong s.contextMgrNode n node internal target = true →
      IncNode s n strong internal target false s
  | counted {node : BinderNode} {b : Bool} : s.nodes n = some node →
      (strong = true → refusesStrong s.contextMgrNode n node internal target = false ∧ b = true ∧
        (target.isSome → node.hasStrongRef = true)) →
      (strong = false → (b = true ↔ node.hasWeakRef = true ∨ node.entry.isSome) ∧
        (b = false → target = none)) →
      IncNode s n strong internal target b (s.setNode n (some (node.add strong internal 1)))
  | queued {node : BinderNode} {h : ListHead} : s.nodes n = some node → target = some h →
      (strong = true → node.hasStrongRef = false) →
      (strong = false → node.hasWeakRef = false ∧ node.entry = none) →
      IncNode s n strong internal target true (s.moveNode n (node.add strong internal 1) h)

/-- What `binder_dec_node` can do. -/
inductive DecNode (s : BinderState) (n : Nat) (strong internal : Bool) : BinderState → Prop where
  | kept {node : BinderNode} : s.nodes n = some node →
      DecNode s n strong internal (s.setNode n (some (node.add strong internal (-1))))
  | queued {node : BinderNode} {p : Nat} : s.nodes n = some node → node.proc = some p →
      node.entry = none → (node.hasStrongRef = true ∨ node.hasWeakRef = true) →
      DecNode s n strong internal (s.moveNode n (node.add strong internal (-1)) (.procTodo p))
  | freed {node : BinderNode} : s.nodes n = some node → node.refs = [] →
      (node.add strong internal (-1)).localStrongRefs = 0 →
      (node.add strong internal (-1)).localWeakRefs = 0 →
      (node.proc.isSome → node.hasStrongRef = false ∧ node.hasWeakRef = false) →
      DecNode s n strong internal (s.dropNode n (node.add strong internal (-1)) node.proc false)

@[simp] theorem BinderNode.add_entry : (node.add strong internal d).entry = node.entry := by
  cases strong <;> cases internal <;> rfl

@[simp] theorem BinderNode.add_proc : (node.add strong internal d).proc = node.proc := by
  cases strong <;> cases internal <;> rfl

@[simp] theorem BinderNode.add_refs : (node.add strong internal d).refs = node.refs := by
  cases strong <;> cases internal <;> rfl

@[simp] theorem BinderNode.add_hasStrongRef :
    (node.add strong internal d).hasStrongRef = node.hasStrongRef := by
  cases strong <;> cases internal <;> rfl

@[simp] theorem BinderNode.add_hasWeakRef :
    (node.add strong internal d).hasWeakRef = node.hasWeakRef := by
  cases strong <;> cases internal <;> rfl

theorem wp_unlinkNode (returns : post ⟨⟩ { s with
      nodes := update s.nodes n (some { node with entry := none })
      work := s.workWithout n node.entry }) :
    wp (unlinkNode n) post fault (s.setNode n (some node)) := by
  unfold unlinkNode
  unfold BinderState.workWithout at returns
  cases entry : node.entry with
  | none =>
    rw [entry] at returns
    have same : { node with entry := none } = node := by rw [← entry]
    rw [same] at returns
    simpa [entry] using returns
  | some h =>
    rw [entry] at returns
    simpa [entry] using returns

theorem wp_queueNode (free : node.entry = none) (returns : post ⟨⟩ (s.moveNode n node h)) :
    wp (queueNode n h) post fault (s.setNode n (some node)) := by
  unfold queueNode
  unfold BinderState.moveNode BinderState.workWithout at returns
  rw [free] at returns
  simpa using returns

theorem binderIncNode_outcome :
    wp (binderIncNode n strong internal target) (IncNode s n strong internal target) Quiet s := by
  unfold binderIncNode
  refine deref_then fun node found => ?_
  have counts : ∀ x, wp (incr x) (fun y t => y = x + 1 ∧ t = s) Quiet s := by simp
  cases strong with
  | true =>
    simp only [if_true, wp_bind, wp_get, wp_ite, wp_pure]
    refine ⟨fun refuses => .refused found rfl refuses, fun allowed => ?_⟩
    refine wp_changeCounter counts ?_
    rw [wp_putNode]
    cases target with
    | none => exact .counted found (by simpa using allowed) (by simp)
    | some h =>
      simp only [wp_ite, wp_bind, wp_pure]
      refine ⟨fun has => ?_, fun lacks => ?_⟩
      · exact .counted found (by simpa [has] using allowed) (by simp)
      · have absent : node.hasStrongRef = false := by simpa using lacks
        refine wp_unlinkNode ?_
        have queued : IncNode s n true internal (some h) true _ :=
          .queued found rfl (fun _ => absent) (by simp)
        simpa [queueNode, BinderState.moveNode] using queued
  | false =>
    simp only [Bool.false_eq_true, if_false, wp_bind]
    refine wp_changeCounter counts ?_
    simp only [wp_putNode, wp_ite, wp_pure]
    refine ⟨fun has => ?_, fun lacks => ?_⟩
    · exact .counted found (by simp) (by simpa using has)
    cases target with
    | none => exact .counted found (by simp) (by simpa using lacks)
    | some h =>
      rw [Bool.or_eq_true, not_or] at lacks
      have free : node.entry = none := by simpa using lacks.2
      have absent : node.hasWeakRef = false := by simpa using lacks.1
      simp only [wp_bind, wp_pure]
      apply wp_queueNode (by simpa using free)
      exact .queued found rfl (by simp) fun _ => ⟨absent, free⟩

theorem releaseNode_outcome (found : s.nodes n = some node) :
    wp (releaseNode n) (fun _ => DecNode s n strong internal) Quiet
      (s.setNode n (some (node.add strong internal (-1)))) := by
  unfold releaseNode
  simp only [wp_bind, wp_getNode, BinderState.setNode, update_self, Option.some.injEq,
    forall_eq', reduceCtorEq, false_implies, and_true, BinderNode.add_proc]
  cases proc : node.proc with
  | none =>
    simp only [wp_ite, wp_bind, wp_pure]
    refine ⟨fun gone => ?_, fun _ => .kept found⟩
    refine wp_unlinkNode ?_
    simp only [BinderNode.add_refs, Bool.and_eq_true, List.isEmpty_iff, beq_iff_eq] at gone
    have freed := DecNode.freed found gone.1.1 gone.1.2 gone.2 (by simp [proc])
    rw [proc] at freed
    simpa [freeNode, BinderState.dropNode] using freed
  | some p =>
    simp only [wp_ite, wp_bind, wp_pure, BinderNode.add_hasStrongRef,
      BinderNode.add_hasWeakRef, BinderNode.add_entry, Bool.or_eq_true]
    refine ⟨fun has => ⟨fun free => ?_, fun _ => .kept found⟩, fun lacks =>
      ⟨fun gone => ?_, fun _ => .kept found⟩⟩
    · have free : node.entry = none := by simpa using free
      exact wp_queueNode (by simpa using free) (DecNode.queued found proc free has)
    · refine wp_unlinkNode ?_
      simp only [BinderNode.add_refs, Bool.and_eq_true, List.isEmpty_iff, beq_iff_eq] at gone
      have freed := DecNode.freed found gone.1.1 gone.1.2 gone.2 (fun _ => by simpa using lacks)
      rw [proc] at freed
      simp [eraseNode, freeNode]
      intro proc' present
      simpa [BinderState.dropNode, present] using freed

theorem binderDecNode_outcome :
    wp (binderDecNode n strong internal) (fun _ => DecNode s n strong internal) Quiet s := by
  unfold binderDecNode
  simp only [wp_bind, wp_getNode, and_freed]
  intro node found
  refine wp_changeCounter (d := -1) (fun x => by simp; omega) ?_
  simp only [wp_putNode, wp_ite, wp_pure]
  exact ⟨fun _ => .kept found, fun _ => releaseNode_outcome found⟩

end Nodes

/-! ### Loops that empty a list or a tree -/

/-- The rule for `drain`: every round keeps `inv`, and `done` holds where it
stops. -/
theorem wp_drain {first : BinderM (Option α)} {body : α → BinderM Unit}
    {inv done : BinderState → Prop} {sites : List BugSite} {fuel : Nat} {s : BinderState}
    (round : ∀ s, inv s → wp first (fun x t => t = s ∧ (x = none → done s) ∧
      ∀ a, x = some a → wp (body a) (fun _ => inv) (Avoids sites) s) (Avoids sites) s)
    (start : inv s) :
    wp (drain first body fuel) (fun _ t => inv t ∧ done t) (Avoids sites) s := by
  induction fuel generalizing s with
  | zero =>
    unfold drain
    rw [wp_bind]
    refine (round s start).returns ?_
    rintro (_ | a) _ ⟨rfl, stops, _⟩
    · exact ⟨start, stops rfl⟩
    · simp
  | succ fuel ih =>
    unfold drain
    rw [wp_bind]
    refine (round s start).returns ?_
    rintro (_ | a) _ ⟨rfl, stops, goes⟩
    · exact ⟨start, stops rfl⟩
    · rw [wp_bind]
      exact (goes a rfl).returns fun _ _ kept => ih kept

end AndroidKernel.Binder
