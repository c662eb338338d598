import AndroidKernel.Binder.Access

/-!
What the handling of references leaves alone.

Counting references, translating objects and releasing them changes nodes,
references, death notifications and the contents of one buffer. `Frame` lists
what stays: threads, transactions and their places on the lists, tasks, the
buffers but for their contents, and the one-way queues of the nodes. It is what
the invariants about calls, one-way transactions and scheduling need to know
about all of these functions.
-/

namespace AndroidKernel.Binder

open Lib Function

variable {p d b : Nat} {strong alloc : Bool} {target : Option ListHead}
  {f : BinderBuffer → BinderBuffer}

/-- A buffer up to its contents. -/
def BinderBuffer.shape (h : BinderBuffer) : BinderBuffer :=
  { h with data := fun _ => 0, offsets := [] }

/-- A buffer space up to the contents of its buffers. -/
def BinderAlloc.shape (a : BinderAlloc) : BinderAlloc :=
  { a with hdr := fun b => (a.hdr b).shape, vma := false }

/-- A process up to its nodes and references. -/
def BinderProc.shape (proc : BinderProc) : BinderProc :=
  { proc with
    nodes := [], refsByDesc := [], refsByNode := [], alloc := proc.alloc.map BinderAlloc.shape }

/-- The part of a node that one-way transactions use. -/
def BinderNode.oneWay (node : BinderNode) : Option Nat × Bool × List Nat :=
  (node.proc, node.hasAsyncTransaction, node.asyncTodo)

def Obs.isNodeFreed : Obs → Bool
  | .nodeFreed .. => true
  | _ => false

/-- The history without the ends of nodes. -/
def BinderState.log (s : BinderState) : List Obs := s.trace.filter fun obs => !obs.isNodeFreed

structure Frame (s t : BinderState) : Prop where
  threads : t.threads = s.threads
  transactions : t.transactions = s.transactions
  tasks : t.tasks = s.tasks
  waiters : t.waiters = s.waiters
  contextMgrNode : t.contextMgrNode = s.contextMgrNode
  calls : ∀ h i, (t.work h).count (.transaction i) = (s.work h).count (.transaction i)
  procs : ∀ p, (t.procs p).map BinderProc.shape = (s.procs p).map BinderProc.shape
  nodes : ∀ n node, t.nodes n = some node →
    (∃ before, s.nodes n = some before ∧ node.oneWay = before.oneWay) ∨
      (s.nextId ≤ n ∧ node.hasAsyncTransaction = false ∧ node.asyncTodo = [])
  nextId : s.nextId ≤ t.nextId
  created : t.objCreated .transaction = s.objCreated .transaction
  deleted : t.objDeleted .transaction = s.objDeleted .transaction
  log : t.log = s.log

namespace Frame

variable {s t u : BinderState} {n : Nat} {node : BinderNode}

theorem refl (s : BinderState) : Frame s s :=
  ⟨rfl, rfl, rfl, rfl, rfl, fun _ _ => rfl, fun _ => rfl, fun _ node found => .inl ⟨node, found, rfl⟩,
    le_rfl, rfl, rfl, rfl⟩

theorem trans (first : Frame s t) (second : Frame t u) : Frame s u where
  threads := second.threads.trans first.threads
  transactions := second.transactions.trans first.transactions
  tasks := second.tasks.trans first.tasks
  waiters := second.waiters.trans first.waiters
  contextMgrNode := second.contextMgrNode.trans first.contextMgrNode
  calls h i := (second.calls h i).trans (first.calls h i)
  procs p := (second.procs p).trans (first.procs p)
  nodes n node found := by
    rcases second.nodes n node found with ⟨middle, found, same⟩ | ⟨fresh, empty⟩
    · grind [BinderNode.oneWay, → Frame.nodes]
    · exact .inr ⟨Nat.le_trans first.nextId fresh, empty⟩
  nextId := Nat.le_trans first.nextId second.nextId
  created := second.created.trans first.created
  deleted := second.deleted.trans first.deleted
  log := second.log.trans first.log

theorem setNode {node' : BinderNode} (found : s.nodes n = some node)
    (same : node'.oneWay = node.oneWay) : Frame s (s.setNode n (some node')) where
  __ := refl s
  nodes m node'' found' := by
    rcases update_some found' with ⟨rfl, rfl⟩ | ⟨_, present⟩
    · exact .inl ⟨node, found, same⟩
    · exact .inl ⟨node'', present, rfl⟩

theorem count_workWithout {entry : Option ListHead} (h : ListHead) (i : Nat) :
    (s.workWithout n entry h).count (.transaction i) = (s.work h).count (.transaction i) := by
  unfold BinderState.workWithout
  cases entry with
  | none => rfl
  | some h' =>
    exact apply_update_same (g := List.count _) (List.count_erase_of_ne (by simp)) h

theorem moveNode {node' : BinderNode} {h : ListHead}
    (found : s.nodes n = some node) (same : node'.oneWay = node.oneWay) :
    Frame s (s.moveNode n node' h) where
  __ := refl s
  nodes := (@setNode s n node { node' with entry := some h } found same).nodes
  calls h' i := by
    unfold BinderState.moveNode
    by_cases isH : h' = h
    · subst isH
      simp [List.count_append, count_workWithout]
    · simp [isH, count_workWithout]

theorem dropNode {p : Option Nat} {releasing : Bool} : Frame s (s.dropNode n node p releasing) where
  __ := refl s
  calls h i := count_workWithout h i
  procs q := by
    unfold BinderState.dropNode
    cases p with
    | none => rfl
    | some p =>
      by_cases isP : q = p
      · subst isP
        simp only [update_self, Option.map_map]
        rfl
      · simp [isP]
  nodes m node' found := .inl ⟨node', (update_none found).2, rfl⟩
  deleted := by simp [BinderState.dropNode]
  log := by simp [BinderState.dropNode, BinderState.log, Obs.isNodeFreed]

theorem setProc {proc proc' : BinderProc} (found : s.procs p = some proc)
    (same : proc'.shape = proc.shape) : Frame s (s.setProc p (some proc')) where
  __ := refl s
  procs := apply_update_same (by simp [found, same])

theorem storeBuffer
    (same : ∀ h, (f h).shape = h.shape) : Frame s (s.storeBuffer p b f) where
  __ := refl s
  procs q := by
    have alloc : ∀ a : BinderAlloc, (a.setHdr b f).shape = a.shape := by
      intro a
      have hdr : ∀ c, ((a.setHdr b f).hdr c).shape = (a.hdr c).shape := apply_update_same (same _)
      simp only [BinderAlloc.shape, hdr]
      rfl
    unfold BinderState.storeBuffer
    by_cases isP : q = p
    · subst isP
      cases s.procs q with
      | none => simp
      | some proc =>
        cases space : proc.alloc <;> simp [BinderProc.shape, space, alloc]
    · simp [isP]

theorem setRef {r : Nat} {ref : Option BinderRef} : Frame s (s.setRef r ref) where
  __ := refl s

theorem setDeath {death : Option BinderRefDeath} : Frame s (s.setDeath d death) where
  __ := refl s

theorem eraseDeath {h : ListHead} : Frame s (s.setWork h ((s.work h).erase (.death d))) where
  __ := refl s
  calls h' i := apply_update_same (g := List.count _) (List.count_erase_of_ne (by simp)) h'

theorem countDeleted {kind : ObjectKind} (other : kind ≠ .transaction) :
    Frame s { s with
      objDeleted := update s.objDeleted kind (s.objDeleted kind + 1) } where
  __ := refl s
  deleted := by simp [other.symm]

theorem newNode (flag : node.hasAsyncTransaction = false) (todo : node.asyncTodo = []) :
    Frame s (BinderState.setNode { s with
      nextId := s.nextId + 1
      objCreated := update s.objCreated .node (s.objCreated .node + 1) }
      s.nextId (some node)) where
  __ := refl s
  nextId := Nat.le_succ _
  created := by simp
  nodes m node' found := by
    by_cases isN : m = s.nextId
    · subst isN
      have same : node = node' := by simpa using found
      subst same
      exact .inr ⟨le_rfl, flag, todo⟩
    · exact .inl ⟨node', by simpa [isN] using found, rfl⟩

theorem countCreated {kind : ObjectKind} (other : kind ≠ .transaction) :
    Frame s { s with
      nextId := s.nextId + 1
      objCreated := update s.objCreated kind (s.objCreated kind + 1) } where
  __ := refl s
  nextId := Nat.le_succ _
  created := by simp [other.symm]

instance : IsPreorder BinderState Frame where
  refl := refl
  trans _ _ _ := trans

end Frame

/-! ### Nodes and references -/

section Refs

variable {s t : BinderState} {internal : Bool} {n r : Nat}

theorem BinderNode.add_oneWay {node : BinderNode} {d : Int} :
    (node.add strong internal d).oneWay = node.oneWay := by
  cases strong <;> cases internal <;> rfl

theorem IncNode.frame {b : Bool}
    (step : IncNode s n strong internal target b t) : Frame s t := by
  cases step with
  | refused => exact .refl s
  | counted found => exact .setNode found BinderNode.add_oneWay
  | queued found => exact .moveNode found BinderNode.add_oneWay

theorem DecNode.frame (step : DecNode s n strong internal t) : Frame s t := by
  cases step with
  | kept found => exact .setNode found BinderNode.add_oneWay
  | queued found => exact .moveNode found BinderNode.add_oneWay
  | freed => exact .dropNode

theorem binderIncNode_frame :
    Moves Frame Quiet (binderIncNode n strong internal target) :=
  fun _ => binderIncNode_outcome.returns fun _ _ => IncNode.frame

theorem binderDecNode_frame : Moves Frame Quiet (binderDecNode n strong internal) :=
  fun _ => binderDecNode_outcome.returns fun _ _ => DecNode.frame

theorem binderNewNode_frame {ptr cookie : Nat} :
    Moves Frame Quiet (binderNewNode p ptr cookie alloc) := by
  intro s
  unfold binderNewNode
  simp only [wp_bind, wp_getProc, and_freed, wp_ite, wp_pure, wp_created, wp_putNode, wp_putProc]
  intro proc found
  refine ⟨fun _ => .refl s, fun _ => ?_⟩
  exact (Frame.newNode rfl rfl).trans (.setProc found rfl)

theorem binderGetRefForNode_frame : Moves Frame Quiet (binderGetRefForNode p n alloc) := by
  intro s
  unfold binderGetRefForNode
  refine deref_then fun proc found => ?_
  cases lookup : lookupKey n proc.refsByNode with
  | some r => exact .refl s
  | none =>
    simp only [wp_ite, wp_pure, wp_bind, wp_created, wp_get, wp_throw, wp_putRef, wp_putProc,
      wp_getNode, wp_putNode, avoids_bug, and_freed]
    refine ⟨fun _ => .refl s, fun _ => ⟨fun _ => by decide, fun _ node present => ?_⟩⟩
    have start : Frame s _ := @Frame.countCreated s .ref (by simp)
    refine start.trans (.trans .setRef (.trans (.setProc found ?_) (.setNode present ?_)))
    · rfl
    · rfl

theorem unlinkDeath_frame : Moves Frame Quiet (unlinkDeath d) := by
  intro s
  unfold unlinkDeath
  refine deref_then fun death found => ?_
  cases entry : death.entry with
  | none => exact .refl s
  | some h => exact Frame.setDeath.trans .eraseDeath

theorem freeDeath_frame : Moves Frame Quiet (freeDeath d) := by
  intro s
  unfold freeDeath
  simp only [wp_bind, wp_getDeath, and_freed, wp_modify, wp_deleted]
  intro death found
  exact Frame.setDeath.trans (.countDeleted (by simp))

theorem binderDeleteRef_frame : Moves Frame Quiet (binderDeleteRef r) := by
  intro s
  unfold binderDeleteRef
  simp only [wp_bind, wp_getRef, wp_getProc, wp_putProc, and_freed]
  intro ref _ proc found
  refine (Moves.ifThen binderDecNode_frame).after (.setProc found rfl) fun _ t start => ?_
  simp only [wp_getNode, wp_putNode, and_freed]
  intro node present
  refine binderDecNode_frame.after (start.trans (.setNode present rfl)) fun _ u counted => ?_
  refine (Moves.ifSome fun d => .bind unlinkDeath_frame fun _ => freeDeath_frame).after counted
    fun _ v dropped => ?_
  exact dropped.trans (Frame.setRef.trans (.countDeleted (by simp)))

theorem binderIncRef_frame :
    Moves Frame Quiet (binderIncRef r strong target) := by
  intro s
  unfold binderIncRef
  simp only [wp_bind, wp_getRef, and_freed]
  intro ref _
  have counts : Moves Frame Quiet (countAtNode ref strong target) := by
    intro t
    unfold countAtNode
    rw [wp_ite]
    exact ⟨fun _ => binderIncNode_frame t, fun _ => .refl t⟩
  refine (counts s).returns fun counted t framed => ?_
  simp only [wp_ite, wp_pure, wp_bind, wp_incr, avoids_intOverflow, implies_true, true_and,
    wp_putRef]
  exact ⟨fun _ => framed, fun _ _ => framed.trans .setRef⟩

theorem binderDecRef_frame : Moves Frame Quiet (binderDecRef r strong) := by
  intro s
  unfold binderDecRef
  simp only [wp_bind, wp_getRef, and_freed, wp_ite, wp_pure,
    wp_decr, avoids_intOverflow, implies_true, true_and, wp_putRef]
  intro ref _
  refine ⟨fun _ => .refl s, fun _ _ => ?_⟩
  refine (Moves.ifThen binderDecNode_frame).after .setRef fun _ t counted ref' _ => ?_
  exact (Moves.ifThen binderDeleteRef_frame).last counted

end Refs

/-! ### Objects in buffers -/

section Objects

theorem getNode_frame {n : Nat} : Moves Frame Quiet (getNode n) := by
  intro s
  simpa using fun _ _ => Frame.refl s

theorem getRef_frame {r : Nat} : Moves Frame Quiet (getRef r) := by
  intro s
  simpa using fun _ _ => Frame.refl s

theorem getBuffer_frame : Moves Frame Quiet (getBuffer p b) := by
  intro s
  simpa [wp_getBuffer] using fun _ _ => Frame.refl s

theorem binderGetNode_frame {ptr : Nat} : Moves Frame Quiet (binderGetNode p ptr) := by
  intro s
  unfold binderGetNode
  simpa using fun _ _ => Frame.refl s

theorem binderGetRef_frame {desc : Nat} : Moves Frame Quiet (binderGetRef p desc) := by
  intro s
  unfold binderGetRef
  simpa using fun _ _ => Frame.refl s

theorem putBuffer_frame
    (same : ∀ h, (f h).shape = h.shape) : Moves Frame Quiet (putBuffer p b f) := by
  intro s
  rw [wp_putBuffer]
  exact fun _ _ => .storeBuffer same

theorem localNode_frame {o : FlatObject} : Moves Frame Quiet (localNode p o alloc) := by
  unfold localNode
  refine .lookup binderGetNode_frame ?_ fun n => .pure _
  refine .lookup binderNewNode_frame (.pure _) fun n => ?_
  intro s
  simp only [wp_bind, wp_getNode, wp_putNode, wp_pure, and_freed]
  exact fun node present => .setNode present rfl

variable {env : TransactionEnv} {th k : Nat} {target : Target} {o : FlatObject}

theorem translateBinder_frame {targetProc : Nat} :
    Moves Frame Quiet (translateBinder env p th targetProc k o strong) := by
  unfold translateBinder
  refine .lookup localNode_frame (.pure _) fun n => .bind getNode_frame fun node => ?_
  split
  · exact .pure _
  refine .lookup binderGetRefForNode_frame (.pure _) fun r => .bind getRef_frame fun ref => ?_
  exact .bind binderIncRef_frame fun _ => .pure _

theorem translateHandle_frame {targetProc : Nat} :
    Moves Frame Quiet (translateHandle env p targetProc k o strong) := by
  unfold translateHandle
  refine .lookup binderGetRef_frame (.pure _) fun r => ?_
  refine .bind getRef_frame fun ref => .bind getNode_frame fun node => ?_
  split
  · exact .bind binderIncNode_frame fun _ => .pure _
  refine .lookup binderGetRefForNode_frame (.pure _) fun new => .bind getRef_frame fun ref => ?_
  exact .bind binderIncRef_frame fun _ => .pure _

theorem acceptsFds_frame : Moves Frame Quiet (acceptsFds target) := by
  intro s
  unfold acceptsFds
  cases target.inReplyTo with
  | some t => simpa using fun _ _ => Frame.refl s
  | none =>
    cases target.node with
    | none => simp
    | some n => simpa using fun _ _ => Frame.refl s

theorem translateFd_frame : Moves Frame Quiet (translateFd env target k o) := by
  unfold translateFd
  refine .bind acceptsFds_frame fun accepts => ?_
  split
  · exact .pure _
  · split <;> exact .pure _

theorem translateObject_frame : Moves Frame Quiet (translateObject env p th target k o) := by
  unfold translateObject
  split
  · exact translateBinder_frame
  · exact translateBinder_frame
  · exact translateHandle_frame
  · exact translateHandle_frame
  · exact translateFd_frame
  · exact .pure _

theorem translateObjects_frame {offs : List Nat} :
    Moves Frame Quiet (translateObjects env p th target b k offs) := by
  induction offs generalizing k with
  | nil => exact .pure _
  | cons off offs ih =>
    unfold translateObjects
    refine .bind getBuffer_frame fun h => ?_
    split
    · exact .pure _
    refine .bind translateObject_frame fun result => ?_
    cases result with
    | error code => exact .pure _
    | ok o => exact .bind (putBuffer_frame fun _ => rfl) fun _ => ih

theorem fillBuffer_frame {tr : TransactionData} :
    Moves Frame Quiet (fillBuffer env p th b target tr) := by
  unfold fillBuffer
  split
  · exact .pure _
  refine .bind (putBuffer_frame fun _ => rfl) fun _ => ?_
  split
  · exact .pure _
  · exact translateObjects_frame

theorem releaseLocal_frame : Moves Frame Quiet (releaseObject.releaseLocal p o strong) := by
  unfold releaseObject.releaseLocal
  exact .lookup binderGetNode_frame (.pure _) fun n => binderDecNode_frame

theorem releaseHandle_frame : Moves Frame Quiet (releaseObject.releaseHandle p o strong) := by
  unfold releaseObject.releaseHandle
  exact .lookup binderGetRef_frame (.pure _) fun r => binderDecRef_frame

theorem releaseObject_frame : Moves Frame Quiet (releaseObject p o) := by
  unfold releaseObject
  split
  · exact releaseLocal_frame
  · exact releaseLocal_frame
  · exact releaseHandle_frame
  · exact releaseHandle_frame
  · exact .pure _
  · exact .pure _

theorem releaseObjects_frame {h : BinderBuffer} {offs : List Nat} :
    Moves Frame Quiet (releaseObjects p h offs) := by
  induction offs with
  | nil => exact .pure _
  | cons off offs ih =>
    unfold releaseObjects
    exact .bind (Moves.ifThen releaseObject_frame) fun _ => ih

theorem binderTransactionBufferRelease_frame {failedAt : Option Nat} :
    Moves Frame Quiet (binderTransactionBufferRelease p b failedAt) := by
  unfold binderTransactionBufferRelease
  refine .bind getBuffer_frame fun h => ?_
  exact .bind (Moves.ifSome fun _ => binderDecNode_frame) fun _ => releaseObjects_frame

/-- The search for a buffer ends in no other way than by its own `BUG_ON`. -/
theorem lookupBuffer_error {a : BinderAlloc} {kernPtr : Nat} {tree : RbTree Nat} {fault : Fault}
    (fails : lookupBuffer a kernPtr tree = .error fault) : fault = .bug .lookupFree := by
  induction tree with
  | leaf => cases fails
  | node c l b r ihL ihR => grind [lookupBuffer]

theorem binderBufferLookup_pure {dataPtr : Nat} {s : BinderState} :
    wp (binderBufferLookup p dataPtr) (fun _ t => t = s) Quiet s := by
  unfold binderBufferLookup
  refine deref_then fun proc _ => ?_
  cases proc.alloc with
  | none => rfl
  | some a =>
    cases result : lookupBuffer a (kernPtr proc dataPtr) a.allocatedBuffers with
    | ok found => simp only [result, wp_pure]
    | error fault =>
      simp only [result, wp_throw]
      rw [lookupBuffer_error result]
      exact (avoids_bug _).mpr (by decide)

end Objects

/-! ### Reference commands -/

section Commands

variable {target ptr cookie : Nat}

theorem writeInc_frame : Moves Frame Quiet (writeInc p target strong alloc) := by
  unfold writeInc
  refine .bind (fun s => Frame.refl s) fun s => ?_
  split
  · refine .lookup binderGetRefForNode_frame (.throw (by simp)) fun r => ?_
    exact .bind binderIncRef_frame fun _ => .pure _
  · refine .lookup binderGetRef_frame (.pure _) fun r => ?_
    exact .bind binderIncRef_frame fun _ => .pure _

theorem writeDec_frame : Moves Frame Quiet (writeDec p target strong) := by
  unfold writeDec
  exact .lookup binderGetRef_frame (.pure _) fun r => binderDecRef_frame

theorem BinderNode.donePending_oneWay {node : BinderNode} :
    (node.donePending strong).oneWay = node.oneWay := by
  cases strong <;> rfl

theorem writeDone_frame : Moves Frame Quiet (writeDone p ptr cookie strong) := by
  unfold writeDone
  refine .lookup binderGetNode_frame (.pure _) fun n => ?_
  intro s
  simp only [wp_bind, wp_getNode, and_freed, wp_ite, wp_pure, wp_putNode]
  intro node present
  refine ⟨fun _ => .refl s, fun _ => ?_⟩
  exact binderDecNode_frame.last (.setNode present BinderNode.donePending_oneWay)

end Commands

end AndroidKernel.Binder
