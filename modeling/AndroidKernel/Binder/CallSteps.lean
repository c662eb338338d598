import AndroidKernel.Binder.CallInv

/-!
The steps of a transaction, on the calls.

Each lemma takes one part of the driver from a state with `Calls` to the next:
a transaction gets and loses its buffer, is sent, delivered, answered and freed,
threads come and go. Where the abstract state changes, it does so by one of the
transitions of `CallState`.
-/

namespace AndroidKernel.Binder

open Lib Function List

variable {s : BinderState} {A : CallMap} {dying current : Option Nat} {i p b th : Nat}
  {x : BinderTransaction} {h : BinderBuffer} {f : BinderBuffer → BinderBuffer} {thread : BinderThread}

attribute [local grind =] Function.update_apply

/-! ### Transactions and buffers -/

@[grind .]
theorem BinderTransaction.SameCall.setBuffer (x : BinderTransaction) (buffer : Option (Nat × Nat)) :
    BinderTransaction.SameCall { x with buffer := buffer } x :=
  ⟨rfl, rfl, rfl, rfl, rfl, rfl⟩

attribute [local grind .] BinderTransaction.SameCall.refl

@[grind =]
theorem transactions_setTransaction {j : Nat} {x : Option BinderTransaction} :
    (s.setTransaction i x).transactions j = if j = i then x else s.transactions j :=
  update_apply ..

@[grind =]
theorem buffer_setTransaction {x : Option BinderTransaction} :
    (s.setTransaction i x).buffer p b = s.buffer p b := rfl

@[grind =]
theorem transactions_storeBuffer : (s.storeBuffer p b f).transactions i = s.transactions i := rfl

/-- The buffer of `x` no longer points to a transaction. -/
def BinderState.clearBuffer (s : BinderState) (x : BinderTransaction) : BinderState :=
  match x.buffer with
  | none => s
  | some (p, b) => s.storeBuffer p b fun h => { h with transaction := none }

@[grind =]
theorem buffer_clearBuffer (q c : Nat) :
    (s.clearBuffer x).buffer q c = if x.buffer = some (q, c)
      then (s.buffer q c).map fun h => { h with transaction := none } else s.buffer q c := by
  unfold BinderState.clearBuffer
  cases x.buffer with
  | none => simp
  | some at' =>
    obtain ⟨p, b⟩ := at'
    have stored := buffer_storeBuffer (s := s) (p := p) (b := b)
      (f := fun h => { h with transaction := none }) (fun _ => rfl) q c
    refine stored.trans ?_
    by_cases here : q = p ∧ c = b
    · simp [here]
    have there : ¬some (p, b) = some (q, c) := by
      rintro same
      cases same
      exact here ⟨rfl, rfl⟩
    simp [here, there]

theorem Spaces.clearBuffer (spaces : Spaces s) : Spaces (s.clearBuffer x) := by
  unfold BinderState.clearBuffer
  cases x.buffer with
  | none => exact spaces
  | some at' => exact spaces.storeBuffer fun _ => ⟨rfl, rfl, rfl⟩

theorem clearBuffer_eq : s.clearBuffer x = { s with procs := (s.clearBuffer x).procs } := by
  unfold BinderState.clearBuffer
  cases x.buffer with
  | none => rfl
  | some at' => rfl

@[grind =]
theorem transactions_clearBuffer :
    (s.clearBuffer x).transactions i = s.transactions i := by rw [clearBuffer_eq]

theorem wp_clearBuffer {post : Unit → BinderState → Prop}
    {sites : List BugSite} (returns : post ⟨⟩ (s.clearBuffer x)) :
    wp (clearBuffer x) post (Avoids sites) s := by
  unfold clearBuffer
  unfold BinderState.clearBuffer at returns
  rw [wp_ifSome]
  refine ⟨fun none => ?_, fun at' some => ?_⟩
  · simpa [none] using returns
  · rw [wp_putBuffer]
    simpa [some] using fun _ _ => returns

section

variable (calls : Calls s A dying current)
include calls

/-- Transaction `i` and its buffer no longer point to each other. -/
theorem Calls.dropBuffer (found : s.transactions i = some x) (other : current ≠ some i) :
    Calls ((s.clearBuffer x).setTransaction i (some { x with buffer := none })) A dying
      current := by
  apply calls.rebuffer
  case only =>
    rw [clearBuffer_eq]
    rfl
  case space => exact calls.space.clearBuffer.mono rfl (by rw [clearBuffer_eq]; rfl)
  all_goals grind -linarith

/-- A store into a buffer that keeps its two pointers. -/
theorem Calls.storeBuffer (same : ∀ h, BinderBuffer.Same h (f h))
    (pointers : ∀ h, (f h).transaction = h.transaction ∧ (f h).targetNode = h.targetNode) :
    Calls (s.storeBuffer p b f) A dying current := by
  have stored := buffer_storeBuffer (s := s) (p := p) (b := b) fun h => (same h).1
  have back : ∀ q c h, (s.storeBuffer p b f).buffer q c = some h → ∃ h', s.buffer q c = some h' ∧
      h.transaction = h'.transaction ∧ h.targetNode = h'.targetNode := by
    intro q c h inSpace
    rw [stored] at inSpace
    split at inSpace
    · rename_i here
      obtain ⟨h', present, rfl⟩ := Option.map_eq_some_iff.mp inSpace
      exact ⟨h', by rw [here.1, here.2]; exact present, pointers h'⟩
    · exact ⟨h, inSpace, rfl, rfl⟩
  apply calls.rebuffer
  case only => rfl
  case space => exact calls.space.storeBuffer same
  case toBuffer => grind -linarith
  all_goals
    clear pointers same stored
    grind -linarith

/-- A buffer without a transaction is freed. -/
theorem Calls.freeBuffer {t : BinderState} (step : SpaceStep p s t)
    (present : s.buffer p b = some h) (idle : h.transaction = none)
    (gone : ∀ q c, t.buffer q c = if q = p ∧ c = b then none else s.buffer q c) :
    Calls t A dying current := by
  have kept : t.transactions = s.transactions := by
    obtain ⟨proc, a, a', _, _, _, rfl⟩ := step
    rfl
  apply calls.rebuffer
  case only =>
    obtain ⟨proc, a, a', _, _, _, rfl⟩ := step
    rfl
  case space => exact step.spaces calls.space
  all_goals
    rw [kept]
    grind -linarith

theorem freeBuf_calls (present : s.buffer p b = some h) (idle : h.transaction = none) :
    wp (freeBuf p b) (fun _ t => Calls t A dying current) Safe s :=
  (freeBuf_spec calls.space present idle).returns fun _ _ freed =>
    calls.freeBuffer freed.1 present idle freed.2

theorem detachBuffer_calls (present : s.buffer p b = some h) (points : h.transaction = some i)
    (other : current ≠ some i) :
    wp (detachBuffer p b i) (fun _ t => Calls t A dying current ∧
      t.buffer p b = some { h with transaction := none }) Safe s := by
  obtain ⟨x, found, buffer⟩ := calls.ofBuffer p b h i present points
  unfold detachBuffer
  simp only [wp_bind, wp_getTransaction, and_freed, wp_putTransaction, wp_putBuffer]
  intro x' found'
  rw [found] at found'
  cases found'
  intro h' _
  have dropped := calls.dropBuffer found other
  have store := buffer_clearBuffer (s := s) (x := x) p b
  rw [if_pos buffer, present] at store
  unfold BinderState.clearBuffer at dropped store
  rw [buffer] at dropped store
  exact ⟨dropped, store⟩

/-! ### A transaction that is no call -/

/-- It is freed. -/
theorem Calls.forget {next : Option Nat} (found : s.transactions i = some x)
    (noReply : x.needReply = false)
    (unlinked : ∀ p b h, s.buffer p b = some h → h.transaction ≠ some i)
    (keeps : next = current ∨ (current = some i ∧ next = none)) :
    Calls (s.setTransaction i none) A dying next := by
  constructor
  case space => exact calls.space
  case inv => exact calls.inv
  case toBuffer =>
    intro j y p b found' other points
    obtain ⟨isI, present⟩ := update_none found'
    exact calls.toBuffer j y p b present (by grind -linarith) points
  all_goals
    simp only [BinderState.setTransaction]
    grind -linarith [calls.live, calls.alive, BinderState.buffer]

/-- A list changes in items that are no calls. -/
theorem Calls.relist {h : ListHead} {l : List Work}
    (members : ∀ j, .transaction j ∈ l → .transaction j ∈ s.work h)
    (same : ∀ j, A.live j → l.count (.transaction j) = (s.work h).count (.transaction j)) :
    Calls (s.setWork h l) A dying current := by
  refine { calls with listed_lt := ?_, queued := ?_, unqueued := ?_ }
  all_goals
    simp only [BinderState.setWork]
    grind -linarith

/-- It goes onto a list. -/
theorem Calls.enqueue {h : ListHead} (lt : i < s.nextId) (other : current ≠ some i)
    (dead : ¬A.live i) : Calls (s.setWork h (s.work h ++ [.transaction i])) A dying current := by
  refine { calls with listed_lt := ?_, queued := ?_, unqueued := ?_ }
  all_goals
    simp only [BinderState.setWork]
    grind -linarith

/-- A node keeps it for later, or gives up others. -/
theorem Calls.setAsync {n : Nat} (node : BinderNode)
    (todo : ∀ i ∈ node.asyncTodo, i < s.nextId ∧ current ≠ some i ∧ ¬A.live i) :
    Calls (s.setNode n (some node)) A dying current := by
  refine { calls with async_lt := ?_ }
  simp only [BinderState.setNode]
  grind -linarith

end

/-- It is freed and leaves its buffer. -/
theorem Calls.discard (calls : Calls s A dying none)
    (found : s.transactions i = some x) (noReply : x.needReply = false) :
    Calls ((s.clearBuffer x).setTransaction i none) A dying none := by
  have dropped := calls.dropBuffer found (by simp)
  have freed : Calls (BinderState.setTransaction ((s.clearBuffer x).setTransaction i (some
      { x with buffer := none })) i none) A dying none := by
    refine dropped.forget (update_self _ _ _) noReply (fun q c h inSpace points => ?_) (.inl rfl)
    obtain ⟨y, present, where'⟩ := dropped.ofBuffer q c h i inSpace points
    have same : { x with buffer := none } = y := by simpa using present
    subst same
    cases where'
  simpa [BinderState.setTransaction, update_idem] using freed

/-! ### A transaction begins -/

/-- The transaction is allocated. -/
theorem Calls.create (calls : Calls s A dying none) (x : BinderTransaction)
    (created : ObjectKind → Nat) (noReply : x.needReply = false) (noBuffer : x.buffer = none) :
    Calls { s with
      nextId := s.nextId + 1
      objCreated := created
      transactions := update s.transactions s.nextId (some x) } A dying
      (some s.nextId) := by
  have new : ∀ j y, s.transactions j = some y → j ≠ s.nextId := fun j y found =>
    (calls.transaction_lt j y found).ne
  have dead : ∀ th, s.nextId ∉ A.stack th := by
    intro th mem
    obtain ⟨y, found, _⟩ := (calls.live s.nextId).mp (calls.inv.stack_live th _ mem)
    exact new _ y found rfl
  constructor
  case space => exact calls.space.mono rfl (Nat.le_succ _)
  case inv => exact calls.inv
  all_goals grind -linarith [calls.live, calls.alive, BinderState.buffer]

section

variable (calls : Calls s A dying (some i))
include calls

/-- The transaction gets a new buffer. -/
theorem Calls.setBuffer {t : BinderState} (found : s.transactions i = some x)
    (noBuffer : x.buffer = none) (step : SpaceStep p s t) (unused : s.buffer p b = none)
    (taken : ∀ q c, t.buffer q c = if q = p ∧ c = b then some h else s.buffer q c)
    (same : ∀ h, BinderBuffer.Same h (f h)) (points : ∀ h, (f h).transaction = some i) :
    Calls ((t.setTransaction i (some { x with buffer := some (p, b) })).storeBuffer p b f) A dying
        (some i) ∧
      ((t.setTransaction i (some { x with buffer := some (p, b) })).storeBuffer p b f).buffer p b =
        some (f h) := by
  have buffers : ∀ q c, ((t.setTransaction i (some { x with buffer := some (p, b) })).storeBuffer
      p b f).buffer q c = if q = p ∧ c = b then some (f h) else s.buffer q c := by
    intro q c
    rw [buffer_storeBuffer fun h => (same h).1, buffer_setTransaction, buffer_setTransaction, taken, taken]
    grind -linarith
  have spaces := (step.spaces calls.space).storeBuffer (p := p) (b := b) same
  have kept : ∀ j, t.transactions j = s.transactions j := by
    obtain ⟨proc, a, a', _, _, _, rfl⟩ := step
    exact fun _ => rfl
  clear same taken
  refine ⟨?_, (buffers p b).trans (if_pos ⟨rfl, rfl⟩)⟩
  apply calls.rebuffer
  case only =>
    obtain ⟨proc, a, a', _, _, _, rfl⟩ := step
    rfl
  case space => exact spaces
  all_goals grind -linarith

/-- The buffer of the transaction in the making no longer points to it. -/
theorem Calls.unpoint (inSpace : s.buffer p b = some h) (points : h.transaction = some i) :
    Calls (s.storeBuffer p b fun h => { h with transaction := none }) A dying (some i) := by
  have stored := buffer_storeBuffer (s := s) (p := p) (b := b)
    (f := fun h => { h with transaction := none }) (fun _ => rfl)
  apply calls.rebuffer
  case only => rfl
  case space => exact calls.space.storeBuffer fun _ => ⟨rfl, rfl, rfl⟩
  all_goals grind -linarith

/-- The transaction in the making is done and is no call. -/
theorem Calls.settle (found : s.transactions i = some x) (toBuffer : ∀ p b, x.buffer = some (p, b) →
      ∃ h, s.buffer p b = some h ∧ h.transaction = some i)
    (reply : isOneWay x.flags = false → ∀ p b h, x.buffer = some (p, b) →
      s.buffer p b = some h → h.targetNode = none)
    (noCall : x.fromThread = none ∧ x.fromParent = none) : Calls s A dying none := by
  constructor
  case space => exact calls.space
  case inv => exact calls.inv
  case toBuffer =>
    intro j y p b present _ points
    by_cases isI : j = i
    · grind -linarith
    · exact calls.toBuffer j y p b present (fun same => isI (Option.some.inj same).symm) points
  all_goals grind -linarith [calls.live, calls.alive]

end

/-! ### Calls -/

/-- A call is sent. -/
theorem Calls.push {h : ListHead}
    (calls : Calls s A none (some i)) (found : s.transactions i = some x)
    (present : s.threads th = some thread) (caller : x.fromThread = some th)
    (twoWay : isOneWay x.flags = false) (free : thread.waitsForProc = false)
    (toBuffer : ∀ p b, x.buffer = some (p, b) →
      ∃ h, s.buffer p b = some h ∧ h.transaction = some i ∧ h.targetNode ≠ none)
    (top : ∀ u, (A.stack th).head? = some u → A.place u = .active th) (away : x.toThread ≠ some th)
    (target : ∀ y, h.owner = some y → A.alive y ∧ y ≠ th ∧ ∃ v u, (A.stack y).head? = some v ∧
      A.caller v = some y ∧ (A.stack th).head? = some u ∧ Relation.ReflTransGen A.Child v u) :
    Calls { s with
      transactions := update s.transactions i (some
        { x with needReply := true, fromParent := thread.transactionStack })
      threads := update s.threads th (some { thread with transactionStack := some i })
      work := update s.work h (s.work h ++ [.transaction i]) }
      (A.push th i h) none none := by
  have other : ∀ j, j ≠ i → some i ≠ some j := fun j isI same => isI (Option.some.inj same).symm
  have dead : ¬A.live i := by
    intro live
    obtain ⟨y, present', needReply⟩ := (calls.live i).mp live
    rw [calls.unsent i rfl y present'] at needReply
    cases needReply
  have liveNe : ∀ j, A.live j → j ≠ i := by
    rintro j live rfl
    exact dead live
  have fresh : ∀ c, A.live c → c < i := by
    intro c live
    obtain ⟨y, present', _⟩ := (calls.live c).mp live
    exact lt_of_le_of_ne (calls.newest i rfl c y present') (liveNe c live)
  have alive : A.alive th := (calls.alive th).mpr ⟨⟨thread, present⟩, by simp⟩
  have unlisted : ∀ h', (s.work h').count (.transaction i) = 0 := by
    intro h'
    rw [count_eq_zero]
    exact fun mem => (calls.listed_lt h' i mem).2 rfl
  constructor
  case space => exact calls.space
  case inv => exact calls.inv.push alive fresh top target
  case active =>
    intro th' pre j rest y split active found'
    have isI : j ≠ i := by
      rintro rfl
      simp [CallState.push] at active
    have active' : A.place j = .active th' := by simpa [CallState.push, isI] using active
    have present' : s.transactions j = some y := by simpa [isI] using found'
    by_cases isTh : th' = th
    · subst isTh
      have whole : i :: A.stack th' = pre ++ j :: rest := by simpa [CallState.push] using split
      cases pre with
      | nil =>
        cases whole
        exact absurd rfl isI
      | cons first pre =>
        have before : A.stack th' = pre ++ j :: rest := (cons.inj whole).2
        exact calls.active th' pre j rest y before active' present'
    · exact calls.active th' pre j rest y (by simpa [CallState.push, isTh] using split) active'
        present'
  case waits => grind -linarith [BinderThread.waitsForProc]
  all_goals
    simp only [CallState.push]
    grind -linarith [calls.live, calls.alive, calls.inv.stack_live, BinderState.buffer]

/-- A call is delivered to thread `th`, which leaves its read. -/
theorem Calls.take {h : ListHead}
    (calls : Calls s A none none) (thread' : BinderThread) (found : s.transactions i = some x)
    (needReply : x.needReply = true) (place : A.place i = .queued h)
    (present : s.threads th = some thread)
    (target : h.owner = some th ∨ (h.owner = none ∧ thread.transactionStack = none))
    (stack' : thread'.transactionStack = some i) (idle : thread'.waitsForProc = false) :
    Calls { s with
      transactions := update s.transactions i (some
        { x with toParent := thread.transactionStack, toThread := some th })
      threads := update s.threads th (some thread')
      work := update s.work h ((s.work h).erase (.transaction i)) }
      (A.take th i) none none := by
  have live : A.live i := (calls.live i).mpr ⟨x, found, needReply⟩
  have alive : A.alive th := (calls.alive th).mpr ⟨⟨thread, present⟩, by simp⟩
  have stack := calls.stack th thread present (by simp)
  have notOn : ∀ th', i ∈ A.stack th' → A.caller i = some th' := by
    intro th' mem
    rcases (calls.inv.linked th').end_of_mem mem with caller | active
    · exact caller
    · rw [place] at active
      cases active
  have targetA : (h.owner = some th ∧ (none : Option Nat) ≠ some th) ∨
      (h.owner = none ∧ A.stack th = []) := by
    rcases target with owned | ⟨shared, empty⟩
    · exact .inl ⟨owned, by simp⟩
    · rw [empty] at stack
      exact .inr ⟨shared, head?_eq_none_iff.mp stack.symm⟩
  have callerNe : A.caller i ≠ some th := by
    intro caller
    rcases targetA with ⟨owned, _⟩ | ⟨_, empty⟩
    · exact (calls.inv.caller_ne i th live caller).2 h place owned
    · have mem := (calls.inv.caller_mem i th live caller).2
      rw [empty] at mem
      cases mem
  constructor
  case space => exact calls.space
  case inv => exact calls.inv.take alive live place targetA
  case active =>
    intro th' pre j rest y split active found'
    rcases update_some found' with ⟨rfl, rfl⟩ | ⟨isI, present'⟩
    · have isTh : th = th' := by simpa [CallState.take] using active
      subst isTh
      have whole : j :: A.stack th = pre ++ j :: rest := by simpa [CallState.take] using split
      cases pre with
      | nil =>
        have below : A.stack th = rest := (cons.inj whole).2
        exact ⟨rfl, stack.trans (by rw [below])⟩
      | cons first pre =>
        have mem : j ∈ A.stack th := by rw [(cons.inj whole).2]; simp
        exact absurd (notOn th mem) callerNe
    · have active' : A.place j = .active th' := by simpa [CallState.take, isI] using active
      by_cases isTh : th' = th
      · subst isTh
        have whole : i :: A.stack th' = pre ++ j :: rest := by simpa [CallState.take] using split
        cases pre with
        | nil => exact absurd (cons.inj whole).1.symm isI
        | cons first pre =>
          exact calls.active th' pre j rest y (cons.inj whole).2 active' present'
      · exact calls.active th' pre j rest y (by simpa [CallState.take, isTh] using split) active'
          present'
  all_goals
    simp only [CallState.take]
    grind -linarith [calls.live, calls.alive, BinderState.buffer]

/-- A thread starts to reply to the call it works on. -/
theorem Calls.leave (calls : Calls s A none none) (present : s.threads th = some thread)
    (top : (A.stack th).head? = some i) (active : A.place i = .active th)
    (found : s.transactions i = some x) :
    Calls { s with
      threads := update s.threads th (some
        { thread with transactionStack := x.toParent }) } (A.leave th i) none none := by
  obtain ⟨rest, stack⟩ := head?_eq_some_iff.mp top
  have below : x.toParent = rest.head? := (calls.active th [] i rest x stack active found).2
  constructor
  case space => exact calls.space
  case inv => exact calls.inv.leave top active
  case active =>
    intro th' pre j rest' y split isActive found'
    have isI : j ≠ i := by
      rintro rfl
      simp [CallState.leave] at isActive
    have active' : A.place j = .active th' := by simpa [CallState.leave, isI] using isActive
    by_cases isTh : th' = th
    · subst isTh
      have tail : rest = pre ++ j :: rest' := by simpa [CallState.leave, stack] using split
      exact calls.active th' (i :: pre) j rest' y (by simp [stack, tail]) active' found'
    · exact calls.active th' pre j rest' y (by simpa [CallState.leave, isTh] using split) active'
        found'
  case away =>
    intro th' j y mem notActive found'
    by_cases isTh : th' = th
    · subst isTh
      have tail : j ∈ rest := by simpa [CallState.leave, stack] using mem
      have isI : j ≠ i := by
        have nodup := calls.inv.stack_nodup th'
        rw [stack] at nodup
        rintro rfl
        exact (List.nodup_cons.mp nodup).1 tail
      exact calls.away th' j y (by simp [stack, tail])
        (by simpa [CallState.leave, isI] using notActive) found'
    · have mem' : j ∈ A.stack th' := by simpa [CallState.leave, isTh] using mem
      by_cases isI : j = i
      · subst isI
        refine calls.away th' j y mem' ?_ found'
        rw [active]
        simpa using fun same => isTh same.symm
      · exact calls.away th' j y mem' (by simpa [CallState.leave, isI] using notActive) found'
  case waits => grind -linarith [BinderThread.waitsForProc]
  all_goals
    simp only [CallState.leave]
    grind -linarith [calls.live, calls.alive, BinderState.buffer]

/-- A queued call is taken off its list for nobody. -/
theorem Calls.drop {h : ListHead} {l : List Work} (calls : Calls s A dying current)
    (live : A.live i) (place : A.place i = .queued h) (list : s.work h = .transaction i :: l) :
    Calls (s.setWork h l) (A.drop i) dying current := by
  have once := calls.queued h i live place
  rw [list, count_cons_self] at once
  constructor
  case space => exact calls.space
  case inv => exact calls.inv.drop place
  all_goals
    simp only [CallState.drop, BinderState.setWork]
    grind -linarith [calls.live, calls.alive, BinderState.buffer]

/-- A new thread. -/
theorem Calls.enter (calls : Calls s A none current) (thread : BinderThread)
    (created : ObjectKind → Nat) (empty : thread.transactionStack = none)
    (idle : thread.waitsForProc = false) :
    Calls { s with
      nextId := s.nextId + 1
      objCreated := created
      threads := update s.threads s.nextId (some thread) } (A.enter s.nextId) none
      current := by
  have dead : ¬A.alive s.nextId := by
    intro alive
    obtain ⟨⟨y, present⟩, _⟩ := (calls.alive s.nextId).mp alive
    exact lt_irrefl _ (calls.thread_lt _ y present)
  have stack := calls.inv.stack_dead s.nextId dead
  constructor
  case space => exact calls.space.mono rfl (Nat.le_succ _)
  case inv => exact calls.inv.enter
  case ofBuffer => exact calls.ofBuffer
  case alive =>
    intro th'
    by_cases isTh : th' = s.nextId
    · subst isTh
      simp [CallState.enter]
    · simpa [CallState.enter, isTh] using calls.alive th'
  all_goals
    simp only [CallState.enter]
    grind -linarith [calls.live, calls.alive, BinderState.buffer]

/-- The threads when call `i` of transaction `x` is taken off the stack of its
sender, if that is still there. -/
def BinderState.popped (s : BinderState) (x : BinderTransaction) : Nat → Option BinderThread :=
  match x.fromThread with
  | none => s.threads
  | some th => Function.update s.threads th ((s.threads th).map fun thread =>
    { thread with transactionStack := x.fromParent })

theorem popped_some {y : BinderThread}
    (found : s.popped x th = some y) : ∃ z, s.threads th = some z ∧
      y.waitsForProc = z.waitsForProc ∧
      y.transactionStack = if x.fromThread = some th then x.fromParent else z.transactionStack := by
  unfold BinderState.popped at found
  cases sender : x.fromThread with
  | none =>
    rw [sender] at found
    exact ⟨y, found, rfl, by simp⟩
  | some th' =>
    rw [sender] at found
    by_cases isTh : th = th'
    · subst isTh
      simp only [update_self] at found
      obtain ⟨z, present, rfl⟩ := Option.map_eq_some_iff.mp found
      exact ⟨z, present, rfl, by simp⟩
    · have ne : th' ≠ th := fun same => isTh same.symm
      exact ⟨y, by simpa [isTh] using found, rfl, by simp [ne]⟩

theorem popped_isSome : (∃ y, s.popped x th = some y) ↔ ∃ z, s.threads th = some z := by
  unfold BinderState.popped
  cases x.fromThread with
  | none => exact Iff.rfl
  | some th' =>
    by_cases isTh : th = th'
    · subst isTh
      cases present : s.threads th <;> simp [present]
    · simp [isTh]

/-- A call ends. -/
theorem Calls.finish (calls : Calls s A dying current)
    (found : s.transactions i = some x) (needReply : x.needReply = true)
    (noBuffer : x.buffer = none) (childless : ∀ c, ¬A.Child i c)
    (idle : ∀ y, A.place i ≠ .active y) :
    Calls { s with
      transactions := update s.transactions i none
      threads := s.popped x } (A.finish i) dying current := by
  have live : A.live i := (calls.live i).mpr ⟨x, found, needReply⟩
  obtain ⟨caller, parent⟩ := calls.links i x found needReply
  have top : ∀ th, A.caller i = some th → A.stack th = i :: (A.finish i).stack th :=
    fun th => calls.inv.finish_top live childless
  constructor
  case space => exact calls.space
  case inv => exact calls.inv.finish live childless idle
  case stack =>
    intro th y found' notDying
    obtain ⟨z, present, _, stack⟩ := popped_some found'
    rw [stack, caller]
    have before := calls.stack th z present notDying
    split
    · rename_i isCaller
      have isTop : (A.stack th).head? = some i := by rw [top th isCaller]; rfl
      rw [parent, calls.inv.parent_of_top isTop isCaller, top th isCaller]
      rfl
    · rename_i notCaller
      rw [before, CallState.finish_other notCaller]
  case active =>
    intro th pre j rest y split isActive found'
    obtain ⟨_, present⟩ := update_none found'
    by_cases isCaller : A.caller i = some th
    · exact calls.active th (i :: pre) j rest y (by rw [top th isCaller, split]; rfl) isActive
        present
    · exact calls.active th pre j rest y (by rw [← CallState.finish_other isCaller, split])
        isActive present
  case waits =>
    intro th y found' waits
    obtain ⟨z, present, waits', stack⟩ := popped_some found'
    rw [waits'] at waits
    have empty := calls.waits th z present waits
    rw [stack]
    split
    · rename_i isSender
      -- A thread that waits for work of its process has made no call.
      have isCaller : A.caller i = some th := caller.symm.trans isSender
      have alive := (calls.inv.caller_mem i th live isCaller).1
      have before := calls.stack th z present ((calls.alive th).mp alive).2
      rw [empty, top th isCaller] at before
      cases before
    · exact empty
  case alive =>
    intro th
    exact (calls.alive th).trans (and_congr_left fun _ => popped_isSome.symm)
  case live =>
    intro j
    by_cases isI : j = i
    · simp [CallState.finish, isI]
    · simpa [CallState.finish, isI] using calls.live j
  case links => exact fun j y found' => calls.links j y (update_none found').2
  case away =>
    intro th j y mem notActive found'
    exact calls.away th j y (calls.inv.mem_finish live childless mem) notActive
      (update_none found').2
  case queued =>
    intro h j isLive isQueued
    exact calls.queued h j (CallState.live_finish isLive).1 isQueued
  case unqueued =>
    intro h j isLive isNot
    exact calls.unqueued h j (CallState.live_finish isLive).1 isNot
  all_goals
    grind -linarith [calls.live, calls.alive, BinderState.buffer, popped_some,
      → CallState.live_finish]

end AndroidKernel.Binder
