import AndroidKernel.Binder.CallFrame

/-!
The buffers of all processes.

The buffer space of a process is used through `binder_alloc_buf` and
`binder_free_buf`, which keep its invariant; seen from the rest of the driver they
add a buffer that was not there and take one away.
-/

namespace AndroidKernel.Binder

open Lib

/-- The processes are there and every buffer space is in order. -/
def Spaces (s : BinderState) : Prop :=
  (∀ p proc, s.procs p = some proc → p < s.nextId) ∧
    ∀ p proc a, s.procs p = some proc → proc.alloc = some a → AllocInv a

variable {s : BinderState} {a : BinderAlloc}

theorem Spaces.proc_lt (spaces : Spaces s) {p : Nat} {proc : BinderProc}
    (found : s.procs p = some proc) : p < s.nextId :=
  spaces.1 p proc found

theorem Spaces.inv (spaces : Spaces s) {p : Nat} {proc : BinderProc} (found : s.procs p = some proc) (alloc : proc.alloc = some a) : AllocInv a :=
  spaces.2 p proc a found alloc

theorem Spaces.mono {t : BinderState} (spaces : Spaces s) (procs : t.procs = s.procs)
    (le : s.nextId ≤ t.nextId) : Spaces t := by
  constructor
  · intro p proc found
    rw [procs] at found
    exact lt_of_lt_of_le (spaces.proc_lt found) le
  · intro p proc a found alloc
    rw [procs] at found
    exact spaces.inv found alloc

theorem AllocInv.of_shape {a' : BinderAlloc} (inv : AllocInv a) (same : a'.shape = a.shape) :
    AllocInv a' := by
  have shape : AllocInv a.shape := by
    have stored := inv.setHdrs (fun b => (a.hdr b).shape) fun _ => ⟨rfl, rfl, rfl⟩
    exact stored.setQuota a.freeAsyncSpace false
  rw [← same] at shape
  have stored := shape.setHdrs a'.hdr fun _ => ⟨rfl, rfl, rfl⟩
  exact stored.setQuota a'.freeAsyncSpace a'.vma

theorem live_shape {b : Nat} :
    (a.live b).map BinderBuffer.shape = a.shape.live b := by
  unfold BinderAlloc.live
  by_cases taken : b ∈ a.buffers ∧ (a.hdr b).free = false
  · simp [taken, BinderAlloc.shape, BinderBuffer.shape]
  · simp [taken, BinderAlloc.shape, BinderBuffer.shape]

theorem buffer_space {p b : Nat} :
    (s.buffer p b).map BinderBuffer.shape =
      ((s.procs p).map BinderProc.space).join.bind fun a => a.live b := by
  unfold BinderState.buffer
  cases s.procs p with
  | none => rfl
  | some proc =>
    cases alloc : proc.alloc with
    | none => simp [BinderProc.space, alloc]
    | some a => simp [BinderProc.space, alloc, live_shape]

/-- Nothing but the buffer space of `p` is different. -/
def SpaceStep (p : Nat) (s t : BinderState) : Prop :=
  ∃ proc a a', s.procs p = some proc ∧ proc.alloc = some a ∧ AllocInv a' ∧
    t = s.setProc p (some { proc with alloc := some a' })

section Specs

variable {s t : BinderState} {p b : Nat}

theorem SpaceStep.spaces (step : SpaceStep p s t) (spaces : Spaces s) : Spaces t := by
  obtain ⟨proc, a, a', found, alloc, inv, rfl⟩ := step
  constructor
  · intro q proc' found'
    rcases update_some found' with ⟨rfl, rfl⟩ | ⟨_, present⟩
    · exact spaces.proc_lt found
    · exact spaces.proc_lt present
  · intro q proc' a'' found' alloc'
    rcases update_some found' with ⟨rfl, rfl⟩ | ⟨_, present⟩
    · cases alloc'
      exact inv
    · exact spaces.inv present alloc'

theorem Spaces.storeBuffer {f : BinderBuffer → BinderBuffer} (spaces : Spaces s)
    (same : ∀ h, BinderBuffer.Same h (f h)) : Spaces (s.storeBuffer p b f) := by
  constructor
  · intro q proc found
    by_cases isP : q = p
    · subst isP
      simp only [BinderState.storeBuffer, Function.update_self] at found
      obtain ⟨proc', present, _⟩ := Option.map_eq_some_iff.mp found
      exact spaces.proc_lt present
    · exact spaces.proc_lt (by simpa [BinderState.storeBuffer, isP] using found)
  · intro q proc a found alloc
    by_cases isP : q = p
    · subst isP
      simp only [BinderState.storeBuffer, Function.update_self] at found
      obtain ⟨proc', present, rfl⟩ := Option.map_eq_some_iff.mp found
      obtain ⟨a', alloc', rfl⟩ := Option.map_eq_some_iff.mp alloc
      exact (spaces.inv present alloc').store b same
    · exact spaces.inv (by simpa [BinderState.storeBuffer, isP] using found) alloc

/-- What `binder_alloc_buf` does for a process. -/
theorem allocBuf_spec {env : PageEnv} {dataSize offsetsSize : Nat} {isAsync : Bool}
    {sites : List BugSite} (spaces : Spaces s) :
    wp (allocBuf p env dataSize offsetsSize isAsync) (fun found t =>
      (found = none → Frame s t) ∧ ∀ b, found = some b → SpaceStep p s t ∧ s.buffer p b = none ∧
        ∃ h, h.asyncTransaction = isAsync ∧ h.dataSize = dataSize ∧ h.offsetsSize = offsetsSize ∧
          ∀ q c, t.buffer q c = if q = p ∧ c = b then some h else s.buffer q c)
      (Avoids sites) s := by
  unfold allocBuf
  refine deref_then fun proc found => ?_
  cases alloc : proc.alloc with
  | none => exact ⟨fun _ => .refl s, by simp⟩
  | some a =>
    obtain ⟨result, a', run, inv, same, taken⟩ :=
      (spaces.inv found alloc).alloc env dataSize offsetsSize isAsync
    simp only [run, wp_bind, wp_putProc, wp_pure]
    refine ⟨fun isNone => ?_, fun b isSome => ?_⟩
    · rw [same isNone]
      exact .setProc found (by simp [BinderProc.shape, alloc])
    obtain ⟨unused, h, live, dataSize', offsetsSize', async⟩ := taken b isSome
    refine ⟨⟨proc, a, a', found, alloc, inv, rfl⟩, by simp [BinderState.buffer, found, alloc, unused],
      h, async, dataSize', offsetsSize', fun q c => ?_⟩
    by_cases isP : q = p
    · subst isP
      by_cases isB : c = b
      · subst isB
        simp [BinderState.buffer, live]
      · simp [BinderState.buffer, live, isB, found, alloc]
    · simp [BinderState.buffer, isP]

/-- What `binder_free_buf` does for a process. -/
theorem freeBuf_spec {sites : List BugSite} {h : BinderBuffer} (spaces : Spaces s)
    (present : s.buffer p b = some h) (idle : h.transaction = none) :
    wp (freeBuf p b) (fun _ t => SpaceStep p s t ∧
      ∀ q c, t.buffer q c = if q = p ∧ c = b then none else s.buffer q c) (Avoids sites) s := by
  unfold freeBuf
  refine deref_then fun proc found => ?_
  cases alloc : proc.alloc with
  | none => simp [BinderState.buffer, found, alloc] at present
  | some a =>
    have live : a.live b = some h := by simpa [BinderState.buffer, found, alloc] using present
    obtain ⟨allocated, same⟩ := live_eq_some.mp live
    obtain ⟨a', run, inv, gone⟩ :=
      (spaces.inv found alloc).free allocated (by rw [same]; exact idle)
    simp only [run, wp_putProc]
    refine ⟨⟨proc, a, a', found, alloc, inv, rfl⟩, fun q c => ?_⟩
    by_cases isP : q = p
    · subst isP
      by_cases isB : c = b
      · subst isB
        simp [BinderState.buffer, gone]
      · simp [BinderState.buffer, gone, isB, found, alloc]
    · simp [BinderState.buffer, isP]

end Specs

end AndroidKernel.Binder
