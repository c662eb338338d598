import AndroidKernel.Logger.Delivery

/-!
Several writers on one log.

`logger_aio_write` reads `w_off` into `orig` before it takes the mutex, and puts
`orig` back when the copy of a segment meets a fault. Here the two parts are
steps of their own, so that the steps of other writers, and other calls, can
come in between. A write that meets a fault then leaves `w_off` where it found
it exactly when `orig` is still the write offset at that time.
-/

namespace AndroidKernel.Logger

open Lib

/-- A log, and what the writers that are under way have read. -/
structure Writers where
  log : LoggerLog
  orig : Nat → Option Nat

def newWriters (size : LogSize) : Writers where
  log := newLog size
  orig := fun _ => none

inductive WriterStep where
  /-- `orig = log->w_off` -/
  | begin (writer : Nat)
  /-- the rest of the call -/
  | body (writer : Nat) (req : WriteRequest)
  /-- another call -/
  | other (call : Call)

/-- One step; a writer that has not read `w_off` has no second part. -/
def WriterStep.run (step : WriterStep) (s : Writers) : Answer × Writers :=
  match step with
  | .begin writer => (.ret 0, { s with orig := Function.update s.orig writer (some s.log.wOff) })
  | .body writer req =>
    match s.orig writer with
    | none => (.waits, s)
    | some orig =>
      let (answer, log) := aioWriteBody s.log orig req
      (answer, { log := log, orig := Function.update s.orig writer none })
  | .other call =>
    let (answer, log) := call.step s.log
    (answer, { s with log := log })

/-! ### Requests that meet a fault -/

/-- The three ways a call can end, and the part `orig` has in them. -/
theorem aioWriteBody_cases (log : LoggerLog) (req : WriteRequest) :
    (req.len = 0 ∧ ∀ orig, aioWriteBody log orig req = (.ret 0, log)) ∨
      (req.faults = false ∧ ∃ ret log', ∀ orig, aioWriteBody log orig req = (.ret ret, log')) ∨
      (req.len ≠ 0 ∧ req.faults = true ∧ ∃ log' : LoggerLog,
        ∀ orig, aioWriteBody log orig req = (.err .efault, { log' with wOff := orig })) := by
  unfold aioWriteBody
  by_cases null : req.len = 0
  · exact .inl ⟨null, fun _ => if_pos null⟩
  have faults := (writeSegments_ends req.len req.iov 0
    (doWriteLog (fixUpReaders log (loggerEntrySize + req.len)) (fun i => req.header.getD i 0)
      loggerEntrySize)).1
  simp only [if_neg null]
  cases run : writeSegments req.len req.iov 0
      (doWriteLog (fixUpReaders log (loggerEntrySize + req.len)) (fun i => req.header.getD i 0)
        loggerEntrySize) with
  | mk ended log' =>
    rw [run] at faults
    cases ended with
    | none => exact .inr (.inr ⟨null, faults.mp rfl, log', fun _ => rfl⟩)
    | some ret =>
      refine .inr (.inl ⟨?_, ret, log', fun _ => rfl⟩)
      exact Bool.eq_false_iff.mpr fun faulty => nomatch faults.mpr faulty

/-! ### Runs -/

/-- Every call that fails leaves `w_off` as it was when the call took the mutex. -/
def RollsBack : List WriterStep → Writers → Prop
  | [], _ => True
  | step :: steps, s =>
    (∀ writer req, step = .body writer req → (step.run s).1 = .err .efault →
      (step.run s).2.log.wOff = s.log.wOff) ∧ RollsBack steps (step.run s).2

/-- A writer that is going to fail finds the write offset it has read. -/
def Undisturbed (s : Writers) (step : WriterStep) : Prop :=
  ∀ writer req orig, step = .body writer req → s.orig writer = some orig → req.len ≠ 0 →
    req.faults = true → orig = s.log.wOff

theorem rolls_back_step (s : Writers) (step : WriterStep) :
    (∀ writer req, step = .body writer req → (step.run s).1 = .err .efault →
      (step.run s).2.log.wOff = s.log.wOff) ↔ Undisturbed s step := by
  constructor
  · rintro rolls writer req orig rfl found some_len faults
    rcases aioWriteBody_cases s.log req with ⟨null, -⟩ | ⟨fine, -⟩ | ⟨-, -, log', ended⟩
    · exact absurd null some_len
    · rw [faults] at fine
      cases fine
    · have kept := rolls writer req rfl
      simp only [WriterStep.run, found, ended] at kept
      exact kept trivial
  · rintro undisturbed writer req rfl failed
    cases found : s.orig writer with
    | none => simp only [WriterStep.run, found]
    | some orig =>
      have same := undisturbed writer req orig rfl found
      simp only [WriterStep.run, found] at failed ⊢
      rcases aioWriteBody_cases s.log req with ⟨-, ended⟩ | ⟨-, ret, log', ended⟩ |
        ⟨some_len, faults, log', ended⟩
      · simp only [ended]
      · simp [ended] at failed
      · simp only [ended]
        exact same some_len faults

theorem rollsBack_iff (steps : List WriterStep) (s : Writers) :
    RollsBack steps s ↔ Admits WriterStep.run Undisturbed steps s := by
  induction steps generalizing s with
  | nil => exact Iff.rfl
  | cons step steps ih => exact and_congr (rolls_back_step s step) (ih _)

/-- The steps of the writers in the specification: each body is one write. -/
def WriterSpec (size : Nat) (spec : LogSpec) (step : WriterStep) (answer : Answer)
    (spec' : LogSpec) : Prop :=
  match step with
  | .begin _ => spec' = spec
  | .body _ req =>
    answer = .waits ∧ spec' = spec ∨ (answer, spec') = specStep size (.write req) spec
  | .other call => (answer, spec') = specStep size call spec

/-- A body whose rollback is right is the write that no other comes in between
of. -/
theorem aioWriteBody_eq {log : LoggerLog} {orig : Nat} {req : WriteRequest}
    (same : req.len ≠ 0 → req.faults = true → orig = log.wOff) :
    aioWriteBody log orig req = loggerAioWrite log req := by
  unfold loggerAioWrite
  rcases aioWriteBody_cases log req with ⟨-, ended⟩ | ⟨-, ret, log', ended⟩ |
    ⟨some_len, faults, log', ended⟩
  · rw [ended, ended]
  · rw [ended, ended]
  · rw [same some_len faults]

theorem writers_implement (size : LogSize) :
    Implements WriterStep.run (WriterSpec size.bytes) Undisturbed
      (fun s spec => Shows size s.log spec) := by
  rintro s spec step shows undisturbed
  cases step with
  | begin writer => exact ⟨spec, rfl, shows⟩
  | other call =>
    obtain ⟨answer, shows'⟩ := logger_step size s.log spec call shows
    exact ⟨_, Prod.ext answer rfl, shows'⟩
  | body writer req =>
    cases found : s.orig writer with
    | none =>
      simp only [WriterStep.run, found]
      exact ⟨spec, .inl ⟨rfl, rfl⟩, shows⟩
    | some orig =>
      have serial := aioWriteBody_eq (undisturbed writer req orig rfl found)
      obtain ⟨answer, shows'⟩ := logger_step size s.log spec (.write req) shows
      simp only [WriterStep.run, found, serial]
      exact ⟨_, .inr (Prod.ext answer rfl), shows'⟩

/-- In every interleaving of writers and other calls the failing writes all
leave `w_off` as they found it if and only if none of them was overtaken between
its read of `w_off` and the mutex; and then every entry that a writer completed
stays in the log, as if each write had been made in one step. -/
theorem writers_roll_back (size : LogSize) (steps : List WriterStep) :
    (RollsBack steps (newWriters size) ↔
        Admits WriterStep.run Undisturbed steps (newWriters size)) ∧
      (RollsBack steps (newWriters size) → ∃ spec,
        SpecRun (WriterSpec size.bytes) emptySpec steps
          (answers WriterStep.run steps (newWriters size)).1 spec ∧
        Represents (answers WriterStep.run steps (newWriters size)).2.log spec) := by
  refine ⟨rollsBack_iff steps _, fun rolls => ?_⟩
  have start : Shows size (newWriters size).log emptySpec := ⟨rfl, represents_newLog size⟩
  obtain ⟨spec, run, shows⟩ :=
    (writers_implement size).run start ((rollsBack_iff steps _).mp rolls)
  exact ⟨spec, run, shows.2⟩

/-! ### A writer that is overtaken -/

/-- Writer 2 comes between the two parts of writer 1, whose payload cannot be
read. -/
def overtaken : List WriterStep :=
  [.begin 1, .begin 2, .body 2 (writeOf 1 65),
    .body 1 { writeOf 1 66 with iov := [{ iovLen := 1, base := fun _ => 66, readable := 0 }] }]

/-- Writer 2 has stored its entry and `w_off` is behind it when writer 1 takes
the mutex; writer 1 fails and puts `w_off` back to 0, before the entry. -/
theorem overtaken_discards :
    (answers WriterStep.run overtaken (newWriters smallest)).1 =
        [.ret 0, .ret 0, .ret 1, .err .efault] ∧
      (answers WriterStep.run (overtaken.take 3) (newWriters smallest)).2.log.wOff = 21 ∧
      (answers WriterStep.run overtaken (newWriters smallest)).2.log.wOff = 0 ∧
      ¬RollsBack overtaken (newWriters smallest) := by
  have before :
      (answers WriterStep.run (overtaken.take 3) (newWriters smallest)).2.log.wOff = 21 := by
    decide +kernel
  have after : (answers WriterStep.run overtaken (newWriters smallest)).2.log.wOff = 0 := by
    decide +kernel
  have results : (answers WriterStep.run overtaken (newWriters smallest)).1 =
      [.ret 0, .ret 0, .ret 1, .err .efault] := by
    decide +kernel
  refine ⟨results, before, after, ?_⟩
  rintro ⟨-, -, -, last, -⟩
  have kept := last 1 _ rfl (by
    have fourth := congrArg (fun l => l[3]?) results
    simpa [overtaken, answers] using fourth)
  change (answers WriterStep.run overtaken (newWriters smallest)).2.log.wOff =
    (answers WriterStep.run (overtaken.take 3) (newWriters smallest)).2.log.wOff at kept
  rw [before, after] at kept
  omega

end AndroidKernel.Logger
