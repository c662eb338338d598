import AndroidKernel.Binder.AllocRuns
import AndroidKernel.Binder.Driver

/-!
Runs of the driver on given events.

`afterEvents` executes a list of events, each of which has to satisfy a
condition; what it returns is a reachable state. The witnesses and
counterexamples about runs are states of this kind.
-/

namespace AndroidKernel.Binder

open Lib

instance decidableEnabled (s : BinderState) (e : Event) : Decidable (binderMachine.enabled s e) :=
  inferInstanceAs (Decidable (_ = true))

/-- The condition of results about all runs. -/
def anyEvent (_ : BinderState) (_ : Event) : Prop := True

instance decidableAnyEvent (s : BinderState) (e : Event) : Decidable (anyEvent s e) :=
  inferInstanceAs (Decidable True)

section Exec

variable {s t : BinderState} {e : Event} {fault : Fault}

theorem exec_ok (run : binderMachine.exec e s = .ok t) : e.step s = .ok ((), t) := by
  change (e.step s).map Prod.snd = .ok t at run
  cases result : e.step s with
  | error fault =>
    rw [result] at run
    cases run
  | ok r =>
    rw [result] at run
    cases run
    rfl

theorem exec_error (run : binderMachine.exec e s = .error fault) : e.step s = .error fault := by
  change (e.step s).map Prod.snd = .error fault at run
  cases result : e.step s with
  | error fault' =>
    rw [result] at run
    cases run
    rfl
  | ok r =>
    rw [result] at run
    cases run

end Exec

/-- The state after the given events. -/
def afterEvents (ok : BinderState → Event → Prop) [∀ s e, Decidable (ok s e)]
    (events : List Event) : Option BinderState :=
  binderMachine.execute ok events binderInit

theorem reach_afterEvents {ok : BinderState → Event → Prop} [∀ s e, Decidable (ok s e)]
    {events : List Event} {s : BinderState} (run : afterEvents ok events = some s) :
    binderMachine.Reach ok s :=
  Machine.Reach.execute (.start rfl) run

/-! ### Parts of runs -/

/-- Thread `th` starts a read and is woken. -/
def startRead (th : Nat) : List Event :=
  [.readStart th 256 0 false true, .readRetry th fun _ => true, .readWake th true]

/-- Thread `th` takes one work item. -/
def takeWork (th : Nat) : Event := .readWork th fun _ => true

end AndroidKernel.Binder
