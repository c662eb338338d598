import Mathlib

/-!
Machines whose calls may fault, and the invariant rule for their runs.

A `Machine` has initial states, a condition under which a call can be made, and
the effect of each call; an effect that ends in a fault has no next state, so a
run stops there. `Reach` takes a further condition on the calls: the results
about *every* run use the trivial one, the results about runs that avoid some
kind of call use that kind. `execute` runs a list of calls where the conditions
can be decided.
-/

namespace AndroidKernel.Lib

/-- `exec e s` is what call `e` does in state `s`. -/
structure Machine (σ ε φ : Type) where
  init : σ → Prop
  enabled : σ → ε → Prop
  exec : ε → σ → Except φ σ

namespace Machine

variable {σ ε φ : Type} {M : Machine σ ε φ} {ok : σ → ε → Prop} {s s' : σ}

/-- States reached by runs all of whose calls satisfy `ok`. -/
inductive Reach (M : Machine σ ε φ) (ok : σ → ε → Prop) : σ → Prop where
  | start {s : σ} : M.init s → Reach M ok s
  | step {s s' : σ} {e : ε} : Reach M ok s → M.enabled s e → ok s e → M.exec e s = .ok s' →
      Reach M ok s'

/-- Invariant rule: what holds initially and is kept by every admitted call
holds in every state reached. -/
theorem Reach.invariant {Inv : σ → Prop} (start : ∀ s, M.init s → Inv s)
    (step : ∀ s e s', Inv s → M.enabled s e → ok s e → M.exec e s = .ok s' → Inv s')
    (reach : M.Reach ok s) : Inv s := by
  induction reach with
  | start first => exact start _ first
  | step _ can admitted run ih => exact step _ _ _ ih can admitted run

section Execute

variable [∀ s e, Decidable (M.enabled s e)] [∀ s e, Decidable (ok s e)]

/-- Executes calls in order; `none` when one of them cannot be made, does not
satisfy `ok` or faults. -/
def execute (M : Machine σ ε φ) (ok : σ → ε → Prop) [∀ s e, Decidable (M.enabled s e)]
    [∀ s e, Decidable (ok s e)] : List ε → σ → Option σ
  | [], s => some s
  | e :: es, s =>
    if M.enabled s e ∧ ok s e then
      match M.exec e s with
      | .ok s' => M.execute ok es s'
      | .error _ => none
    else none

theorem Reach.execute {es : List ε} (reach : M.Reach ok s) (run : M.execute ok es s = some s') :
    M.Reach ok s' := by
  induction es generalizing s with
  | nil =>
    cases run
    exact reach
  | cons e es ih =>
    unfold Machine.execute at run
    split at run
    · rename_i can
      cases exec : M.exec e s with
      | ok next =>
        rw [exec] at run
        exact ih (reach.step can.1 can.2 exec) run
      | error fault => simp [exec] at run
    · simp at run

end Execute

end Machine
end AndroidKernel.Lib
