import Mathlib

/-!
Programs that change a state and may fault, and rules for reasoning about them.

A program is a computation of `StateT σ (Except φ)`. `wp m post fault s` says
that `m`, started in `s`, either returns in a state with `post` or ends in a
fault with `fault`. The rules take a program apart along its `do` block; what
one call does is stated once, as a `wp` fact or as a relation between the states
before and after it (`Moves`), and used by `wp.mono`.
-/

namespace AndroidKernel.Lib

variable {σ φ α β : Type}

def wp (m : StateT σ (Except φ) α) (post : α → σ → Prop) (fault : φ → Prop) (s : σ) : Prop :=
  match m s with
  | .ok (a, s') => post a s'
  | .error f => fault f

section Rules

variable {m : StateT σ (Except φ) α} {k : α → StateT σ (Except φ) β} {post post' : α → σ → Prop}
  {fault fault' : φ → Prop} {s s' : σ}

@[simp] theorem wp_pure (a : α) : wp (pure a : StateT σ (Except φ) α) post fault s ↔ post a s :=
  Iff.rfl

@[simp] theorem wp_bind {after : β → σ → Prop} :
    wp (m >>= k) after fault s ↔ wp m (fun a t => wp (k a) after fault t) fault s := by
  unfold wp
  simp only [bind, StateT.bind, Except.bind]
  cases m s <;> rfl

@[simp] theorem wp_map {after : β → σ → Prop} (f : α → β) :
    wp (f <$> m) after fault s ↔ wp m (fun a t => after (f a) t) fault s := by
  unfold wp
  simp only [Functor.map, StateT.map, bind, Except.bind]
  cases m s <;> rfl

@[simp] theorem wp_get {after : σ → σ → Prop} :
    wp (get : StateT σ (Except φ) σ) after fault s ↔ after s s :=
  Iff.rfl

@[simp] theorem wp_set {after : PUnit → σ → Prop} :
    wp (set s' : StateT σ (Except φ) PUnit) after fault s ↔ after ⟨⟩ s' :=
  Iff.rfl

@[simp] theorem wp_modify {after : PUnit → σ → Prop} (f : σ → σ) :
    wp (modify f : StateT σ (Except φ) PUnit) after fault s ↔ after ⟨⟩ (f s) :=
  Iff.rfl

@[simp] theorem wp_throw (e : φ) : wp (throw e : StateT σ (Except φ) α) post fault s ↔ fault e :=
  Iff.rfl

@[simp] theorem wp_ite {c : Prop} [Decidable c] {n : StateT σ (Except φ) α} :
    wp (if c then m else n) post fault s ↔ (c → wp m post fault s) ∧ (¬c → wp n post fault s) := by
  by_cases holds : c <;> simp [holds]

/-- `if (c) m;` -/
def ifThen (c : Prop) [Decidable c] (m : StateT σ (Except φ) Unit) : StateT σ (Except φ) Unit :=
  if c then m else pure ()

/-- `if (x != NULL) m(x);` -/
def ifSome (x : Option α) (m : α → StateT σ (Except φ) Unit) : StateT σ (Except φ) Unit :=
  match x with
  | none => pure ()
  | some a => m a

@[simp] theorem wp_ifThen {c : Prop} [Decidable c] {m : StateT σ (Except φ) Unit}
    {after : Unit → σ → Prop} :
    wp (ifThen c m) after fault s ↔ (c → wp m after fault s) ∧ (¬c → after ⟨⟩ s) := by
  unfold ifThen
  rw [wp_ite, wp_pure]

@[simp] theorem wp_ifSome {x : Option α} {m : α → StateT σ (Except φ) Unit}
    {after : Unit → σ → Prop} :
    wp (ifSome x m) after fault s ↔
      (x = none → after ⟨⟩ s) ∧ ∀ a, x = some a → wp (m a) after fault s := by
  unfold ifSome
  cases x <;> simp

section

variable (run : wp m post fault s)
include run

theorem wp.of_ok {a : α} (result : m s = .ok (a, s')) : post a s' := by
  unfold wp at run
  rwa [result] at run

theorem wp.of_error {f : φ} (result : m s = .error f) : fault f := by
  unfold wp at run
  rwa [result] at run

theorem wp.mono (returns : ∀ a t, post a t → post' a t) (faults : ∀ f, fault f → fault' f) :
    wp m post' fault' s := by
  unfold wp
  cases result : m s with
  | ok r => exact returns _ _ (run.of_ok result)
  | error f => exact faults _ (run.of_error result)

theorem wp.returns (returns : ∀ a t, post a t → post' a t) : wp m post' fault s :=
  run.mono returns fun _ => id

end

/-- A program that cannot fault returns. -/
theorem wp.total (run : wp m post (fun _ => False) s) : ∃ a t, m s = .ok (a, t) ∧ post a t := by
  cases result : m s with
  | ok r => exact ⟨r.1, r.2, rfl, run.of_ok result⟩
  | error f => exact (run.of_error result).elim

theorem wp.eq_ok {a : α} (run : wp m (fun b t => b = a ∧ t = s') (fun _ => False) s) :
    m s = .ok (a, s') := by
  obtain ⟨_, _, ran, rfl, rfl⟩ := run.total
  exact ran

theorem wp_of_eq {a : α} (run : m s = .ok (a, s')) : wp m post fault s ↔ post a s' := by
  unfold wp
  rw [run]

/-- A computation without state that returns. -/
theorem wp_liftM {r : Except φ α} {a : α} (run : r = .ok a) :
    wp (liftM r : StateT σ (Except φ) α) post fault s ↔ post a s := by
  subst run
  exact Iff.rfl

theorem wp_iff : wp m post fault s ↔
    (∀ a t, m s = .ok (a, t) → post a t) ∧ ∀ f, m s = .error f → fault f := by
  constructor
  · exact fun run => ⟨fun a t result => run.of_ok result, fun f result => run.of_error result⟩
  · rintro ⟨returns, faults⟩
    unfold wp
    cases result : m s with
    | ok r => exact returns r.1 r.2 result
    | error f => exact faults f result

/-- The run itself may be used for the state it ends in. -/
theorem wp.ran (run : wp m post fault s) : wp m (fun a t => post a t ∧ m s = .ok (a, t)) fault s :=
  wp_iff.mpr ⟨fun _ _ result => ⟨run.of_ok result, result⟩, fun _ result => run.of_error result⟩

end Rules

/-! ### Relations between the states before and after -/

/-- When `m` returns, the states are related by `R`; when it faults, by `F`. -/
def Moves (R : σ → σ → Prop) (F : φ → Prop) (m : StateT σ (Except φ) α) : Prop :=
  ∀ s, wp m (fun _ t => R s t) F s

section Moves

variable {R : σ → σ → Prop} {F : φ → Prop} {m : StateT σ (Except φ) α}
  {k : α → StateT σ (Except φ) β}

theorem Moves.mono {R' : σ → σ → Prop} {F' : φ → Prop} (moves : Moves R F m)
    (weaker : ∀ s t, R s t → R' s t) (faults : ∀ f, F f → F' f) : Moves R' F' m :=
  fun s => (moves s).mono (fun _ t => weaker s t) faults

theorem Moves.throw {e : φ} (fault : F e) : Moves R F (throw e : StateT σ (Except φ) α) :=
  fun _ => fault

variable [IsPreorder σ R]

theorem Moves.pure (a : α) : Moves R F (pure a : StateT σ (Except φ) α) := fun s => refl_of R s

theorem Moves.bind (first : Moves R F m) (rest : ∀ a, Moves R F (k a)) : Moves R F (m >>= k) := by
  intro s
  rw [wp_bind]
  refine (first s).returns fun a t step => ?_
  exact (rest a t).returns fun b u step' => trans_of R step step'

/-- A search, and what is done without and with what it finds. -/
theorem Moves.lookup {m : StateT σ (Except φ) (Option α)} {k : Option α → StateT σ (Except φ) β}
    (first : Moves R F m) (absent : Moves R F (k none)) (found : ∀ a, Moves R F (k (some a))) :
    Moves R F (m >>= k) :=
  first.bind (Option.forall.mpr ⟨absent, found⟩)

/-- A step after others. -/
theorem Moves.after {s t : σ} {post : α → σ → Prop} (moves : Moves R F m) (before : R s t)
    (rest : ∀ a u, R s u → post a u) : wp m post F t :=
  (moves t).returns fun a u step => rest a u (trans_of R before step)

theorem Moves.last {s t : σ} (moves : Moves R F m) (before : R s t) : wp m (fun _ => R s) F t :=
  moves.after before fun _ _ step => step

theorem Moves.ifThen {c : Prop} [Decidable c] {m : StateT σ (Except φ) Unit}
    (moves : Moves R F m) : Moves R F (ifThen c m) := by
  intro s
  rw [wp_ifThen]
  exact ⟨fun _ => moves s, fun _ => refl_of R s⟩

theorem Moves.ifSome {x : Option α} {m : α → StateT σ (Except φ) Unit}
    (moves : ∀ a, Moves R F (m a)) : Moves R F (ifSome x m) := by
  intro s
  rw [wp_ifSome]
  exact ⟨fun _ => refl_of R s, fun a _ => moves a s⟩

end Moves

end AndroidKernel.Lib
