import Mathlib

/-!
Systems that answer each call, and forward simulation between two of them.

A system is a step function from calls and states to answers and states. A
specification is a relation: it may leave open which answer a call gets and
which state follows. `Implements` is the rule for runs: a relation between the
states that every single call keeps, with an answer the specification allows,
gives for every run a run of the specification with the same answers. The calls
of a run can be restricted by a condition on the state they are made in.
-/

namespace AndroidKernel.Lib

variable {σ τ ε ω : Type} {es : List ε} {step : ε → σ → ω × σ} {s : σ} {ok : σ → ε → Prop}
  {spec : τ → ε → ω → τ → Prop}

/-- The answers to a list of calls, and the state after them. -/
def answers (step : ε → σ → ω × σ) : List ε → σ → List ω × σ
  | [], s => ([], s)
  | e :: es, s => ((step e s).1 :: (answers step es (step e s).2).1, (answers step es (step e s).2).2)

/-- Every call of the list is made in a state that allows it. -/
def Admits (step : ε → σ → ω × σ) (ok : σ → ε → Prop) : List ε → σ → Prop
  | [], _ => True
  | e :: es, s => ok s e ∧ Admits step ok es (step e s).2

instance decidableAdmits (step : ε → σ → ω × σ) (ok : σ → ε → Prop) [∀ s e, Decidable (ok s e)]
    (es : List ε) (s : σ) : Decidable (Admits step ok es s) :=
  match es with
  | [] => inferInstanceAs (Decidable True)
  | e :: es =>
    have := decidableAdmits step ok es (step e s).2
    inferInstanceAs (Decidable (ok s e ∧ Admits step ok es (step e s).2))

/-- Runs of a specification. -/
inductive SpecRun (spec : τ → ε → ω → τ → Prop) : τ → List ε → List ω → τ → Prop where
  | nil {t : τ} : SpecRun spec t [] [] t
  | cons {t t' t'' : τ} {e : ε} {a : ω} {es : List ε} {as : List ω} :
      spec t e a t' → SpecRun spec t' es as t'' → SpecRun spec t (e :: es) (a :: as) t''

/-- One call made in related states has an answer and a next state that the
specification allows. -/
def Implements (step : ε → σ → ω × σ) (spec : τ → ε → ω → τ → Prop) (ok : σ → ε → Prop)
    (rel : σ → τ → Prop) : Prop :=
  ∀ s t e, rel s t → ok s e → ∃ t', spec t e (step e s).1 t' ∧ rel (step e s).2 t'

theorem Implements.run
    {rel : σ → τ → Prop} (implements : Implements step spec ok rel) {t : τ}
    (related : rel s t) (admits : Admits step ok es s) :
    ∃ t', SpecRun spec t es (answers step es s).1 t' ∧ rel (answers step es s).2 t' := by
  induction es generalizing s t with
  | nil => exact ⟨t, .nil, related⟩
  | cons e es ih =>
    obtain ⟨here, later⟩ := admits
    obtain ⟨next, allowed, related'⟩ := implements s t e related here
    obtain ⟨last, run, ends⟩ := ih related' later
    exact ⟨last, .cons allowed run, ends⟩

/-- Invariant rule: what every admitted call keeps holds after a run, and what is then true of
its answer is true of all. -/
theorem Admits.invariant {I : σ → Prop} {P : ω → Prop}
    (admits : Admits step ok es s) (start : I s)
    (keeps : ∀ s e, I s → ok s e → P (step e s).1 ∧ I (step e s).2) :
    (∀ a ∈ (answers step es s).1, P a) ∧ I (answers step es s).2 := by
  induction es generalizing s with
  | nil => exact ⟨List.forall_mem_nil _, start⟩
  | cons e es ih =>
    obtain ⟨here, later⟩ := admits
    obtain ⟨first, next⟩ := keeps s e start here
    obtain ⟨rest, last⟩ := ih later next
    exact ⟨List.forall_mem_cons.mpr ⟨first, rest⟩, last⟩

theorem Admits.kept {I : σ → Prop} (admits : Admits step ok es s)
    (start : I s) (keeps : ∀ s e, I s → ok s e → I (step e s).2) :
    I (answers step es s).2 :=
  (admits.invariant (P := fun _ => True) start fun s e holds here =>
    ⟨trivial, keeps s e holds here⟩).2

theorem answers_append (step : ε → σ → ω × σ) (es es' : List ε) (s : σ) :
    answers step (es ++ es') s = ((answers step es s).1 ++ (answers step es' (answers step es s).2).1,
      (answers step es' (answers step es s).2).2) := by
  induction es generalizing s with
  | nil => rfl
  | cons e es ih => rw [List.cons_append, answers, ih, answers, List.cons_append]

theorem admits_append {es' : List ε} :
    Admits step ok (es ++ es') s ↔
      Admits step ok es s ∧ Admits step ok es' (answers step es s).2 := by
  induction es generalizing s with
  | nil => exact (iff_of_eq (true_and _)).symm
  | cons e es ih => rw [List.cons_append, Admits, Admits, ih, and_assoc, answers]

theorem answers_last (step : ε → σ → ω × σ) (es : List ε) (e : ε) (s : σ) :
    (answers step (es ++ [e]) s).1 = (answers step es s).1 ++ [(step e (answers step es s).2).1] := by
  rw [answers_append]
  rfl

/-- Two systems that in related states answer every call alike, and keep them related, answer every
run alike. -/
theorem Admits.same_answers {spec : ε → τ → ω × τ} {t : τ} (admits : Admits step ok es s)
    (rel : σ → τ → Prop) (related : rel s t)
    (keeps : ∀ s t e, rel s t → ok s e →
      (step e s).1 = (spec e t).1 ∧ rel (step e s).2 (spec e t).2) :
    (answers step es s).1 = (answers spec es t).1 ∧
      rel (answers step es s).2 (answers spec es t).2 := by
  induction es generalizing s t with
  | nil => exact ⟨rfl, related⟩
  | cons e es ih =>
    obtain ⟨here, later⟩ := admits
    obtain ⟨same, related'⟩ := keeps s t e related here
    obtain ⟨rest, last⟩ := ih later related'
    exact ⟨by rw [answers, answers, same, rest], last⟩

/-- The last call of a run. -/
theorem SpecRun.last {t t' : τ} {e : ε} {as : List ω}
    (run : SpecRun spec t (es ++ [e]) as t') :
    ∃ as' a t'', as = as' ++ [a] ∧ SpecRun spec t es as' t'' ∧ spec t'' e a t' := by
  induction es generalizing t as with
  | nil =>
    cases run with
    | cons step rest =>
      cases rest
      exact ⟨[], _, t, rfl, .nil, step⟩
  | cons e' es ih =>
    cases run with
    | cons step rest =>
      obtain ⟨as', a, t'', rfl, before, last⟩ := ih rest
      exact ⟨_ :: as', a, t'', rfl, .cons step before, last⟩

theorem admits_true : Admits step (fun _ _ => True) es s := by
  induction es generalizing s with
  | nil => trivial
  | cons e es ih => exact ⟨trivial, ih⟩

end AndroidKernel.Lib
