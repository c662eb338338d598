import Mathlib

/-!
Linked lists in a memory.

`Seg null next a l b` says that the pointers from `a` on pass the cells of `l` and
arrive at `b`. A whole list ends in the null pointer. A change of the memory is
reasoned about cell by cell: a segment depends on the links of its own cells only
(`Seg.congr`), and a list is cut and joined by `seg_append`.
-/

namespace AndroidKernel.Lib

variable {P : Type} {null : P} {next next' : P → P} {a b c x : P} {l l' : List P}

def Seg (null : P) (next : P → P) : P → List P → P → Prop
  | a, [], b => a = b
  | a, x :: l, b => a = x ∧ x ≠ null ∧ Seg null next (next x) l b

@[simp] theorem seg_nil : Seg null next a [] b ↔ a = b := Iff.rfl

@[simp] theorem seg_cons :
    Seg null next a (x :: l) b ↔ a = x ∧ x ≠ null ∧ Seg null next (next x) l b := Iff.rfl

theorem seg_append :
    Seg null next a (l ++ l') b ↔ ∃ c, Seg null next a l c ∧ Seg null next c l' b := by
  induction l generalizing a with
  | nil => simp
  | cons x l ih =>
    rw [List.cons_append, seg_cons, ih]
    constructor
    · rintro ⟨start, some, c, first, second⟩
      exact ⟨c, ⟨start, some, first⟩, second⟩
    · rintro ⟨c, ⟨start, some, first⟩, second⟩
      exact ⟨start, some, c, first, second⟩

section

variable (seg : Seg null next a l b)
include seg

theorem Seg.congr (same : ∀ x ∈ l, next' x = next x) : Seg null next' a l b := by
  induction l generalizing a with
  | nil => exact seg
  | cons x l ih =>
    obtain ⟨start, some, rest⟩ := seg
    refine ⟨start, some, ?_⟩
    rw [same x List.mem_cons_self]
    exact ih rest fun y member => same y (List.mem_cons_of_mem x member)

theorem Seg.ne_null : ∀ x ∈ l, x ≠ null := by
  induction l generalizing a with
  | nil => simp
  | cons x l ih =>
    obtain ⟨-, some, rest⟩ := seg
    rintro y (_ | ⟨_, member⟩)
    · exact some
    · exact ih rest y member

theorem Seg.head_eq (head : l.head? = some x) : a = x := by
  cases l with
  | nil => cases head
  | cons y l => exact seg.1.trans (Option.some.inj head)

theorem Seg.start_mem (some : l ≠ []) : a ∈ l := by
  cases l with
  | nil => exact absurd rfl some
  | cons x l => exact seg.1 ▸ List.mem_cons_self

end

/-- A list that starts at null is empty. -/
theorem Seg.eq_nil (seg : Seg null next null l b) : l = [] := by
  cases l with
  | nil => rfl
  | cons x l => exact absurd seg.1.symm seg.2.1

/-- A list that does not start at null has a first cell. -/
theorem Seg.exists_cons (seg : Seg null next a l null) (some : a ≠ null) :
    ∃ rest, l = a :: rest ∧ Seg null next (next a) rest null := by
  cases l with
  | nil => exact absurd seg some
  | cons x l =>
    obtain ⟨rfl, -, rest⟩ := seg
    exact ⟨l, rfl, rest⟩

/-- The link of the last cell is changed. -/
theorem Seg.retarget (seg : Seg null next a (l ++ [x]) b)
    (same : ∀ y ∈ l, next' y = next y) (last : next' x = c) : Seg null next' a (l ++ [x]) c := by
  rw [seg_append] at seg ⊢
  obtain ⟨d, front, start, some, -⟩ := seg
  exact ⟨d, front.congr same, start, some, last⟩

end AndroidKernel.Lib
