import Mathlib

/-!
Circular lists linked in both directions.

`Circle next prev l` says that the elements of `l` are linked in this order, from each to
the next and back, and the last one to the first. A circle can be read from any of its
elements on; putting an element in after another and taking one out are described by what
they do to the links.
-/

namespace AndroidKernel.Lib

open List

variable {α : Type}

/-- The links from `a` over the list to `b`. -/
def Path (next prev : α → α) : α → List α → α → Prop
  | a, [], b => next a = b ∧ prev b = a
  | a, x :: l, b => (next a = x ∧ prev x = a) ∧ Path next prev x l b

def Circle (next prev : α → α) : List α → Prop
  | [] => True
  | a :: l => Path next prev a l a

section Path

variable {next prev next' prev' : α → α} {a b c x : α} {l l₁ l₂ : List α}

theorem path_append :
    Path next prev a (l₁ ++ c :: l₂) b ↔ Path next prev a l₁ c ∧ Path next prev c l₂ b := by
  induction l₁ generalizing a with
  | nil => exact Iff.rfl
  | cons x l₁ ih =>
    rw [cons_append, Path, Path, ih]
    exact (and_assoc ..).symm

theorem Path.congr (path : Path next prev a l b) (nexts : ∀ x ∈ a :: l, next' x = next x)
    (prevs : ∀ x ∈ l ++ [b], prev' x = prev x) : Path next' prev' a l b := by
  induction l generalizing a with
  | nil =>
    rw [Path, nexts a (by simp), prevs b (by simp)]
    exact path
  | cons x l ih =>
    obtain ⟨link, rest⟩ := path
    refine ⟨?_, ih rest (fun y member => nexts y (by simp [mem_cons.mp member]))
      fun y member => prevs y (mem_cons_of_mem _ member)⟩
    rwa [nexts a (by simp), prevs x (by simp)]

theorem circle_rotate : Circle next prev (l₁ ++ c :: l₂) ↔ Circle next prev (c :: (l₂ ++ l₁)) := by
  cases l₁ with
  | nil => rw [nil_append, append_nil]
  | cons a l₁ => exact path_append.trans (and_comm.trans path_append.symm)

theorem Circle.congr (circle : Circle next prev l) (nexts : ∀ x ∈ l, next' x = next x)
    (prevs : ∀ x ∈ l, prev' x = prev x) : Circle next' prev' l := by
  cases l with
  | nil => trivial
  | cons a l =>
    refine Path.congr circle nexts fun x member => prevs x ?_
    rcases mem_append.mp member with inside | last
    · exact mem_cons_of_mem _ inside
    · exact mem_singleton.mp last ▸ mem_cons_self ..

theorem circle_singleton : Circle next prev [a] ↔ next a = a ∧ prev a = a := Iff.rfl

/-- The successor of an element inside the list. -/
theorem Circle.next_mid (circle : Circle next prev (l₁ ++ a :: b :: l₂)) : next a = b := by
  have path : Path next prev a (b :: l₂ ++ l₁) a := circle_rotate.mp circle
  exact path.1.1

/-- The last element is linked to the first. -/
theorem Circle.next_last (circle : Circle next prev (l ++ [a])) (first : (l ++ [a]).head? = some b) :
    next a = b := by
  have path : Path next prev a ([] ++ l) a := circle_rotate.mp circle
  cases l with
  | nil =>
    rw [nil_append, List.head?_cons, Option.some.injEq] at first
    exact first ▸ path.1
  | cons x l =>
    rw [cons_append, List.head?_cons, Option.some.injEq] at first
    exact first ▸ path.1.1

/-- A circle of more than one element goes on to another one. -/
theorem Circle.next_ne (circle : Circle next prev (a :: b :: l)) (nodup : (a :: b :: l).Nodup) :
    next a = b ∧ b ≠ a := by
  refine ⟨circle.1.1, ?_⟩
  rintro rfl
  simp at nodup

/-- The predecessor of the first element is the last one. -/
theorem Circle.prev_head (circle : Circle next prev (a :: l)) :
    ∃ l' c, a :: l = l' ++ [c] ∧ prev a = c ∧ next c = a := by
  rcases eq_nil_or_concat' l with rfl | ⟨l', c, rfl⟩
  · exact ⟨[], a, rfl, circle.2, circle.1⟩
  · obtain ⟨-, last⟩ := path_append.mp circle
    exact ⟨a :: l', c, rfl, last.2, last.1⟩

theorem Circle.next_mem (circle : Circle next prev l) (member : a ∈ l) : next a ∈ l := by
  obtain ⟨l₁, l₂, rfl⟩ := append_of_mem member
  have path : Path next prev a (l₂ ++ l₁) a := circle_rotate.mp circle
  have inside : ∀ x, x ∈ l₂ ++ l₁ → x ∈ l₁ ++ a :: l₂ := by
    intro x member
    simp only [mem_append, mem_cons] at member ⊢
    tauto
  cases rest : l₂ ++ l₁ with
  | nil =>
    rw [rest] at path
    exact path.1.symm ▸ member
  | cons b l =>
    rw [rest] at path inside
    exact inside _ (path.1.1.symm ▸ mem_cons_self ..)

theorem Circle.prev_mem (circle : Circle next prev l) (member : a ∈ l) : prev a ∈ l := by
  obtain ⟨l₁, l₂, rfl⟩ := append_of_mem member
  obtain ⟨l, c, list, pred, -⟩ := (circle_rotate.mp circle).prev_head
  have last : c ∈ a :: (l₂ ++ l₁) := list ▸ by simp
  rw [pred]
  simp only [mem_append, mem_cons] at last ⊢
  tauto

/-- The links after `x` has been put in after `a`. -/
structure LinkedAfter (next prev next' prev' : α → α) (a x : α) : Prop where
  out : next' a = x
  back : prev' x = a
  onward : next' x = next a
  backward : prev' (next a) = x
  nexts : ∀ y, y ≠ a → y ≠ x → next' y = next y
  prevs : ∀ y, y ≠ x → y ≠ next a → prev' y = prev y

theorem Circle.insert_first (circle : Circle next prev (a :: l)) (nodup : (a :: l).Nodup)
    (fresh : x ∉ a :: l) (linked : LinkedAfter next prev next' prev' a x) :
    Circle next' prev' (a :: x :: l) := by
  have other : a ≠ x := fun same => fresh (same ▸ mem_cons_self ..)
  refine ⟨⟨linked.out, linked.back⟩, ?_⟩
  cases l with
  | nil =>
    have self : next a = a := circle.1
    refine ⟨linked.onward.trans self, ?_⟩
    have := linked.backward
    rwa [self] at this
  | cons b l =>
    obtain ⟨⟨succ, -⟩, rest⟩ := circle
    obtain ⟨notFirst, tail⟩ := nodup_cons.mp nodup
    refine ⟨⟨linked.onward.trans succ, succ ▸ linked.backward⟩, rest.congr ?_ ?_⟩
    · intro y member
      refine linked.nexts y (fun same => notFirst (same ▸ member)) fun same => fresh ?_
      exact mem_cons_of_mem _ (same ▸ member)
    intro y member
    rw [mem_append, mem_singleton] at member
    rcases member with inside | rfl
    · refine linked.prevs y (fun same => fresh ?_) fun same => ?_
      · exact mem_cons_of_mem _ (mem_cons_of_mem _ (same ▸ inside))
      · exact (nodup_cons.mp tail).1 (succ ▸ same ▸ inside)
    · refine linked.prevs y other fun same => notFirst ?_
      rw [same, succ]
      exact mem_cons_self ..

/-- An element can be put in after any other one. -/
theorem Circle.insert (circle : Circle next prev (l₁ ++ a :: l₂)) (nodup : (l₁ ++ a :: l₂).Nodup)
    (fresh : x ∉ l₁ ++ a :: l₂) (linked : LinkedAfter next prev next' prev' a x) :
    Circle next' prev' (l₁ ++ a :: x :: l₂) := by
  refine circle_rotate.mpr ?_
  refine (circle_rotate.mp circle).insert_first ?_ ?_ linked
  · exact (perm_append_comm.trans (by simp)).nodup_iff.mp nodup
  · simpa [or_comm, or_assoc, or_left_comm] using fresh

/-- The links after `a` has been taken out; its own are left open. -/
structure UnlinkedAt (next prev next' prev' : α → α) (a : α) : Prop where
  out : prev a ≠ a → next' (prev a) = next a
  back : next a ≠ a → prev' (next a) = prev a
  nexts : ∀ y, y ≠ a → y ≠ prev a → next' y = next y
  prevs : ∀ y, y ≠ a → y ≠ next a → prev' y = prev y

theorem Circle.erase_first (circle : Circle next prev (a :: l)) (nodup : (a :: l).Nodup)
    (unlinked : UnlinkedAt next prev next' prev' a) : Circle next' prev' l := by
  obtain ⟨notFirst, tail⟩ := nodup_cons.mp nodup
  cases l with
  | nil => trivial
  | cons b l =>
    obtain ⟨⟨succ, -⟩, rest⟩ := circle
    have otherNext : next a ≠ a := by
      rw [succ]
      exact fun same => notFirst (same ▸ mem_cons_self ..)
    rcases eq_nil_or_concat' l with rfl | ⟨l, c, rfl⟩
    · have pred : prev a = b := rest.2
      have otherPrev : prev a ≠ a := pred ▸ succ ▸ otherNext
      refine ⟨?_, ?_⟩
      · rw [← pred, unlinked.out otherPrev, pred, succ]
      · have := unlinked.back otherNext
        rwa [succ, pred] at this
    obtain ⟨front, last⟩ := path_append.mp rest
    have pred : prev a = c := last.2
    have otherPrev : prev a ≠ a := by
      rw [pred]
      exact fun same => notFirst (same ▸ by simp)
    refine path_append.mpr ⟨front.congr ?_ ?_, ?_, ?_⟩
    · intro y member
      have inside : y ∈ b :: (l ++ [c]) := by
        simp only [mem_cons, mem_append] at member ⊢
        tauto
      refine unlinked.nexts y (fun same => notFirst (same ▸ inside)) fun same => ?_
      rw [pred] at same
      subst same
      exact (nodup_append.mp tail).2.2 y member y (mem_singleton_self y) rfl
    · intro y member
      refine unlinked.prevs y (fun same => notFirst ?_) fun same => ?_
      · exact mem_cons_of_mem _ (same ▸ member)
      · exact (nodup_cons.mp tail).1 (succ ▸ same ▸ member)
    · rw [← pred, unlinked.out otherPrev, succ]
    · have := unlinked.back otherNext
      rwa [succ, pred] at this

/-- Any element can be taken out. -/
theorem Circle.erase (circle : Circle next prev (l₁ ++ a :: l₂)) (nodup : (l₁ ++ a :: l₂).Nodup)
    (unlinked : UnlinkedAt next prev next' prev' a) : Circle next' prev' (l₁ ++ l₂) := by
  have rest : Circle next' prev' (l₂ ++ l₁) := by
    refine (circle_rotate.mp circle).erase_first ?_ unlinked
    exact (perm_append_comm.trans (by simp)).nodup_iff.mp nodup
  cases l₂ with
  | nil => rwa [append_nil]
  | cons b l₂ => exact circle_rotate.mpr rest

end Path

end AndroidKernel.Lib
