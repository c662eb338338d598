import AndroidKernel.UserWakeLock.Lookup

/-!
The search for a name.

As long as all bytes are below 128, the difference of two of them fits a `signed char`, and the
comparison of two names is the lexicographic one. The search then ends at the lock with the
name or at the place where the name belongs.
-/

namespace AndroidKernel.UserWakeLock

open Lib Rbtree List RbTree

/-- Names are compared by their bytes as numbers. -/
def key (name : List Byte) : List Nat := name.map BitVec.toNat

/-- A name that can be in the tree, of bytes below 128. -/
def Ascii (name : List Byte) : Prop := ∀ c ∈ name, c ≠ 0 ∧ c.toNat < 128

section Compare

variable {a b : Byte} {n : Nat}

theorem toInt_sub_ascii (low : a.toNat < 128) (low' : b.toNat < 128) :
    (a - b).toInt = a.toNat - b.toNat := by
  have first : a.toInt = a.toNat := BitVec.toInt_eq_toNat_of_lt (by omega)
  have second : b.toInt = b.toNat := BitVec.toInt_eq_toNat_of_lt (by omega)
  rw [BitVec.toInt_sub, first, second]
  apply Int.bmod_eq_of_le <;> omega

theorem strncmp_same {cs ct : List Byte} (present : a ≠ 0) :
    strncmp (n + 1) (a :: cs) (a :: ct) = strncmp n cs ct := by
  refine if_neg (not_or.mpr ⟨?_, present⟩)
  exact not_not.mpr (sub_self a)

theorem strncmp_differ {cs ct : List Byte} (differ : a ≠ ct.headD 0) :
    strncmp (n + 1) (a :: cs) ct = a - ct.headD 0 := by
  exact if_pos (.inl (sub_ne_zero.mpr differ))

theorem compareName_same {buf name : List Byte} (present : a ≠ 0) :
    compareName (a :: buf) (n + 1) (a :: name) = compareName buf n name := by
  simp only [compareName, strncmp_same present, getD_cons_succ]

theorem compareName_differ {buf name : List Byte} (differ : a ≠ name.headD 0)
    (low : a.toNat < 128) (low' : (name.headD 0).toNat < 128) :
    compareName (a :: buf) (n + 1) name = a.toNat - (name.headD 0).toNat := by
  have numbers : a.toNat ≠ (name.headD 0).toNat := fun same => differ (BitVec.eq_of_toNat_eq same)
  simp only [compareName, strncmp_differ differ, toInt_sub_ascii low low']
  exact if_neg fun both => numbers (by omega)

/-- The comparison is that of the keys. -/
theorem compareName_spec {x y rest : List Byte} (ascii : Ascii x) (ascii' : Ascii y) :
    (x = y ∧ compareName (x ++ rest) x.length y = 0) ∨
      (key x < key y ∧ compareName (x ++ rest) x.length y < 0) ∨
      (key y < key x ∧ 0 < compareName (x ++ rest) x.length y) := by
  induction x generalizing y with
  | nil =>
    cases y with
    | nil => exact .inl ⟨rfl, rfl⟩
    | cons b y =>
      have longer : compareName ([] ++ rest) 0 (b :: y) = -1 :=
        if_pos ⟨rfl, (ascii' b mem_cons_self).1⟩
      exact .inr (.inl ⟨nil_lt_cons _ _, by rw [length_nil, longer]; decide⟩)
  | cons a x ih =>
    obtain ⟨present, low⟩ := ascii a mem_cons_self
    rw [cons_append, length_cons]
    cases y with
    | nil =>
      have positive : a.toNat ≠ 0 := fun zero => present (BitVec.eq_of_toNat_eq zero)
      rw [compareName_differ present low (by decide)]
      refine .inr (.inr ⟨nil_lt_cons _ _, ?_⟩)
      change (0 : Int) < a.toNat - 0
      omega
    | cons b y =>
      have low' := (ascii' b mem_cons_self).2
      by_cases same : a = b
      · rw [← same, compareName_same present]
        have tails := ih (fun c member => ascii c (mem_cons_of_mem _ member))
          (fun c member => ascii' c (mem_cons_of_mem _ member))
        simpa only [List.cons.injEq, true_and, key, map_cons, cons_lt_cons_iff,
          lt_irrefl, false_or] using tails
      · rw [@compareName_differ a x.length (x ++ rest) (b :: y) same low low']
        have numbers : a.toNat ≠ b.toNat := fun equal => same (BitVec.eq_of_toNat_eq equal)
        change _ ∨ (_ ∧ (a.toNat : Int) - b.toNat < 0) ∨ (_ ∧ (0 : Int) < a.toNat - b.toNat)
        rcases lt_or_gt_of_ne numbers with less | greater
        · exact .inr (.inl ⟨cons_lt_cons_iff.mpr (.inl less), by omega⟩)
        · exact .inr (.inr ⟨cons_lt_cons_iff.mpr (.inl greater), by omega⟩)

end Compare

/-! ### The loop -/

section Loop

variable {s : State} {t : RbTree Ptr} {path : List (RbCrumb Ptr)} {x rest : List Byte}

/-- The name belongs between the locks before and after a place. -/
structure Between (s : State) (x : List Byte) (path : List (RbCrumb Ptr)) : Prop where
  below : ∀ p ∈ before path, key (s.name p) < key x
  above : ∀ p ∈ after path, key x < key (s.name p)

def Lookup.Correct (s : State) (x : List Byte) (whole : RbTree Ptr) : Lookup → Prop
  | .found p => p ∈ whole.inorder ∧ s.name p = x
  | .missing place => ∃ path, whole = RbTree.leaf.plug path ∧ Leads place path ∧ Between s x path
  | .endless => False

theorem lookupLoop_spec {place : Place} {rounds : Nat} (zip : Zip s.tree t path)
    (leads : Leads place path) (enough : t.height < rounds) (ascii : Ascii x)
    (names : ∀ p ∈ t.inorder, Ascii (s.name p))
    (sorted : t.inorder.Pairwise fun p q => key (s.name p) < key (s.name q))
    (between : Between s x path) :
    (lookupLoop s (x ++ rest) x.length rounds (ptr t) place).Correct s x (t.plug path) := by
  induction t generalizing path place rounds with
  | leaf =>
    obtain ⟨rounds, rfl⟩ := Nat.exists_eq_succ_of_ne_zero (Nat.ne_zero_of_lt enough)
    exact ⟨path, rfl, leads, between⟩
  | node c l v r ihl ihr =>
    obtain ⟨rounds, rfl⟩ := Nat.exists_eq_succ_of_ne_zero (Nat.ne_zero_of_lt enough)
    have cell := zip.linked.1
    have height : (node c l v r).height = max l.height r.height + 1 := rfl
    simp only [inorder_node, mem_append, mem_cons] at names
    rw [inorder_node, pairwise_append, pairwise_cons] at sorted
    obtain ⟨sortedL, ⟨fromV, sortedR⟩, across⟩ := sorted
    rw [ptr_node, lookupLoop, if_neg cell.present]
    rcases @compareName_spec x (s.name v) rest ascii (names v (.inr (.inl rfl))) with
      ⟨same, diff⟩ | ⟨less, diff⟩ | ⟨greater, diff⟩
    · simp only [diff, lt_irrefl, if_false]
      exact ⟨by simp, same.symm⟩
    · -- to the left, with this lock and those to its right after the place
      have link : (s.tree.node v).rbLeft = ptr l := cell.near
      simp only [if_pos diff]
      rw [link]
      refine @ihl (.left c v r :: path) (.child .left v) rounds
        ((@zip_on path .left v c l r s.tree).mpr zip) (@Leads.child .left c v r path) (by omega)
        (fun p member => names p (.inl member)) sortedL ⟨?_, ?_⟩
      · rw [before_left]
        exact between.below
      intro p member
      rw [after_left, cons_append, mem_cons, mem_append] at member
      rcases member with rfl | member | member
      · exact less
      · exact less.trans (fromV p member)
      · exact between.above p member
    · have link : (s.tree.node v).rbRight = ptr r := cell.far
      simp only [if_neg (not_lt.mpr diff.le), if_pos diff]
      rw [link]
      refine @ihr (.right c l v :: path) (.child .right v) rounds
        ((@zip_on path .right v c r l s.tree).mpr zip) (@Leads.child .right c v l path) (by omega)
        (fun p member => names p (.inr (.inr member))) sortedR ⟨?_, ?_⟩
      · intro p member
        rw [before_right, mem_append, mem_append, mem_singleton] at member
        rcases member with member | member | rfl
        · exact between.below p member
        · exact (across p member v mem_cons_self).trans greater
        · exact greater
      · rw [after_right]
        exact between.above

end Loop

end AndroidKernel.UserWakeLock
