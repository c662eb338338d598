import AndroidKernel.Lib.Refine
import AndroidKernel.VmaTree.Calls

/-!
Runs on one reverse map, and iteration over it.

A run keeps beside the state which vmas are in the map. Vmas are written to only while
they are not in the map; whatever they hold then, even links of a list they were on, is
no matter. Iteration goes along the groups of the tree nodes that `prio_tree_next`
returns.
-/

namespace AndroidKernel.VmaTree

open Lib Function List

/-- The pages of the file that a vma maps. -/
def Vma.Maps (v : Vma) (page : Nat) : Prop :=
  v.vmPgoff.toNat ≤ page ∧ page < v.vmPgoff.toNat + v.size.toNat

/-- A vma has a page, and its pages have indices of one word. -/
def Vma.WellFormed (v : Vma) : Prop := 0 < v.size.toNat ∧ v.vmPgoff.toNat + v.size.toNat ≤ 2 ^ 32

instance decidableWellFormed (v : Vma) : Decidable v.WellFormed := inferInstanceAs (Decidable (_ ∧ _))

/-- The test `overlap` of the tree. -/
def Vma.Overlap (v : Vma) (rIndex hIndex : Word) : Prop := v.radixIndex ≤ hIndex ∧ rIndex ≤ v.heapIndex

section Ranges

variable {v w : Vma} {rIndex hIndex : Word}

theorem Vma.WellFormed.heapIndex (wellFormed : v.WellFormed) :
    v.heapIndex.toNat + 1 = v.vmPgoff.toNat + v.size.toNat := by
  obtain ⟨some, bound⟩ := wellFormed
  unfold Vma.heapIndex
  bv_omega

theorem Vma.WellFormed.overlap_iff (wellFormed : v.WellFormed)
    (range : rIndex ≤ hIndex) :
    v.Overlap rIndex hIndex ↔ ∃ page, rIndex.toNat ≤ page ∧ page ≤ hIndex.toNat ∧ v.Maps page := by
  have last := wellFormed.heapIndex
  have some := wellFormed.1
  have ordered : rIndex.toNat ≤ hIndex.toNat := range
  constructor
  · rintro ⟨low, high⟩
    have high : rIndex.toNat ≤ v.heapIndex.toNat := high
    exact ⟨max rIndex.toNat v.vmPgoff.toNat, le_max_left .., max_le ordered low, le_max_right ..,
      by omega⟩
  · rintro ⟨page, low, high, above, below⟩
    refine ⟨?_, ?_⟩
    · exact above.trans high
    · change rIndex.toNat ≤ v.heapIndex.toNat
      omega

theorem Vma.Same.size (same : v.Same w) : v.size = w.size := by
  obtain ⟨radix, heap⟩ := same
  simp only [Vma.radixIndex] at radix
  simp only [Vma.heapIndex, radix] at heap
  exact sub_left_inj.mp (add_left_cancel heap)

theorem Vma.Same.wellFormed (same : v.Same w) (wellFormed : v.WellFormed) : w.WellFormed := by
  have offset : v.vmPgoff = w.vmPgoff := same.1
  rw [Vma.WellFormed, ← same.size, ← offset]
  exact wellFormed

theorem Vma.Same.overlap (same : v.Same w) :
    v.Overlap rIndex hIndex ↔ w.Overlap rIndex hIndex := by
  rw [Vma.Overlap, Vma.Overlap, same.1, same.2]

end Ranges

/-! ### Iteration -/

section Iterate

variable {mem : Memory} {st : State} {set : Ptr → List Ptr} {n x : Ptr} {l₁ l₂ : List Ptr} {iter : Iter}

/-- After the last vma of a group iteration goes on as from the start. -/
theorem iterate_of_next_eq {rounds : Nat} (same : vmaPrioTreeNext mem x iter = prioTreeNext iter) :
    iterate mem rounds x iter = iterate mem rounds 0 iter := by
  have start : vmaPrioTreeNext mem 0 iter = prioTreeNext iter := if_pos rfl
  cases rounds with
  | zero => rfl
  | succ rounds => rw [iterate, iterate, same, start]

theorem Group.iterate_list (group : Group mem n (l₁ ++ x :: l₂)) (rounds : Nat) :
    iterate mem (l₂.length + rounds) x iter = (l₂ ++ ·) <$> iterate mem rounds 0 iter := by
  induction l₂ generalizing l₁ x with
  | nil =>
    have isMember := group.members x (by simp)
    have next : vmaPrioTreeNext mem x iter = prioTreeNext iter := by
      cases list : l₁ ++ [x] with
      | nil => simp at list
      | cons h rest =>
        have last : (mem x).next = h := group.circle.next_last (by rw [list]; rfl)
        have back := (group.first h rest list).1
        rw [vmaPrioTreeNext, if_neg isMember.1, if_neg (not_not.mpr isMember.2.1), last, back,
          if_neg group.node]
    rw [length_nil, Nat.zero_add, iterate_of_next_eq next]
    simp
  | cons y l₂ ih =>
    have isMember := group.members x (by simp)
    have nextMember := group.members y (by simp)
    have succ : (mem x).next = y := group.circle.next_mid
    have inner : (mem y).head = 0 := by
      cases l₁ with
      | nil => exact (group.first x (y :: l₂) rfl).2 y (by simp)
      | cons h l₁ => exact (group.first h (l₁ ++ x :: y :: l₂) rfl).2 y (by simp)
    have next : vmaPrioTreeNext mem x iter = (y, iter) := by
      rw [vmaPrioTreeNext, if_neg isMember.1, if_neg (not_not.mpr isMember.2.1), succ, if_pos inner]
    have rest : Group mem n ((l₁ ++ [x]) ++ y :: l₂) := by simpa using group
    rw [length_cons, Nat.add_right_comm, iterate, next]
    simp only [if_neg nextMember.1, ih rest, Functor.map, Option.map_map]
    rfl

/-- From a tree node iteration goes along its list. -/
theorem Group.iterate_node {l : List Ptr} (group : Group mem n l) (rounds : Nat) :
    iterate mem (l.length + rounds) n iter = (l ++ ·) <$> iterate mem rounds 0 iter := by
  cases l with
  | nil =>
    have none : (mem n).head = 0 := group.head
    have next : vmaPrioTreeNext mem n iter = prioTreeNext iter := by
      rw [vmaPrioTreeNext, if_neg group.node, if_pos group.parent, if_neg (not_not.mpr none)]
    rw [length_nil, Nat.zero_add, iterate_of_next_eq next]
    simp
  | cons h rest =>
    have first : (mem n).head = h := group.head
    have headSome := (group.members h (mem_cons_self ..)).1
    have next : vmaPrioTreeNext mem n iter = (h, iter) := by
      rw [vmaPrioTreeNext, if_neg group.node, if_pos group.parent, first, if_pos headSome]
    have whole : Group mem n ([] ++ h :: rest) := group
    rw [length_cons, Nat.add_right_comm, iterate, next]
    simp only [if_neg headSome, whole.iterate_list, Functor.map, Option.map_map]
    rfl

/-- All groups of the tree nodes in turn. -/
def walk (set : Ptr → List Ptr) (iter : Iter) : List Ptr := iter.flatMap fun n => n :: set n

theorem iterate_groups (groups : ∀ n ∈ iter, Group mem n (set n)) (rounds : Nat) :
    iterate mem ((walk set iter).length + rounds + 1) 0 iter = some (walk set iter) := by
  induction iter with
  | nil => rfl
  | cons n iter ih =>
    have group := groups n (mem_cons_self ..)
    have next : vmaPrioTreeNext mem 0 (n :: iter) = (n, iter) := rfl
    have rest := ih fun m member => groups m (mem_cons_of_mem _ member)
    have whole : walk set (n :: iter) = n :: (set n ++ walk set iter) := rfl
    have count : (walk set (n :: iter)).length + rounds =
        (set n).length + ((walk set iter).length + rounds + 1) := by
      rw [whole, length_cons, length_append]
      omega
    rw [count, iterate, next]
    simp only [if_neg group.node, group.iterate_node, rest]
    rfl

/-- What the tree contributes to an iteration: each of its ranges that meets the query,
once. -/
structure Enumerates (st : State) (rIndex hIndex : Word) (iter : Iter) : Prop where
  nodup : iter.Nodup
  mem : ∀ n, n ∈ iter ↔ n ∈ st.tree ∧ (st.mem n).Overlap rIndex hIndex

theorem Grouped.mem_walk (grouped : Grouped st set)
    (enumerates : Enumerates st rIndex hIndex iter) {m : Ptr} :
    m ∈ walk set iter ↔ Present st set m ∧ (st.mem m).Overlap rIndex hIndex := by
  simp only [walk, mem_flatMap, mem_cons, enumerates.mem]
  constructor
  · rintro ⟨n, ⟨inTree, overlap⟩, rfl | member⟩
    · exact ⟨.inl inTree, overlap⟩
    · exact ⟨.inr ⟨n, inTree, member⟩,
        (((grouped.group n inTree).members m member).2.2).overlap.mpr overlap⟩
  · rintro ⟨inTree | ⟨n, inTree, member⟩, overlap⟩
    · exact ⟨m, ⟨inTree, overlap⟩, .inl rfl⟩
    · exact ⟨n, ⟨inTree, (((grouped.group n inTree).members m member).2.2).overlap.mp overlap⟩,
        .inr member⟩

theorem Grouped.nodup_walk (grouped : Grouped st set) (inTree : ∀ n ∈ iter, n ∈ st.tree)
    (nodup : iter.Nodup) : (walk set iter).Nodup := by
  refine nodup_flatMap.mpr ⟨fun n member => ?_, ?_⟩
  · have there := inTree n member
    exact nodup_cons.mpr ⟨grouped.notMember there there, (grouped.group n there).nodup⟩
  refine nodup.imp_of_mem fun {a b} member member' other => ?_
  change List.Disjoint (a :: set a) (b :: set b)
  intro m first second
  obtain ⟨out, notNode⟩ := grouped.outside (inTree b member') (inTree a member) other first
  rcases mem_cons.mp second with same | inside
  · exact notNode same
  · exact out inside

end Iterate

/-! ### Runs -/

inductive Call where
  /-- A vma that is not in the map is set up. -/
  | write (vma : Ptr) (v : Vma)
  | insert (shape : Shape) (vma : Ptr)
  | add (vma old : Ptr)
  | remove (shape : Shape) (vma : Ptr)

def Call.prog : Call → Prog Unit
  | .write vma v => modify fun st => { st with mem := update st.mem vma v }
  | .insert shape vma => vmaPrioTreeInsert shape vma
  | .add vma old => vmaPrioTreeAdd vma old
  | .remove shape vma => vmaPrioTreeRemove shape vma

/-- The vmas in the map after a call. -/
def Call.track (present : Ptr → Bool) : Call → Ptr → Bool
  | .write _ _ => present
  | .insert _ vma | .add vma _ => update present vma true
  | .remove _ vma => update present vma false

structure System where
  st : State
  present : Ptr → Bool

def step (call : Call) (sys : System) : Option Bug × System :=
  match call.prog sys.st with
  | .ok (_, st) => (none, ⟨st, call.track sys.present⟩)
  | .error bug => (some bug, sys)

/-- A vma that is put into the map is not in it. -/
def Fresh (sys : System) (vma : Ptr) : Prop := vma ≠ 0 ∧ sys.present vma = false

def Call.ok (sys : System) : Call → Prop
  | .write vma _ => sys.present vma = false
  | .insert _ vma => Fresh sys vma ∧ (sys.st.mem vma).WellFormed
  | .add vma old =>
    Fresh sys vma ∧ sys.present old = true ∧ (sys.st.mem vma).Same (sys.st.mem old)
  | .remove _ vma => sys.present vma = true

instance decidableOk (sys : System) (call : Call) : Decidable (call.ok sys) :=
  match call with
  | .write _ _ | .remove _ _ => inferInstanceAs (Decidable (_ = _))
  | .insert _ _ => inferInstanceAs (Decidable ((_ ∧ _) ∧ _))
  | .add _ _ => inferInstanceAs (Decidable ((_ ∧ _) ∧ _ ∧ _))

section Runs

variable {sys : System} {set : Ptr → List Ptr} {vma : Ptr} {call : Call}

/-- The groups of the state hold the vmas of the map, which map pages of the file. -/
structure Holds (sys : System) (set : Ptr → List Ptr) : Prop where
  grouped : Grouped sys.st set
  present : ∀ m, Present sys.st set m ↔ sys.present m = true
  wellFormed : ∀ m, sys.present m = true → (sys.st.mem m).WellFormed

theorem Keeps.holds {st : State} {now : Ptr → Prop} {present : Ptr → Bool}
    (keeps : Keeps st now st') (tracked : ∀ m, present m = true ↔ now m)
    (wellFormed : ∀ m, now m → (st.mem m).WellFormed) : ∃ set', Holds ⟨st', present⟩ set' := by
  obtain ⟨set', grouped, presents, ranges⟩ := keeps
  refine ⟨set', grouped, fun m => (presents m).trans (tracked m).symm, fun m inMap => ?_⟩
  exact (Vma.same_of_range (ranges m)).symm.wellFormed (wellFormed m ((tracked m).mp inMap))

section

variable (holds : Holds sys set)
include holds

theorem Holds.absent (free : sys.present vma = false) : ¬Present sys.st set vma := by
  rw [holds.present, free]
  exact Bool.false_ne_true

/-- A vma comes into the map. -/
theorem Holds.grow (wellFormed : (sys.st.mem vma).WellFormed)
    (keeps : Keeps sys.st (fun m => m = vma ∨ Present sys.st set m) st') :
    ∃ set', Holds ⟨st', update sys.present vma true⟩ set' := by
  refine keeps.holds (fun m => ?_) ?_
  · rw [holds.present]
    by_cases same : m = vma <;> simp [same]
  · rintro m (rfl | old)
    · exact wellFormed
    · exact holds.wellFormed m ((holds.present m).mp old)

theorem Holds.shrink
    (keeps : Keeps sys.st (fun m => m ≠ vma ∧ Present sys.st set m) st') :
    ∃ set', Holds ⟨st', update sys.present vma false⟩ set' := by
  refine keeps.holds (fun m => ?_) fun m both => holds.wellFormed m ((holds.present m).mp both.2)
  rw [holds.present]
  by_cases same : m = vma <;> simp [same]

theorem Holds.prog (allowed : call.ok sys) :
    wp call.prog (fun _ st => ∃ set', Holds ⟨st, call.track sys.present⟩ set') (fun _ => False)
      sys.st := by
  cases call with
  | write vma v =>
    refine wp_modify _ |>.mpr ⟨set, holds.grouped.write (holds.absent allowed) v, holds.present, ?_⟩
    intro m inMap
    have other : m ≠ vma := by
      rintro rfl
      exact Bool.false_ne_true (allowed.symm.trans inMap)
    change (update sys.st.mem vma v m).WellFormed
    rw [update_of_ne other]
    exact holds.wellFormed m inMap
  | insert shape vma =>
    obtain ⟨⟨some, free⟩, wellFormed⟩ := allowed
    exact (holds.grouped.insert (holds.absent free) some).returns fun _ _ keeps =>
      holds.grow wellFormed keeps
  | add vma old =>
    obtain ⟨⟨some, free⟩, there, same⟩ := allowed
    have wellFormed := same.symm.wellFormed (holds.wellFormed old there)
    exact (holds.grouped.add (holds.absent free) some ((holds.present old).mpr there) same).returns
      fun _ _ keeps => holds.grow wellFormed keeps
  | remove shape vma =>
    exact (holds.grouped.remove ((holds.present vma).mpr allowed)).returns fun _ _ keeps =>
      holds.shrink keeps

/-- One call keeps the map and reaches no `BUG`. -/
theorem Holds.step (allowed : call.ok sys) :
    (step call sys).1 = none ∧ ∃ set', Holds (step call sys).2 set' := by
  obtain ⟨_, st, result, next⟩ := (holds.prog allowed).total
  simp only [VmaTree.step, result]
  exact ⟨trivial, next⟩

theorem holds_run {calls : List Call} (admits : Admits VmaTree.step Call.ok calls sys) :
    (∀ answer ∈ (answers VmaTree.step calls sys).1, answer = none) ∧
      ∃ set', Holds (answers VmaTree.step calls sys).2 set' := by
  refine admits.invariant (I := fun sys => ∃ set, Holds sys set) ⟨set, holds⟩ ?_
  rintro sys call ⟨set, holds⟩ allowed
  exact holds.step allowed

/-- The vmas that an iteration over the pages from `rIndex` to `hIndex` returns. -/
theorem Holds.iterate (range : rIndex ≤ hIndex) {iter : Iter}
    (enumerates : Enumerates sys.st rIndex hIndex iter) :
    ∃ vmas : List Ptr, (∀ rounds, vmas.length < rounds → iterate sys.st.mem rounds 0 iter = some vmas) ∧
      vmas.Nodup ∧ ∀ m, m ∈ vmas ↔ sys.present m = true ∧
        ∃ page, rIndex.toNat ≤ page ∧ page ≤ hIndex.toNat ∧ (sys.st.mem m).Maps page := by
  have inTree : ∀ n ∈ iter, n ∈ sys.st.tree := fun n member => ((enumerates.mem n).mp member).1
  refine ⟨walk set iter, fun rounds enough => ?_, holds.grouped.nodup_walk inTree enumerates.nodup,
    fun m => ?_⟩
  · obtain ⟨more, rfl⟩ : ∃ more, rounds = (walk set iter).length + more + 1 :=
      ⟨rounds - (walk set iter).length - 1, by omega⟩
    exact iterate_groups (fun n member => holds.grouped.group n (inTree n member)) more
  · rw [holds.grouped.mem_walk enumerates, holds.present]
    exact and_congr_right fun inMap => (holds.wellFormed m inMap).overlap_iff range

end

/-- A tree without nodes, and any memory. -/
def initial (mem : Memory) : System := ⟨⟨mem, []⟩, fun _ => false⟩

theorem initial_holds (mem : Memory) : Holds (initial mem) fun _ => [] := by
  refine ⟨⟨.nil, nofun, nofun⟩, fun m => ?_, nofun⟩
  refine iff_of_false ?_ Bool.false_ne_true
  rintro (inTree | ⟨n, inTree, -⟩)
  · cases inTree
  · cases inTree

end Runs

/-- After any insertions, additions and removals no `BUG` has been reached, and an
iteration returns each vma in the map that maps a page of the range once. -/
theorem reverse_map_exact (mem : Memory) (calls : List Call) (rIndex hIndex : Word) (iter : Iter)
    (admits : Admits step Call.ok calls (initial mem)) (range : rIndex ≤ hIndex)
    (enumerates : Enumerates (answers step calls (initial mem)).2.st rIndex hIndex iter) :
    (∀ answer ∈ (answers step calls (initial mem)).1, answer = none) ∧
      ∃ vmas : List Ptr,
        (∀ rounds, vmas.length < rounds →
          iterate (answers step calls (initial mem)).2.st.mem rounds 0 iter = some vmas) ∧
        vmas.Nodup ∧
        ∀ m, m ∈ vmas ↔ (answers step calls (initial mem)).2.present m = true ∧
          ∃ page, rIndex.toNat ≤ page ∧ page ≤ hIndex.toNat ∧
            ((answers step calls (initial mem)).2.st.mem m).Maps page := by
  obtain ⟨returns, set, holds⟩ := holds_run (initial_holds mem) admits
  exact ⟨returns, holds.iterate range enumerates⟩

def smallShape : Shape := ⟨fun _ => 0, fun _ => 0, fun _ => 1, fun _ => by decide⟩

/-- Two pages from page 5 of the file on. -/
def smallVma : Vma := ⟨0x8000, 0xa000, 5, 0, 0, 0, 0⟩

/-- Three vmas of one range, of which the tree node is removed. -/
def smallCalls : List Call :=
  [.write 1 smallVma, .write 2 smallVma, .write 3 smallVma, .insert smallShape 1,
    .insert smallShape 2, .add 3 2, .remove smallShape 1]

theorem reverse_map_exact_small :
    (∃ vmas : List Ptr,
      (∀ rounds, vmas.length < rounds → iterate
        (answers step smallCalls (initial fun _ => smallVma)).2.st.mem rounds 0 [2] = some vmas) ∧
      vmas.Nodup ∧
      ∀ m, m ∈ vmas ↔ (answers step smallCalls (initial fun _ => smallVma)).2.present m = true ∧
        ∃ page, (6 : Word).toNat ≤ page ∧ page ≤ (6 : Word).toNat ∧
          ((answers step smallCalls (initial fun _ => smallVma)).2.st.mem m).Maps page) ∧
      iterate (answers step smallCalls (initial fun _ => smallVma)).2.st.mem 3 0 [2] = some [2, 3] := by
  have tree : (answers step smallCalls (initial fun _ => smallVma)).2.st.tree = [2] := by
    decide +kernel
  refine ⟨(reverse_map_exact _ smallCalls 6 6 [2] (by decide +kernel) (by decide) ?_).2,
    by decide +kernel⟩
  refine ⟨by decide, fun n => ?_⟩
  rw [tree, mem_singleton]
  refine ⟨?_, And.left⟩
  rintro rfl
  exact ⟨rfl, by decide +kernel, by decide +kernel⟩

end AndroidKernel.VmaTree
