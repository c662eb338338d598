import AndroidKernel.Lib.Circle
import AndroidKernel.VmaTree.Core

/-!
The vmas of one range.

`Group mem n l` says that `n` is a tree node and `l` the list of the other vmas of its
range: the first of them and `n` point to each other, and the list is a circle.
`Grouped st set` says this of all tree nodes, with `set n` for the list of `n`.
-/

namespace AndroidKernel.VmaTree

open Lib List Function

structure Group (mem : Memory) (n : Ptr) (l : List Ptr) : Prop where
  node : n ≠ 0
  parent : (mem n).parent ≠ 0
  head : (mem n).head = l.headD 0
  members : ∀ m ∈ l, m ≠ 0 ∧ (mem m).parent = 0 ∧ (mem m).Same (mem n)
  first : ∀ h rest, l = h :: rest → (mem h).head = n ∧ ∀ m ∈ rest, (mem m).head = 0
  circle : Circle (fun p => (mem p).next) (fun p => (mem p).prev) l
  nodup : l.Nodup

structure Grouped (st : State) (set : Ptr → List Ptr) : Prop where
  nodup : st.tree.Nodup
  distinct : ∀ n ∈ st.tree, ∀ m ∈ st.tree, (st.mem n).Same (st.mem m) → n = m
  group : ∀ n ∈ st.tree, Group st.mem n (set n)

/-- The vma is in the reverse map. -/
def Present (st : State) (set : Ptr → List Ptr) (m : Ptr) : Prop :=
  m ∈ st.tree ∨ ∃ n ∈ st.tree, m ∈ set n

section Groups

variable {mem' : Memory} {n m a vma : Ptr} {l l₁ l₂ : List Ptr} {st : State} {set : Ptr → List Ptr}
  {mem : Memory} {v w : Vma} {next' prev' : Ptr → Ptr}

theorem Vma.Same.symm (same : v.Same w) : w.Same v := ⟨same.1.symm, same.2.symm⟩

theorem Vma.Same.trans {u : Vma} (first : u.Same v) (second : v.Same w) : u.Same w :=
  ⟨first.1.trans second.1, first.2.trans second.2⟩

/-- No vma is moved or resized. -/
def SameRanges (mem mem' : Memory) : Prop := ∀ p, (mem' p).range = (mem p).range

theorem Vma.same_of_range (range : v.range = w.range) : v.Same w := by
  obtain ⟨start, stop, offset⟩ : v.vmStart = w.vmStart ∧ v.vmEnd = w.vmEnd ∧ v.vmPgoff = w.vmPgoff := by
    simpa [Vma.range] using range
  simp only [Vma.Same, Vma.radixIndex, Vma.heapIndex, Vma.size, start, stop, offset, and_self]

theorem SameRanges.trans {mem'' : Memory} (first : SameRanges mem mem')
    (second : SameRanges mem' mem'') : SameRanges mem mem'' :=
  fun p => (second p).trans (first p)

theorem SameRanges.update (ranges : SameRanges mem mem') (range : v.range = (mem' n).range) :
    SameRanges mem (Function.update mem' n v) := by
  intro p
  by_cases same : p = n
  · rw [same, update_self, range, ranges]
  · rw [update_of_ne same, ranges]

theorem SameRanges.refl (mem : Memory) : SameRanges mem mem := fun _ => rfl

theorem SameRanges.same (ranges : SameRanges mem mem') (alike : (mem' a).Same (mem' n)) :
    (mem a).Same (mem n) :=
  (Vma.same_of_range (ranges a)).symm.trans (alike.trans (Vma.same_of_range (ranges n)))

theorem Present.of_group (inTree : a ∈ st.tree) (inside : m ∈ a :: set a) : Present st set m := by
  rcases mem_cons.mp inside with rfl | member
  · exact .inl inTree
  · exact .inr ⟨a, inTree, member⟩

/-- Only the words of the tree change in the tree node, its parent staying set. -/
theorem Group.frame (group : Group mem n l) (members : ∀ m ∈ l, mem' m = mem m)
    (parent : (mem' n).parent ≠ 0) (head : (mem' n).head = (mem n).head)
    (range : (mem' n).Same (mem n)) : Group mem' n l := by
  refine ⟨group.node, parent, head.trans group.head, fun m inside => ?_, fun h rest list => ?_,
    group.circle.congr (fun x inside => ?_) fun x inside => ?_, group.nodup⟩
  · obtain ⟨some, isMember, same⟩ := group.members m inside
    rw [members m inside]
    exact ⟨some, isMember, same.trans range.symm⟩
  · grind [→ Group.first]
  · rw [members x inside]
  · rw [members x inside]

theorem Group.congr (group : Group mem n l) (same : ∀ m ∈ n :: l, mem' m = mem m) : Group mem' n l := by
  have atNode := same n (mem_cons_self ..)
  refine group.frame (fun m inside => same m (mem_cons_of_mem _ inside)) ?_ ?_ ?_
  · rw [atNode]
    exact group.parent
  · rw [atNode]
  · rw [atNode]
    exact ⟨rfl, rfl⟩

section

variable (grouped : Grouped st set)
include grouped

/-- No tree node is a member of a list. -/
theorem Grouped.notMember (inTree : n ∈ st.tree) (inTree' : a ∈ st.tree) :
    a ∉ set n := fun member =>
  (grouped.group a inTree').parent ((grouped.group n inTree).members a member).2.1

/-- Lists of different tree nodes have no vma in common. -/
theorem Grouped.owner_unique (inTree : n ∈ st.tree) (member : m ∈ set n) (inTree' : a ∈ st.tree)
    (member' : m ∈ set a) : n = a := by
  have own := ((grouped.group n inTree).members m member).2.2
  have other := ((grouped.group a inTree').members m member').2.2
  exact grouped.distinct n inTree a inTree' (own.symm.trans other)

theorem Grouped.ne_null (present : Present st set m) : m ≠ 0 := by
  rcases present with inTree | ⟨n, inTree, member⟩
  · exact (grouped.group m inTree).node
  · exact ((grouped.group n inTree).members m member).1

/-- One group changes, all others stay as they are. -/
theorem Grouped.update (ranges : SameRanges st.mem mem') (own : Group mem' n l)
    (others : ∀ a ∈ st.tree, a ≠ n → ∀ m ∈ a :: set a, mem' m = st.mem m) :
    Grouped ⟨mem', st.tree⟩ (Function.update set n l) := by
  refine ⟨grouped.nodup, fun a inTree b inTree' same => ?_, fun a inTree => ?_⟩
  · exact grouped.distinct a inTree b inTree' (ranges.same same)
  · by_cases isOwn : a = n
    · rw [isOwn, update_self]
      exact own
    · rw [update_of_ne isOwn]
      exact (grouped.group a inTree).congr (others a inTree isOwn)

/-- A vma that is not in the map can be written to. -/
theorem Grouped.write (absent : ¬Present st set vma) (v : Vma) :
    Grouped ⟨Function.update st.mem vma v, st.tree⟩ set := by
  have other : ∀ p, Present st set p → Function.update st.mem vma v p = st.mem p := by
    intro p present
    refine update_of_ne ?_ ..
    rintro rfl
    exact absent present
  refine ⟨grouped.nodup, fun a inTree b inTree' same => ?_, fun a inTree => ?_⟩
  · simp only [other a (.inl inTree), other b (.inl inTree')] at same
    exact grouped.distinct a inTree b inTree' same
  · exact (grouped.group a inTree).congr fun m inside => other m (.of_group inTree inside)

end

/-! ### Links -/

/-- The memory with other links. -/
def relinked (mem : Memory) (next' prev' : Ptr → Ptr) : Memory :=
  fun p => { mem p with next := next' p, prev := prev' p }

theorem relinked_ranges : SameRanges mem (relinked mem next' prev') :=
  fun _ => rfl

/-- A vma is put into the list of a group after any of its members. -/
theorem Group.insert (group : Group mem n (l₁ ++ a :: l₂)) (some : vma ≠ 0)
    (fresh : vma ∉ l₁ ++ a :: l₂) (head : (mem vma).head = 0) (parent : (mem vma).parent = 0)
    (same : (mem vma).Same (mem n))
    (linked : LinkedAfter (fun p => (mem p).next) (fun p => (mem p).prev) next' prev' a vma) :
    Group (relinked mem next' prev') n (l₁ ++ a :: vma :: l₂) := by
  have cases : ∀ {l m}, m ∈ l ++ a :: vma :: l₂ → m = vma ∨ m ∈ l ++ a :: l₂ := by
    intro l m inside
    simp only [mem_append, mem_cons] at inside ⊢
    tauto
  refine ⟨group.node, group.parent, ?_, fun m inside => ?_, fun h rest list => ?_,
    group.circle.insert group.nodup fresh linked, ?_⟩
  · refine group.head.trans ?_
    cases l₁ <;> rfl
  · rcases cases inside with rfl | old
    · exact ⟨some, parent, same⟩
    · exact group.members m old
  · cases l₁ with
    | nil =>
      cases list
      obtain ⟨back, others⟩ := group.first a l₂ rfl
      refine ⟨back, fun m inside => ?_⟩
      rcases mem_cons.mp inside with rfl | old
      · exact head
      · exact others m old
    | cons b l₁ =>
      rw [cons_append, List.cons.injEq] at list
      obtain ⟨rfl, rfl⟩ := list
      obtain ⟨back, others⟩ := group.first b (l₁ ++ a :: l₂) rfl
      refine ⟨back, fun m inside => ?_⟩
      rcases cases inside with rfl | old
      · exact head
      · exact others m old
  · grind [→ Group.nodup]

/-- A member that is not the first is taken out of the list. -/
theorem Group.erase (group : Group mem n (l₁ ++ a :: l₂)) (later : l₁ ≠ [])
    (unlinked : UnlinkedAt (fun p => (mem p).next) (fun p => (mem p).prev) next' prev' a) :
    Group (relinked mem next' prev') n (l₁ ++ l₂) := by
  have sublist : (l₁ ++ l₂).Sublist (l₁ ++ a :: l₂) :=
    (sublist_cons_self a l₂).append_left l₁
  obtain ⟨b, l₁, rfl⟩ := exists_cons_of_ne_nil later
  refine ⟨group.node, group.parent, group.head, fun m inside => ?_, fun h rest list => ?_,
    group.circle.erase group.nodup unlinked, group.nodup.sublist sublist⟩
  · exact group.members m (sublist.subset inside)
  rw [cons_append, List.cons.injEq] at list
  obtain ⟨rfl, rfl⟩ := list
  obtain ⟨back, others⟩ := group.first b (l₁ ++ a :: l₂) rfl
  refine ⟨back, fun m inside => others m ?_⟩
  exact ((sublist_cons_self a l₂).append_left l₁).subset inside

end Groups

/-! ### List operations -/

section Lists

variable {st : State} {p new entry : Ptr} {never : Bug → Prop} {post : Unit → State → Prop}

theorem wp_load (some : p ≠ 0) {post : Vma → State → Prop} :
    wp (load p) post never st ↔ post (st.mem p) st := by
  rw [load, if_neg some]
  simp only [wp_bind, wp_get, wp_pure]

theorem wp_change (some : p ≠ 0) {f : Vma → Vma} :
    wp (change p f) post never st ↔
      post () { st with mem := Function.update st.mem p (f (st.mem p)) } := by
  rw [change, if_neg some, wp_modify]

theorem relinked_self (mem : Memory) : relinked mem (fun p => (mem p).next) (fun p => (mem p).prev) = mem :=
  rfl

theorem wp_setNext {tree : List Ptr} {f g : Ptr → Ptr} (some : p ≠ 0) {v : Ptr} :
    wp (setNext p v) post never ⟨relinked mem f g, tree⟩ ↔
      post () ⟨relinked mem (Function.update f p v) g, tree⟩ := by
  rw [setNext, wp_change some]
  refine iff_of_eq (congrArg (post ()) (congrArg (State.mk · tree) (funext fun q => ?_)))
  by_cases same : q = p
  · subst same
    simp only [relinked, update_self]
  · simp only [relinked, update_of_ne same]

theorem wp_setPrev {tree : List Ptr} {f g : Ptr → Ptr} (some : p ≠ 0) {v : Ptr} :
    wp (setPrev p v) post never ⟨relinked mem f g, tree⟩ ↔
      post () ⟨relinked mem f (Function.update g p v), tree⟩ := by
  rw [setPrev, wp_change some]
  refine iff_of_eq (congrArg (post ()) (congrArg (State.mk · tree) (funext fun q => ?_)))
  by_cases same : q = p
  · subst same
    simp only [relinked, update_self]
  · simp only [relinked, update_of_ne same]

/-- The links that `__list_add` leaves. -/
def linkNext (mem : Memory) (new prev next : Ptr) : Ptr → Ptr :=
  Function.update (Function.update (fun p => (mem p).next) new next) prev new

def linkPrev (mem : Memory) (new prev next : Ptr) : Ptr → Ptr :=
  Function.update (Function.update (fun p => (mem p).prev) next new) new prev

theorem wp_listLink {prev next : Ptr} (some : new ≠ 0) (prevSome : prev ≠ 0) (nextSome : next ≠ 0) :
    wp (listLink new prev next) post never st ↔
      post () ⟨relinked st.mem (linkNext st.mem new prev next) (linkPrev st.mem new prev next), st.tree⟩ := by
  obtain ⟨mem, tree⟩ := st
  rw [listLink, ← relinked_self mem]
  simp only [wp_bind, wp_setNext some, wp_setPrev some, wp_setNext prevSome, wp_setPrev nextSome]
  rfl

theorem linkedAfter_link {a : Ptr} (other : new ≠ a) (notNext : new ≠ (mem a).next) :
    LinkedAfter (fun p => (mem p).next) (fun p => (mem p).prev) (linkNext mem new a (mem a).next)
      (linkPrev mem new a (mem a).next) a new where
  out := update_self ..
  back := update_self ..
  onward := by rw [linkNext, update_of_ne other, update_self]
  backward := by rw [linkPrev, update_of_ne notNext.symm, update_self]
  nexts y notA notNew := by rw [linkNext, update_of_ne notA, update_of_ne notNew]
  prevs y notNew notSucc := by
    rw [linkPrev, update_of_ne notNew, update_of_ne notSucc]

/-- The links that `list_del_init` leaves. -/
def unlinkNext (mem : Memory) (entry : Ptr) : Ptr → Ptr :=
  Function.update (Function.update (fun p => (mem p).next) (mem entry).prev (mem entry).next) entry entry

def unlinkPrev (mem : Memory) (entry : Ptr) : Ptr → Ptr :=
  Function.update (Function.update (fun p => (mem p).prev) (mem entry).next (mem entry).prev) entry entry

def unlinked (mem : Memory) (entry : Ptr) : Memory :=
  relinked mem (unlinkNext mem entry) (unlinkPrev mem entry)

theorem wp_listDelInit (some : entry ≠ 0) (prevSome : (st.mem entry).prev ≠ 0)
    (nextSome : (st.mem entry).next ≠ 0) :
    wp (listDelInit entry) post never st ↔ post () ⟨unlinked st.mem entry, st.tree⟩ := by
  obtain ⟨mem, tree⟩ := st
  have links : ∀ {prev next : Ptr}, prev ≠ 0 → next ≠ 0 →
      (wp (do listUnlink prev next; initListHead entry) post never ⟨mem, tree⟩ ↔
        post () ⟨relinked mem
          (Function.update (Function.update (fun p => (mem p).next) prev next) entry entry)
          (Function.update (Function.update (fun p => (mem p).prev) next prev) entry entry), tree⟩) := by
    grind [relinked_self, listUnlink, initListHead, wp_bind, wp_setNext, wp_setPrev]
  rw [listDelInit, wp_bind, wp_load some]
  exact links prevSome nextSome

theorem unlinkedAt_unlink (mem : Memory) (entry : Ptr) :
    UnlinkedAt (fun p => (mem p).next) (fun p => (mem p).prev) (unlinkNext mem entry)
      (unlinkPrev mem entry) entry where
  out other := by rw [unlinkNext, update_of_ne other, update_self]
  back other := by rw [unlinkPrev, update_of_ne other, update_self]
  nexts y notEntry notPrev := by
    rw [unlinkNext, update_of_ne notEntry, update_of_ne notPrev]
  prevs y notEntry notNext := by
    rw [unlinkPrev, update_of_ne notEntry, update_of_ne notNext]

end Lists

end AndroidKernel.VmaTree
