import AndroidKernel.VmaTree.Groups

/-!
Adding and removing vmas.

Each call keeps the groups and changes the set of vmas by one. When a tree node goes, the
head of its list takes its place; when a head goes, the next vma on the list does.
-/

namespace AndroidKernel.VmaTree

open Lib List Function

/-- The ranges stay and the vmas in the map are those of `present`. -/
def Keeps (st : State) (present : Ptr → Prop) (st' : State) : Prop :=
  ∃ set', Grouped st' set' ∧ (∀ m, Present st' set' m ↔ present m) ∧ SameRanges st.mem st'.mem

section Add

variable {st : State} {set : Ptr → List Ptr} {mem' : Memory} {n m a vma old : Ptr}
  {l l₁ l₂ : List Ptr} {never : Bug → Prop}

theorem present_update (inTree : n ∈ st.tree) :
    Present ⟨mem', st.tree⟩ (Function.update set n l) m ↔
      m ∈ st.tree ∨ m ∈ l ∨ ∃ a ∈ st.tree, a ≠ n ∧ m ∈ set a := by
  refine or_congr_right ⟨?_, ?_⟩
  · rintro ⟨a, there, member⟩
    by_cases own : a = n
    · rw [own, update_self] at member
      exact .inl member
    · rw [update_of_ne own] at member
      exact .inr ⟨a, there, own, member⟩
  · rintro (member | ⟨a, there, other, member⟩)
    · exact ⟨n, inTree, by rwa [update_self]⟩
    · exact ⟨a, there, by rwa [update_of_ne other]⟩

theorem present_iff (inTree : n ∈ st.tree) :
    Present st set m ↔ m ∈ st.tree ∨ m ∈ set n ∨ ∃ a ∈ st.tree, a ≠ n ∧ m ∈ set a := by
  have := @present_update st set st.mem n m (set n) inTree
  rwa [update_eq_self] at this

section

variable (grouped : Grouped st set)
include grouped

/-- What the group of `n` does not have, no list operation on it touches. -/
theorem Grouped.outside (inTree : n ∈ st.tree) (inTree' : a ∈ st.tree) (other : a ≠ n)
    (inside : m ∈ a :: set a) : m ∉ set n ∧ m ≠ n := by
  rcases mem_cons.mp inside with rfl | member
  · exact ⟨grouped.notMember inTree inTree', other⟩
  · refine ⟨fun own => other (grouped.owner_unique inTree' member inTree own), ?_⟩
    rintro rfl
    exact grouped.notMember inTree' inTree member

variable (absent : ¬Present st set vma) (some : vma ≠ 0)
include absent some

/-- A vma is linked into the list of a tree node, after a vma that is there. -/
theorem Grouped.link (head : (st.mem vma).head = 0)
    (parent : (st.mem vma).parent = 0) (inTree : n ∈ st.tree) (same : (st.mem vma).Same (st.mem n))
    (list : set n = l₁ ++ a :: l₂) :
    wp (listLink vma a (st.mem a).next) (fun _ => Keeps st fun m => m = vma ∨ Present st set m)
      never st := by
  have group := grouped.group n inTree
  have isMember : a ∈ set n := list ▸ by simp
  have nextMember : (st.mem a).next ∈ set n := group.circle.next_mem isMember
  have fresh : vma ∉ set n := fun member => absent (.inr ⟨n, inTree, member⟩)
  have ne : ∀ {x}, x ∈ set n → vma ≠ x := fun member same => fresh (same ▸ member)
  rw [wp_listLink some (group.members a isMember).1 (group.members _ nextMember).1]
  have linked := linkedAfter_link (ne isMember) (ne nextMember)
  refine ⟨Function.update set n (l₁ ++ a :: vma :: l₂), ?_, fun m => ?_, relinked_ranges⟩
  · refine grouped.update relinked_ranges ?_ fun b inTree' other m inside => ?_
    · exact (list ▸ group).insert some (list ▸ fresh) head parent same linked
    obtain ⟨out, -⟩ := grouped.outside inTree inTree' other inside
    have notNew : m ≠ vma := by
      rintro rfl
      exact absent (.of_group inTree' inside)
    unfold relinked
    rw [linked.nexts m (fun same => out (same ▸ isMember)) notNew,
      linked.prevs m notNew fun same => out (same ▸ nextMember)]
  · change _ ↔ m = vma ∨ Present st set m
    rw [present_update inTree, present_iff inTree, list]
    simp only [mem_append, mem_cons]
    tauto

/-- A tree node without a list gets one. -/
theorem Grouped.pair
    (parent : (st.mem vma).parent = 0) (inTree : n ∈ st.tree) (same : (st.mem vma).Same (st.mem n))
    (list : set n = []) :
    wp (do initListHead vma; setHead vma n; setHead n vma)
      (fun _ => Keeps st fun m => m = vma ∨ Present st set m) never st := by
  have group := grouped.group n inTree
  have other : n ≠ vma := by
    rintro rfl
    exact absent (.inl inTree)
  simp only [initListHead, setNext, setPrev, setHead, wp_bind, wp_change some, wp_change group.node,
    update_self, update_idem, update_of_ne other]
  generalize final : (Function.update _ _ _ : Memory) = mem'
  have atVma : mem' vma = { st.mem vma with next := vma, prev := vma, head := n } := by
    rw [← final, update_of_ne other.symm, update_self]
  have atNode : mem' n = { st.mem n with head := vma } := by
    rw [← final, update_self]
  have elsewhere : ∀ p, p ≠ vma → p ≠ n → mem' p = st.mem p := by
    intro p notVma notNode
    rw [← final, update_of_ne notNode, update_of_ne notVma]
  have ranges : SameRanges st.mem mem' := by
    rw [← final]
    refine SameRanges.update (SameRanges.update (SameRanges.refl _) ?_) ?_
    · rfl
    · rw [update_of_ne other]
      rfl
  refine ⟨Function.update set n [vma], ?_, fun m => ?_, ranges⟩
  · refine grouped.update ranges ?_ fun b inTree' otherNode m inside => ?_
    · refine ⟨group.node, ?_, ?_, fun m inside => ?_, fun h rest single => ?_, ?_, nodup_singleton _⟩
      · rw [atNode]
        exact group.parent
      · rw [atNode]
        rfl
      · rw [mem_singleton.mp inside, atVma, atNode]
        exact ⟨some, parent, same⟩
      · cases single
        rw [atVma]
        exact ⟨rfl, fun m inside => absurd inside not_mem_nil⟩
      · rw [circle_singleton, atVma]
        exact ⟨rfl, rfl⟩
    · refine elsewhere m ?_ (grouped.outside inTree inTree' otherNode inside).2
      rintro rfl
      exact absent (.of_group inTree' inside)
  · change _ ↔ m = vma ∨ Present st set m
    rw [present_update inTree, present_iff inTree, list]
    simp only [mem_singleton, not_mem_nil, false_or]
    tauto

/-- A vma is put beside one of the same range, whichever role that one has. -/
theorem Grouped.attach
    (head : (st.mem vma).head = 0) (parent : (st.mem vma).parent = 0) (present : Present st set old)
    (same : (st.mem vma).Same (st.mem old)) :
    wp (do
        let o ← load old
        if o.parent = 0 then listAdd vma old
        else if o.head ≠ 0 then listAddTail vma o.head
        else
          initListHead vma
          setHead vma old
          setHead old vma)
      (fun _ => Keeps st fun m => m = vma ∨ Present st set m) never st := by
  rw [wp_bind, wp_load (grouped.ne_null present)]
  by_cases inTree : old ∈ st.tree
  · have group := grouped.group old inTree
    rw [if_neg group.parent]
    cases list : set old with
    | nil =>
      rw [list] at group
      have none : (st.mem old).head = 0 := group.head
      rw [if_neg (not_not.mpr none)]
      exact grouped.pair absent some parent inTree same list
    | cons h rest =>
      rw [list] at group
      have headSome := (group.members h mem_cons_self).1
      have first : (st.mem old).head = h := group.head
      obtain ⟨l, c, whole, pred, succ⟩ := group.circle.prev_head
      rw [first, if_pos headSome, listAddTail, wp_bind, wp_load headSome, pred, ← succ]
      exact grouped.link absent some head parent inTree same (list.trans whole)
  · obtain isNode | ⟨n, inTree', member⟩ := present
    · exact absurd isNode inTree
    have group := grouped.group n inTree'
    obtain ⟨memberSome, isMember, sameNode⟩ := group.members old member
    obtain ⟨l₁, l₂, list⟩ := append_of_mem member
    rw [if_pos isMember, listAdd, wp_bind, wp_load memberSome]
    exact grouped.link absent some head parent inTree' (same.trans sameNode) list

theorem Grouped.add (present : Present st set old)
    (same : (st.mem vma).Same (st.mem old)) :
    wp (vmaPrioTreeAdd vma old) (fun _ => Keeps st fun m => m = vma ∨ Present st set m) never st := by
  have oldSome := grouped.ne_null present
  have other : old ≠ vma := by
    rintro rfl
    exact absent present
  rw [vmaPrioTreeAdd, wp_bind, wp_load some, wp_bind, wp_load oldSome, if_neg (not_not.mpr same.1),
    wp_bind, wp_load some, wp_bind, wp_load oldSome, if_neg (not_not.mpr same.2), wp_bind,
    wp_change some]
  have ranges : SameRanges st.mem
      (Function.update st.mem vma { st.mem vma with parent := 0, head := 0 }) :=
    (SameRanges.refl _).update rfl
  refine ((grouped.write absent _).attach absent some ?_ ?_ present ?_).returns ?_
  · simp only [update_self]
  · simp only [update_self]
  · simp only [update_self, update_of_ne other]
    exact same
  · rintro _ st' ⟨set', grouped', presents, ranges'⟩
    exact ⟨set', grouped', presents, ranges.trans ranges'⟩

end

end Add

/-! ### The tree -/

section Tree

variable {st : State} {set : Ptr → List Ptr} {mem : Memory} {n vma : Ptr} {l nodes : List Ptr}
  {shape : Shape} {never : Bug → Prop}

theorem arrange_of_not_mem (out : n ∉ nodes) : arrange shape nodes mem n = mem n := if_neg out

theorem arrange_ranges : SameRanges mem (arrange shape nodes mem) := by
  intro p
  unfold arrange
  split <;> rfl

theorem arrange_head : (arrange shape nodes mem n).head = (mem n).head := by
  unfold arrange
  split <;> rfl

theorem arrange_parent (inside : n ∈ nodes) : (arrange shape nodes mem n).parent ≠ 0 := by
  rw [arrange, if_pos inside]
  exact shape.linked n

/-- New links for the tree node leave its group as it is. -/
theorem Group.arranged (group : Group mem n l) (inside : n ∈ nodes) (out : ∀ m ∈ l, m ∉ nodes) :
    Group (arrange shape nodes mem) n l :=
  group.frame (fun m member => arrange_of_not_mem (out m member)) (arrange_parent inside)
    arrange_head (Vma.same_of_range (arrange_ranges n))

/-- A vma of a new range becomes a tree node. -/
theorem Grouped.addNode (grouped : Grouped st set) (absent : ¬Present st set vma) (some : vma ≠ 0)
    (head : (st.mem vma).head = 0) (new : ∀ cur ∈ st.tree, ¬(st.mem cur).Same (st.mem vma)) :
    Keeps st (fun m => m = vma ∨ Present st set m)
      ⟨arrange shape (vma :: st.tree) st.mem, vma :: st.tree⟩ := by
  have other : ∀ a ∈ st.tree, a ≠ vma := by
    rintro a inTree rfl
    exact absent (.inl inTree)
  refine ⟨Function.update set vma [], ⟨?_, ?_, ?_⟩, fun m => ?_, arrange_ranges⟩
  · exact nodup_cons.mpr ⟨fun inTree => other vma inTree rfl, grouped.nodup⟩
  · intro a inTree b inTree' equal
    have alike : (st.mem a).Same (st.mem b) := arrange_ranges.same equal
    rcases mem_cons.mp inTree with rfl | old <;> rcases mem_cons.mp inTree' with rfl | old'
    · rfl
    · exact absurd alike.symm (new b old')
    · exact absurd alike (new a old)
    · exact grouped.distinct a old b old' alike
  · intro a inTree
    rcases mem_cons.mp inTree with rfl | old
    · rw [update_self]
      refine ⟨some, arrange_parent (mem_cons_self ..), arrange_head.trans head, ?_, nofun, trivial,
        .nil⟩
      exact fun m member => absurd member not_mem_nil
    · rw [update_of_ne (other a old)]
      refine (grouped.group a old).arranged inTree fun m member inside => ?_
      rcases mem_cons.mp inside with rfl | node
      · exact absent (.inr ⟨a, old, member⟩)
      · exact grouped.notMember old node member
  · constructor
    · rintro (inTree | ⟨a, inTree, member⟩)
      · rcases mem_cons.mp inTree with isNew | old
        · exact .inl isNew
        · exact .inr (.inl old)
      · rcases mem_cons.mp inTree with rfl | old
        · rw [update_self] at member
          cases member
        · rw [update_of_ne (other a old)] at member
          exact .inr (.inr ⟨a, old, member⟩)
    · rintro (rfl | old | ⟨a, old, member⟩)
      · exact .inl (mem_cons_self ..)
      · exact .inl (mem_cons_of_mem _ old)
      · refine .inr ⟨a, mem_cons_of_mem _ old, ?_⟩
        rwa [update_of_ne (other a old)]

theorem Grouped.insert (grouped : Grouped st set) (absent : ¬Present st set vma) (some : vma ≠ 0) :
    wp (vmaPrioTreeInsert shape vma) (fun _ => Keeps st fun m => m = vma ∨ Present st set m) never st := by
  rw [vmaPrioTreeInsert, setHead, wp_bind, wp_change some, wp_bind, rawPrioTreeInsert, wp_bind, wp_get]
  have cleared := grouped.write absent { st.mem vma with head := 0 }
  have ranges : SameRanges st.mem (Function.update st.mem vma { st.mem vma with head := 0 }) :=
    (SameRanges.refl _).update rfl
  have head : (Function.update st.mem vma { st.mem vma with head := 0 } vma).head = 0 := by
    rw [update_self]
  generalize (Function.update st.mem vma { st.mem vma with head := 0 } : Memory) = mem at *
  have onward : ∀ st', Keeps ⟨mem, st.tree⟩ (fun m => m = vma ∨ Present st set m) st' →
      Keeps st (fun m => m = vma ∨ Present st set m) st' := by
    rintro st' ⟨set', grouped', presents, ranges'⟩
    exact ⟨set', grouped', presents, ranges.trans ranges'⟩
  cases found : st.tree.find? fun cur => (mem cur).Same (mem vma) with
  | none =>
    rw [List.find?_eq_none] at found
    simp only [wp_bind, wp_set, wp_pure, wp_ifThen, ne_eq, not_true_eq_false, false_implies,
      not_false_eq_true, true_implies, true_and]
    refine onward _ (cleared.addNode absent some head fun cur inTree same => ?_)
    exact found cur inTree (decide_eq_true same)
  | some cur =>
    have inTree := mem_of_find?_eq_some found
    have same : (mem cur).Same (mem vma) := by simpa using List.find?_some found
    have other : cur ≠ vma := by
      rintro rfl
      exact absent (.inl inTree)
    simp only [wp_pure, wp_ifThen, ne_eq, other, not_false_eq_true, true_implies,
      not_true_eq_false, false_implies, and_true]
    exact (cleared.add absent some (.inl inTree) same.symm).returns fun _ => onward

end Tree

/-! ### Removing -/

section Remove

variable {st : State} {set : Ptr → List Ptr} {mem mem' : Memory} {n h b vma : Ptr}
  {l rest : List Ptr} {shape : Shape} {never : Bug → Prop}

/-- Unlinking leaves what is not on the list alone. -/
theorem unlinked_of_not_mem (circle : Circle (fun p => (mem p).next) (fun p => (mem p).prev) l)
    (member : vma ∈ l) {m : Ptr} (out : m ∉ l) :
    unlinked mem vma m = mem m := by
  have links := unlinkedAt_unlink mem vma
  have notVma : m ≠ vma := fun same => out (same ▸ member)
  unfold unlinked relinked
  rw [links.nexts m notVma fun same => out (same ▸ circle.prev_mem member),
    links.prevs m notVma fun same => out (same ▸ circle.next_mem member)]

theorem Group.wp_listDelInit (group : Group mem n l) (member : vma ∈ l) {tree : List Ptr} :
    wp (listDelInit vma) post never ⟨mem, tree⟩ ↔ post () ⟨unlinked mem vma, tree⟩ :=
  VmaTree.wp_listDelInit (group.members vma member).1
    (group.members _ (group.circle.prev_mem member)).1
    (group.members _ (group.circle.next_mem member)).1

/-- The rest of a list becomes the list of a tree node. -/
theorem Group.of_rest (group : Group mem n (h :: rest)) (node : b ≠ 0) (parent : (mem' b).parent ≠ 0)
    (head : (mem' b).head = rest.headD 0) (ranges : SameRanges mem mem')
    (same : (mem b).Same (mem n))
    (links : ∀ m ∈ rest, (mem' m).next = unlinkNext mem h m ∧ (mem' m).prev = unlinkPrev mem h m)
    (members : ∀ m ∈ rest, (mem' m).parent = (mem m).parent)
    (first : ∀ h' rest', rest = h' :: rest' →
      (mem' h').head = b ∧ ∀ m ∈ rest', (mem' m).head = (mem m).head) : Group mem' b rest := by
  refine ⟨node, parent, head, fun m member => ?_, fun h' rest' list => ?_, ?_,
    (nodup_cons.mp group.nodup).2⟩
  · obtain ⟨some, isMember, range⟩ := group.members m (mem_cons_of_mem _ member)
    refine ⟨some, (members m member).trans isMember, ?_⟩
    refine (Vma.same_of_range (ranges m)).trans (range.trans (same.symm.trans ?_))
    exact (Vma.same_of_range (ranges b)).symm
  · obtain ⟨back, others⟩ := first h' rest' list
    refine ⟨back, fun m member => (others m member).trans ?_⟩
    exact (group.first h rest rfl).2 m (list ▸ mem_cons_of_mem _ member)
  · refine (group.circle.erase_first group.nodup (unlinkedAt_unlink mem h)).congr ?_ ?_
    · exact fun m member => (links m member).1
    · exact fun m member => (links m member).2

/-- The memory after a tree node and the new head of its list point to each other. -/
def paired (mem : Memory) (b h : Ptr) : Memory :=
  Function.update (Function.update mem b { mem b with head := h }) h { mem h with head := b }

theorem wp_paired (node : b ≠ 0) (head : h ≠ 0) (other : h ≠ b) {tree : List Ptr} :
    wp (do setHead b h; setHead h b) post never ⟨mem, tree⟩ ↔ post () ⟨paired mem b h, tree⟩ := by
  simp only [setHead, wp_bind, wp_change node, wp_change head, update_of_ne other]
  rfl

theorem paired_ranges (other : h ≠ b) (ranges : SameRanges mem mem') : SameRanges mem (paired mem' b h) := by
  refine SameRanges.update (SameRanges.update ranges ?_) ?_
  · rfl
  · rw [update_of_ne other]
    rfl

theorem paired_of_ne {p : Ptr} (notNode : p ≠ b) (notHead : p ≠ h) : paired mem b h p = mem p := by
  rw [paired, update_of_ne notHead, update_of_ne notNode]

/-- The vma after the head of a list becomes the head. -/
theorem Group.promote {a : Ptr} (group : Group mem n (a :: h :: rest)) (node : b ≠ 0)
    (out : b ∉ h :: rest) (parent : (mem' b).parent ≠ 0) (ranges : SameRanges mem mem')
    (same : (mem b).Same (mem n))
    (members : ∀ m ∈ h :: rest, mem' m = unlinked mem a m) :
    Group (paired mem' b h) b (h :: rest) := by
  have other : h ≠ b := fun same => out (same ▸ mem_cons_self ..)
  have tail : h ∉ rest := (nodup_cons.mp (nodup_cons.mp group.nodup).2).1
  have atNode : paired mem' b h b = { mem' b with head := h } := by
    rw [paired, update_of_ne other.symm, update_self]
  have atHead : paired mem' b h h = { mem' h with head := b } := by
    rw [paired, update_self]
  have elsewhere : ∀ m ∈ rest, paired mem' b h m = mem' m := by
    intro m member
    refine paired_of_ne (fun same => out (same ▸ mem_cons_of_mem _ member)) ?_
    exact fun same => tail (same ▸ member)
  have links : ∀ m ∈ h :: rest, paired mem' b h m =
      { unlinked mem a m with head := (paired mem' b h m).head } := by
    intro m member
    rw [← members m member]
    rcases mem_cons.mp member with rfl | later
    · rw [atHead]
    · rw [elsewhere m later]
  refine group.of_rest node ?_ ?_ (paired_ranges other ranges) same ?_ ?_ ?_
  · rw [atNode]
    exact parent
  · rw [atNode]
    rfl
  · intro m member
    rw [links m member]
    exact ⟨rfl, rfl⟩
  · intro m member
    rw [links m member]
    rfl
  · intro h' rest' list
    cases list
    refine ⟨by rw [atHead], fun m member => ?_⟩
    rw [elsewhere m member, members m (mem_cons_of_mem _ member)]
    rfl

section

variable (grouped : Grouped st set)
include grouped

theorem Grouped.present_remove {l₁ l₂ : List Ptr} {m : Ptr} (inTree : n ∈ st.tree)
    (list : set n = l₁ ++ vma :: l₂) :
    Present ⟨mem', st.tree⟩ (Function.update set n (l₁ ++ l₂)) m ↔ m ≠ vma ∧ Present st set m := by
  have member : vma ∈ set n := list ▸ by simp
  have nodup := (grouped.group n inTree).nodup
  rw [list, nodup_middle, nodup_cons] at nodup
  rw [present_update inTree, present_iff inTree, list]
  have notNode : vma ∉ st.tree := fun node => grouped.notMember inTree node member
  have notElsewhere : ∀ a ∈ st.tree, a ≠ n → vma ∉ set a :=
    fun a inTree' other member' => other (grouped.owner_unique inTree' member' inTree member)
  constructor
  · rintro (node | inside | ⟨a, inTree', other, member'⟩)
    · exact ⟨fun same => notNode (same ▸ node), .inl node⟩
    · refine ⟨fun same => nodup.1 (same ▸ inside), .inr (.inl ?_)⟩
      simp only [mem_append, mem_cons] at inside ⊢
      tauto
    · exact ⟨fun same => notElsewhere a inTree' other (same ▸ member'),
        .inr (.inr ⟨a, inTree', other, member'⟩)⟩
  · rintro ⟨other, node | inside | elsewhere⟩
    · exact .inl node
    · refine .inr (.inl ?_)
      simp only [mem_append, mem_cons] at inside ⊢
      tauto
    · exact .inr (.inr elsewhere)

/-- A vma on a list that is not its head. -/
theorem Grouped.removeMember {l₁ l₂ : List Ptr} (inTree : n ∈ st.tree)
    (list : set n = l₁ ++ vma :: l₂) (later : l₁ ≠ []) :
    wp (listDelInit vma) (fun _ => Keeps st fun m => m ≠ vma ∧ Present st set m) never st := by
  have group := grouped.group n inTree
  have member : vma ∈ set n := list ▸ by simp
  rw [group.wp_listDelInit member]
  refine ⟨Function.update set n (l₁ ++ l₂), ?_, fun m => ?_, relinked_ranges⟩
  · refine grouped.update relinked_ranges ?_ fun b inTree' other m inside => ?_
    · exact (list ▸ group).erase later (unlinkedAt_unlink st.mem vma)
    · exact unlinked_of_not_mem group.circle member (grouped.outside inTree inTree' other inside).1
  · exact grouped.present_remove inTree list

omit grouped in
theorem Group.wp_listEmpty (group : Group st.mem n (h :: rest)) {post : Bool → State → Prop} :
    wp (listEmpty h) post never st ↔ post (decide (rest = [])) st := by
  rw [listEmpty, wp_bind, wp_load (group.members h (mem_cons_self ..)).1, wp_pure]
  cases rest with
  | nil =>
    have self : (st.mem h).next = h := (circle_singleton.mp group.circle).1
    rw [decide_eq_true self, decide_eq_true rfl]
  | cons h' rest =>
    obtain ⟨succ, other⟩ := group.circle.next_ne group.nodup
    have notSelf : (st.mem h).next ≠ h := by
      rw [succ]
      exact other
    rw [decide_eq_false notSelf, decide_eq_false nofun]

/-- The head of a list. -/
theorem Grouped.removeHead (inTree : n ∈ st.tree) (list : set n = vma :: rest) :
    wp (removeHead vma n) (fun _ => Keeps st fun m => m ≠ vma ∧ Present st set m) never st := by
  have group := grouped.group n inTree
  rw [list] at group
  have isMember := group.members vma (mem_cons_self ..)
  have nodeOut : n ∉ vma :: rest := list ▸ grouped.notMember inTree inTree
  rw [VmaTree.removeHead, wp_bind, group.wp_listEmpty]
  cases rest with
  | nil =>
    simp only [decide_true, if_true, setHead, wp_change group.node]
    have ranges : SameRanges st.mem (Function.update st.mem n { st.mem n with head := 0 }) :=
      (SameRanges.refl _).update rfl
    refine ⟨Function.update set n [], grouped.update ranges ?_ ?_, fun m => ?_, ranges⟩
    · refine group.of_rest group.node ?_ ?_ ranges ⟨rfl, rfl⟩ nofun nofun nofun
      · rw [update_self]
        exact group.parent
      · rw [update_self]
        rfl
    · intro b inTree' other m inside
      exact update_of_ne (grouped.outside inTree inTree' other inside).2 ..
    · exact grouped.present_remove inTree (show set n = [] ++ [vma] from list)
  | cons h rest =>
    have headMember : h ∈ vma :: h :: rest := by simp
    have headSome := (group.members h headMember).1
    have other : h ≠ n := fun same => nodeOut (same ▸ headMember)
    have succ : (st.mem vma).next = h := (group.circle.next_ne group.nodup).1
    rw [decide_eq_false nofun, if_neg Bool.false_ne_true, wp_bind, wp_load isMember.1, succ, wp_bind,
      group.wp_listDelInit (mem_cons_self ..), wp_paired group.node headSome other]
    have ranges : SameRanges st.mem (paired (unlinked st.mem vma) n h) :=
      paired_ranges other relinked_ranges
    refine ⟨Function.update set n (h :: rest), grouped.update ranges ?_ ?_, fun m => ?_, ranges⟩
    · refine group.promote group.node (fun member => nodeOut (mem_cons_of_mem _ member)) ?_
        relinked_ranges ⟨rfl, rfl⟩ fun m _ => rfl
      exact group.parent
    · intro b inTree' otherNode m inside
      obtain ⟨out, notNode⟩ := grouped.outside inTree inTree' otherNode inside
      rw [list] at out
      rw [paired_of_ne notNode fun same => out (same ▸ headMember),
        unlinked_of_not_mem group.circle (mem_cons_self ..) out]
    · exact grouped.present_remove inTree (show set n = [] ++ vma :: h :: rest from list)

theorem mem_erase_tree {m : Ptr} :
    m ∈ st.tree.erase n ↔ m ≠ n ∧ m ∈ st.tree := grouped.nodup.mem_erase_iff

/-- A tree node without a list. -/
theorem Grouped.removeNode (inTree : vma ∈ st.tree) (list : set vma = []) :
    wp (rawPrioTreeRemove shape vma) (fun _ => Keeps st fun m => m ≠ vma ∧ Present st set m) never st := by
  simp only [rawPrioTreeRemove, wp_bind, wp_get, inTree, if_true, wp_set]
  refine ⟨set, ⟨grouped.nodup.erase vma, ?_, ?_⟩, fun m => ⟨?_, ?_⟩, arrange_ranges⟩
  · intro a inTree b inTree' equal
    refine grouped.distinct a (mem_of_mem_erase inTree) b (mem_of_mem_erase inTree') ?_
    exact arrange_ranges.same equal
  · intro a inTree
    have old := mem_of_mem_erase inTree
    exact (grouped.group a old).arranged old fun m member node => grouped.notMember old node member
  · rintro (node | ⟨a, node, member⟩)
    · obtain ⟨other, old⟩ := (mem_erase_tree grouped).mp node
      exact ⟨other, .inl old⟩
    · have old := mem_of_mem_erase node
      refine ⟨?_, .inr ⟨a, old, member⟩⟩
      rintro rfl
      exact grouped.notMember old inTree member
  · rintro ⟨other, node | ⟨a, node, member⟩⟩
    · exact .inl ((mem_erase_tree grouped).mpr ⟨other, node⟩)
    · refine .inr ⟨a, (mem_erase_tree grouped).mpr ⟨?_, node⟩, member⟩
      rintro rfl
      rw [list] at member
      cases member

/-- The head of the list of a tree node takes its place. -/
theorem Grouped.replace (inTree : n ∈ st.tree) (list : set n = h :: rest)
    (ranges : SameRanges st.mem mem') (own : Group mem' h rest)
    (others : ∀ a ∈ st.tree, a ≠ n → Group mem' a (set a)) :
    Keeps st (fun m => m ≠ n ∧ Present st set m) ⟨mem', h :: st.tree.erase n⟩ := by
  have group := grouped.group n inTree
  have isMember : h ∈ set n := list ▸ mem_cons_self ..
  have sameNode := (group.members h isMember).2.2
  have notNode : ∀ a ∈ st.tree, a ≠ h := by
    rintro a there rfl
    exact grouped.notMember inTree there isMember
  have apart : ∀ a ∈ st.tree.erase n, ¬(st.mem h).Same (st.mem a) := by
    intro a there alike
    obtain ⟨other, old⟩ := (mem_erase_tree grouped).mp there
    exact other (grouped.distinct n inTree a old (sameNode.symm.trans alike)).symm
  refine ⟨Function.update set h rest, ⟨?_, ?_, ?_⟩, fun m => ⟨?_, ?_⟩, ranges⟩
  · refine nodup_cons.mpr ⟨fun there => ?_, grouped.nodup.erase n⟩
    exact notNode h (mem_of_mem_erase there) rfl
  · intro a there b there' equal
    have alike : (st.mem a).Same (st.mem b) := ranges.same equal
    rcases mem_cons.mp there with rfl | old <;> rcases mem_cons.mp there' with rfl | old'
    · rfl
    · exact absurd alike (apart b old')
    · exact absurd alike.symm (apart a old)
    · exact grouped.distinct a (mem_of_mem_erase old) b (mem_of_mem_erase old') alike
  · intro a there
    rcases mem_cons.mp there with rfl | there
    · rw [update_self]
      exact own
    · obtain ⟨other, old⟩ := (mem_erase_tree grouped).mp there
      rw [update_of_ne (notNode a old)]
      exact others a old other
  · rintro (there | ⟨a, there, member⟩)
    · rcases mem_cons.mp there with rfl | there
      · exact ⟨(notNode n inTree).symm, .inr ⟨n, inTree, isMember⟩⟩
      · obtain ⟨other, old⟩ := (mem_erase_tree grouped).mp there
        exact ⟨other, .inl old⟩
    rcases mem_cons.mp there with rfl | there
    · rw [update_self] at member
      have inList : m ∈ set n := list ▸ mem_cons_of_mem _ member
      refine ⟨?_, .inr ⟨n, inTree, inList⟩⟩
      rintro rfl
      exact grouped.notMember inTree inTree inList
    · obtain ⟨other, old⟩ := (mem_erase_tree grouped).mp there
      rw [update_of_ne (notNode a old)] at member
      refine ⟨?_, .inr ⟨a, old, member⟩⟩
      rintro rfl
      exact grouped.notMember old inTree member
  · rintro ⟨other, node | ⟨a, node, member⟩⟩
    · exact .inl (mem_cons_of_mem _ ((mem_erase_tree grouped).mpr ⟨other, node⟩))
    by_cases isOwn : a = n
    · rw [isOwn, list] at member
      rcases mem_cons.mp member with rfl | later
      · exact .inl (mem_cons_self ..)
      · exact .inr ⟨h, mem_cons_self .., by rwa [update_self]⟩
    · refine .inr ⟨a, mem_cons_of_mem _ ((mem_erase_tree grouped).mpr ⟨isOwn, node⟩), ?_⟩
      rwa [update_of_ne (notNode a node)]

theorem Grouped.replaceNode (inTree : vma ∈ st.tree) (list : set vma = h :: rest) :
    wp (replaceNode shape vma h) (fun _ => Keeps st fun m => m ≠ vma ∧ Present st set m) never st := by
  have group := grouped.group vma inTree
  rw [list] at group
  have isMember := group.members h (mem_cons_self ..)
  have notNode : ∀ a ∈ st.tree, a ∉ h :: rest := fun a there => list ▸ grouped.notMember inTree there
  -- what is in another group is neither in this one nor in the tree
  have out : ∀ a ∈ st.tree, a ≠ vma → ∀ m ∈ a :: set a, m ∉ h :: rest := by
    intro a there other m inside
    rw [← list]
    exact (grouped.outside inTree there other inside).1
  have apart : ∀ a ∈ st.tree, a ≠ vma → ∀ m ∈ set a, m ∉ h :: st.tree := by
    intro a there other m member inside
    rcases mem_cons.mp inside with rfl | node
    · exact out a there other m (mem_cons_of_mem _ member) (mem_cons_self ..)
    · exact grouped.notMember there node member
  rw [VmaTree.replaceNode, wp_bind, group.wp_listEmpty]
  cases rest with
  | nil =>
    simp only [decide_true, if_true, rawPrioTreeReplace, setHead, wp_bind, wp_get, inTree, wp_set,
      wp_change isMember.1]
    have ranges : SameRanges st.mem (Function.update (arrange shape (h :: st.tree) st.mem) h
        { arrange shape (h :: st.tree) st.mem h with head := 0 }) := by
      refine SameRanges.update arrange_ranges ?_
      rfl
    refine grouped.replace inTree list ranges ?_ fun a there other => ?_
    · refine group.of_rest isMember.1 ?_ ?_ ranges isMember.2.2 ?_ ?_ ?_
      · rw [update_self]
        exact arrange_parent (mem_cons_self ..)
      · rw [update_self]
        rfl
      · exact fun m inside => absurd inside not_mem_nil
      · exact fun m inside => absurd inside not_mem_nil
      · exact fun a l same => absurd same.symm (cons_ne_nil a l)
    · have arranged : Group (arrange shape (h :: st.tree) st.mem) a (set a) :=
        (grouped.group a there).arranged (mem_cons_of_mem h there) (apart a there other)
      refine arranged.congr fun m inside => update_of_ne ?_ ..
      rintro rfl
      exact out a there other m inside (mem_cons_self ..)
  | cons h' rest =>
    have headMember : h' ∈ h :: h' :: rest := by simp
    have headSome := (group.members h' headMember).1
    have succ : (st.mem h).next = h' := (group.circle.next_ne group.nodup).1
    have first : h ∉ h' :: rest := (nodup_cons.mp group.nodup).1
    have other : h' ≠ h := fun same => first (same ▸ mem_cons_self ..)
    rw [decide_eq_false (cons_ne_nil _ _), if_neg Bool.false_ne_true, wp_bind,
      wp_load isMember.1, succ, wp_bind,
      group.wp_listDelInit (mem_cons_self ..), wp_bind, rawPrioTreeReplace, wp_bind, wp_get,
      if_pos inTree, wp_set, ifThen, if_pos headSome, wp_paired isMember.1 headSome other]
    have arranged : SameRanges st.mem (arrange shape (h :: st.tree) (unlinked st.mem h)) :=
      relinked_ranges.trans arrange_ranges
    refine grouped.replace inTree list (paired_ranges other arranged) ?_ fun a there otherNode => ?_
    · refine group.promote isMember.1 first (arrange_parent (mem_cons_self ..)) arranged
        isMember.2.2 fun m member => arrange_of_not_mem fun inside => ?_
      rcases mem_cons.mp inside with rfl | node
      · exact first member
      · exact notNode m node (mem_cons_of_mem _ member)
    have kept : Group (unlinked st.mem h) a (set a) :=
      (grouped.group a there).congr fun m inside =>
        unlinked_of_not_mem group.circle (mem_cons_self ..) (out a there otherNode m inside)
    have linked : Group (arrange shape (h :: st.tree) (unlinked st.mem h)) a (set a) :=
      kept.arranged (mem_cons_of_mem h there) (apart a there otherNode)
    refine linked.congr fun m inside => ?_
    have notIn := out a there otherNode m inside
    exact paired_of_ne (fun same => notIn (same ▸ mem_cons_self ..)) fun same =>
      notIn (same ▸ headMember)

theorem Grouped.remove (present : Present st set vma) :
    wp (vmaPrioTreeRemove shape vma) (fun _ => Keeps st fun m => m ≠ vma ∧ Present st set m)
      never st := by
  rw [vmaPrioTreeRemove, wp_bind, wp_load (grouped.ne_null present)]
  by_cases inTree : vma ∈ st.tree
  · have group := grouped.group vma inTree
    cases list : set vma with
    | nil =>
      rw [list] at group
      have none : (st.mem vma).head = 0 := group.head
      rw [if_pos none, if_neg group.parent]
      exact grouped.removeNode inTree list
    | cons h rest =>
      rw [list] at group
      have headSome := (group.members h mem_cons_self).1
      have first : (st.mem vma).head = h := group.head
      have back := (group.first h rest rfl).1
      rw [first, if_neg headSome, wp_bind, wp_load headSome, if_neg (not_not.mpr back),
        if_pos group.parent]
      exact grouped.replaceNode inTree list
  · obtain isNode | ⟨n, inTree', member⟩ := present
    · exact absurd isNode inTree
    have group := grouped.group n inTree'
    have isMember := group.members vma member
    obtain ⟨l₁, l₂, list⟩ := append_of_mem member
    cases l₁ with
    | nil =>
      rw [nil_append] at list
      rw [list] at group
      have back := (group.first vma l₂ rfl).1
      have first : (st.mem n).head = vma := group.head
      rw [back, if_neg group.node, wp_bind, wp_load group.node, if_neg (not_not.mpr first),
        if_neg (not_not.mpr isMember.2.1)]
      exact grouped.removeHead inTree' list
    | cons b l₁ =>
      have none := (group.first b (l₁ ++ vma :: l₂) list).2 vma (by simp)
      rw [if_pos none, if_pos isMember.2.1]
      exact grouped.removeMember inTree' list (cons_ne_nil b l₁)

end

end Remove

end AndroidKernel.VmaTree
