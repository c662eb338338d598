import AndroidKernel.Lib.Segment
import AndroidKernel.Resources.Tree

/-!
Nested ranges.

`Nested mem top kids` says that the memory holds a tree below `top` in which `kids n`
is the list of the children of `n`: ranges lie inside the range of the parent and
children are sorted and apart. The functions of the source change the tree in three
ways, each a lemma here: a resource is put into a list of children, with some of them
below it (`Nested.join`), a resource is taken out (`Nested.unlink`), and the range of
a resource is changed (`Nested.adjust`).
-/

namespace AndroidKernel.Resources

open Lib Function List

/-- The resource is in the tree, on level `k`. -/
inductive Depth (kids : Ptr → List Ptr) (top : Ptr) : Nat → Ptr → Prop where
  | root : Depth kids top 0 top
  | child {k : Nat} {n c : Ptr} : Depth kids top k n → c ∈ kids n → Depth kids top (k + 1) c

def InTree (kids : Ptr → List Ptr) (top n : Ptr) : Prop := ∃ k, Depth kids top k n

/-- The list of siblings from a pointer on. -/
abbrev Siblings (mem : Memory) (a : Ptr) (l : List Ptr) (b : Ptr) : Prop :=
  Seg 0 (fun p => (mem p).sibling) a l b

structure Nested (mem : Memory) (top : Ptr) (kids : Ptr → List Ptr) : Prop where
  present : top ≠ 0
  root : (mem top).parent = 0
  ordered : ∀ {n}, InTree kids top n → (mem n).start ≤ (mem n).stop
  list : ∀ {n}, InTree kids top n → Siblings mem (mem n).child (kids n) 0
  parent : ∀ {n c}, InTree kids top n → c ∈ kids n → (mem c).parent = n
  inside : ∀ {n c}, InTree kids top n → c ∈ kids n →
    (mem n).start ≤ (mem c).start ∧ (mem c).stop ≤ (mem n).stop
  sorted : ∀ {n}, InTree kids top n → (kids n).Pairwise fun a b => (mem a).stop < (mem b).start

theorem InTree.root {kids : Ptr → List Ptr} {top : Ptr} : InTree kids top top := ⟨0, .root⟩

section Nested

variable {mem mem' : Memory} {top n c root new : Ptr} {kids : Ptr → List Ptr}
  {pre mid post : List Ptr}

theorem InTree.child (inTree : InTree kids top n) (member : c ∈ kids n) : InTree kids top c := by
  obtain ⟨k, depth⟩ := inTree
  exact ⟨k + 1, depth.child member⟩

/-- A resource of the tree is not one outside of it. -/
theorem InTree.ne (inTree : InTree kids top n) (absent : ¬InTree kids top new) : n ≠ new := by
  rintro rfl
  exact absent inTree

theorem Depth.exists_above {k j : Nat} (depth : Depth kids top k n) (higher : j ≤ k) :
    ∃ a, Depth kids top j a := by
  induction depth with
  | root => exact ⟨top, by rw [Nat.le_zero.mp higher]; exact .root⟩
  | @child k a c above member ih =>
    by_cases last : j = k + 1
    · exact ⟨c, last ▸ above.child member⟩
    · exact ih (by omega)

/-- There are less pointers than words. -/
theorem length_lt_maxRounds {l : List Ptr} (nodup : l.Nodup) (present : ∀ x ∈ l, x ≠ 0) :
    l.length < maxRounds := by
  have nodup' : ((0 :: l).map BitVec.toNat).Nodup := by
    refine List.Nodup.map (fun x y same => BitVec.eq_of_toNat_eq same) (nodup_cons.mpr ⟨?_, nodup⟩)
    exact fun member => present 0 member rfl
  have sub : ((0 :: l).map BitVec.toNat).toFinset ⊆ Finset.range (2 ^ 32) := by
    intro x member
    obtain ⟨p, -, rfl⟩ := mem_map.mp (mem_toFinset.mp member)
    exact Finset.mem_range.mpr p.isLt
  have size := Finset.card_le_card sub
  rw [toFinset_card_of_nodup nodup', Finset.card_range, length_map, length_cons] at size
  exact size

section

variable (nested : Nested mem top kids)
include nested

theorem Nested.ne_null (inTree : InTree kids top n) : n ≠ 0 := by
  obtain ⟨k, depth⟩ := inTree
  cases depth with
  | root => exact nested.present
  | child above member => exact (nested.list ⟨_, above⟩).ne_null _ member

/-- The root is nobody's child. -/
theorem Nested.top_notMem (inTree : InTree kids top n) : top ∉ kids n := by
  intro member
  have own := nested.parent inTree member
  rw [nested.root] at own
  exact nested.ne_null inTree own.symm

theorem Nested.depth_unique {k k' : Nat} (depth : Depth kids top k n)
    (depth' : Depth kids top k' n) : k = k' := by
  induction depth generalizing k' with
  | root =>
    cases depth' with
    | root => rfl
    | child above member => exact absurd member (nested.top_notMem ⟨_, above⟩)
  | child above member ih =>
    cases depth' with
    | root => exact absurd member (nested.top_notMem ⟨_, above⟩)
    | child above' member' =>
      have same := (nested.parent ⟨_, above⟩ member).symm.trans (nested.parent ⟨_, above'⟩ member')
      subst same
      rw [ih above']

theorem Nested.depth_lt {k : Nat} (depth : Depth kids top k n) : k + 1 < maxRounds := by
  -- one resource from each level above
  choose f at' using fun j : Fin (k + 1) => depth.exists_above (Nat.le_of_lt_succ j.2)
  have nodup : (List.ofFn f).Nodup := by
    rw [nodup_ofFn]
    intro i j same
    have depth' := at' j
    rw [← same] at depth'
    exact Fin.ext (nested.depth_unique (at' i) depth')
  have size := length_lt_maxRounds nodup ?_
  · rwa [length_ofFn] at size
  · intro x member
    obtain ⟨j, rfl⟩ := (mem_ofFn' ..).mp member
    exact nested.ne_null ⟨_, at' j⟩

theorem Nested.nodup (inTree : InTree kids top n) : (kids n).Nodup := by
  refine (nested.sorted inTree).imp_of_mem ?_
  rintro a b member - before rfl
  have := nested.ordered (inTree.child member)
  bv_omega

end

/-! ### Putting a resource into the tree -/

/-- The memory after `new` is put between `pre` and `post` in the list of `root`, with
`mid` as its children. -/
structure Joined (mem mem' : Memory) (root new : Ptr) (pre mid post : List Ptr) : Prop where
  start : ∀ n, (mem' n).start = (mem n).start
  stop : ∀ n, (mem' n).stop = (mem n).stop
  parentNew : (mem' new).parent = root
  parentMid : ∀ c ∈ mid, (mem' c).parent = new
  parentElse : ∀ c, c ≠ new → c ∉ mid → (mem' c).parent = (mem c).parent
  list : Siblings mem' (mem' root).child (pre ++ new :: post) 0
  inner : Siblings mem' (mem' new).child mid 0
  child : ∀ n, n ≠ root → n ≠ new → (mem' n).child = (mem n).child
  sibling : ∀ n, n ≠ new → n ∉ pre ++ mid ++ post → (mem' n).sibling = (mem n).sibling

/-- The children after it. -/
def joinKids (kids : Ptr → List Ptr) (root new : Ptr) (pre mid post : List Ptr) : Ptr → List Ptr :=
  Function.update (Function.update kids root (pre ++ new :: post)) new mid

theorem joinKids_new : joinKids kids root new pre mid post new = mid := update_self ..

theorem joinKids_root (other : root ≠ new) :
    joinKids kids root new pre mid post root = pre ++ new :: post := by
  rw [joinKids, update_of_ne other, update_self]

theorem joinKids_of_ne (notRoot : n ≠ root) (notNew : n ≠ new) :
    joinKids kids root new pre mid post n = kids n := by
  rw [joinKids, update_of_ne notNew, update_of_ne notRoot]

theorem inTree_joinKids (split : kids root = pre ++ mid ++ post) (inTree : InTree kids top root)
    (absent : ¬InTree kids top new) :
    InTree (joinKids kids root new pre mid post) top n ↔ InTree kids top n ∨ n = new := by
  have rootNe := inTree.ne absent
  constructor
  · rintro ⟨k, depth⟩
    induction depth with
    | root => exact .inl .root
    | @child k a c above member ih =>
      by_cases isNew : a = new
      · rw [isNew, joinKids_new] at member
        exact .inl (inTree.child (by rw [split]; simp [member]))
      have old := ih.resolve_right isNew
      by_cases isRoot : a = root
      · rw [isRoot, joinKids_root rootNe, mem_append, mem_cons] at member
        rcases member with member | rfl | member
        · exact .inl (inTree.child (by rw [split]; simp [member]))
        · exact .inr rfl
        · exact .inl (inTree.child (by rw [split]; simp [member]))
      · rw [joinKids_of_ne isRoot isNew] at member
        exact .inl (old.child member)
  · have newIn : InTree (joinKids kids root new pre mid post) top root →
        InTree (joinKids kids root new pre mid post) top new := by
      intro there
      refine there.child ?_
      rw [joinKids_root rootNe]
      simp
    have old : ∀ {k n}, Depth kids top k n → InTree (joinKids kids root new pre mid post) top n := by
      intro k n depth
      induction depth with
      | root => exact .root
      | @child k a c above member ih =>
        by_cases isRoot : a = root
        · subst isRoot
          rw [split, append_assoc, mem_append, mem_append] at member
          rcases member with member | member | member
          · refine ih.child ?_
            rw [joinKids_root rootNe]
            simp [member]
          · refine (newIn ih).child ?_
            rwa [joinKids_new]
          · refine ih.child ?_
            rw [joinKids_root rootNe]
            simp [member]
        · refine ih.child ?_
          rwa [joinKids_of_ne isRoot (InTree.ne ⟨_, above⟩ absent)]
    rintro (⟨k, depth⟩ | rfl)
    · exact old depth
    · obtain ⟨k, depth⟩ := inTree
      exact newIn (old depth)

section

variable (nested : Nested mem top kids)

include nested

/-- A child of one resource is no child of another. -/
theorem Nested.notMem_of_ne (inTree : InTree kids top n)
    (inTree' : InTree kids top root) (other : n ≠ root) (member : c ∈ kids n) : c ∉ kids root := by
  intro member'
  exact other ((nested.parent inTree member).symm.trans (nested.parent inTree' member'))

/-- No resource is its own child. -/
theorem Nested.notMem_self (inTree : InTree kids top n) : n ∉ kids n := by
  intro member
  obtain ⟨k, depth⟩ := inTree
  exact absurd (nested.depth_unique depth (depth.child member)) (by omega)

theorem Nested.join (inTree : InTree kids top root)
    (absent : ¬InTree kids top new) (split : kids root = pre ++ mid ++ post)
    (joined : Joined mem mem' root new pre mid post) (range : (mem new).start ≤ (mem new).stop)
    (within : (mem root).start ≤ (mem new).start ∧ (mem new).stop ≤ (mem root).stop)
    (before : ∀ a ∈ pre, (mem a).stop < (mem new).start)
    (after : ∀ a ∈ post, (mem new).stop < (mem a).start)
    (covered : ∀ a ∈ mid, (mem new).start ≤ (mem a).start ∧ (mem a).stop ≤ (mem new).stop) :
    Nested mem' top (joinKids kids root new pre mid post) := by
  have rootNe := inTree.ne absent
  have newNe : ∀ {n c}, InTree kids top n → c ∈ kids n → c ≠ new :=
    fun there member => (there.child member).ne absent
  have nodup := nested.nodup inTree
  have sorted := nested.sorted inTree
  rw [split] at nodup sorted
  have ofRoot : ∀ {x}, x ∈ pre ++ mid ++ post → x ∈ kids root := by
    rw [split]
    exact fun member => member
  -- each resource of the new tree is the new one, the changed one, or has its old children
  have cases : ∀ {n}, InTree (joinKids kids root new pre mid post) top n →
      n = new ∨ n = root ∨ InTree kids top n ∧ n ≠ new ∧ n ≠ root ∧
        joinKids kids root new pre mid post n = kids n := by
    grind [inTree_joinKids, joinKids_of_ne]
  constructor
  case present => exact nested.present
  case root =>
    rw [joined.parentElse top (InTree.root.ne absent) fun member => ?_, nested.root]
    exact nested.top_notMem inTree (ofRoot (by simp [member]))
  case ordered =>
    intro n there
    rw [joined.start, joined.stop]
    rcases (inTree_joinKids split inTree absent).mp there with old | rfl
    · exact nested.ordered old
    · exact range
  case list =>
    intro n there
    rcases cases there with rfl | rfl | ⟨old, isNew, isRoot, eq⟩
    · rw [joinKids_new]
      exact joined.inner
    · rw [joinKids_root rootNe]
      exact joined.list
    · rw [eq, joined.child n isRoot isNew]
      refine (nested.list old).congr fun x member => joined.sibling x (newNe old member) ?_
      rw [← split]
      exact nested.notMem_of_ne old inTree isRoot member
  case parent =>
    intro n c there member
    rcases cases there with rfl | rfl | ⟨old, isNew, isRoot, eq⟩
    · rw [joinKids_new] at member
      exact joined.parentMid c member
    · rw [joinKids_root rootNe, mem_append, mem_cons] at member
      have outer : c ∈ pre ++ mid ++ post → c ∉ mid → (mem' c).parent = n := by
        intro kid notMid
        rw [joined.parentElse c (newNe inTree (ofRoot kid)) notMid, nested.parent inTree (ofRoot kid)]
      rw [append_assoc, nodup_append, nodup_append] at nodup
      obtain ⟨-, ⟨-, -, apart⟩, apart'⟩ := nodup
      rcases member with member | rfl | member
      · refine outer (by simp [member]) fun inMid => ?_
        exact apart' c member c (by simp [inMid]) rfl
      · exact joined.parentNew
      · exact outer (by simp [member]) fun inMid => apart c inMid c member rfl
    · rw [eq] at member
      rw [joined.parentElse c (newNe old member) fun inMid => ?_, nested.parent old member]
      exact nested.notMem_of_ne old inTree isRoot member (ofRoot (by simp [inMid]))
  case inside =>
    intro n c there member
    rw [joined.start, joined.start, joined.stop, joined.stop]
    rcases cases there with rfl | rfl | ⟨old, isNew, isRoot, eq⟩
    · rw [joinKids_new] at member
      exact covered c member
    · rw [joinKids_root rootNe, mem_append, mem_cons] at member
      rcases member with member | rfl | member
      · exact nested.inside inTree (ofRoot (by simp [member]))
      · exact within
      · exact nested.inside inTree (ofRoot (by simp [member]))
    · rw [eq] at member
      exact nested.inside old member
  case sorted =>
    intro n there
    simp only [joined.start, joined.stop]
    rw [append_assoc, pairwise_append, pairwise_append] at sorted
    obtain ⟨first, ⟨second, third, apart⟩, apart'⟩ := sorted
    rcases cases there with rfl | rfl | ⟨old, isNew, isRoot, eq⟩
    · rw [joinKids_new]
      exact second
    · rw [joinKids_root rootNe, pairwise_append, pairwise_cons]
      refine ⟨first, ⟨after, third⟩, fun a member b member' => ?_⟩
      rcases mem_cons.mp member' with rfl | later
      · exact before a member
      · exact apart' a member b (by simp [later])
    · rw [eq]
      exact nested.sorted old

/-- A tree depends on its own resources only. -/
theorem Nested.frame (same : ∀ {n}, InTree kids top n → mem' n = mem n) : Nested mem' top kids := by
  constructor
  case present => exact nested.present
  case root => rw [same .root, nested.root]
  case ordered =>
    intro n there
    rw [same there]
    exact nested.ordered there
  case list =>
    intro n there
    rw [same there]
    refine (nested.list there).congr fun x member => ?_
    rw [same (there.child member)]
  case parent =>
    intro n c there member
    rw [same (there.child member), nested.parent there member]
  case inside =>
    intro n c there member
    rw [same there, same (there.child member)]
    exact nested.inside there member
  case sorted =>
    intro n there
    refine (nested.sorted there).imp_of_mem fun {a b} member member' before => ?_
    rwa [same (there.child member), same (there.child member')]

/-! ### Taking a resource out of the tree -/

variable {old : Ptr}

/-- The memory after `old` is taken out of the list of `root`. -/
structure Unlinked (mem mem' : Memory) (root old : Ptr) (pre post : List Ptr) : Prop where
  start : ∀ n, (mem' n).start = (mem n).start
  stop : ∀ n, (mem' n).stop = (mem n).stop
  parentOld : (mem' old).parent = 0
  parentElse : ∀ c, c ≠ old → (mem' c).parent = (mem c).parent
  list : Siblings mem' (mem' root).child (pre ++ post) 0
  child : ∀ n, n ≠ root → (mem' n).child = (mem n).child
  sibling : ∀ n, n ∉ pre → (mem' n).sibling = (mem n).sibling

theorem Nested.inTree_unlink (inTree : InTree kids top root)
    (split : kids root = pre ++ old :: post)
    (there : InTree (update kids root (pre ++ post)) top n) :
    InTree kids top n ∧ n ≠ old := by
  have ofRoot : ∀ {x}, x ∈ pre ++ post → x ∈ kids root := by grind
  have oldKid : old ∈ kids root := by
    rw [split]
    simp
  have nodup := nested.nodup inTree
  rw [split, nodup_middle, nodup_cons] at nodup
  obtain ⟨k, depth⟩ := there
  induction depth with
  | root =>
    refine ⟨.root, ?_⟩
    rintro rfl
    exact nested.top_notMem inTree oldKid
  | @child k a c above member ih =>
    by_cases isRoot : a = root
    · subst isRoot
      rw [update_self] at member
      refine ⟨inTree.child (ofRoot member), ?_⟩
      rintro rfl
      exact nodup.1 member
    · rw [update_of_ne isRoot] at member
      refine ⟨ih.1.child member, ?_⟩
      rintro rfl
      exact nested.notMem_of_ne ih.1 inTree isRoot member oldKid

theorem Nested.unlink (inTree : InTree kids top root)
    (split : kids root = pre ++ old :: post) (unlinked : Unlinked mem mem' root old pre post) :
    Nested mem' top (update kids root (pre ++ post)) := by
  have kept : ∀ {n}, InTree (update kids root (pre ++ post)) top n →
      InTree kids top n ∧ n ≠ old := fun there => nested.inTree_unlink inTree split there
  have kid : ∀ {n c}, c ∈ update kids root (pre ++ post) n → c ∈ kids n := by
    grind
  constructor
  case present => exact nested.present
  case root => rw [unlinked.parentElse top (kept .root).2, nested.root]
  case ordered =>
    intro n there
    rw [unlinked.start, unlinked.stop]
    exact nested.ordered (kept there).1
  case list =>
    intro n there
    by_cases isRoot : n = root
    · rw [isRoot, update_self]
      exact unlinked.list
    rw [update_of_ne isRoot, unlinked.child n isRoot]
    refine (nested.list (kept there).1).congr fun x member => unlinked.sibling x fun inPre => ?_
    refine nested.notMem_of_ne (kept there).1 inTree isRoot member ?_
    rw [split]
    simp [inPre]
  case parent =>
    intro n c there member
    rw [unlinked.parentElse c (kept (there.child member)).2, nested.parent (kept there).1 (kid member)]
  case inside =>
    intro n c there member
    rw [unlinked.start, unlinked.start, unlinked.stop, unlinked.stop]
    exact nested.inside (kept there).1 (kid member)
  case sorted =>
    intro n there
    simp only [unlinked.start, unlinked.stop]
    by_cases isRoot : n = root
    · grind [→ Nested.sorted]
    · rw [update_of_ne isRoot]
      exact nested.sorted (kept there).1

/-! ### Changing a range -/

theorem Nested.adjust {res : Ptr} {start stop : Size}
    (inTree : InTree kids top root) (split : kids root = pre ++ res :: post) (range : start ≤ stop)
    (within : (mem root).start ≤ start ∧ stop ≤ (mem root).stop)
    (before : ∀ a ∈ pre, (mem a).stop < start) (after : ∀ a ∈ post, stop < (mem a).start)
    (covered : ∀ a ∈ kids res, start ≤ (mem a).start ∧ (mem a).stop ≤ stop)
    (self : mem' res = { mem res with start := start, stop := stop })
    (other : ∀ n, n ≠ res → mem' n = mem n) : Nested mem' top kids := by
  have own : res ∈ kids root := by
    rw [split]
    simp
  have links : ∀ n, (mem' n).parent = (mem n).parent ∧ (mem' n).sibling = (mem n).sibling ∧
      (mem' n).child = (mem n).child := by grind
  constructor
  case present => exact nested.present
  case root => rw [(links top).1, nested.root]
  case ordered =>
    intro n there
    by_cases isRes : n = res
    · rwa [isRes, self]
    · rw [other n isRes]
      exact nested.ordered there
  case list =>
    intro n there
    rw [(links n).2.2]
    exact (nested.list there).congr fun x _ => (links x).2.1
  case parent =>
    intro n c there member
    rw [(links c).1, nested.parent there member]
  case inside => grind [Nested.notMem_self, → Nested.parent, → Nested.inside]
  case sorted =>
    intro n there
    have sorted := nested.sorted there
    by_cases isRoot : n = root
    · subst isRoot
      have nodup := nested.nodup there
      rw [split] at sorted nodup ⊢
      rw [nodup_middle, nodup_cons, mem_append, not_or] at nodup
      rw [pairwise_append, pairwise_cons] at sorted ⊢
      obtain ⟨first, ⟨-, last⟩, apart⟩ := sorted
      have notRes : ∀ {a}, a ∈ pre ∨ a ∈ post → a ≠ res := by
        rintro a (member | member) rfl
        · exact nodup.1.1 member
        · exact nodup.1.2 member
      refine ⟨first.imp_of_mem fun {a b} ma mb lt => ?_, ⟨fun b mb => ?_,
        last.imp_of_mem fun {a b} ma mb lt => ?_⟩, fun a ma b mb => ?_⟩
      · rwa [other a (notRes (.inl ma)), other b (notRes (.inl mb))]
      · rw [self, other b (notRes (.inr mb))]
        exact after b mb
      · rwa [other a (notRes (.inr ma)), other b (notRes (.inr mb))]
      · grind
    · refine sorted.imp_of_mem fun {a b} ma mb lt => ?_
      have notRes : ∀ {a}, a ∈ kids n → a ≠ res := by
        rintro a member rfl
        exact nested.notMem_of_ne there inTree isRoot member own
      rwa [other a (notRes ma), other b (notRes mb)]

end

/-! ### Parent links -/

/-- A parent link to a resource of the tree is that of a child of it, and there are no
parent links to a resource without children. -/
structure Owned (mem : Memory) (top : Ptr) (kids : Ptr → List Ptr) : Prop where
  owned : ∀ {x}, InTree kids top (mem x).parent → x ∈ kids (mem x).parent
  orphan : ∀ {n x}, n ≠ 0 → (mem n).child = 0 → (mem x).parent ≠ n

theorem Owned.join (owned : Owned mem top kids) (inTree : InTree kids top root)
    (absent : ¬InTree kids top new) (split : kids root = pre ++ mid ++ post)
    (joined : Joined mem mem' root new pre mid post) (present : new ≠ 0)
    (childless : (mem new).child = 0) :
    Owned mem' top (joinKids kids root new pre mid post) := by
  have rootNe := inTree.ne absent
  constructor
  case owned =>
    intro x there
    by_cases isNew : x = new
    · rw [isNew, joined.parentNew, joinKids_root rootNe]
      simp
    by_cases isMid : x ∈ mid
    · rwa [joined.parentMid x isMid, joinKids_new]
    rw [joined.parentElse x isNew isMid] at there ⊢
    have notNew : (mem x).parent ≠ new := owned.orphan present childless
    have member := owned.owned
      (((inTree_joinKids split inTree absent).mp there).resolve_right notNew)
    by_cases isRoot : (mem x).parent = root
    · rw [isRoot, split] at member
      rw [isRoot, joinKids_root rootNe]
      simp only [mem_append, mem_cons] at member ⊢
      tauto
    · rwa [joinKids_of_ne isRoot notNew]
  case orphan =>
    intro n x some empty own
    by_cases isRoot : n = root
    · subst isRoot
      have list := joined.list
      rw [empty] at list
      exact absurd list.eq_nil (by simp)
    by_cases isNew : x = new
    · rw [isNew, joined.parentNew] at own
      exact isRoot own.symm
    by_cases isMid : x ∈ mid
    · rw [joined.parentMid x isMid] at own
      subst own
      have inner := joined.inner
      rw [empty] at inner
      rw [inner.eq_nil] at isMid
      cases isMid
    · rw [joined.parentElse x isNew isMid] at own
      by_cases same : n = new
      · exact owned.orphan present childless (own.trans same)
      · rw [joined.child n isRoot same] at empty
        exact owned.orphan some empty own

theorem Owned.unlink (owned : Owned mem top kids) (nested : Nested mem top kids)
    (inTree : InTree kids top root) (split : kids root = pre ++ old :: post)
    (unlinked : Unlinked mem mem' root old pre post) :
    Owned mem' top (update kids root (pre ++ post)) := by
  have others : ∀ {x}, x ∈ kids root → x ≠ old → x ∈ pre ++ post := by
    intro x member other
    rw [split] at member
    simp only [mem_append, mem_cons] at member ⊢
    tauto
  constructor
  case owned =>
    intro x there
    have old' := (nested.inTree_unlink inTree split there).1
    by_cases isOld : x = old
    · rw [isOld, unlinked.parentOld] at old'
      exact absurd rfl (nested.ne_null old')
    rw [unlinked.parentElse x isOld] at old' ⊢
    have member := owned.owned old'
    by_cases isRoot : (mem x).parent = root
    · rw [isRoot] at member ⊢
      rw [update_self]
      exact others member isOld
    · rwa [update_of_ne isRoot]
  case orphan =>
    intro n x some empty own
    by_cases isOld : x = old
    · rw [isOld, unlinked.parentOld] at own
      exact some own.symm
    rw [unlinked.parentElse x isOld] at own
    by_cases isRoot : n = root
    · subst isRoot
      have list := unlinked.list
      rw [empty] at list
      have member := others (own ▸ owned.owned (own ▸ inTree)) isOld
      rw [list.eq_nil] at member
      cases member
    · rw [unlinked.child n isRoot] at empty
      exact owned.orphan some empty own

theorem Owned.frame (owned : Owned mem top kids) (parent : ∀ n, (mem' n).parent = (mem n).parent)
    (child : ∀ n, (mem' n).child = (mem n).child) : Owned mem' top kids := by
  constructor
  case owned =>
    intro x there
    rw [parent] at there ⊢
    exact owned.owned there
  case orphan =>
    intro n x some empty
    rw [child] at empty
    rw [parent]
    exact owned.orphan some empty

end Nested

end AndroidKernel.Resources
