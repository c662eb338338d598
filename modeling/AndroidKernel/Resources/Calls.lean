import AndroidKernel.Resources.Nested

/-!
What the functions of the resource tree do.

Each function is described by the place in the list of children that it finds: the
children before it end before the new range, those after it start after it. When a
conflict is reported the memory is as it was.
-/

namespace AndroidKernel.Resources

open Lib Function List

section Access

variable {mem : Memory} {p a : Ptr} {fault : Fault → Prop}
  {post : Unit → Memory → Prop} {f : Resource → Resource}

theorem wp_load (present : p ≠ 0) {post : Resource → Memory → Prop} :
    wp (load p) post fault mem ↔ post (mem p) mem := by
  rw [load, if_neg present]
  exact Iff.rfl

theorem wp_change (present : p ≠ 0) :
    wp (change p f) post fault mem ↔ post () (update mem p (f (mem p))) := by
  rw [change, if_neg present]
  exact Iff.rfl

/-- The resource that a link is in. -/
def Link.cell : Link → Ptr
  | .child p => p
  | .sibling p => p

def Link.get : Link → Resource → Ptr
  | .child _, x => x.child
  | .sibling _, x => x.sibling

def Link.set (a : Ptr) : Link → Resource → Resource
  | .child _, x => { x with child := a }
  | .sibling _, x => { x with sibling := a }

variable {link : Link} {x : Resource}

@[simp] theorem Link.set_start : (link.set a x).start = x.start := by cases link <;> rfl
@[simp] theorem Link.set_stop : (link.set a x).stop = x.stop := by cases link <;> rfl
@[simp] theorem Link.set_parent : (link.set a x).parent = x.parent := by cases link <;> rfl
@[simp] theorem Link.get_set : link.get (link.set a x) = a := by cases link <;> rfl

theorem wp_loadLink (present : link.cell ≠ 0) {post : Ptr → Memory → Prop} :
    wp (loadLink link) post fault mem ↔ post (link.get (mem link.cell)) mem := by
  cases link <;> exact (wp_bind).trans (wp_load present)

theorem wp_storeLink (present : link.cell ≠ 0) :
    wp (storeLink a link) post fault mem ↔
      post () (update mem link.cell (link.set a (mem link.cell))) := by
  cases link with
  | child p => exact wp_change (f := fun x => { x with child := a }) present
  | sibling p => exact wp_change (f := fun x => { x with sibling := a }) present

end Access

/-! ### Places in a list of children -/

/-- The link after the children in `pre`. -/
def linkAt (root : Ptr) (pre : List Ptr) : Link :=
  match pre.getLast? with
  | none => .child root
  | some x => .sibling x

@[simp] theorem linkAt_concat (root x : Ptr) (pre : List Ptr) :
    linkAt root (pre ++ [x]) = .sibling x := by
  rw [linkAt, List.getLast?_concat]

section Places

variable {mem mem' : Memory} {top root new a : Ptr} {kids : Ptr → List Ptr}
  {pre mid post rest : List Ptr}

theorem linkAt_cell (root : Ptr) (pre : List Ptr) :
    (linkAt root pre).cell = root ∧ pre = [] ∨ (linkAt root pre).cell ∈ pre := by
  rcases eq_nil_or_concat' pre with rfl | ⟨l, x, rfl⟩
  · exact .inl ⟨rfl, rfl⟩
  · rw [linkAt_concat]
    exact .inr (by simp [Link.cell])

/-- The link after some children points to the next one. -/
theorem linkAt_next (list : Siblings mem (mem root).child (pre ++ rest) 0) :
    Siblings mem ((linkAt root pre).get (mem (linkAt root pre).cell)) rest 0 := by
  rcases eq_nil_or_concat' pre with rfl | ⟨l, x, rfl⟩
  · exact list
  · rw [linkAt_concat]
    obtain ⟨c, front, rest⟩ := seg_append.mp list
    obtain ⟨d, -, start, -, rfl⟩ := seg_append.mp front
    exact rest

/-- A list up to the link that is set. -/
theorem linkAt_aim (list : Siblings mem (mem root).child (pre ++ rest) 0)
    (aim : (linkAt root pre).get (mem' (linkAt root pre).cell) = a)
    (first : pre ≠ [] → (mem' root).child = (mem root).child)
    (same : ∀ x ∈ pre, x ≠ (linkAt root pre).cell → (mem' x).sibling = (mem x).sibling)
    (nodup : pre.Nodup) : Siblings mem' (mem' root).child pre a := by
  rcases eq_nil_or_concat' pre with rfl | ⟨l, x, rfl⟩
  · exact aim
  rw [linkAt_concat] at aim same
  obtain ⟨c, front, -⟩ := seg_append.mp list
  rw [first (by simp)]
  refine front.retarget (fun y member => same y (by simp [member]) ?_) aim
  rintro rfl
  rw [nodup_append] at nodup
  exact nodup.2.2 _ member _ mem_cons_self rfl

/-- The resource with the link after some children is in the tree. -/
theorem linkAt_inTree (inTree : InTree kids top root) (split : kids root = pre ++ rest) :
    InTree kids top (linkAt root pre).cell := by
  rcases linkAt_cell root pre with ⟨same, -⟩ | member
  · rwa [same]
  · exact inTree.child (by rw [split]; simp [member])

theorem linkAt_set_child {x : Resource} (some : pre ≠ []) :
    ((linkAt root pre).set a x).child = x.child := by
  rcases eq_nil_or_concat' pre with rfl | ⟨l, y, rfl⟩
  · exact absurd rfl some
  · rw [linkAt_concat]
    rfl

theorem linkAt_set_sibling {x : Resource} (none : pre = []) :
    ((linkAt root pre).set a x).sibling = x.sibling := by
  subst none
  rfl

variable (nested : Nested mem top kids) (inTree : InTree kids top root)

include nested inTree

/-- The link after some children is not in one of the others. -/
theorem Nested.cell_ne {x : Ptr} (split : kids root = pre ++ rest) (later : x ∈ rest) :
    x ≠ (linkAt root pre).cell := by
  have nodup := nested.nodup inTree
  have rootOut := nested.notMem_self inTree
  rw [split] at nodup rootOut
  rintro rfl
  rcases linkAt_cell root pre with ⟨same, -⟩ | inPre
  · rw [same] at later
    exact rootOut (by simp [later])
  · exact (nodup_append.mp nodup).2.2 _ inPre _ later rfl

/-- The old resource is passed over by the link before it. -/
theorem Nested.unlinked {old : Ptr} (split : kids root = pre ++ old :: post)
    (self : mem' old = { mem old with parent := 0 })
    (cell : mem' (linkAt root pre).cell =
      (linkAt root pre).set (mem old).sibling (mem (linkAt root pre).cell))
    (other : ∀ n, n ≠ old → n ≠ (linkAt root pre).cell → mem' n = mem n) :
    Unlinked mem mem' root old pre post := by
  have list := nested.list inTree
  have nodup := nested.nodup inTree
  have rootOut := nested.notMem_self inTree
  rw [split] at list nodup rootOut
  obtain ⟨-, some, later⟩ := linkAt_next list
  have cellNe : ∀ {x}, x ∈ old :: post → x ≠ (linkAt root pre).cell :=
    fun member => nested.cell_ne inTree split member
  rw [nodup_append, nodup_cons] at nodup
  obtain ⟨nodupPre, ⟨notPost, -⟩, apart⟩ := nodup
  have cases : ∀ n, n = old ∨ n = (linkAt root pre).cell ∨ mem' n = mem n := by
    intro n
    by_contra none
    push Not at none
    exact none.2.2 (other n none.1 none.2.1)
  have range : ∀ n, (mem' n).start = (mem n).start ∧ (mem' n).stop = (mem n).stop := by
    intro n
    rcases cases n with rfl | rfl | same
    · simp [self]
    · simp [cell]
    · simp [same]
  constructor
  case start => exact fun n => (range n).1
  case stop => exact fun n => (range n).2
  case parentOld => rw [self]
  case parentElse =>
    intro c notOld
    rcases cases c with rfl | rfl | same
    · exact absurd rfl notOld
    · rw [cell, Link.set_parent]
    · rw [same]
  case list =>
    refine seg_append.mpr ⟨(mem old).sibling, linkAt_aim list ?_ (fun some => ?_)
      (fun x inPre notCell => ?_) nodupPre, later.congr fun x inPost => ?_⟩
    · rw [cell, Link.get_set]
    · rcases cases root with same | same | same
      · exact absurd (by simp [same]) rootOut
      · rw [same, cell, linkAt_set_child some]
      · rw [same]
    · rw [other x (fun isOld => apart x inPre old mem_cons_self isOld) notCell]
    · rw [other x _ (cellNe (mem_cons_of_mem _ inPost))]
      rintro rfl
      exact notPost inPost
  case child =>
    intro n notRoot
    rcases cases n with rfl | rfl | same
    · rw [self]
    · rw [cell, linkAt_set_child]
      rintro rfl
      exact notRoot rfl
    · rw [same]
  case sibling =>
    intro n notPre
    rcases cases n with rfl | rfl | same
    · rw [self]
    · rcases linkAt_cell root pre with ⟨-, none⟩ | inPre
      · rw [cell, linkAt_set_sibling none]
      · exact absurd inPre notPre
    · rw [same]

/-- The new resource is written between `pre` and `post`, with `mid` below it. -/
theorem Nested.joined {first : Ptr} (absent : ¬InTree kids top new) (present : new ≠ 0)
    (split : kids root = pre ++ mid ++ post)
    (self : ∃ tmp, Siblings mem tmp post 0 ∧
      mem' new = { mem new with parent := root, sibling := tmp, child := first })
    (inner : Siblings mem' first mid 0)
    (below : ∀ x ∈ mid, (mem' x).start = (mem x).start ∧ (mem' x).stop = (mem x).stop ∧
      (mem' x).child = (mem x).child ∧ (mem' x).parent = new)
    (cell : mem' (linkAt root pre).cell = (linkAt root pre).set new (mem (linkAt root pre).cell))
    (other : ∀ n, n ≠ new → n ≠ (linkAt root pre).cell → n ∉ mid → mem' n = mem n) :
    Joined mem mem' root new pre mid post := by
  obtain ⟨tmp, later, self⟩ := self
  have list := nested.list inTree
  have nodup := nested.nodup inTree
  have rootOut := nested.notMem_self inTree
  rw [split] at list nodup rootOut
  rw [append_assoc] at list
  have kid : ∀ {x}, x ∈ pre ++ mid ++ post → x ≠ new :=
    fun member => (inTree.child (by rwa [split])).ne absent
  have rootNe := inTree.ne absent
  rw [append_assoc, nodup_append, nodup_append] at nodup
  obtain ⟨nodupPre, ⟨-, -, apart⟩, apart'⟩ := nodup
  have outside : ∀ {x}, x ∈ mid ++ post → x ≠ (linkAt root pre).cell := fun member =>
    nested.cell_ne inTree (by rw [split, append_assoc]) member
  -- what became of each resource
  have cases : ∀ n, n = new ∨ n = (linkAt root pre).cell ∨ n ∈ mid ∨ mem' n = mem n := by
    intro n
    by_contra none
    push Not at none
    exact none.2.2.2 (other n none.1 none.2.1 none.2.2.1)
  have range : ∀ n, (mem' n).start = (mem n).start ∧ (mem' n).stop = (mem n).stop := by
    intro n
    rcases cases n with rfl | rfl | inMid | same
    · simp [self]
    · simp [cell]
    · exact ⟨(below n inMid).1, (below n inMid).2.1⟩
    · simp [same]
  constructor
  case start => exact fun n => (range n).1
  case stop => exact fun n => (range n).2
  case parentNew => rw [self]
  case parentMid => exact fun c inMid => (below c inMid).2.2.2
  case parentElse =>
    intro c notNew notMid
    rcases cases c with rfl | rfl | inMid | same
    · exact absurd rfl notNew
    · rw [cell, Link.set_parent]
    · exact absurd inMid notMid
    · rw [same]
  case list =>
    refine seg_append.mpr ⟨new, linkAt_aim list ?_ (fun some => ?_) (fun x inPre notCell => ?_)
      nodupPre, rfl, present, ?_⟩
    · rw [cell, Link.get_set]
    · rcases cases root with same | same | inMid | same
      · exact absurd same rootNe
      · rw [same, cell, linkAt_set_child some]
      · exact absurd (by simp [inMid]) rootOut
      · rw [same]
    · rw [other x (kid (by simp [inPre])) notCell fun inMid => apart' x inPre x (by simp [inMid]) rfl]
    · simp only [self]
      refine later.congr fun x inPost => ?_
      rw [other x (kid (by simp [inPost])) (outside (by simp [inPost]))
        fun inMid => apart x inMid x inPost rfl]
  case inner =>
    rw [self]
    exact inner
  case child =>
    intro n notRoot notNew
    rcases cases n with rfl | rfl | inMid | same
    · exact absurd rfl notNew
    · rw [cell, linkAt_set_child]
      rintro rfl
      exact notRoot rfl
    · exact (below n inMid).2.2.1
    · rw [same]
  case sibling =>
    intro n notNew notKid
    rcases cases n with rfl | rfl | inMid | same
    · exact absurd rfl notNew
    · rcases linkAt_cell root pre with ⟨-, none⟩ | inPre
      · rw [cell, linkAt_set_sibling none]
      · exact absurd (by simp [inPre]) notKid
    · exact absurd (by simp [inMid]) notKid
    · rw [same]

end Places

/-! ### Request and release -/

section Request

variable {mem mem' : Memory} {top root new : Ptr} {kids : Ptr → List Ptr}
  {pre mid post rest : List Ptr} {never : Fault → Prop}

/-- A resource outside of the tree that can be put into it. -/
structure Fresh (mem : Memory) (top : Ptr) (kids : Ptr → List Ptr) (new : Ptr) : Prop where
  present : new ≠ 0
  absent : ¬InTree kids top new
  childless : (mem new).child = 0

/-- The children before a range. -/
def Before (mem : Memory) (pre : List Ptr) (start : Size) : Prop := ∀ a ∈ pre, (mem a).stop < start

/-- The children after a range. -/
def After (mem : Memory) (post : List Ptr) (stop : Size) : Prop := ∀ a ∈ post, stop < (mem a).start

section

variable (nested : Nested mem top kids) (inTree : InTree kids top root)

include nested inTree

/-- The children after one that starts after a range. -/
theorem After.of_head {x : Ptr} {stop : Size} (split : kids root = pre ++ x :: rest)
    (head : stop < (mem x).start) : After mem (x :: rest) stop := by
  have sorted := nested.sorted inTree
  have own := nested.ordered (inTree.child (by rw [split]; simp : x ∈ kids root))
  rw [split, pairwise_append, pairwise_cons] at sorted
  rintro a (_ | ⟨_, later⟩)
  · exact head
  · have := sorted.2.1.1 a later
    bv_omega

/-- `__request_resource` below a resource whose range the new one is in: the new
resource is put between two children, or the first child it meets is returned. -/
def Requested (mem : Memory) (root new : Ptr) (kids : Ptr → List Ptr) (r : Ptr) (mem' : Memory) :
    Prop :=
  (r = 0 ∧ ∃ pre post, kids root = pre ++ post ∧ Before mem pre (mem new).start ∧
    After mem post (mem new).stop ∧ Joined mem mem' root new pre [] post) ∨
  (mem' = mem ∧ ∃ pre rest, kids root = pre ++ r :: rest ∧ Before mem pre (mem new).start ∧
    (mem new).start ≤ (mem r).stop ∧ (mem r).start ≤ (mem new).stop)

/-- The new resource is linked in before `tmp`. -/
theorem place_spec {tmp : Ptr} (fresh : Fresh mem top kids new) (split : kids root = pre ++ post)
    (next : Siblings mem tmp post 0) :
    wp (do
        change new fun x => { x with sibling := tmp }
        storeLink new (linkAt root pre)
        change new fun x => { x with parent := root }
        return 0)
      (fun r mem' => r = (0 : Ptr) ∧ Joined mem mem' root new pre [] post) never mem := by
  have inCell := linkAt_inTree inTree split
  have cell := nested.ne_null inCell
  have apart := inCell.ne fresh.absent
  simp only [wp_bind, wp_change fresh.present, wp_storeLink cell, wp_pure, true_and]
  refine nested.joined inTree fresh.absent fresh.present (by simpa using split)
    ⟨tmp, next, ?_⟩ (show Siblings _ 0 [] 0 from rfl) (forall_mem_nil _) ?_
    fun n notNew notCell _ => ?_
  · have childless := fresh.childless
    simp [update_of_ne apart.symm, ← childless]
  · simp [update_of_ne apart]
  · simp [update_of_ne notNew, update_of_ne notCell]

theorem requestLoop_spec (fresh : Fresh mem top kids new) (split : kids root = pre ++ rest) (enough : rest.length < rounds)
    (before : Before mem pre (mem new).start) :
    wp (requestLoop rounds (linkAt root pre) root new (mem new).start (mem new).stop)
      (Requested mem root new kids) never mem := by
  induction rounds generalizing pre rest with
  | zero => cases enough
  | succ rounds ih =>
  have list := nested.list inTree
  rw [split] at list
  have rest' := linkAt_next list
  rw [requestLoop, wp_bind, wp_loadLink (nested.ne_null (linkAt_inTree inTree split))]
  cases rest with
  | nil =>
    have next : (linkAt root pre).get (mem (linkAt root pre).cell) = 0 := rest'
    dsimp only
    rw [next, if_pos rfl]
    refine (place_spec nested inTree fresh split rfl).returns ?_
    rintro r mem' ⟨rfl, joined⟩
    exact .inl ⟨rfl, pre, [], split, before, forall_mem_nil _, joined⟩
  | cons x rest =>
    obtain ⟨next, some, later⟩ := rest'
    dsimp only
    rw [next, if_neg some, wp_bind, wp_load some, wp_ite, wp_ite]
    refine ⟨fun past => ?_, fun notPast => ⟨fun ahead => ?_, fun notAhead => ?_⟩⟩
    · refine (place_spec nested inTree fresh split ⟨rfl, some, later⟩).returns ?_
      rintro r mem' ⟨rfl, joined⟩
      exact .inl ⟨rfl, pre, x :: rest, split, before, .of_head nested inTree split past, joined⟩
    · rw [← linkAt_concat root x pre]
      refine @ih (pre ++ [x]) rest (by rw [split]; simp) (by simp at enough; omega) fun a member => ?_
      rcases mem_append.mp member with old | last
      · exact before a old
      · rwa [mem_singleton.mp last]
    · exact .inr ⟨rfl, pre, rest, split, before, by bv_omega, by bv_omega⟩

/-- The range of the new resource is one, and inside that of `root`. -/
def FitsIn (mem : Memory) (root new : Ptr) : Prop :=
  (mem new).start ≤ (mem new).stop ∧ (mem root).start ≤ (mem new).start ∧
    (mem new).stop ≤ (mem root).stop

theorem rawRequestResource_spec (fresh : Fresh mem top kids new) :
    wp (rawRequestResource root new) (fun r mem' => mem' = mem ∧ r = root ∧ ¬FitsIn mem root new ∨
      FitsIn mem root new ∧ Requested mem root new kids r mem') never mem := by
  have present := nested.ne_null inTree
  have enough := length_lt_maxRounds (nested.nodup inTree) (nested.list inTree).ne_null
  rw [rawRequestResource, wp_bind, wp_load fresh.present, wp_ite]
  refine ⟨fun reversed => .inl ⟨rfl, rfl, ?_⟩, fun range => ?_⟩
  · rintro ⟨range, -⟩
    bv_omega
  rw [wp_bind, wp_load present, wp_ite, wp_ite]
  refine ⟨fun low => .inl ⟨rfl, rfl, ?_⟩, fun notLow => ⟨fun high => .inl ⟨rfl, rfl, ?_⟩,
    fun notHigh => ?_⟩⟩
  · rintro ⟨-, lower, -⟩
    bv_omega
  · rintro ⟨-, -, upper⟩
    bv_omega
  · refine (requestLoop_spec nested inTree fresh (show kids root = [] ++ kids root from rfl) enough
      (forall_mem_nil _)).returns fun r mem' requested => .inr ⟨⟨?_, ?_, ?_⟩, requested⟩
    all_goals bv_omega

end

/-- The memory holds a tree, and parent links are right. -/
structure Held (mem : Memory) (top : Ptr) (kids : Ptr → List Ptr) : Prop where
  nested : Nested mem top kids
  owned : Owned mem top kids

section

variable (held : Held mem top kids) (inTree : InTree kids top root) (fresh : Fresh mem top kids new)

include held inTree fresh

theorem Held.join (fits : FitsIn mem root new)
    (split : kids root = pre ++ mid ++ post) (joined : Joined mem mem' root new pre mid post)
    (before : Before mem pre (mem new).start) (after : After mem post (mem new).stop)
    (covered : ∀ a ∈ mid, (mem new).start ≤ (mem a).start ∧ (mem a).stop ≤ (mem new).stop) :
    Held mem' top (joinKids kids root new pre mid post) :=
  ⟨held.nested.join inTree fresh.absent split joined fits.1 fits.2 before after covered,
    held.owned.join inTree fresh.absent split joined fresh.present fresh.childless⟩

/-- A request that is granted. -/
theorem Held.requested (fits : FitsIn mem root new)
    (requested : Requested mem root new kids 0 mem') : ∃ kids', Held mem' top kids' := by
  rcases requested with ⟨-, pre, post, split, before, after, joined⟩ | ⟨-, pre, rest, split, -⟩
  · exact ⟨_, held.join inTree fresh fits (by simpa using split) joined before after
      (forall_mem_nil _)⟩
  · have member : 0 ∈ kids root := by
      rw [split]
      simp
    exact absurd rfl (held.nested.ne_null (inTree.child member))

/-- A call is granted and there is a tree, or it reports a conflict and the tree is as
it was. -/
def Answered (mem : Memory) (top : Ptr) (kids : Ptr → List Ptr) (r : Answer) (mem' : Memory) : Prop :=
  r = .ok ∧ (∃ kids', Held mem' top kids') ∨
    r = .ebusy ∧ Held mem' top kids ∧ ∀ n, InTree kids top n → mem' n = mem n

omit inTree fresh in
theorem Answered.conflict {r : Ptr} (some : r ≠ 0) : Answered mem top kids (ofConflict r) mem :=
  .inr ⟨if_neg some, held, fun _ _ => rfl⟩

theorem requestResource_spec : wp (requestResource root new) (Answered mem top kids) never mem := by
  rw [requestResource, wp_bind]
  refine (rawRequestResource_spec held.nested inTree fresh).returns fun r mem' result => ?_
  rcases result with ⟨rfl, rfl, -⟩ | ⟨fits, requested⟩
  · exact .conflict held (held.nested.ne_null inTree)
  by_cases none : r = 0
  · subst none
    exact .inl ⟨if_pos rfl, held.requested inTree fresh fits requested⟩
  · rcases requested with ⟨zero, -⟩ | ⟨rfl, -⟩
    · exact absurd zero none
    · exact .conflict held none

end

theorem releaseLoop_spec {old : Ptr} (nested : Nested mem top kids)
    (inTree : InTree kids top root) (split : kids root = pre ++ rest) (member : old ∈ rest)
    (enough : rest.length < rounds) :
    wp (releaseLoop rounds (linkAt root pre) old) (fun r mem' => r = .ok ∧ ∃ pre post,
      kids root = pre ++ old :: post ∧ Unlinked mem mem' root old pre post) never mem := by
  induction rest generalizing pre rounds with
  | nil => cases member
  | cons x rest ih =>
    obtain ⟨rounds, rfl⟩ := Nat.exists_eq_add_one.mpr enough.pos
    have list := nested.list inTree
    rw [split] at list
    obtain ⟨next, some, -⟩ := linkAt_next list
    have cell := nested.ne_null (linkAt_inTree inTree split)
    rw [releaseLoop, wp_bind, wp_loadLink cell, next, if_neg some, wp_ite]
    refine ⟨?_, fun other => ?_⟩
    · rintro rfl
      have cellNe : ∀ {y}, y = x ∨ y ∈ rest → y ≠ (linkAt root pre).cell := fun later =>
        nested.cell_ne inTree split (mem_cons.mpr later)
      simp only [wp_bind, wp_load some, wp_storeLink cell, wp_change some, wp_pure, true_and]
      refine ⟨pre, rest, split, nested.unlinked inTree split ?_ ?_ fun n notOld notCell => ?_⟩
      · rw [update_self, update_of_ne (cellNe (.inl rfl))]
      · rw [update_of_ne (cellNe (.inl rfl)).symm, update_self]
      · rw [update_of_ne notOld, update_of_ne notCell]
    · rw [← linkAt_concat root x pre]
      refine ih (by rw [split]; simp) ?_ (by simp at enough; omega)
      exact (mem_cons.mp member).resolve_left (Ne.symm other)

/-- A resource of the tree is the root or in the list of its parent. -/
theorem Nested.above {n : Ptr} (nested : Nested mem top kids) (inTree : InTree kids top n)
    (other : n ≠ top) : InTree kids top (mem n).parent ∧ n ∈ kids (mem n).parent := by
  obtain ⟨k, depth⟩ := inTree
  cases depth with
  | root => exact absurd rfl other
  | child above member =>
    rw [nested.parent ⟨_, above⟩ member]
    exact ⟨⟨_, above⟩, member⟩

theorem releaseResource_spec {old : Ptr} (held : Held mem top kids) (inTree : InTree kids top old)
    (other : old ≠ top) :
    wp (releaseResource old) (fun r mem' => r = .ok ∧ ∃ kids', Held mem' top kids') never mem := by
  obtain ⟨above, member⟩ := held.nested.above inTree other
  have enough := length_lt_maxRounds (held.nested.nodup above) (held.nested.list above).ne_null
  rw [releaseResource, wp_bind, wp_load (held.nested.ne_null inTree)]
  refine (releaseLoop_spec held.nested above (nil_append _).symm member enough).returns ?_
  rintro r mem' ⟨rfl, pre, post, split, unlinked⟩
  exact ⟨rfl, _, held.nested.unlink above split unlinked,
    held.owned.unlink held.nested above split unlinked⟩

/-! ### Allocation -/

/-- Only the range of a resource changed. -/
structure Ranged (mem mem' : Memory) (new : Ptr) : Prop where
  other : ∀ n, n ≠ new → mem' n = mem n
  links : (mem' new).parent = (mem new).parent ∧ (mem' new).sibling = (mem new).sibling ∧
    (mem' new).child = (mem new).child

instance rangedPreorder (new : Ptr) : IsPreorder Memory fun mem mem' => Ranged mem mem' new where
  refl _ := ⟨fun _ _ => rfl, rfl, rfl, rfl⟩
  trans _ _ _ first second := by
    refine ⟨fun n other => (second.other n other).trans (first.other n other), ?_⟩
    rw [second.links.1, second.links.2.1, second.links.2.2]
    exact first.links

/-- Whatever a program does, only the range of `new` changes. -/
abbrev OnlyRange (never : Fault → Prop) (new : Ptr) {α : Type} (m : Prog α) : Prop :=
  Moves (fun mem mem' => Ranged mem mem' new) never m

theorem change_ranged (present : new ≠ 0)
    (links : ∀ x, (f x).parent = x.parent ∧ (f x).sibling = x.sibling ∧ (f x).child = x.child) :
    OnlyRange never new (change new f) := by
  intro mem
  rw [wp_change present]
  refine ⟨fun n other => update_of_ne other .., ?_⟩
  rw [update_self]
  exact links (mem new)

theorem load_ranged {p : Ptr} (present : p ≠ 0) : OnlyRange never new (load p) := by
  intro mem
  rw [wp_load present]
  exact refl_of (fun mem mem' => Ranged mem mem' new) mem

theorem Ranged.held (ranged : Ranged mem mem' new) (held : Held mem top kids)
    (absent : ¬InTree kids top new) : Held mem' top kids := by
  have cases : ∀ n, (mem' n).parent = (mem n).parent ∧ (mem' n).child = (mem n).child := by
    intro n
    by_cases isNew : n = new
    · rw [isNew]
      exact ⟨ranged.links.1, ranged.links.2.2⟩
    · rw [ranged.other n isNew]
      exact ⟨rfl, rfl⟩
  exact ⟨held.nested.frame fun {n} inTree => ranged.other n (inTree.ne absent),
    held.owned.frame (fun n => (cases n).1) fun n => (cases n).2⟩

theorem Ranged.fresh (ranged : Ranged mem mem' new) (fresh : Fresh mem top kids new) :
    Fresh mem' top kids new :=
  ⟨fresh.present, fresh.absent, ranged.links.2.2.trans fresh.childless⟩

theorem fitRange_ranged (d : Demand) (present : new ≠ 0) :
    OnlyRange never new (fitRange new d) := by
  have set : ∀ {f : Resource → Resource},
      (∀ x, (f x).parent = x.parent ∧ (f x).sibling = x.sibling ∧ (f x).child = x.child) →
      OnlyRange never new (change new f) :=
    fun links => change_ranged present links
  refine (load_ranged present).bind fun n => .bind (.ifThen (set ?_)) fun _ =>
    (load_ranged present).bind fun n => .bind (.ifThen (set ?_)) fun _ =>
    Moves.bind (set ?_) fun _ => .ifSome fun _ => set ?_
  all_goals exact fun _ => ⟨rfl, rfl, rfl⟩

theorem findLoop_ranged {this : Ptr} (present : root ≠ 0)
    (some : new ≠ 0) (list : Siblings mem this rest 0) (absent : new ∉ rest)
    (enough : rest.length < rounds) :
    wp (findLoop rounds root new this d) (fun _ mem' => Ranged mem mem' new) never mem := by
  have set : ∀ {stop : Resource → Size}, OnlyRange never new
      (change new fun x => { x with stop := stop x }) :=
    fun {stop} => change_ranged some fun _ => ⟨rfl, rfl, rfl⟩
  induction rest generalizing mem this rounds with
  | nil =>
    obtain ⟨rounds, rfl⟩ := Nat.exists_eq_add_one.mpr enough.pos
    obtain rfl : this = 0 := list
    have whole : OnlyRange never new (findLoop (rounds + 1) root new 0 d) := by
      refine (load_ranged present).bind fun r => set.bind fun _ => ?_
      refine (fitRange_ranged d some).bind fun _ => (load_ranged some).bind fun n => ?_
      split
      · exact set.bind fun _ => .pure _
      · rw [if_pos rfl]
        exact .pure _
    exact whole mem
  | cons x rest ih =>
    obtain ⟨rounds, rfl⟩ := Nat.exists_eq_add_one.mpr enough.pos
    obtain ⟨rfl, thisSome, later⟩ := list
    have other : this ≠ new := by
      rintro rfl
      exact absent mem_cons_self
    rw [findLoop, if_neg thisSome, wp_bind, wp_load thisSome, wp_bind]
    refine (set mem).returns fun _ mem₁ ranged₁ => ?_
    rw [wp_bind]
    refine (fitRange_ranged d some).after ranged₁ fun _ mem₂ ranged₂ => ?_
    rw [wp_bind, wp_load some, wp_ite]
    refine ⟨fun _ => (set.bind fun _ => .pure _).after ranged₂ fun _ _ ranged => ranged, fun _ => ?_⟩
    rw [if_neg thisSome, wp_bind, wp_load thisSome, wp_bind, ranged₂.other this other]
    have next : OnlyRange never new (change new fun x => { x with start := (mem this).stop + 1 }) :=
      change_ranged some fun _ => ⟨rfl, rfl, rfl⟩
    refine next.after ranged₂ fun _ mem₃ ranged₃ => ?_
    have kept : ∀ y ∈ rest, (mem₃ y).sibling = (mem y).sibling := by
      intro y member
      rw [ranged₃.other y]
      rintro rfl
      exact absent (mem_cons_of_mem _ member)
    refine (ih (later.congr kept) (fun member => absent (mem_cons_of_mem _ member))
      (by simp at enough; omega)).returns fun _ mem₄ ranged₄ => ?_
    exact trans_of (fun mem mem' => Ranged mem mem' new) ranged₃ ranged₄

theorem findResource_ranged (nested : Nested mem top kids) (inTree : InTree kids top root)
    (fresh : Fresh mem top kids new) :
    wp (findResource root new d) (fun _ mem' => Ranged mem mem' new) never mem := by
  have present := nested.ne_null inTree
  have enough := length_lt_maxRounds (nested.nodup inTree) (nested.list inTree).ne_null
  have notNew : ∀ x ∈ kids root, x ≠ new :=
    fun x member => (inTree.child member).ne fresh.absent
  have set : ∀ {start : Size}, OnlyRange never new
      (change new fun x => { x with start := start }) :=
    fun {start} => change_ranged fresh.present fun _ => ⟨rfl, rfl, rfl⟩
  -- the rest of the search, from a part of the list on
  have search : ∀ {mem₁ this rest}, Ranged mem mem₁ new → Siblings mem this rest 0 →
      rest ⊆ kids root → rest.length < maxRounds →
      wp (findLoop maxRounds root new this d) (fun _ mem' => Ranged mem mem' new) never mem₁ := by
    intro mem₁ this rest ranged list sub short
    have list₁ : Siblings mem₁ this rest 0 := list.congr fun x member => by
      rw [ranged.other x (notNew x (sub member))]
    refine (findLoop_ranged present fresh.present list₁ (fun member => notNew new (sub member) rfl)
      short).returns fun _ mem₂ ranged₂ => trans_of (fun mem mem' => Ranged mem mem' new) ranged ranged₂
  have list := nested.list inTree
  rw [findResource, wp_bind, wp_load present, wp_bind]
  refine (set mem).returns fun _ mem₁ ranged₁ => ?_
  rw [wp_ite]
  refine ⟨fun empty => search ranged₁ (show Siblings mem 0 [] 0 from rfl) (nil_subset _)
    (by decide), fun some => ?_⟩
  obtain ⟨rest, split, later⟩ := list.exists_cons some
  have member : (mem root).child ∈ kids root := by
    rw [split]
    exact mem_cons_self
  rw [wp_bind, wp_load some, wp_ite]
  refine ⟨fun _ => ?_, fun _ => search ranged₁ list (List.Subset.refl _) enough⟩
  rw [wp_bind, ranged₁.other _ (notNew _ member)]
  refine set.after ranged₁ fun _ mem₂ ranged₂ => search ranged₂ later ?_ ?_
  · rw [split]
    exact subset_cons_self ..
  · rw [split, length_cons] at enough
    omega

theorem allocateResource_spec (held : Held mem top kids) (inTree : InTree kids top root)
    (fresh : Fresh mem top kids new) :
    wp (allocateResource root new d) (Answered mem top kids) never mem := by
  rw [allocateResource, wp_bind]
  refine (findResource_ranged held.nested inTree fresh).returns fun found mem₁ ranged => ?_
  have held₁ := ranged.held held fresh.absent
  have same : ∀ n, InTree kids top n → mem₁ n = mem n :=
    fun n there => ranged.other n (there.ne fresh.absent)
  rw [wp_ite]
  refine ⟨fun _ => ?_, fun _ => .inr ⟨rfl, held₁, same⟩⟩
  refine (requestResource_spec held₁ inTree (ranged.fresh fresh)).returns fun r mem' answered => ?_
  rcases answered with granted | ⟨busy, held', kept⟩
  · exact .inl granted
  · exact .inr ⟨busy, held', fun n there => (kept n there).trans (same n there)⟩

end Request

end AndroidKernel.Resources
