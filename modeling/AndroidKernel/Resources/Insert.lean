import AndroidKernel.Resources.Calls

/-!
Insertion and adjustment.

`__insert_resource` goes down to the innermost resource whose range the new one is
in. There it is put between two children, or above a run of children that it covers,
or it meets a child in part; that child is the conflict that `expandLoop` makes the
new range longer for.
-/

namespace AndroidKernel.Resources

open Lib Function List

section Insert

variable {mem mem' : Memory} {top root parent new first : Ptr} {kids : Ptr → List Ptr}
  {pre mid post rest : List Ptr} {never : Fault → Prop} {rounds : Nat} {start : Size} {x last res : Ptr}

/-- The first child that the new range meets. -/
structure Meets (mem : Memory) (kids : Ptr → List Ptr) (parent new first : Ptr) (pre rest : List Ptr) :
    Prop where
  split : kids parent = pre ++ first :: rest
  before : Before mem pre (mem new).start
  start : (mem new).start ≤ (mem first).stop
  stop : (mem first).start ≤ (mem new).stop

def Descended (mem : Memory) (top root new : Ptr) (kids : Ptr → List Ptr) : Descent → Memory → Prop
  | .placed, mem' => ∃ kids', Held mem' top kids'
  | .conflict p, mem' => mem' = mem ∧ p = root
  | .above parent first, mem' => mem' = mem ∧ InTree kids top parent ∧ FitsIn mem parent new ∧
      ∃ pre rest, Meets mem kids parent new first pre rest

theorem descendLoop_spec {k : Nat} (held : Held mem top kids) (fresh : Fresh mem top kids new)
    (depth : Depth kids top k parent) (enough : maxRounds ≤ rounds + k)
    (inner : parent = root ∨ FitsIn mem parent new) :
    wp (descendLoop rounds parent new) (Descended mem top root new kids) never mem := by
  induction rounds generalizing k parent with
  | zero =>
    have := held.nested.depth_lt depth
    omega
  | succ rounds ih =>
    have inTree : InTree kids top parent := ⟨k, depth⟩
    rw [descendLoop, wp_bind]
    refine (rawRequestResource_spec held.nested inTree fresh).returns fun r mem' result => ?_
    rcases result with ⟨rfl, rfl, out⟩ | ⟨fits, requested⟩
    · rw [if_neg (held.nested.ne_null inTree), if_pos rfl, wp_pure]
      exact ⟨rfl, inner.resolve_right out⟩
    by_cases none : r = 0
    · subst none
      exact held.requested inTree fresh fits requested
    rcases requested with ⟨zero, -⟩ | ⟨rfl, pre, rest, split, before, start, stop⟩
    · exact absurd zero none
    have member : r ∈ kids parent := by
      rw [split]
      simp
    have other : r ≠ parent := by
      rintro rfl
      exact held.nested.notMem_self inTree member
    rw [if_neg none, if_neg other, wp_bind, wp_load none, wp_bind, wp_load fresh.present, wp_ite,
      wp_ite, wp_pure]
    have meets : ∃ pre rest, Meets mem' kids parent new r pre rest :=
      ⟨pre, rest, split, before, start, stop⟩
    refine ⟨fun _ => ⟨rfl, inTree, fits, meets⟩, fun inside => ⟨fun _ => ⟨rfl, inTree, fits, meets⟩,
      fun _ => ?_⟩⟩
    rw [not_or] at inside
    refine ih (depth.child member) (by omega) (.inr ⟨fits.1, ?_, ?_⟩)
    · have := inside.1
      bv_omega
    · have := inside.2
      bv_omega

/-- The range of the new resource covers that of another. -/
def Covers (mem : Memory) (new a : Ptr) : Prop :=
  (mem new).start ≤ (mem a).start ∧ (mem a).stop ≤ (mem new).stop

theorem not_covers {p : Ptr} (out : (mem p).start < (mem new).start ∨ (mem new).stop < (mem p).stop) :
    ¬Covers mem new p := by
  rintro ⟨low, high⟩
  rcases out with out | out <;> bv_omega

theorem covered_concat {next : Ptr} (covered : ∀ a ∈ mid, Covers mem new a)
    (inside : ¬((mem next).start < (mem new).start ∨ (mem new).stop < (mem next).stop)) :
    ∀ a ∈ mid ++ [next], Covers mem new a := by
  rw [not_or] at inside
  intro a member
  rcases mem_append.mp member with old | last
  · exact covered a old
  · rw [mem_singleton.mp last]
    exact ⟨by have := inside.1; bv_omega, by have := inside.2; bv_omega⟩

/-- A child and the list after it. -/
theorem Nested.next (nested : Nested mem top kids) (inTree : InTree kids top parent)
    (split : kids parent = pre ++ mid ++ x :: rest) :
    x ∈ kids parent ∧ x ≠ 0 ∧ Siblings mem (mem x).sibling rest 0 := by
  have list := nested.list inTree
  rw [split] at list
  obtain ⟨c, -, -, some, later⟩ := seg_append.mp list
  exact ⟨by rw [split]; simp, some, later⟩

theorem coverLoop_spec {next : Ptr} (nested : Nested mem top kids)
    (inTree : InTree kids top parent) (present : new ≠ 0)
    (split : kids parent = pre ++ mid ++ next :: rest) (head : (mid ++ [next]).head? = some first)
    (covered : ∀ a ∈ mid, Covers mem new a) (enough : rest.length < rounds) :
    wp (coverLoop rounds next new) (fun r mem' => mem' = mem ∧ match r with
      | .error p => InTree kids top p ∧ ¬Covers mem new p
      | .ok last => ∃ mid post, kids parent = pre ++ (mid ++ [last]) ++ post ∧
          (mid ++ [last]).head? = some first ∧ (∀ a ∈ mid ++ [last], Covers mem new a) ∧
          After mem post (mem new).stop) never mem := by
  induction rounds generalizing mid next rest with
  | zero => cases enough
  | succ rounds ih =>
  obtain ⟨member, some, later⟩ := nested.next inTree split
  rw [coverLoop, wp_bind, wp_load some, wp_bind, wp_load present, wp_ite, wp_pure]
  refine ⟨fun out => ⟨rfl, inTree.child member, not_covers out⟩, fun inside => ?_⟩
  cases rest with
  | nil =>
    have last : (mem next).sibling = 0 := later
    rw [if_pos last, wp_pure]
    refine ⟨rfl, mid, [], by simpa using split, head, ?_, forall_mem_nil _⟩
    exact covered_concat covered inside
  | cons y rest =>
    obtain ⟨sibling, some', -⟩ := later
    have sibling : (mem next).sibling = y := sibling
    rw [sibling, if_neg some', wp_bind, wp_load some', wp_ite, wp_pure]
    refine ⟨fun past => ⟨rfl, mid, y :: rest, by simpa using split, head, ?_, ?_⟩, fun _ => ?_⟩
    · exact covered_concat covered inside
    · have split' : kids parent = pre ++ mid ++ [next] ++ y :: rest := by simpa using split
      exact .of_head nested inTree split' past
    · have split' : kids parent = pre ++ (mid ++ [next]) ++ y :: rest := by simpa using split
      refine ih split' ?_ (covered_concat covered inside) (by simp at enough; omega)
      rw [List.head?_append, head]
      rfl

/-! ### A run of children goes below the new resource -/

theorem reparentLoop_spec {a : Ptr} {l : List Ptr} (list : Siblings mem a l 0)
    (nodup : l.Nodup) (enough : l.length < rounds) :
    wp (reparentLoop rounds a new) (fun _ mem' => (∀ n, n ∉ l → mem' n = mem n) ∧
      ∀ n ∈ l, mem' n = { mem n with parent := new }) never mem := by
  induction l generalizing mem a rounds with
  | nil =>
    obtain ⟨rounds, rfl⟩ := Nat.exists_eq_add_one.mpr enough.pos
    obtain rfl : a = 0 := list
    rw [reparentLoop, if_pos rfl, wp_pure]
    exact ⟨fun _ _ => rfl, forall_mem_nil _⟩
  | cons x l ih =>
    obtain ⟨rounds, rfl⟩ := Nat.exists_eq_add_one.mpr enough.pos
    obtain ⟨rfl, some, later⟩ := list
    obtain ⟨notLater, nodup⟩ := nodup_cons.mp nodup
    rw [reparentLoop, if_neg some, wp_bind, wp_change some, wp_bind, wp_load some, update_self]
    have other : ∀ n, n ∈ l → n ≠ a := by
      rintro n member rfl
      exact notLater member
    refine (ih (later.congr fun y member => ?_) nodup (by simp at enough; omega)).returns ?_
    · rw [update_of_ne (other y member)]
    · grind

theorem beforeLoop_spec {a target : Ptr} {l : List Ptr}
    (list : Siblings mem a (l ++ [x]) target) (absent : target ∉ l ++ [x])
    (enough : l.length < rounds) :
    wp (beforeLoop rounds a target) (fun r mem' => r = x ∧ mem' = mem) never mem := by
  induction l generalizing a rounds with
  | nil =>
    obtain ⟨rounds, rfl⟩ := Nat.exists_eq_add_one.mpr enough.pos
    obtain ⟨rfl, some, last⟩ := list
    have last : (mem a).sibling = target := last
    rw [beforeLoop, wp_bind, wp_load some, if_pos last, wp_pure]
    exact ⟨rfl, rfl⟩
  | cons y l ih =>
    obtain ⟨rounds, rfl⟩ := Nat.exists_eq_add_one.mpr enough.pos
    obtain ⟨rfl, some, later⟩ := list
    have other : (mem a).sibling ≠ target := by
      rintro rfl
      -- the next one is in the list
      exact absent (mem_cons_of_mem _ (later.start_mem (append_ne_nil_of_right_ne_nil l (by simp))))
    rw [beforeLoop, wp_bind, wp_load some, if_neg other]
    exact ih later (fun member => absent (mem_cons_of_mem _ member)) (by simp at enough; omega)

/-- The new resource and the last one of the run are written. -/
structure Adopting (mem mem' : Memory) (parent new first last : Ptr) : Prop where
  self : mem' new = { mem new with parent := parent, sibling := (mem last).sibling, child := first }
  tail : mem' last = { mem last with sibling := 0 }
  other : ∀ n, n ≠ new → n ≠ last → mem' n = mem n

/-- The run is a list of its own. -/
theorem Adopting.run (adopting : Adopting mem mem' parent new first last)
    (nested : Nested mem top kids) (inTree : InTree kids top parent) (absent : ¬InTree kids top new)
    (split : kids parent = pre ++ (mid ++ [last]) ++ post)
    (head : (mid ++ [last]).head? = some first) : Siblings mem' first (mid ++ [last]) 0 := by
  have list := nested.list inTree
  have nodup := nested.nodup inTree
  rw [split, append_assoc] at list nodup
  obtain ⟨c, -, run⟩ := seg_append.mp list
  obtain ⟨d, run, -⟩ := seg_append.mp run
  obtain rfl := run.head_eq head
  have apart := (nodup_append.mp (nodup_append.mp (nodup_append.mp nodup).2.1).1).2.2
  refine run.retarget (fun y member => ?_) (by rw [adopting.tail])
  have there : InTree kids top y := inTree.child (by rw [split]; simp [member])
  rw [adopting.other y (there.ne absent) (apart y member last mem_cons_self)]

/-- The link to the run is set to the new resource. -/
theorem Adopting.joined {mem₁ mem₂ : Memory} (adopting : Adopting mem mem₁ parent new first last)
    (out : ∀ n, n ∉ mid ++ [last] → mem₂ n = mem₁ n)
    (inside : ∀ n ∈ mid ++ [last], mem₂ n = { mem₁ n with parent := new })
    (nested : Nested mem top kids) (inTree : InTree kids top parent) (fresh : Fresh mem top kids new)
    (split : kids parent = pre ++ (mid ++ [last]) ++ post)
    (head : (mid ++ [last]).head? = some first)
    (cell : mem' = update mem₂ (linkAt parent pre).cell
      ((linkAt parent pre).set new (mem (linkAt parent pre).cell))) :
    Joined mem mem' parent new pre (mid ++ [last]) post := by
  have split' : kids parent = pre ++ (mid ++ [last] ++ post) := by rw [split, append_assoc]
  have kidNe : ∀ {x}, x ∈ kids parent → x ≠ new :=
    fun member => (inTree.child member).ne fresh.absent
  have runKid : ∀ {x}, x ∈ mid ++ [last] → x ∈ kids parent := by
    intro x member
    rw [split']
    exact mem_append_right pre (mem_append_left post member)
  have newOut : new ∉ mid ++ [last] := fun member => kidNe (runKid member) rfl
  have newCell := ((linkAt_inTree inTree split').ne fresh.absent).symm
  have runCell : ∀ {x}, x ∈ mid ++ [last] → x ≠ (linkAt parent pre).cell := fun member =>
    nested.cell_ne inTree split' (mem_append_left _ member)
  have next : Siblings mem (mem last).sibling post 0 := by
    have shape : kids parent = pre ++ mid ++ last :: post := by simpa using split
    exact (nested.next inTree shape).2.2
  subst cell
  have inner : Siblings (update mem₂ (linkAt parent pre).cell
      ((linkAt parent pre).set new (mem (linkAt parent pre).cell))) first (mid ++ [last]) 0 := by
    refine (adopting.run nested inTree fresh.absent split head).congr fun x member => ?_
    rw [update_of_ne (runCell member), inside x member]
  refine nested.joined inTree fresh.absent fresh.present split ⟨(mem last).sibling, next, ?_⟩ inner
    (fun x member => ?_) (update_self ..) fun n notNew notCell notRun => ?_
  · rw [update_of_ne newCell, out new newOut, adopting.self]
  · rw [update_of_ne (runCell member), inside x member]
    by_cases isLast : x = last
    · rw [isLast, adopting.tail]
      exact ⟨rfl, rfl, rfl, rfl⟩
    · rw [adopting.other x (kidNe (runKid member)) isLast]
      exact ⟨rfl, rfl, rfl, rfl⟩
  · rw [update_of_ne notCell, out n notRun, adopting.other n notNew]
    rintro rfl
    exact notRun (by simp)

theorem adopt_spec (nested : Nested mem top kids) (inTree : InTree kids top parent)
    (fresh : Fresh mem top kids new) (split : kids parent = pre ++ (mid ++ [last]) ++ post)
    (head : (mid ++ [last]).head? = some first) :
    wp (adopt parent new first last)
      (fun _ mem' => Joined mem mem' parent new pre (mid ++ [last]) post) never mem := by
  have lastKid : last ∈ kids parent := by
    rw [split]
    simp
  have lastSome := nested.ne_null (inTree.child lastKid)
  have lastNe := (inTree.child lastKid).ne fresh.absent
  rw [adopt, wp_bind, wp_change fresh.present, wp_bind, wp_load lastSome, wp_bind,
    wp_change fresh.present, wp_bind, wp_change fresh.present, wp_bind, wp_change lastSome, wp_bind]
  simp only [update_self, update_of_ne lastNe, update_idem]
  have adopting : Adopting mem (update (update mem new
      { mem new with parent := parent, sibling := (mem last).sibling, child := first }) last
      { mem last with sibling := 0 }) parent new first last := by
    refine ⟨?_, update_self .., fun n notNew notLast => ?_⟩
    · rw [update_of_ne lastNe.symm, update_self]
    · rw [update_of_ne notLast, update_of_ne notNew]
  generalize update (update mem new
      { mem new with parent := parent, sibling := (mem last).sibling, child := first }) last
      { mem last with sibling := 0 } = mem₁ at *
  have nodup := nested.nodup inTree
  have present := (nested.list inTree).ne_null
  have rootOut := nested.notMem_self inTree
  have list := nested.list inTree
  rw [split, append_assoc] at nodup present rootOut list
  have short := length_lt_maxRounds nodup present
  obtain ⟨-, nodup', apart⟩ := nodup_append.mp nodup
  refine (reparentLoop_spec (adopting.run nested inTree fresh.absent split head)
    (nodup_append.mp nodup').1 (by simp at short ⊢; omega)).returns ?_
  rintro - mem₂ ⟨out, inside⟩
  -- the resources before the run are as they were
  have kept : ∀ {n}, n ∉ mid ++ [last] → n ≠ new → mem₂ n = mem n := by
    intro n notRun notNew
    rw [out n notRun, adopting.other n notNew]
    rintro rfl
    exact notRun (by simp)
  have parentKept : mem₂ parent = mem parent :=
    kept (fun member => rootOut (mem_append_right _ (mem_append_left _ member)))
      (inTree.ne fresh.absent)
  have firstIn : first ∈ mid ++ [last] := mem_of_mem_head? head
  have some := nested.ne_null inTree
  rw [wp_bind, wp_load some, parentKept, wp_ite]
  rcases eq_nil_or_concat' pre with rfl | ⟨l, z, rfl⟩
  · have child : (mem parent).child = first := list.head_eq (by rw [nil_append, head?_append, head]; rfl)
    refine ⟨fun _ => ?_, fun other => absurd child other⟩
    rw [wp_change some, parentKept]
    exact adopting.joined out inside nested inTree fresh split head rfl
  obtain ⟨c, front, later⟩ := seg_append.mp list
  have firstOut : first ∉ l ++ [z] := fun member =>
    apart first member first (mem_append_left _ firstIn) rfl
  obtain rfl := later.head_eq (by rw [head?_append, head]; rfl)
  have preKept : ∀ {n}, n ∈ l ++ [z] → mem₂ n = mem n := by
    intro n member
    refine kept (fun inRun => apart n member n (mem_append_left _ inRun) rfl)
      ((inTree.child ?_).ne fresh.absent)
    rw [split, append_assoc]
    exact mem_append_left _ member
  have other : (mem parent).child ≠ c := by
    rintro rfl
    exact firstOut (front.start_mem (by simp))
  refine ⟨fun same => absurd same other, fun _ => ?_⟩
  rw [wp_bind]
  refine (beforeLoop_spec (front.congr fun x member => by rw [preKept member]) firstOut
    (by simp at short ⊢; omega)).returns ?_
  rintro r mem₃ ⟨rfl, rfl⟩
  have zSome : r ≠ 0 := present r (by simp)
  rw [wp_change zSome, preKept (by simp)]
  refine adopting.joined out inside nested inTree fresh split head ?_
  rw [linkAt_concat]
  rfl

/-! ### Insertion -/

/-- A bound of the range of `new` is moved, or it is not. -/
theorem moveBound_spec {c : Prop} {_ : Decidable c} {f : Resource → Resource} (present : new ≠ 0)
    (links : ∀ x, (f x).parent = x.parent ∧ (f x).sibling = x.sibling ∧ (f x).child = x.child) :
    wp (ifThen c (change new f))
      (fun _ mem' => Ranged mem mem' new ∧ mem' new = if c then f (mem new) else mem new)
      never mem := by
  rw [wp_ifThen]
  refine ⟨fun moved => ?_, fun same => ?_⟩
  · have ranged : wp _ (fun _ mem' => Ranged mem mem' new) never mem := change_ranged present links mem
    rw [wp_change present] at ranged ⊢
    rw [update_self, if_pos moved]
    exact ⟨ranged, rfl⟩
  · rw [if_neg same]
    exact ⟨refl_of (fun mem mem' => Ranged mem mem' new) mem, rfl⟩

section

variable (held : Held mem top kids) (inTree : InTree kids top root) (fresh : Fresh mem top kids new)
include held inTree fresh

/-- `__insert_resource`: the new resource is in the tree, or it does not fit into the
range of `root`, or it covers a resource of the tree in part. -/
theorem rawInsertResource_spec :
    wp (rawInsertResource root new) (fun r mem' => r = 0 ∧ (∃ kids', Held mem' top kids') ∨
      mem' = mem ∧ InTree kids top r ∧ (r = root ∨ ¬Covers mem new r)) never mem := by
  obtain ⟨k, depth⟩ := inTree
  rw [rawInsertResource, wp_bind]
  refine (descendLoop_spec held fresh depth (Nat.le_add_right ..) (.inl rfl)).returns
    fun r mem₁ descended => ?_
  cases r with
  | placed => exact .inl ⟨rfl, descended⟩
  | conflict p =>
    obtain ⟨rfl, rfl⟩ := descended
    exact .inr ⟨rfl, ⟨k, depth⟩, .inl rfl⟩
  | above parent first =>
    obtain ⟨rfl, inTree, fits, pre, rest, meets⟩ := descended
    have split : kids parent = pre ++ [] ++ first :: rest := by simpa using meets.split
    have enough := length_lt_maxRounds (held.nested.nodup inTree) (held.nested.list inTree).ne_null
    rw [meets.split, length_append, length_cons] at enough
    rw [wp_bind]
    refine (coverLoop_spec held.nested inTree fresh.present split rfl
      (forall_mem_nil _) (by omega)).returns fun r mem₂ covered => ?_
    obtain ⟨rfl, covered⟩ := covered
    cases r with
    | error p => exact .inr ⟨rfl, covered.1, .inr covered.2⟩
    | ok last =>
      obtain ⟨mid, post, split', head, covered, after⟩ := covered
      rw [wp_bind]
      refine (adopt_spec held.nested inTree fresh split' head).returns fun _ mem₃ joined => ?_
      exact .inl ⟨rfl, _, held.join inTree fresh fits split' joined meets.before after covered⟩

theorem insertResource_spec : wp (insertResource root new) (Answered mem top kids) never mem := by
  rw [insertResource, wp_bind]
  refine (rawInsertResource_spec held inTree fresh).returns fun r mem' result => ?_
  rcases result with ⟨rfl, inserted⟩ | ⟨rfl, there, -⟩
  · exact .inl ⟨rfl, inserted⟩
  · exact .conflict held (held.nested.ne_null there)

/-- How much longer the range of a resource can get. -/
def slack (mem : Memory) (new : Ptr) : Nat := (mem new).start.toNat + (2 ^ 32 - 1 - (mem new).stop.toNat)

theorem expandLoop_spec (enough : slack mem new < rounds) :
    wp (expandLoop rounds root new) (fun _ mem' => ∃ kids', Held mem' top kids') never mem := by
  induction rounds generalizing mem with
  | zero => omega
  | succ rounds ih =>
    rw [expandLoop, wp_bind]
    refine (rawInsertResource_spec held inTree fresh).returns fun r mem' result => ?_
    rcases result with ⟨rfl, inserted⟩ | ⟨rfl, there, conflict⟩
    · rw [if_pos rfl, wp_pure]
      exact inserted
    have some := held.nested.ne_null there
    rw [if_neg some, wp_ite, wp_pure]
    refine ⟨fun _ => ⟨kids, held⟩, fun other => ?_⟩
    have partly := conflict.resolve_left other
    rw [wp_bind, wp_load some, wp_bind, wp_load fresh.present, wp_bind]
    refine wp.returns (moveBound_spec fresh.present fun _ => ⟨rfl, rfl, rfl⟩) ?_
    rintro _ mem₁ ⟨ranged₁, lower⟩
    rw [wp_bind, wp_load fresh.present, wp_bind]
    refine wp.returns (moveBound_spec fresh.present fun _ => ⟨rfl, rfl, rfl⟩) ?_
    rintro _ mem₂ ⟨ranged₂, raise⟩
    have ranged : Ranged mem' mem₂ new :=
      trans_of (fun mem mem' => Ranged mem mem' new) ranged₁ ranged₂
    refine ih (ranged.held held fresh.absent) (ranged.fresh fresh) ?_
    -- the range of the conflict is not in the old range but in the new one
    have kept : (mem₁ new).stop = (mem' new).stop := by rw [lower]; split <;> rfl
    have start : (mem₂ new).start = (mem₁ new).start := by rw [raise]; split <;> rfl
    have low : (mem₁ new).start.toNat = min (mem' r).start.toNat (mem' new).start.toNat := by
      rw [lower]
      split <;> bv_omega
    have high : (mem₂ new).stop.toNat = max (mem' r).stop.toNat (mem' new).stop.toNat := by
      rw [raise, kept]
      split <;> bv_omega
    rw [Covers, not_and_or, BitVec.not_le, BitVec.not_le] at partly
    unfold slack at enough ⊢
    rw [start, low, high]
    bv_omega

end

theorem insertResourceExpandToFit_spec (held : Held mem top kids) (inTree : InTree kids top root)
    (fresh : (mem new).parent = 0 → Fresh mem top kids new) (present : new ≠ 0) :
    wp (insertResourceExpandToFit root new) (fun _ mem' => ∃ kids', Held mem' top kids') never mem := by
  rw [insertResourceExpandToFit, wp_bind, wp_load present, wp_ite, wp_pure]
  refine ⟨fun _ => ⟨kids, held⟩, fun orphan => ?_⟩
  refine expandLoop_spec held inTree (fresh (not_not.mp orphan)) ?_
  have := (mem new).stop.isLt
  unfold slack expandRounds
  omega

/-! ### Adjustment -/

theorem childrenFit_spec {tmp : Ptr} {stop : Size} (list : Siblings mem tmp rest 0)
    (enough : rest.length < rounds) :
    wp (childrenFit rounds tmp start stop) (fun r mem' => mem' = mem ∧
      (r = true → ∀ a ∈ rest, start ≤ (mem a).start ∧ (mem a).stop ≤ stop)) never mem := by
  induction rest generalizing tmp rounds with
  | nil =>
    obtain ⟨rounds, rfl⟩ := Nat.exists_eq_add_one.mpr enough.pos
    obtain rfl : tmp = 0 := list
    rw [childrenFit, if_pos rfl, wp_pure]
    exact ⟨rfl, fun _ => forall_mem_nil _⟩
  | cons x rest ih =>
    obtain ⟨rounds, rfl⟩ := Nat.exists_eq_add_one.mpr enough.pos
    obtain ⟨rfl, some, later⟩ := list
    rw [childrenFit, if_neg some, wp_bind, wp_load some, wp_ite, wp_pure]
    refine ⟨fun _ => ⟨rfl, nofun⟩, fun inside => ?_⟩
    refine (ih later (by simp at enough; omega)).returns ?_
    rintro r mem' ⟨same, fit⟩
    refine ⟨same, fun yes a member => ?_⟩
    rcases mem_cons.mp member with rfl | member
    · rw [not_or] at inside
      exact ⟨by have := inside.1; bv_omega, by have := inside.2; bv_omega⟩
    · exact fit yes a member

section

variable (nested : Nested mem top kids) (inTree : InTree kids top root)

include nested inTree

theorem nextFits_spec {stop : Size} (split : kids root = pre ++ res :: post) :
    wp (nextFits (mem res).sibling stop) (fun r mem' => mem' = mem ∧
      (r = true → After mem post stop)) never mem := by
  have list := nested.list inTree
  rw [split] at list
  obtain ⟨c, -, -, some, later⟩ := seg_append.mp list
  cases post with
  | nil =>
    have last : (mem res).sibling = 0 := later
    rw [nextFits, if_pos last, wp_pure]
    exact ⟨rfl, fun _ => forall_mem_nil _⟩
  | cons y post =>
    obtain ⟨next, some', -⟩ := later
    have sibling : (mem res).sibling = y := next
    have split' : kids root = pre ++ [res] ++ y :: post := by simpa using split
    rw [nextFits, sibling, if_neg some', wp_bind, wp_load some', wp_pure]
    refine ⟨rfl, fun past => ?_⟩
    exact .of_head nested inTree split' (of_decide_eq_true past)

theorem Before.of_last (split : kids root = pre ++ [x] ++ rest)
    (last : (mem x).stop < start) : Before mem (pre ++ [x]) start := by
  have sorted := nested.sorted inTree
  have own := nested.ordered (inTree.child (by rw [split]; simp : x ∈ kids root))
  rw [split, pairwise_append, pairwise_append] at sorted
  obtain ⟨⟨-, -, earlier⟩, -⟩ := sorted
  intro a member
  rcases mem_append.mp member with member | member
  · have := earlier a member x (mem_singleton_self x)
    bv_omega
  · rwa [mem_singleton.mp member]

theorem prevFits_spec (split : kids root = pre ++ res :: post) :
    wp (prevFits (mem root).child res start) (fun r mem' => mem' = mem ∧
      (r = true → Before mem pre start)) never mem := by
  have list := nested.list inTree
  have nodup := nested.nodup inTree
  have enough := length_lt_maxRounds nodup list.ne_null
  rw [split] at list nodup enough
  rcases eq_nil_or_concat' pre with rfl | ⟨l, x, rfl⟩
  · rw [prevFits, if_pos list.1, wp_pure]
    exact ⟨rfl, fun _ => forall_mem_nil _⟩
  rw [nodup_middle, nodup_cons] at nodup
  obtain ⟨c, front, rfl, -⟩ := seg_append.mp list
  have notFirst : (mem root).child ≠ c := by
    rintro rfl
    exact nodup.1 (mem_append_left _ (front.start_mem (by simp)))
  have absent : c ∉ l ++ [x] := fun member => nodup.1 (mem_append_left _ member)
  have member : x ∈ kids root := by
    rw [split]
    simp
  rw [prevFits, if_neg notFirst, wp_bind]
  simp only [length_append] at enough
  refine (beforeLoop_spec front absent (by omega)).returns ?_
  rintro prev mem' ⟨rfl, rfl⟩
  rw [wp_bind, wp_load (nested.ne_null (inTree.child member)), wp_pure]
  exact ⟨rfl, fun last => .of_last nested inTree split (of_decide_eq_true last)⟩

end

/-- `adjust_resource` for a range that does not wrap. -/
theorem adjustResource_spec {size : Size} (held : Held mem top kids)
    (inTree : InTree kids top res) (other : res ≠ top) (range : start ≤ start + size - 1) :
    wp (adjustResource res start size) (Answered mem top kids) never mem := by
  have nested := held.nested
  have busy : Answered mem top kids .ebusy mem := .inr ⟨rfl, held, fun _ _ => rfl⟩
  obtain ⟨above, member⟩ := nested.above inTree other
  obtain ⟨pre, post, split⟩ := append_of_mem member
  have present := nested.ne_null inTree
  have enough := length_lt_maxRounds (nested.nodup inTree) (nested.list inTree).ne_null
  rw [adjustResource, wp_bind, wp_load present]
  rw [wp_bind, wp_load (nested.ne_null above), wp_ite, wp_pure]
  refine ⟨fun _ => busy, fun within => ?_⟩
  rw [not_or, BitVec.not_lt, BitVec.not_lt] at within
  rw [wp_bind]
  refine (childrenFit_spec (nested.list inTree) enough).returns ?_
  rintro r _ ⟨rfl, covered⟩
  rw [wp_ite, wp_pure]
  refine ⟨fun yes => ?_, fun _ => busy⟩
  rw [wp_bind]
  refine (nextFits_spec nested above split).returns ?_
  rintro r _ ⟨rfl, after⟩
  rw [wp_ite, wp_pure]
  refine ⟨fun yes' => ?_, fun _ => busy⟩
  rw [wp_bind]
  refine (prevFits_spec nested above split).returns ?_
  rintro r _ ⟨rfl, before⟩
  rw [wp_ite, wp_pure]
  refine ⟨fun yes'' => ?_, fun _ => busy⟩
  rw [wp_bind, wp_change present, wp_bind, wp_change present, wp_pure, update_self, update_idem]
  refine .inl ⟨rfl, kids, ?_, held.owned.frame (fun n => ?_) fun n => ?_⟩
  · exact nested.adjust above split range within (before yes'') (after yes') (covered yes)
      (update_self ..) fun n apart => update_of_ne apart ..
  · by_cases isRes : n = res
    · rw [isRes, update_self]
    · rw [update_of_ne isRes]
  · by_cases isRes : n = res
    · rw [isRes, update_self]
    · rw [update_of_ne isRes]

end Insert

end AndroidKernel.Resources
