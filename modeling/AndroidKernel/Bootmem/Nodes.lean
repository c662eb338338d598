import AndroidKernel.Bootmem.Marks

/-!
Marking pages on all nodes.

`Shows` says which frames the bitmaps of all nodes mark. `mark_bootmem` goes from node
to node through a range that they cover, and takes back a reservation that fails.
-/

namespace AndroidKernel.Bootmem

open Lib
open Function (update_self update_of_ne)

/-- The nodes in the order of their frames, each with its first frame and the one after
its last. -/
structure Layout where
  list : List Nat
  first : Nat → Nat
  stop : Nat → Nat
  nonempty : ∀ i ∈ list, first i < stop i
  below : ∀ i ∈ list, stop i < 2 ^ 20
  sorted : list.Pairwise fun i j => stop i ≤ first j

/-- The frame is on the node. -/
def Layout.Has (lay : Layout) (i p : Nat) : Prop := lay.first i ≤ p ∧ p < lay.stop i

structure Shows (lay : Layout) (nodes : Nodes) (used : Set Nat) : Prop where
  first : ∀ i ∈ lay.list, (nodes i).nodeMinPfn.toNat = lay.first i
  stop : ∀ i ∈ lay.list, (nodes i).nodeLowPfn.toNat = lay.stop i
  bit : ∀ i ∈ lay.list, ∀ p, lay.Has i p →
    ((nodes i).nodeBootmemMap (p - lay.first i) = true ↔ p ∈ used)

/-- What marking leaves alone. -/
structure Kept (nodes nodes' : Nodes) : Prop where
  lastEnd : ∀ i, (nodes' i).lastEndOff = (nodes i).lastEndOff
  hint : ∀ i, (nodes' i).hintIdx.toNat ≤ (nodes i).hintIdx.toNat

section Nodes

variable {lay : Layout} {nodes nodes' nodes'' : Nodes} {used : Set Nat} {b : Bdata} {i j p s e : Nat}
  {never : Bug → Prop} {start stop pos : Word} {rest : List Nat} {exclusive : Bool}
  {undo : Word → Prog Unit}

theorem Kept.refl : Kept nodes nodes := ⟨fun _ => rfl, fun _ => le_rfl⟩

theorem Kept.trans (first : Kept nodes nodes') (second : Kept nodes' nodes'') : Kept nodes nodes'' :=
  ⟨fun i => (second.lastEnd i).trans (first.lastEnd i), fun i => (second.hint i).trans (first.hint i)⟩

theorem Remapped.kept {map : Nat → Bool} (remapped : Remapped (nodes i) map b) :
    Kept nodes (Function.update nodes i b) := by
  obtain ⟨hint, lower, rfl⟩ := remapped
  constructor
  case lastEnd =>
    intro j
    by_cases same : j = i
    · rw [same, update_self]
    · rw [update_of_ne same]
  case hint =>
    intro j
    by_cases same : j = i
    · rw [same, update_self]
      exact lower
    · rw [update_of_ne same]

theorem Layout.apart (lay : Layout) (mem : i ∈ lay.list) (mem' : j ∈ lay.list) (has : lay.Has i p)
    (has' : lay.Has j p) : i = j := by
  by_contra other
  have : Std.Symm fun i j : Nat => i ≠ j → lay.stop i ≤ lay.first j ∨ lay.stop j ≤ lay.first i :=
    ⟨fun a b order other => (order other.symm).symm⟩
  have sorted : lay.list.Pairwise fun i j => i ≠ j → lay.stop i ≤ lay.first j ∨ lay.stop j ≤ lay.first i :=
    lay.sorted.imp fun before _ => .inl before
  have order := sorted.forall_of_forall (fun a _ same => absurd rfl same) mem mem' other
  obtain ⟨low, high⟩ := has
  obtain ⟨low', high'⟩ := has'
  omega

section

variable (shows : Shows lay nodes used)
include shows

theorem Shows.proper (mem : i ∈ lay.list) : (nodes i).Proper := by
  refine ⟨?_, ?_⟩
  · rw [shows.first i mem, shows.stop i mem]
    exact lay.nonempty i mem
  · rw [shows.stop i mem]
    exact lay.below i mem

/-- Other data of a node, with the frames of `marks` marked on it. -/
theorem Shows.update {marks : Set Nat} (mem : i ∈ lay.list)
    (first : b.nodeMinPfn = (nodes i).nodeMinPfn) (stop : b.nodeLowPfn = (nodes i).nodeLowPfn)
    (bit : ∀ p, lay.Has i p → (b.nodeBootmemMap (p - lay.first i) = true ↔ p ∈ marks))
    (outside : ∀ p, ¬lay.Has i p → (p ∈ marks ↔ p ∈ used)) :
    Shows lay (Function.update nodes i b) marks := by
  constructor
  case first => grind [→ Shows.first]
  case stop => grind [→ Shows.stop]
  case bit =>
    intro j mem' p has
    by_cases same : j = i
    · subst same
      rw [update_self]
      exact bit p has
    · rw [update_of_ne same, shows.bit j mem' p has]
      exact (outside p fun has' => same (lay.apart mem' mem has has')).symm

theorem Shows.remap {v : Bool} {marks : Set Nat} (mem : i ∈ lay.list) (low : lay.first i ≤ s)
    (high : e ≤ lay.stop i) (remapped : Remapped (nodes i)
      (mark (nodes i).nodeBootmemMap (s - lay.first i) (e - lay.first i) v) b)
    (inside : ∀ p, s ≤ p → p < e → (v = true ↔ p ∈ marks))
    (outside : ∀ p, ¬(s ≤ p ∧ p < e) → (p ∈ marks ↔ p ∈ used)) :
    Shows lay (Function.update nodes i b) marks := by
  obtain ⟨hint, -, rfl⟩ := remapped
  refine shows.update mem rfl rfl (fun p has => ?_) fun p out => outside p fun range => ?_
  · obtain ⟨above, below⟩ := has
    change (if _ then v else _) = true ↔ _
    by_cases range : s ≤ p ∧ p < e
    · rw [if_pos (by omega)]
      exact inside p range.1 range.2
    · rw [if_neg (by omega), outside p range]
      exact shows.bit i mem p ⟨above, below⟩
  · exact out ⟨by omega, by omega⟩

end

/-- One node is reasoned about on its own. -/
theorem wp_onNode {α : Type} {m : NodeProg α} {post : α → Nodes → Prop} {fault : Bug → Prop} :
    wp (onNode i m) post fault nodes ↔
      wp m (fun a b => post a (Function.update nodes i b)) fault (nodes i) := by
  unfold wp onNode
  simp only [bind, StateT.bind, get, getThe, MonadStateOf.get, StateT.get, pure, Except.pure,
    Except.bind, liftM, monadLift, MonadLift.monadLift, StateT.lift]
  cases m (nodes i) <;> rfl

/-! ### From node to node -/

/-- The nodes of `rest` cover the frames from `pos` to `stop`. -/
structure Ahead (lay : Layout) (rest : List Nat) (start pos stop : Nat) : Prop where
  suffix : rest <:+ lay.list
  range : pos ≤ stop
  here : ∃ i ∈ rest, lay.Has i pos
  cover : ∀ p, pos ≤ p → p < stop → ∃ i ∈ rest, lay.Has i p
  edge : pos = start ∨ ∀ i ∈ rest, pos ≤ lay.first i

section Ahead

variable {q : Nat}

section

variable (ahead : Ahead lay (i :: rest) s q e)
include ahead

theorem Ahead.mem : i ∈ lay.list :=
  ahead.suffix.subset List.mem_cons_self

theorem Ahead.later : ∀ j ∈ rest, lay.stop i ≤ lay.first j :=
  (List.pairwise_cons.mp (lay.sorted.sublist ahead.suffix.sublist)).1

/-- A node without the frame is skipped, at the start only. -/
theorem Ahead.skip (out : ¬lay.Has i q) : q = s ∧ Ahead lay rest s q e := by
  have full := lay.nonempty i ahead.mem
  obtain ⟨j, mem, low, high⟩ := ahead.here
  rcases List.mem_cons.mp mem with rfl | mem
  · exact absurd ⟨low, high⟩ out
  have after := ahead.later j mem
  refine ⟨ahead.edge.resolve_right fun edge => ?_, ?_⟩
  · have := edge i List.mem_cons_self
    omega
  refine ⟨(List.suffix_cons i rest).trans ahead.suffix, ahead.range, ⟨j, mem, low, high⟩, ?_, ?_⟩
  · intro p above below
    obtain ⟨k, mem', has⟩ := ahead.cover p above below
    rcases List.mem_cons.mp mem' with rfl | mem'
    · have := has.2
      omega
    · exact ⟨k, mem', has⟩
  · exact ahead.edge.imp_right fun edge k mem' => edge k (List.mem_cons_of_mem i mem')

/-- After the last frame of a node the next one goes on. -/
theorem Ahead.next (has : lay.Has i q) (more : lay.stop i < e) :
    Ahead lay rest s (lay.stop i) e := by
  have cover : ∀ p, lay.stop i ≤ p → p < e → ∃ j ∈ rest, lay.Has j p := by
    intro p above below
    obtain ⟨k, mem, has'⟩ := ahead.cover p (has.2.le.trans above) below
    rcases List.mem_cons.mp mem with rfl | mem
    · have := has'.2
      omega
    · exact ⟨k, mem, has'⟩
  exact ⟨(List.suffix_cons i rest).trans ahead.suffix, more.le, cover _ le_rfl more, cover,
    .inr ahead.later⟩

end

end Ahead

/-- The frame after the part of the range that is on the node. -/
theorem toNat_max (stopAt : Word) (low : Word) :
    (if low < stopAt then low else stopAt).toNat = min low.toNat stopAt.toNat := by
  by_cases before : low < stopAt
  · rw [if_pos before]
    bv_omega
  · rw [if_neg before]
    bv_omega

section

variable (shows : Shows lay nodes used)
include shows

theorem markLoop_free
    (ahead : Ahead lay rest start.toNat pos.toNat stop.toNat)
    (set : ∀ p, pos.toNat ≤ p → p < stop.toNat → p ∈ used) :
    wp (markLoop undo start stop false false rest pos) (fun answer nodes' => answer = .ok ∧
      Shows lay nodes' (used \ Set.Ico pos.toNat stop.toNat) ∧ Kept nodes nodes') never nodes := by
  induction rest generalizing nodes used pos with
  | nil =>
    obtain ⟨i, mem, -⟩ := ahead.here
    cases mem
  | cons i rest ih =>
    have first := shows.first i ahead.mem
    have last := shows.stop i ahead.mem
    rw [markLoop, wp_bind, wp_get, wp_ite, wp_ite, wp_throw]
    refine ⟨fun out => ?_, fun inside => ?_⟩
    · obtain ⟨atStart, ahead'⟩ := ahead.skip (by
        rintro ⟨above, below⟩
        rcases out with out | out <;> bv_omega)
      exact ⟨fun other => absurd (BitVec.eq_of_toNat_eq atStart) other, fun _ => ih shows ahead' set⟩
    have has : lay.Has i pos.toNat := by
      rw [not_or] at inside
      obtain ⟨above, below⟩ := inside
      exact ⟨by bv_omega, by bv_omega⟩
    have max := toNat_max stop (nodes i).nodeLowPfn
    generalize (if (nodes i).nodeLowPfn < stop then (nodes i).nodeLowPfn else stop) = max' at max
    rw [last] at max
    have range := ahead.range
    obtain ⟨low, high⟩ := has
    have on : (nodes i).On pos max' := ⟨by omega, by omega, by omega⟩
    rw [wp_bind, wp_onNode]
    refine (markBootmemNode_free (shows.proper ahead.mem) on fun k above below => ?_).returns ?_
    · rw [first] at above below
      have own := shows.bit i ahead.mem (lay.first i + k) ⟨by omega, by omega⟩
      rw [Nat.add_sub_cancel_left] at own
      exact own.mpr (set _ (by omega) (by omega))
    rintro _ b ⟨rfl, remapped⟩
    rw [first] at remapped
    have shows' : Shows lay (Function.update nodes i b) (used \ Set.Ico pos.toNat max'.toNat) := by
      refine shows.remap ahead.mem low (by omega) remapped (fun p above below => ?_) fun p out => ?_
      · exact iff_of_false Bool.false_ne_true fun mem => mem.2 ⟨above, below⟩
      · exact and_iff_left out
    rw [if_neg (by simp), wp_ite, wp_pure]
    refine ⟨fun done => ?_, fun more => ?_⟩
    · subst done
      exact ⟨rfl, shows', remapped.kept⟩
    have further : lay.stop i < stop.toNat := by
      by_contra! short
      exact more (BitVec.eq_of_toNat_eq (by omega))
    have ahead' := ahead.next ⟨low, high⟩ further
    rw [← last] at ahead'
    refine (ih shows' ahead' fun p above below => ⟨set p (by omega) below, ?_⟩).returns ?_
    · rintro ⟨-, before⟩
      omega
    · rintro _ nodes' ⟨rfl, shows'', kept⟩
      refine ⟨rfl, ?_, remapped.kept.trans kept⟩
      rwa [Set.sdiff_sdiff, last, show max'.toNat = lay.stop i by omega,
        Set.Ico_union_Ico_eq_Ico high.le further.le] at shows''

/-- What a reservation answers and the frames that are marked after it. -/
def ReservedFrames (used : Set Nat) (s e : Nat) (exclusive : Bool) (answer : Answer)
    (used' : Set Nat) : Prop :=
  answer = .ok ∧ used' = used ∪ Set.Ico s e ∧
      (exclusive = true → ∀ p, s ≤ p → p < e → p ∉ used) ∨
    answer = .ebusy ∧ used' = used ∧ exclusive = true ∧ ∃ p, s ≤ p ∧ p < e ∧ p ∈ used

/-- The frames marked by a reservation on a node. -/
theorem Shows.reserve {answer : Answer} {map : Nat → Bool} (mem : i ∈ lay.list)
    (low : lay.first i ≤ s) (high : e ≤ lay.stop i)
    (reserved : Reserved (nodes i).nodeBootmemMap (s - lay.first i) (e - lay.first i) exclusive answer map)
    (remapped : Remapped (nodes i) map b) :
    ∃ used', ReservedFrames used s e exclusive answer used' ∧ Shows lay (Function.update nodes i b) used' := by
  rcases reserved with ⟨rfl, rfl, clear⟩ | ⟨rfl, rfl, only, k, above, below, set⟩
  · refine ⟨used ∪ Set.Ico s e, .inl ⟨rfl, rfl, fun only p above below inUse => ?_⟩, ?_⟩
    · have own := (shows.bit i mem p ⟨by omega, by omega⟩).mpr inUse
      rw [clear only _ (by omega) (by omega)] at own
      cases own
    · grind [Shows.remap]
  · refine ⟨used, .inr ⟨rfl, rfl, only, lay.first i + k, by omega, by omega, ?_⟩, ?_⟩
    · have own := shows.bit i mem (lay.first i + k) ⟨by omega, by omega⟩
      rw [Nat.add_sub_cancel_left] at own
      exact own.mp set
    · obtain ⟨hint, -, rfl⟩ := remapped
      exact shows.update mem rfl rfl (shows.bit i mem) fun p _ => Iff.rfl

omit shows in
theorem markLoop_reserve {old : Nodes}
    (shows : Shows lay nodes (used ∪ Set.Ico start.toNat pos.toNat)) (kept : Kept old nodes)
    (whole : Ahead lay lay.list start.toNat start.toNat stop.toNat)
    (ahead : Ahead lay rest start.toNat pos.toNat stop.toNat) (order : start.toNat ≤ pos.toNat)
    (clear : exclusive = true → ∀ p, start.toNat ≤ p → p < pos.toNat → p ∉ used) :
    wp (markLoop (fun pos => do let _ ← unmarkBootmem lay.list start pos) start stop true exclusive
        rest pos) (fun answer nodes' => ∃ used', ReservedFrames used start.toNat stop.toNat exclusive answer used' ∧
      Shows lay nodes' used' ∧ Kept old nodes') never nodes := by
  induction rest generalizing nodes pos with
  | nil =>
    obtain ⟨i, mem, -⟩ := ahead.here
    cases mem
  | cons i rest ih =>
    have first := shows.first i ahead.mem
    have last := shows.stop i ahead.mem
    rw [markLoop, wp_bind, wp_get, wp_ite, wp_ite, wp_throw]
    refine ⟨fun out => ?_, fun inside => ?_⟩
    · obtain ⟨atStart, ahead'⟩ := ahead.skip (by
        rintro ⟨above, below⟩
        rcases out with out | out <;> bv_omega)
      exact ⟨fun other => absurd (BitVec.eq_of_toNat_eq atStart) other,
        fun _ => ih shows kept ahead' order clear⟩
    have has : lay.Has i pos.toNat := by
      rw [not_or] at inside
      obtain ⟨above, below⟩ := inside
      exact ⟨by bv_omega, by bv_omega⟩
    have max := toNat_max stop (nodes i).nodeLowPfn
    generalize (if (nodes i).nodeLowPfn < stop then (nodes i).nodeLowPfn else stop) = max' at max
    rw [last] at max
    have range := ahead.range
    obtain ⟨low, high⟩ := has
    have on : (nodes i).On pos max' := ⟨by omega, by omega, by omega⟩
    rw [wp_bind, wp_onNode]
    refine (markBootmemNode_reserve (shows.proper ahead.mem) on).returns ?_
    rintro answer b ⟨map, reserved, remapped⟩
    rw [first] at reserved
    have kept' := kept.trans remapped.kept
    obtain ⟨used', frames, shows'⟩ := shows.reserve ahead.mem low (by omega) reserved remapped
    rcases frames with ⟨rfl, rfl, free⟩ | ⟨rfl, rfl, only, p, above, below, inUse⟩
    · rw [Set.union_assoc, Set.Ico_union_Ico_eq_Ico order on.range] at shows'
      have clear' : exclusive = true → ∀ p, start.toNat ≤ p → p < max'.toNat → p ∉ used := by
        grind
      rw [if_neg (by simp), wp_ite, wp_pure]
      refine ⟨fun done => ?_, fun more => ?_⟩
      · subst done
        exact ⟨_, .inl ⟨rfl, rfl, clear'⟩, shows', kept'⟩
      have further : lay.stop i < stop.toNat := by
        by_contra! short
        exact more (BitVec.eq_of_toNat_eq (by omega))
      have isLast : max'.toNat = (nodes i).nodeLowPfn.toNat := by omega
      rw [isLast] at shows' clear'
      have ahead' := ahead.next ⟨low, high⟩ further
      rw [← last] at ahead'
      exact ih shows' kept' ahead' (by omega) clear'
    · -- what was marked on the nodes before is taken back
      have marked : ∀ p, start.toNat ≤ p → p < pos.toNat → p ∈ used ∪ Set.Ico start.toNat pos.toNat :=
        fun p above below => .inr ⟨above, below⟩
      have back : Ahead lay lay.list start.toNat start.toNat pos.toNat :=
        ⟨whole.suffix, order, whole.here, fun p above below => whole.cover p above (by omega), .inl rfl⟩
      rw [if_pos (by simp), wp_bind, wp_bind]
      refine (markLoop_free shows' back marked).returns ?_
      rintro _ nodes' ⟨-, shows'', kept''⟩
      refine ⟨used, .inr ⟨rfl, rfl, only, p, by omega, by omega, inUse.resolve_right ?_⟩, ?_,
        kept'.trans kept''⟩
      · rintro ⟨-, before⟩
        omega
      · rwa [Set.union_sdiff_cancel_right] at shows''
        rintro p ⟨inUse, above, below⟩
        exact clear only p above below inUse

/-! ### The calls -/

theorem markBootmem_spec
    (ahead : Ahead lay lay.list start.toNat start.toNat stop.toNat) :
    wp (markBootmem lay.list start stop exclusive) (fun answer nodes' => ∃ used',
      ReservedFrames used start.toNat stop.toNat exclusive answer used' ∧ Shows lay nodes' used' ∧
      Kept nodes nodes') never nodes := by
  refine markLoop_reserve ?_ .refl ahead ahead le_rfl fun _ p above below => by omega
  rwa [Set.Ico_self, Set.union_empty]

/-- A range without whole pages: nothing is freed, unless the machine stops. -/
theorem unmarkBootmem_empty (suffix : rest <:+ lay.list) (empty : stop.toNat ≤ start.toNat) :
    wp (markLoop undo start stop false false rest start) (fun answer nodes' => answer = .ok ∧
      Shows lay nodes' used ∧ Kept nodes nodes') (fun bug => bug ≠ .expectedFree) nodes := by
  induction rest with
  | nil =>
    rw [markLoop, wp_throw]
    nofun
  | cons i rest ih =>
    have mem : i ∈ lay.list := suffix.subset List.mem_cons_self
    rw [markLoop, wp_bind, wp_get, wp_ite, wp_ite, wp_throw]
    refine ⟨fun _ => ⟨fun _ => nofun, fun _ => ih ((List.suffix_cons i rest).trans suffix)⟩,
      fun inside => ?_⟩
    rw [not_or] at inside
    have max : (if (nodes i).nodeLowPfn < stop then (nodes i).nodeLowPfn else stop) = stop :=
      if_neg (by have := inside.2; bv_omega)
    dsimp only
    rw [max, wp_bind, wp_onNode]
    refine (markBootmemNode_empty (shows.proper mem) empty).returns ?_
    rintro _ b ⟨rfl, remapped⟩
    rw [if_neg (by simp), if_pos rfl, wp_pure]
    refine ⟨rfl, ?_, remapped.kept⟩
    obtain ⟨hint, -, rfl⟩ := remapped
    exact shows.update mem rfl rfl (shows.bit i mem) fun p _ => Iff.rfl

end

end Nodes

end AndroidKernel.Bootmem
