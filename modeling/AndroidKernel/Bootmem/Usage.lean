import AndroidKernel.Bootmem.Nodes
import AndroidKernel.Bootmem.Search

/-!
Who uses which memory.

`Usage` is the account that callers could keep from the answers they get: the bytes
handed out and not freed, the frames reserved and not freed, and the frames that are
marked. `Accounts` is the invariant of the allocator: its bitmaps show the marked
frames, bytes handed out and reserved frames are marked and apart, and the rest of the
page where a node's last block ends belongs to nobody.
-/

namespace AndroidKernel.Bootmem

open Lib Function

structure Usage where
  live : Set Nat
  reserved : Set Nat
  used : Set Nat

/-- The bytes of a range. -/
def bytes (addr size : Nat) : Set Nat := Set.Ico addr (addr + size)

/-- The frames with a byte of the range. -/
def touched (addr size : Nat) : Set Nat := Set.Ico (addr / 4096) ((addr + size + 4095) / 4096)

/-- The frames with all their bytes in the range. -/
def whole (addr size : Nat) : Set Nat := Set.Ico ((addr + 4095) / 4096) ((addr + size) / 4096)

structure Accounts (lay : Layout) (nodes : Nodes) (u : Usage) : Prop where
  shows : Shows lay nodes u.used
  hint : ∀ i ∈ lay.list, (nodes i).hintIdx.toNat ≤ lay.stop i - lay.first i
  lastEnd : ∀ i ∈ lay.list, (nodes i).lastEndOff.toNat ≤ (lay.stop i - lay.first i) * 4096
  reserved : ∀ p ∈ u.reserved, p ∈ u.used
  live : ∀ x ∈ u.live, x / 4096 ∈ u.used ∧ x / 4096 ∉ u.reserved
  tailUsed : ∀ i ∈ lay.list, (nodes i).lastEndOff.toNat % 4096 ≠ 0 →
    lay.first i + (nodes i).lastEndOff.toNat / 4096 ∈ u.used
  tail : ∀ i ∈ lay.list, ∀ x, lay.first i * 4096 + (nodes i).lastEndOff.toNat ≤ x →
    x / 4096 = lay.first i + (nodes i).lastEndOff.toNat / 4096 →
    (nodes i).lastEndOff.toNat % 4096 ≠ 0 → x ∉ u.live ∧ x / 4096 ∉ u.reserved

section Marking

variable {lay : Layout} {nodes nodes' : Nodes} {u : Usage} {i : Nat} {addr size : Nat}

/-- All bytes of a frame that lies in a range are in it. -/
theorem mem_bytes {x : Nat} (inside : x / 4096 ∈ whole addr size) : x ∈ bytes addr size := by
  obtain ⟨low, high⟩ := inside
  exact ⟨by omega, by omega⟩

variable (accounts : Accounts lay nodes u)
include accounts

/-- Frames are marked otherwise; what nobody uses of a marked frame stays so. -/
theorem Accounts.remark {u' : Usage} (shows : Shows lay nodes' u'.used) (kept : Kept nodes nodes')
    (reserved : ∀ p ∈ u'.reserved, p ∈ u'.used)
    (live : ∀ x ∈ u'.live, x / 4096 ∈ u'.used ∧ x / 4096 ∉ u'.reserved)
    (nobody : ∀ x, x / 4096 ∈ u.used → x ∉ u.live ∧ x / 4096 ∉ u.reserved →
      x / 4096 ∈ u'.used ∧ x ∉ u'.live ∧ x / 4096 ∉ u'.reserved) : Accounts lay nodes' u' := by
  constructor
  case shows => exact shows
  case hint => exact fun i mem => (kept.hint i).trans (accounts.hint i mem)
  case lastEnd =>
    intro i mem
    rw [kept.lastEnd]
    exact accounts.lastEnd i mem
  case reserved => exact reserved
  case live => exact live
  case tailUsed =>
    intro i mem part
    rw [kept.lastEnd] at part ⊢
    -- the first byte after the last block is nobody's
    have frame : (lay.first i * 4096 + (nodes i).lastEndOff.toNat) / 4096 =
        lay.first i + (nodes i).lastEndOff.toNat / 4096 := by omega
    have marked := accounts.tailUsed i mem part
    rw [← frame] at marked ⊢
    exact (nobody _ marked (accounts.tail i mem _ le_rfl frame part)).1
  case tail =>
    intro i mem x above page part
    rw [kept.lastEnd] at above page part
    exact (nobody x (page ▸ accounts.tailUsed i mem part) (accounts.tail i mem x above page part)).2

theorem Accounts.reserve (shows : Shows lay nodes' (u.used ∪ touched addr size))
    (kept : Kept nodes nodes')
    (free : ∀ p ∈ touched addr size, p ∈ u.used → p ∈ u.reserved) :
    Accounts lay nodes'
      { u with reserved := u.reserved ∪ touched addr size, used := u.used ∪ touched addr size } := by
  -- a marked frame that was not reserved is not in the range
  have stays : ∀ p ∈ u.used, p ∉ u.reserved → p ∉ u.reserved ∪ touched addr size := by
    rintro p marked unreserved (inReserved | inRange)
    · exact unreserved inReserved
    · exact unreserved (free p inRange marked)
  refine accounts.remark shows kept (fun p => Or.imp_left (accounts.reserved p)) (fun x inLive => ?_)
    fun x marked nobody => ⟨.inl marked, nobody.1, stays _ marked nobody.2⟩
  obtain ⟨marked, unreserved⟩ := accounts.live x inLive
  exact ⟨.inl marked, stays _ marked unreserved⟩

theorem Accounts.keep (shows : Shows lay nodes' u.used)
    (kept : Kept nodes nodes') : Accounts lay nodes' u :=
  accounts.remark shows kept accounts.reserved accounts.live fun _ => And.intro

theorem Accounts.free (shows : Shows lay nodes' (u.used \ whole addr size))
    (kept : Kept nodes nodes')
    (owned : ∀ p ∈ whole addr size, p ∈ u.reserved ∨ ∀ x, x / 4096 = p → x ∈ u.live) :
    Accounts lay nodes'
      { live := u.live \ bytes addr size
        reserved := u.reserved \ whole addr size
        used := u.used \ whole addr size } := by
  apply accounts.remark shows kept
  case reserved =>
    rintro p ⟨inReserved, outside⟩
    exact ⟨accounts.reserved p inReserved, outside⟩
  case live => grind [mem_bytes, → Accounts.live]
  case nobody =>
    rintro x marked ⟨dead, unreserved⟩
    refine ⟨⟨marked, fun inside => ?_⟩, fun both => dead both.1, fun both => unreserved both.1⟩
    exact (owned _ inside).elim unreserved fun allLive => dead (allLive x rfl)

end Marking

/-! ### Allocation -/

/-- A block that can be handed out. -/
structure Block (lay : Layout) (u : Usage) (r : Request) (i : Nat) (addr : Nat) : Prop where
  inside : lay.first i * 4096 ≤ addr ∧ addr + r.size.toNat ≤ lay.stop i * 4096
  aligned : r.align.toNat ∣ addr
  limit : r.limit.toNat ≠ 0 → addr + r.size.toNat ≤ r.limit.toNat
  unused : ∀ x ∈ bytes addr r.size.toNat, x ∉ u.live ∧ x / 4096 ∉ u.reserved

/-- Frames from `p` on that would do for the request, between its bounds on the node. -/
structure Room (lay : Layout) (u : Usage) (r : Request) (i p : Nat) : Prop where
  aligned : r.step ∣ p
  start : r.startFrame (lay.first i) (lay.stop i) ≤ p
  stop : p + r.need ≤ r.maxFrame (lay.stop i)
  free : ∀ q, p ≤ q → q < p + r.need → q ∉ u.used

def Usage.take (u : Usage) (addr size : Nat) : Usage :=
  { u with live := u.live ∪ bytes addr size, used := u.used ∪ touched addr size }

/-- What an allocation on a node answers and leaves. -/
def Granted (lay : Layout) (u : Usage) (r : Request) (i : Nat) (nodes nodes' : Nodes) :
    Option Word → Prop
  | none => nodes' = nodes ∧ ∀ p, ¬Room lay u r i p
  | some address => Block lay u r i address.toNat ∧
      Accounts lay nodes' (u.take address.toNat r.size.toNat)

section Allocation

variable {lay : Layout} {nodes nodes' : Nodes} {u : Usage} {i c off : Nat} {r : Request} {k : Nat}
  {b : Bdata} (accounts : Accounts lay nodes u) (sane : r.Sane k)
  (limit : r.limit.toNat = 0 ∨ 4096 ≤ r.limit.toNat)

section

variable (mem : i ∈ lay.list)
include accounts mem

/-- The frame that a node's last block ends in is on the node. -/
theorem Accounts.tail_has (part : (nodes i).lastEndOff.toNat % 4096 ≠ 0) :
    lay.Has i (lay.first i + (nodes i).lastEndOff.toNat / 4096) := by
  have := accounts.lastEnd i mem
  exact ⟨by omega, by omega⟩

section

variable (run : FreeRun (nodes i) r.step r.need (r.maxFrame (lay.stop i) - lay.first i) c)
  (starts : Starts (nodes i) c off)
include run

theorem Accounts.clear : ∀ q, lay.first i + c ≤ q → q < lay.first i + c + r.need → q ∉ u.used := by
  have bound := r.maxFrame_le (lay.stop i)
  have within := run.within
  intro q low high marked
  have bit := (accounts.shows.bit i mem q ⟨by omega, by omega⟩).mpr marked
  rw [run.clear (q - lay.first i) (by omega) (by omega)] at bit
  cases bit

include starts

/-- Nobody uses the memory from the start of the block to the end of the pages found. -/
theorem Accounts.clean {x : Nat} (above : lay.first i * 4096 + off ≤ x)
    (below : x < lay.first i * 4096 + (c + r.need) * 4096) :
    x ∉ u.live ∧ x / 4096 ∉ u.reserved := by
  by_cases page : lay.first i + c ≤ x / 4096
  · have unmarked := accounts.clear mem run (x / 4096) page (by omega)
    exact ⟨fun inLive => unmarked (accounts.live x inLive).1,
      fun inReserved => unmarked (accounts.reserved _ inReserved)⟩
  · rcases starts with same | ⟨part, next, after, before⟩
    · omega
    · exact accounts.tail i mem x (by omega) (by omega) part

include limit in
theorem Accounts.block (needed : 0 < r.need) (aligned : r.align.toNat ∣ lay.first i * 4096 + off)
    (fits : off + r.size.toNat ≤ (c + r.need) * 4096) :
    Block lay u r i (lay.first i * 4096 + off) := by
  have bound := r.maxFrame_le (lay.stop i)
  have within := run.within
  refine ⟨⟨by omega, by omega⟩, aligned, fun given => ?_, fun x inside => ?_⟩
  · grind [Request.maxFrame, Nat.min_le_right]
  · obtain ⟨low, high⟩ := inside
    refine accounts.clean mem run starts low (high.trans_le ?_)
    rw [Nat.add_assoc]
    exact Nat.add_le_add_left fits _

theorem Accounts.take (needed : 0 < r.need) (some : 0 < r.size.toNat)
    (fits : off + r.size.toNat ≤ (c + r.need) * 4096)
    (taken : Taken (nodes i) c off r.size.toNat b) :
    Accounts lay (update nodes i b) (u.take (lay.first i * 4096 + off) r.size.toNat) := by
  have bound := r.maxFrame_le (lay.stop i)
  have within := run.within
  have clean : ∀ x, lay.first i * 4096 + off ≤ x → x < lay.first i * 4096 + (c + r.need) * 4096 →
      x ∉ u.live ∧ x / 4096 ∉ u.reserved := fun x => accounts.clean mem run starts
  have page : lay.first i + c ≤ (lay.first i * 4096 + off) / 4096 + 1 ∧
      (lay.first i * 4096 + off) / 4096 ≤ lay.first i + c := by
    rcases starts with same | ⟨part, next, after, before⟩ <;> omega
  have last : (off + r.size.toNat + 4095) / 4096 ≤ c + r.need := by omega
  constructor
  case shows =>
    refine accounts.shows.update mem taken.first taken.stop (fun p has => ?_) fun p out => ?_
    · obtain ⟨low, high⟩ := has
      rw [taken.map]
      change (if _ then true else _) = true ↔ _
      by_cases inside : c ≤ p - lay.first i ∧ p - lay.first i < (off + r.size.toNat + 4095) / 4096
      · rw [if_pos inside]
        exact iff_of_true rfl (.inr ⟨by omega, by omega⟩)
      rw [if_neg inside, accounts.shows.bit i mem p ⟨low, high⟩]
      refine ⟨.inl, Or.rec id ?_⟩
      rintro ⟨above, below⟩
      -- the only other frame is the one of the last block's end
      rcases starts with same | ⟨part, next, after, before⟩
      · omega
      · have := accounts.tailUsed i mem part
        rwa [show lay.first i + (nodes i).lastEndOff.toNat / 4096 = p by omega] at this
    · refine or_iff_left ?_
      rintro ⟨above, below⟩
      exact out ⟨by omega, by omega⟩
  case hint =>
    intro j mem'
    by_cases same : j = i
    · subst same
      rw [update_self]
      have := taken.hint
      omega
    · rw [update_of_ne same]
      exact accounts.hint j mem'
  case lastEnd =>
    intro j mem'
    by_cases same : j = i
    · subst same
      rw [update_self, taken.lastEnd]
      exact fits.trans (Nat.mul_le_mul_right 4096 (by omega))
    · rw [update_of_ne same]
      exact accounts.lastEnd j mem'
  case reserved => exact fun p inReserved => .inl (accounts.reserved p inReserved)
  case live =>
    rintro x (inLive | inBlock)
    · obtain ⟨marked, unreserved⟩ := accounts.live x inLive
      exact ⟨.inl marked, unreserved⟩
    · obtain ⟨low, high⟩ := inBlock
      refine ⟨.inr ⟨by omega, by omega⟩, (clean x low (high.trans_le ?_)).2⟩
      rw [Nat.add_assoc]
      exact Nat.add_le_add_left fits _
  case tailUsed =>
    intro j mem' part
    by_cases same : j = i
    · subst same
      rw [update_self, taken.lastEnd] at part ⊢
      exact .inr ⟨by omega, by omega⟩
    · rw [update_of_ne same] at part ⊢
      exact .inl (accounts.tailUsed j mem' part)
  case tail =>
    intro j mem' x above frame part
    by_cases same : j = i
    · subst same
      rw [update_self, taken.lastEnd] at above frame part
      have before : x / 4096 < lay.first j + (c + r.need) := by omega
      rw [Nat.div_lt_iff_lt_mul (by norm_num), Nat.add_mul] at before
      have unused := clean x (by omega) before
      refine ⟨?_, unused.2⟩
      rintro (inLive | ⟨-, high⟩)
      · exact unused.1 inLive
      · omega
    · rw [update_of_ne same] at above frame part
      obtain ⟨dead, unreserved⟩ := accounts.tail j mem' x above frame part
      refine ⟨?_, unreserved⟩
      rintro (inLive | ⟨low, high⟩)
      · exact dead inLive
      · -- the block is on another node
        have has := accounts.tail_has mem' part
        rw [← frame] at has
        exact same (lay.apart mem' mem has ⟨by omega, by omega⟩)

end

include sane limit

theorem Accounts.granted {answer : Option Word} (allocated : Allocated (nodes i) r answer b) :
    Granted lay u r i nodes (update nodes i b) answer := by
  have first := accounts.shows.first i mem
  have last := accounts.shows.stop i mem
  have needed := sane.need_pos.1
  unfold Allocated at allocated
  rw [first, last] at allocated
  cases answer with
  | none =>
    obtain ⟨rfl, full⟩ := allocated
    refine ⟨update_eq_self .., fun p room => ?_⟩
    have start := room.start
    have above := (sane.startFrame (lay.first i) (lay.stop i)).1
    have stop := room.stop
    have bound := r.maxFrame_le (lay.stop i)
    have split : lay.first i + (p - lay.first i) = p := by omega
    refine full (p - lay.first i) (by omega) ⟨?_, by omega, fun j low high => ?_⟩
    · rw [first, split]
      exact room.aligned
    · have bit := accounts.shows.bit i mem (lay.first i + j) ⟨by omega, by omega⟩
      rw [Nat.add_sub_cancel_left] at bit
      refine Bool.eq_false_of_not_eq_true fun set => ?_
      exact room.free _ (by omega) (by omega) (bit.mp set)
  | some address =>
    obtain ⟨c, off, run, starts, isAddress, aligned, fits, taken⟩ := allocated
    rw [isAddress] at aligned
    rw [Granted, isAddress]
    exact ⟨accounts.block limit mem run starts needed aligned fits,
      accounts.take mem run starts needed sane.some fits taken⟩

/-- A request that the code does not accept. -/
def Request.Rejected (r : Request) (bug : Bug) : Prop :=
  bug = .badRequest ∧ r.limit ≠ 0 ∧ (r.limit < r.goal + r.size ∨ r.limit < r.size)

theorem allocNode_spec :
    wp (onNode i (allocBootmemCore r)) (fun answer nodes' => Granted lay u r i nodes nodes' answer)
      r.Rejected nodes := by
  have proper := accounts.shows.proper mem
  have hint : (nodes i).hintIdx.toNat ≤ (nodes i).pages := by
    unfold Bdata.pages
    rw [accounts.shows.first i mem, accounts.shows.stop i mem]
    exact accounts.hint i mem
  rw [wp_onNode]
  refine (allocBootmemCore_spec proper sane hint).mono
    (fun answer b allocated => accounts.granted sane limit mem allocated) ?_
  rintro bug ⟨rfl, given, beyond⟩
  exact ⟨rfl, given, .inl beyond⟩

end

/-! ### All nodes -/

include sane limit

theorem Room.lt_limit {p : Nat} (room : Room lay u r i p) (given : r.limit ≠ 0) :
    lay.first i < r.limit.toNat / 4096 := by
  have needed := sane.need_pos.1
  have start := room.start
  have above := (sane.startFrame (lay.first i) (lay.stop i)).1
  have stop := room.stop
  have some : r.limit.toNat ≠ 0 := fun zero => given (BitVec.eq_of_toNat_eq zero)
  have capped : r.maxFrame (lay.stop i) ≤ r.limit.toNat / 4096 := by
    unfold Request.maxFrame
    rw [if_neg (by omega)]
    exact Nat.min_le_right ..
  omega

/-- What an allocation on some of the nodes answers and leaves. Without a goal, it fails
only if there is no room on any of them. -/
def Served (lay : Layout) (u : Usage) (r : Request) (rest : List Nat) (nodes nodes' : Nodes) :
    Option Word → Prop
  | none => nodes' = nodes ∧ (r.goal = 0 → ∀ i ∈ rest, ∀ p, ¬Room lay u r i p)
  | some address => (∃ i ∈ lay.list, Block lay u r i address.toNat) ∧
      Accounts lay nodes' (u.take address.toNat r.size.toNat)

include accounts

theorem allocLoop_spec {rest : List Nat} (suffix : rest <:+ lay.list) :
    wp (allocLoop r rest) (fun answer nodes' => Served lay u r rest nodes nodes' answer) r.Rejected
      nodes := by
  induction rest with
  | nil => exact ⟨rfl, fun _ i none => absurd none List.not_mem_nil⟩
  | cons i rest ih =>
    have mem : i ∈ lay.list := suffix.subset List.mem_cons_self
    have ih := ih ((List.suffix_cons i rest).trans suffix)
    have later := (List.pairwise_cons.mp (lay.sorted.sublist suffix.sublist)).1
    have first := accounts.shows.first i mem
    rw [allocLoop, wp_bind, wp_get, wp_ite, wp_ite, wp_pure]
    refine ⟨fun skip => ih.returns fun answer nodes' result => ?_, fun _ => ⟨fun stops => ⟨rfl, ?_⟩, fun _ => ?_⟩⟩
    · cases answer with
      | none => exact ⟨result.1, fun zero => absurd zero skip.1⟩
      | some address => exact result
    · -- all further nodes are past the limit
      intro _ j member p room
      have below := room.lt_limit sane limit stops.1
      have down := toNat_pfnDown (x := r.limit)
      have past := stops.2
      rcases List.mem_cons.mp member with rfl | member
      · bv_omega
      · have := later j member
        have := lay.nonempty i mem
        bv_omega
    · rw [wp_bind]
      refine (allocNode_spec accounts sane limit mem).returns fun answer nodes' granted => ?_
      cases answer with
      | none =>
        obtain ⟨rfl, full⟩ := granted
        refine ih.returns fun answer nodes'' result => ?_
        cases answer with
        | none =>
          refine ⟨result.1, fun zero j member => ?_⟩
          rcases List.mem_cons.mp member with rfl | member
          · exact full
          · exact result.2 zero j member
        | some address => exact result
      | some address => exact ⟨⟨i, mem, granted.1⟩, granted.2⟩

/-- What `___alloc_bootmem_nopanic` answers and leaves. -/
def Supplied (lay : Layout) (u : Usage) (r : Request) (nodes nodes' : Nodes) : Option Word → Prop
  | none => nodes' = nodes ∧ ∀ i ∈ lay.list, ∀ p, ¬Room lay u { r with goal := 0 } i p
  | some address => (∃ i ∈ lay.list, Block lay u r i address.toNat) ∧
      Accounts lay nodes' (u.take address.toNat r.size.toNat)

theorem allocBootmemNopanic_spec :
    wp (allocBootmemNopanic lay.list r) (fun answer nodes' => Supplied lay u r nodes nodes' answer)
      r.Rejected nodes := by
  have sane' : Request.Sane { r with goal := 0 } k := ⟨sane.some, sane.rounds, sane.power⟩
  rw [allocBootmemNopanic, wp_bind]
  refine (allocLoop_spec accounts sane limit List.suffix_rfl).returns fun answer nodes' served => ?_
  cases answer with
  | some address => exact served
  | none =>
    obtain ⟨rfl, full⟩ := served
    rw [wp_ite, wp_pure]
    refine ⟨fun _ => ?_, fun none => ⟨rfl, ?_⟩⟩
    · refine (allocLoop_spec accounts sane' limit List.suffix_rfl).mono (fun answer nodes'' served => ?_) ?_
      · cases answer with
        | none => exact ⟨served.1, served.2 rfl⟩
        | some address =>
          obtain ⟨⟨i, mem, block⟩, accounts'⟩ := served
          exact ⟨⟨i, mem, block.inside, block.aligned, block.limit, block.unused⟩, accounts'⟩
      · rintro bug ⟨rfl, given, beyond⟩
        refine ⟨rfl, given, .inr ?_⟩
        rcases beyond with beyond | beyond
        · change r.limit < 0 + r.size at beyond
          bv_omega
        · exact beyond
    · have zero : r.goal = 0 := not_not.mp none
      have same : ({ r with goal := 0 } : Request) = r := by rw [← zero]
      rw [same]
      exact full zero

end Allocation

end AndroidKernel.Bootmem
