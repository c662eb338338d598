import AndroidKernel.Bootmem.Usage
import AndroidKernel.Lib.Refine

/-!
Runs of reservations, allocations and frees.

A run keeps the account of the callers beside the nodes. Ranges lie on the nodes, what
is freed was handed out or reserved, and a reservation that is not exclusive is only
for frames that are free or reserved already: the code accepts it silently for frames
in use, and freeing such a reservation frees memory that is in use.
-/

namespace AndroidKernel.Bootmem

open Lib List

variable {i : Nat} {exclusive : Bool} {answer : Answer} {call : Call}

inductive Call where
  | reserve (addr size : Word) (exclusive : Bool)
  | reserveNode (i : Nat) (addr size : Word) (exclusive : Bool)
  | free (addr size : Word)
  | freeNode (i : Nat) (addr size : Word)
  | alloc (r : Request)
  | allocNode (i : Nat) (r : Request)
deriving DecidableEq

def Call.prog (list : List Nat) : Call → Prog Answer
  | .reserve addr size exclusive => reserveBootmem list addr size exclusive
  | .reserveNode i addr size exclusive => reserveBootmemNode i addr size exclusive
  | .free addr size => freeBootmem list addr size
  | .freeNode i addr size => freeBootmemNode i addr size
  | .alloc r => .region <$> allocBootmemNopanic list r
  | .allocNode i r => .region <$> onNode i (allocBootmemCore r)

/-- The account after a call. -/
def Usage.track (u : Usage) : Call → Answer → Usage
  | .reserve addr size _, .ok | .reserveNode _ addr size _, .ok =>
    { u with
      reserved := u.reserved ∪ touched addr.toNat size.toNat
      used := u.used ∪ touched addr.toNat size.toNat }
  | .free addr size, .ok | .freeNode _ addr size, .ok =>
    { live := u.live \ bytes addr.toNat size.toNat
      reserved := u.reserved \ whole addr.toNat size.toNat
      used := u.used \ whole addr.toNat size.toNat }
  | .alloc r, .region (some address) | .allocNode _ r, .region (some address) =>
    u.take address.toNat r.size.toNat
  | _, _ => u

structure System where
  nodes : Nodes
  usage : Usage

def step (list : List Nat) (call : Call) (s : System) : Answer × System :=
  match call.prog list s.nodes with
  | .ok (answer, nodes) => (answer, ⟨nodes, s.usage.track call answer⟩)
  | .error bug => (.bug bug, s)

/-! ### What callers keep to -/

/-- The nodes that a call is for. -/
def Layout.nodesOf (lay : Layout) : Call → List Nat
  | .reserveNode i _ _ _ | .freeNode i _ _ | .allocNode i _ => lay.list.filter (· = i)
  | _ => lay.list

/-- All frames with a byte of the range are on the nodes. -/
def Layout.Covers (lay : Layout) (list : List Nat) (addr size : Word) : Prop :=
  ∀ p ∈ touched addr.toNat size.toNat, ∃ i ∈ list, lay.Has i p

/-- A reservation that is not exclusive leaves frames in use alone. -/
def Usage.Reservable (u : Usage) (addr size : Word) (exclusive : Bool) : Prop :=
  exclusive = true ∨ ∀ p ∈ touched addr.toNat size.toNat, p ∈ u.used → p ∈ u.reserved

/-- What is freed was handed out or reserved. -/
def Usage.Freeable (u : Usage) (addr size : Word) : Prop :=
  ∀ p ∈ whole addr.toNat size.toNat, p ∈ u.reserved ∨ ∀ x, x / 4096 = p → x ∈ u.live

/-- A size above zero that can be rounded up to pages, a power of two as alignment, and
a limit of at least a page or none. -/
def Request.Proper (r : Request) : Prop :=
  (∃ k, r.Sane k) ∧ (r.limit.toNat = 0 ∨ 4096 ≤ r.limit.toNat)

def Call.ok (lay : Layout) (s : System) (call : Call) : Prop :=
  match call with
  | .reserve addr size exclusive | .reserveNode _ addr size exclusive =>
    0 < size.toNat ∧ lay.Covers (lay.nodesOf call) addr size ∧ s.usage.Reservable addr size exclusive
  | .free addr size | .freeNode _ addr size =>
    0 < size.toNat ∧ lay.Covers (lay.nodesOf call) addr size ∧ s.usage.Freeable addr size
  | .alloc r => r.Proper
  | .allocNode i r => i ∈ lay.list ∧ r.Proper

/-! ### What they get -/

def Usage.reserves (u : Usage) (addr size : Word) (exclusive : Bool) (answer : Answer) : Prop :=
  answer = .ok ∧ (exclusive = true → ∀ p ∈ touched addr.toNat size.toNat, p ∉ u.used) ∨
    answer = .ebusy ∧ exclusive = true ∧ ∃ p ∈ touched addr.toNat size.toNat, p ∈ u.used

/-- A free succeeds. Only one without whole pages can end in a `BUG`. -/
def Usage.frees (addr size : Word) (answer : Answer) : Prop :=
  answer = .ok ∨ whole addr.toNat size.toNat = ∅ ∧ ∃ bug, answer = .bug bug ∧ bug ≠ .expectedFree

/-- A block on one of the nodes, or none when there is no room on any of them; `r'` is
the last request that is tried. -/
def Usage.allocates (u : Usage) (lay : Layout) (list : List Nat) (r r' : Request) (answer : Answer) : Prop :=
  (∃ address, answer = .region (some address) ∧ ∃ i ∈ list, Block lay u r i address.toNat) ∨
    (answer = .region none ∧ ∀ i ∈ list, ∀ p, ¬Room lay u r' i p) ∨
    ∃ bug, answer = .bug bug ∧ r.Rejected bug

def Right (lay : Layout) (u : Usage) (call : Call) (answer : Answer) : Prop :=
  match call with
  | .reserve addr size exclusive | .reserveNode _ addr size exclusive =>
    u.reserves addr size exclusive answer
  | .free addr size | .freeNode _ addr size => Usage.frees addr size answer
  | .alloc r => u.allocates lay lay.list r { r with goal := 0 } answer
  | .allocNode i r => u.allocates lay [i] r r answer

section Runs

variable {lay : Layout} {nodes nodes' : Nodes} {u : Usage} {addr size : Word} {list : List Nat}

/-- On the nodes nothing wraps. -/
theorem Layout.Covers.lt (covers : lay.Covers list addr size) (sublist : ∀ i ∈ list, i ∈ lay.list)
    (some : 0 < size.toNat) : addr.toNat + size.toNat + 4095 < 2 ^ 32 := by
  obtain ⟨i, mem, low, high⟩ := covers ((addr.toNat + size.toNat - 1) / 4096) ⟨by omega, by omega⟩
  have := lay.below i (sublist i mem)
  omega

theorem toNat_range (small : addr.toNat + size.toNat + 4095 < 2 ^ 32) :
    (pfnDown addr).toNat = addr.toNat / 4096 ∧
      (pfnUp (addr + size)).toNat = (addr.toNat + size.toNat + 4095) / 4096 ∧
      (pfnUp addr).toNat = (addr.toNat + 4095) / 4096 ∧
      (pfnDown (addr + size)).toNat = (addr.toNat + size.toNat) / 4096 := by
  have sum : (addr + size).toNat = addr.toNat + size.toNat := by bv_omega
  refine ⟨toNat_pfnDown, ?_, toNat_pfnUp (by omega), ?_⟩
  · rw [toNat_pfnUp (by omega), sum]
  · rw [toNat_pfnDown, sum]

/-- What a call does, and what it answers when it ends in a `BUG`. -/
def Sound (lay : Layout) (u : Usage) (call : Call) (answer : Answer) (nodes' : Nodes) : Prop :=
  Right lay u call answer ∧ Accounts lay nodes' (u.track call answer)

theorem Accounts.reserved_frames {used' : Set Nat}
    (accounts : Accounts lay nodes u) (reservable : u.Reservable addr size exclusive)
    (frames : ReservedFrames u.used (addr.toNat / 4096) ((addr.toNat + size.toNat + 4095) / 4096)
      exclusive answer used') (shows : Shows lay nodes' used') (kept : Kept nodes nodes') :
    Sound lay u (.reserve addr size exclusive) answer nodes' ∧
      Sound lay u (.reserveNode i addr size exclusive) answer nodes' := by
  rcases frames with ⟨rfl, rfl, clear⟩ | ⟨rfl, rfl, only, p, above, below, inUse⟩
  · have shared : ∀ p ∈ touched addr.toNat size.toNat, p ∈ u.used → p ∈ u.reserved := by
      intro p inside inUse
      rcases reservable with only | shared
      · exact absurd inUse (clear only p inside.1 inside.2)
      · exact shared p inside inUse
    have right : u.reserves addr size exclusive .ok :=
      .inl ⟨rfl, fun only p inside => clear only p inside.1 inside.2⟩
    have reserved := accounts.reserve shows kept shared
    exact ⟨⟨right, reserved⟩, right, reserved⟩
  · have right : u.reserves addr size exclusive .ebusy :=
      .inr ⟨rfl, only, p, ⟨above, below⟩, inUse⟩
    have same := accounts.keep shows kept
    exact ⟨⟨right, same⟩, right, same⟩

theorem Layout.mem_single {j : Nat} (mem : j ∈ lay.list.filter (· = i)) : j = i ∧ i ∈ lay.list := by
  rw [mem_filter, decide_eq_true_eq] at mem
  obtain ⟨mem, rfl⟩ := mem
  exact ⟨rfl, mem⟩

/-- A range on all nodes is one to go through. -/
theorem Layout.Covers.ahead {s e : Nat} (covers : lay.Covers lay.list addr size)
    (low : addr.toNat / 4096 ≤ s) (range : s < e) (high : e ≤ (addr.toNat + size.toNat + 4095) / 4096) :
    Ahead lay lay.list s s e :=
  ⟨suffix_rfl, range.le, covers s ⟨low, by omega⟩,
    fun p above below => covers p ⟨by omega, by omega⟩, .inl rfl⟩

/-- A range on one node. -/
theorem Layout.Covers.on {s e : Nat} (covers : lay.Covers (lay.list.filter (· = i)) addr size)
    (low : addr.toNat / 4096 ≤ s) (range : s < e) (high : e ≤ (addr.toNat + size.toNat + 4095) / 4096) :
    i ∈ lay.list ∧ lay.first i ≤ s ∧ e ≤ lay.stop i := by
  obtain ⟨j, member, above, -⟩ := covers s ⟨low, by omega⟩
  obtain ⟨j', member', -, below⟩ := covers (e - 1) ⟨by omega, by omega⟩
  obtain ⟨rfl, mem⟩ := lay.mem_single member
  obtain ⟨rfl, -⟩ := lay.mem_single member'
  exact ⟨mem, above, by omega⟩

section

variable (accounts : Accounts lay nodes u)

include accounts

theorem reserve_sound {never : Bug → Prop}
    (some : 0 < size.toNat) (covers : lay.Covers lay.list addr size)
    (reservable : u.Reservable addr size exclusive) :
    wp (reserveBootmem lay.list addr size exclusive) (Sound lay u (.reserve addr size exclusive))
      never nodes := by
  obtain ⟨start, stop, -, -⟩ := toNat_range (covers.lt (fun _ mem => mem) some)
  have ahead := covers.ahead le_rfl (by omega) le_rfl
  rw [← start, ← stop] at ahead
  refine (markBootmem_spec accounts.shows ahead).returns ?_
  rintro answer nodes' ⟨used', frames, shows, kept⟩
  rw [start, stop] at frames
  exact (accounts.reserved_frames (i := 0) reservable frames shows kept).1

theorem reserveNode_sound {never : Bug → Prop} (some : 0 < size.toNat)
    (covers : lay.Covers (lay.list.filter (· = i)) addr size)
    (reservable : u.Reservable addr size exclusive) :
    wp (reserveBootmemNode i addr size exclusive) (Sound lay u (.reserveNode i addr size exclusive))
      never nodes := by
  obtain ⟨start, stop, -, -⟩ :=
    toNat_range (covers.lt (fun _ mem => mem_of_mem_filter mem) some)
  obtain ⟨mem, low, high⟩ := covers.on le_rfl (by omega) le_rfl
  have first := accounts.shows.first i mem
  have last := accounts.shows.stop i mem
  have on : (nodes i).On (pfnDown addr) (pfnUp (addr + size)) := ⟨by omega, by omega, by omega⟩
  rw [reserveBootmemNode, wp_onNode]
  refine (markBootmemNode_reserve (accounts.shows.proper mem) on).returns ?_
  rintro answer b ⟨map, reserved, remapped⟩
  rw [first, start, stop] at reserved
  obtain ⟨used', frames, shows⟩ := accounts.shows.reserve mem low high reserved remapped
  exact (accounts.reserved_frames reservable frames shows remapped.kept).2

/-- What is freed is marked. -/
theorem Accounts.marked (freeable : u.Freeable addr size) :
    ∀ p ∈ whole addr.toNat size.toNat, p ∈ u.used := by
  intro p inside
  rcases freeable p inside with inReserved | allLive
  · exact accounts.reserved p inReserved
  · have page : p * 4096 / 4096 = p := by omega
    have own := (accounts.live _ (allLive (p * 4096) page)).1
    rwa [page] at own

theorem free_sound (some : 0 < size.toNat)
    (covers : lay.Covers lay.list addr size) (freeable : u.Freeable addr size) :
    wp (freeBootmem lay.list addr size) (Sound lay u (.free addr size))
      (fun bug => Right lay u (.free addr size) (.bug bug)) nodes := by
  obtain ⟨-, -, start, stop⟩ := toNat_range (covers.lt (fun _ mem => mem) some)
  by_cases empty : (addr.toNat + size.toNat) / 4096 ≤ (addr.toNat + 4095) / 4096
  · have none : whole addr.toNat size.toNat = ∅ := Set.Ico_eq_empty (by omega)
    refine (unmarkBootmem_empty accounts.shows suffix_rfl (by omega)).mono ?_ ?_
    · rintro _ nodes' ⟨rfl, shows, kept⟩
      refine ⟨.inl rfl, accounts.free ?_ kept freeable⟩
      rwa [none, Set.sdiff_empty]
    · exact fun bug other => .inr ⟨none, bug, rfl, other⟩
  · have ahead := covers.ahead (by omega) (by omega) (by omega) (s := (addr.toNat + 4095) / 4096)
      (e := (addr.toNat + size.toNat) / 4096)
    rw [← start, ← stop] at ahead
    have set : ∀ p, (pfnUp addr).toNat ≤ p → p < (pfnDown (addr + size)).toNat → p ∈ u.used := by
      intro p above below
      exact accounts.marked freeable p ⟨by omega, by omega⟩
    refine (markLoop_free accounts.shows ahead set).returns ?_
    rintro _ nodes' ⟨rfl, shows, kept⟩
    rw [start, stop] at shows
    exact ⟨.inl rfl, accounts.free shows kept freeable⟩

theorem freeNode_sound (some : 0 < size.toNat)
    (covers : lay.Covers (lay.list.filter (· = i)) addr size) (freeable : u.Freeable addr size) :
    wp (freeBootmemNode i addr size) (Sound lay u (.freeNode i addr size))
      (fun bug => Right lay u (.freeNode i addr size) (.bug bug)) nodes := by
  obtain ⟨-, -, start, stop⟩ :=
    toNat_range (covers.lt (fun _ mem => mem_of_mem_filter mem) some)
  obtain ⟨mem, -, -⟩ := covers.on le_rfl (by omega) le_rfl
  have first := accounts.shows.first i mem
  have last := accounts.shows.stop i mem
  rw [freeBootmemNode, wp_onNode]
  by_cases empty : (addr.toNat + size.toNat) / 4096 ≤ (addr.toNat + 4095) / 4096
  · have none : whole addr.toNat size.toNat = ∅ := Set.Ico_eq_empty (by omega)
    refine (markBootmemNode_empty (accounts.shows.proper mem) (by omega)).mono ?_ ?_
    · rintro _ b ⟨rfl, remapped⟩
      have kept := remapped.kept
      obtain ⟨hint, -, rfl⟩ := remapped
      refine ⟨.inl rfl, accounts.free ?_ kept freeable⟩
      rw [none, Set.sdiff_empty]
      exact accounts.shows.update mem rfl rfl (accounts.shows.bit i mem) fun p _ => Iff.rfl
    · exact fun bug other => .inr ⟨none, bug, rfl, other⟩
  · obtain ⟨-, low, high⟩ := covers.on (s := (addr.toNat + 4095) / 4096)
      (e := (addr.toNat + size.toNat) / 4096) (by omega) (by omega) (by omega)
    have on : (nodes i).On (pfnUp addr) (pfnDown (addr + size)) := ⟨by omega, by omega, by omega⟩
    refine (markBootmemNode_free (accounts.shows.proper mem) on fun k above below => ?_).returns ?_
    · have own := accounts.shows.bit i mem (lay.first i + k) ⟨by omega, by omega⟩
      rw [Nat.add_sub_cancel_left] at own
      exact own.mpr (accounts.marked freeable _ ⟨by omega, by omega⟩)
    rintro _ b ⟨rfl, remapped⟩
    rw [first, start, stop] at remapped
    refine ⟨.inl rfl, accounts.free ?_ remapped.kept freeable⟩
    refine accounts.shows.remap mem low high remapped (fun p above below => ?_) fun p out => ?_
    · exact iff_of_false Bool.false_ne_true fun both => both.2 ⟨above, below⟩
    · exact and_iff_left out

theorem alloc_sound {r : Request} (proper : r.Proper) :
    wp (Call.prog lay.list (.alloc r)) (Sound lay u (.alloc r))
      (fun bug => Right lay u (.alloc r) (.bug bug)) nodes := by
  obtain ⟨⟨k, sane⟩, limit⟩ := proper
  rw [Call.prog, wp_map]
  refine (allocBootmemNopanic_spec accounts sane limit).mono (fun answer nodes' supplied => ?_)
    fun bug rejected => .inr (.inr ⟨bug, rfl, rejected⟩)
  cases answer with
  | none =>
    obtain ⟨rfl, full⟩ := supplied
    exact ⟨.inr (.inl ⟨rfl, full⟩), accounts⟩
  | some address => exact ⟨.inl ⟨address, rfl, supplied.1⟩, supplied.2⟩

theorem allocNode_sound {r : Request} (mem : i ∈ lay.list) (proper : r.Proper) :
    wp (Call.prog lay.list (.allocNode i r)) (Sound lay u (.allocNode i r))
      (fun bug => Right lay u (.allocNode i r) (.bug bug)) nodes := by
  obtain ⟨⟨k, sane⟩, limit⟩ := proper
  rw [Call.prog, wp_map]
  refine (allocNode_spec accounts sane limit mem).mono (fun answer nodes' granted => ?_)
    fun bug rejected => .inr (.inr ⟨bug, rfl, rejected⟩)
  cases answer with
  | none =>
    obtain ⟨rfl, full⟩ := granted
    refine ⟨.inr (.inl ⟨rfl, fun j member => ?_⟩), accounts⟩
    rw [mem_singleton.mp member]
    exact full
  | some address =>
    exact ⟨.inl ⟨address, rfl, i, mem_singleton_self i, granted.1⟩, granted.2⟩

theorem Call.prog_sound (allowed : call.ok lay ⟨nodes, u⟩) :
    wp (call.prog lay.list) (Sound lay u call) (fun bug => Right lay u call (.bug bug)) nodes := by
  cases call with
  | reserve addr size exclusive => exact reserve_sound accounts allowed.1 allowed.2.1 allowed.2.2
  | reserveNode i addr size exclusive =>
    exact reserveNode_sound accounts allowed.1 allowed.2.1 allowed.2.2
  | free addr size => exact free_sound accounts allowed.1 allowed.2.1 allowed.2.2
  | freeNode i addr size => exact freeNode_sound accounts allowed.1 allowed.2.1 allowed.2.2
  | alloc r => exact alloc_sound accounts allowed
  | allocNode i r => exact allocNode_sound accounts allowed.1 allowed.2

end

/-- The nodes as `init_bootmem_core` leaves them. -/
def Layout.init (lay : Layout) : System where
  nodes i := initBootmemCore (BitVec.ofNat 32 (lay.first i)) (BitVec.ofNat 32 (lay.stop i))
  usage :=
    { live := ∅
      reserved := { p | ∃ i ∈ lay.list, lay.Has i p }
      used := { p | ∃ i ∈ lay.list, lay.Has i p } }

theorem Layout.init_accounts (lay : Layout) : Accounts lay lay.init.nodes lay.init.usage := by
  have bounds : ∀ i ∈ lay.list, lay.first i < 2 ^ 32 ∧ lay.stop i < 2 ^ 32 := by
    intro i mem
    have := lay.below i mem
    have := lay.nonempty i mem
    omega
  constructor
  case shows =>
    refine ⟨fun i mem => toNat_offset (bounds i mem).1, fun i mem => toNat_offset (bounds i mem).2, ?_⟩
    exact fun i mem p has => iff_of_true rfl ⟨i, mem, has⟩
  case hint => exact fun i _ => Nat.zero_le _
  case lastEnd => exact fun i _ => Nat.zero_le _
  case reserved => exact fun p => id
  case live => exact fun x none => absurd none (Set.notMem_empty x)
  case tailUsed => exact fun i _ part => absurd rfl part
  case tail => exact fun i _ x _ _ part => absurd rfl part

/-- The rules for the callers' account. -/
def spec (lay : Layout) (u : Usage) (call : Call) (answer : Answer) (u' : Usage) : Prop :=
  Right lay u call answer ∧ u' = u.track call answer

theorem step_implements : Implements (step lay.list) (spec lay) (fun s call => call.ok lay s)
    fun s u => s.usage = u ∧ Accounts lay s.nodes u := by
  rintro s _ call ⟨rfl, accounts⟩ allowed
  have sound := call.prog_sound accounts allowed
  unfold step
  unfold wp at sound
  cases result : call.prog lay.list s.nodes with
  | ok out =>
    rw [result] at sound
    exact ⟨_, ⟨sound.1, rfl⟩, rfl, sound.2⟩
  | error bug =>
    rw [result] at sound
    have same : s.usage.track call (.bug bug) = s.usage := by cases call <;> rfl
    exact ⟨s.usage, ⟨sound, same.symm⟩, rfl, accounts⟩

theorem Right.ne_expectedFree (right : Right lay u call answer) : answer ≠ .bug .expectedFree := by
  rintro rfl
  have noReserve : ∀ addr size exclusive, ¬u.reserves addr size exclusive (.bug .expectedFree) := by
    rintro addr size exclusive (⟨isOk, -⟩ | ⟨isBusy, -⟩)
    · cases isOk
    · cases isBusy
  have noFree : ∀ addr size, ¬Usage.frees addr size (.bug .expectedFree) := by
    rintro addr size (isOk | ⟨-, bug, same, other⟩)
    · cases isOk
    · cases same
      exact other rfl
  have noAlloc : ∀ list r r', ¬u.allocates lay list r r' (.bug .expectedFree) := by
    rintro list r r' (⟨address, same, -⟩ | ⟨same, -⟩ | ⟨bug, same, rejected⟩)
    · cases same
    · cases same
    · cases same
      exact absurd rejected.1 nofun
  cases call with
  | reserve | reserveNode => exact noReserve _ _ _ right
  | free | freeNode => exact noFree _ _ right
  | alloc | allocNode => exact noAlloc _ _ _ right

theorem SpecRun.ne_expectedFree {u u' : Usage} {calls : List Call} {as : List Answer}
    (run : SpecRun (spec lay) u calls as u') : .bug .expectedFree ∉ as := by
  induction run with
  | nil => exact not_mem_nil
  | cons right _ ih =>
    rw [mem_cons, not_or]
    exact ⟨right.1.ne_expectedFree.symm, ih⟩

/-- In every run, blocks are handed out by the rules: inside a node, aligned, below the
limit, apart from the bytes handed out and not freed and from the reserved frames; an
allocation fails only without room for it, and pages found free are free. -/
theorem bootmem_follows_spec (lay : Layout) (calls : List Call)
    (allowed : Admits (step lay.list) (fun s call => call.ok lay s) calls lay.init) :
    (∃ u, SpecRun (spec lay) lay.init.usage calls (answers (step lay.list) calls lay.init).1 u ∧
      Accounts lay (answers (step lay.list) calls lay.init).2.nodes u) ∧
    .bug .expectedFree ∉ (answers (step lay.list) calls lay.init).1 := by
  obtain ⟨u, run, -, accounts⟩ := step_implements.run ⟨rfl, lay.init_accounts⟩ allowed
  exact ⟨⟨u, run, accounts⟩, SpecRun.ne_expectedFree run⟩

end Runs

/-! ### A node of three pages -/

def smallLayout : Layout where
  list := [0]
  first _ := 16
  stop _ := 19
  nonempty := by decide
  below := by decide
  sorted := pairwise_singleton ..

def plain (size : Word) : Request := ⟨size, 16, 0, 0⟩

/-- The pages are made free, two blocks share one of them, and the first is freed. -/
def smallCalls : List Call :=
  [.free 0x10000 0x3000, .alloc (plain 0x1800), .alloc (plain 0x800), .free 0x10000 0x1800]

theorem smallLayout_covers (size : Word) (some : size.toNat ≤ 0x3000) :
    smallLayout.Covers [0] 0x10000 size := by
  rintro p ⟨low, high⟩
  have addr : (0x10000 : Word).toNat = 0x10000 := rfl
  refine ⟨0, mem_singleton_self 0, ?_, ?_⟩
  · change 16 ≤ p
    omega
  · change p < 19
    omega

theorem plain_proper {size : Word} (some : 0 < size.toNat) (rounds : size.toNat + 4095 < 2 ^ 32) :
    (plain size).Proper :=
  ⟨⟨4, some, rounds, rfl⟩, .inl rfl⟩

theorem smallCalls_allowed :
    Admits (step smallLayout.list) (fun s call => call.ok smallLayout s) smallCalls smallLayout.init := by
  have first : (step smallLayout.list (.alloc (plain 0x1800))
      (step smallLayout.list (.free 0x10000 0x3000) smallLayout.init).2).1 =
      .region (some 0x10000) := by decide +kernel
  have second : (step smallLayout.list (.alloc (plain 0x800)) (step smallLayout.list
      (.alloc (plain 0x1800)) (step smallLayout.list (.free 0x10000 0x3000) smallLayout.init).2).2).1 =
      .region (some 0x11800) := by decide +kernel
  refine ⟨⟨by decide, smallLayout_covers _ (by decide), fun p inside => .inl ?_⟩,
    plain_proper (by decide) (by decide), plain_proper (by decide) (by decide),
    ⟨by decide, smallLayout_covers _ (by decide), fun p inside => .inr fun x page => ?_⟩, trivial⟩
  · exact smallLayout_covers 0x3000 (by decide) p ⟨inside.1, inside.2⟩
  -- the whole page of the first block
  have low : (0x10000 + 4095) / 4096 ≤ p := inside.1
  have high : p < (0x10000 + 0x1800) / 4096 := inside.2
  have bytes : 0x10000 ≤ x ∧ x < 0x10000 + 0x1800 := by omega
  exact .inl (.inr bytes)

/-- The two blocks are apart though they share a page. -/
theorem bootmem_follows_spec_small :
    (answers (step smallLayout.list) smallCalls smallLayout.init).1 =
      [.ok, .region (some 0x10000), .region (some 0x11800), .ok] ∧
    ∃ u, SpecRun (spec smallLayout) smallLayout.init.usage smallCalls
      [.ok, .region (some 0x10000), .region (some 0x11800), .ok] u := by
  refine (and_iff_left_of_imp fun same => ?_).mpr (by decide +kernel)
  obtain ⟨⟨u, run, -⟩, -⟩ := bootmem_follows_spec smallLayout smallCalls smallCalls_allowed
  rw [same] at run
  exact ⟨u, run⟩

/-- A reservation of a page in use is accepted; after it is freed, a block that shares
the page is handed out, and then the page. -/
theorem silent_reserve_overlaps :
    (answers (step smallLayout.list) [.free 0x10000 0x3000, .alloc (plain 0x1800),
      .reserve 0x11000 0x1000 false, .free 0x11000 0x1000, .alloc ⟨0x800, 16, 0x12000, 0⟩,
      .alloc (plain 0x1000), .alloc (plain 0x1000)] smallLayout.init).1 =
      [.ok, .region (some 0x10000), .ok, .ok, .region (some 0x11800), .region (some 0x12000),
        .region (some 0x11000)] ∧
    (bytes 0x11800 0x800 ∩ bytes 0x11000 0x1000).Nonempty := by
  refine ⟨by decide +kernel, 0x11800, ?_, ?_⟩
  · exact ⟨by decide, by decide⟩
  · exact ⟨by decide, by decide⟩

end AndroidKernel.Bootmem
