import AndroidKernel.Idr.Shape

/-!
The free list of an idr.

`Pool` says that the free list is a chain of cleared layers outside of the tree.
A layer taken from it is blank, one that was cleared can be given back, and both
leave the layers of the tree alone (`Kept`).
-/

namespace AndroidKernel.Idr

open Lib Function List

/-- The layers linked through their first slots, from `p` on. -/
def Chain (mem : Nat → IdrLayer) : Nat → List Nat → Prop
  | p, [] => p = 0
  | p, a :: free => p = a ∧ a ≠ 0 ∧ Chain mem ((mem a).ary 0) free

/-- A cleared layer, apart from its link. -/
structure IdrLayer.Spare (p : IdrLayer) : Prop where
  bitmap : p.bitmap = 0
  count : p.count = 0
  ary : ∀ k < 32, 0 < k → p.ary k = 0

structure Pool (s : IdrState) (free : List Nat) (pos : Nat → Nat → Nat) : Prop where
  chain : Chain s.mem s.idFree free
  nodup : free.Nodup
  count : s.idFreeCnt = free.length
  spare : ∀ a ∈ free, (s.mem a).Spare
  old : ∀ a ∈ free, a < s.brk
  apart : ∀ a ∈ free, ∀ l q, pos l q ≠ a
  inside : ∀ l q, pos l q < s.brk

/-- The layers of a tree and the root are as they were. -/
structure Kept (s t : IdrState) (pos : Nat → Nat → Nat) : Prop where
  mem : ∀ l q, pos l q ≠ 0 → t.mem (pos l q) = s.mem (pos l q)
  top : t.top = s.top
  layers : t.layers = s.layers

section Pool

variable {s t u : IdrState} {free : List Nat} {pos pos' : Nat → Nat → Nat} {p : Nat}
  {never : Fault → Prop}

theorem Kept.refl : Kept s s pos := ⟨fun _ _ _ => rfl, rfl, rfl⟩

theorem Kept.trans (first : Kept s t pos) (second : Kept t u pos) : Kept s u pos where
  mem l q here := (second.mem l q here).trans (first.mem l q here)
  top := second.top.trans first.top
  layers := second.layers.trans first.layers

theorem Chain.congr {mem mem' : Nat → IdrLayer} (chain : Chain mem p free)
    (same : ∀ a ∈ free, mem' a = mem a) : Chain mem' p free := by
  induction free generalizing p with
  | nil => exact chain
  | cons a free ih =>
    obtain ⟨head, present, rest⟩ := chain
    refine ⟨head, present, ?_⟩
    rw [same a mem_cons_self]
    exact ih rest fun b member => same b (mem_cons_of_mem a member)

theorem Chain.present {mem : Nat → IdrLayer} (chain : Chain mem p free) {a : Nat}
    (member : a ∈ free) : a ≠ 0 := by
  induction free generalizing p with
  | nil => cases member
  | cons b free ih =>
    obtain ⟨-, present, rest⟩ := chain
    cases member with
    | head => exact present
    | tail _ member => exact ih rest member

/-- Changes outside of the free list. -/
theorem Pool.frame (pool : Pool s free pos) (mem : ∀ a ∈ free, t.mem a = s.mem a)
    (idFree : t.idFree = s.idFree) (count : t.idFreeCnt = s.idFreeCnt) (brk : t.brk = s.brk)
    (places : ∀ l q, pos' l q = 0 ∨ (∃ l' q', pos' l q = pos l' q') ∨
      pos' l q ∉ free ∧ pos' l q < s.brk) : Pool t free pos' where
  chain := by
    rw [idFree]
    exact pool.chain.congr mem
  nodup := pool.nodup
  count := count.trans pool.count
  spare a member := by
    rw [mem a member]
    exact pool.spare a member
  old a member := by
    rw [brk]
    exact pool.old a member
  apart a member l q := by
    rcases places l q with zero | ⟨l', q', same⟩ | ⟨outside, -⟩
    · rw [zero]
      exact (pool.chain.present member).symm
    · rw [same]
      exact pool.apart a member l' q'
    · rintro rfl
      exact outside member
  inside l q := by
    rw [brk]
    rcases places l q with zero | ⟨l', q', same⟩ | ⟨-, below⟩
    · rw [zero]
      exact (Nat.zero_le _).trans_lt (pool.inside 0 0)
    · rw [same]
      exact pool.inside l' q'
    · exact below

/-- A layer that was just taken from the free list. -/
structure Taken (s t : IdrState) (p : Nat) (free : List Nat) (pos : Nat → Nat → Nat) : Prop where
  present : p ≠ 0
  pool : Pool t free pos
  blank : (t.mem p).Blank
  outside : p ∉ free
  apart : ∀ l q, pos l q ≠ p
  old : p < t.brk
  mem : ∀ a, a ≠ p → t.mem a = s.mem a
  top : t.top = s.top
  layers : t.layers = s.layers

theorem Taken.kept (taken : Taken s t p free pos) : Kept s t pos :=
  ⟨fun l q _ => taken.mem _ (taken.apart l q), taken.top, taken.layers⟩

theorem getFromFreeList_spec (pool : Pool s free pos) :
    wp getFromFreeList (fun p t => (p = 0 ∧ t = s ∧ free = []) ∨
      ∃ rest, free = p :: rest ∧ Taken s t p rest pos) never s := by
  cases free with
  | nil =>
    have none : s.idFree = 0 := pool.chain
    simp only [getFromFreeList, wp_bind, wp_get, wp_ifThen, none, ne_eq, not_true_eq_false,
      false_implies, wp_pure, true_and, not_false_eq_true, true_implies]
    exact .inl trivial
  | cons a rest =>
    obtain ⟨head, present, chain⟩ := pool.chain
    obtain ⟨outside, nodup⟩ := nodup_cons.mp pool.nodup
    have some : s.idFree ≠ 0 := head.trans_ne present
    simp only [getFromFreeList, wp_bind, wp_get, wp_ifThen, ne_eq, some, not_false_eq_true,
      true_implies, wp_load some, wp_modify, wp_change some, wp_pure, not_true_eq_false,
      false_implies, and_true, false_and, false_or]
    rw [head] at some ⊢
    refine ⟨rest, rfl, ?_⟩
    have spare := pool.spare a mem_cons_self
    have others : ∀ b, b ≠ a → (IdrState.update { s with
        idFree := (s.mem a).ary 0, idFreeCnt := s.idFreeCnt - 1 } a (.setAry 0 0)).mem b =
        s.mem b :=
      fun b other => IdrState.update_mem_of_ne _ other
    have kept : ∀ b ∈ rest, b ≠ a := by
      rintro b member rfl
      exact outside member
    constructor
    case present => exact present
    case pool =>
      constructor
      case chain => exact chain.congr fun b member => others b (kept b member)
      case nodup => exact nodup
      case count =>
        have := pool.count
        simp only [IdrState.update_idFreeCnt, length_cons] at this ⊢
        omega
      case spare =>
        intro b member
        rw [others b (kept b member)]
        exact pool.spare b (mem_cons_of_mem a member)
      case old => exact fun b member => pool.old b (mem_cons_of_mem a member)
      case apart => exact fun b member => pool.apart b (mem_cons_of_mem a member)
      case inside => exact pool.inside
    case blank =>
      rw [IdrState.update_mem_self]
      refine ⟨spare.bitmap, spare.count, fun k slot => ?_⟩
      by_cases zero : k = 0
      · simp [IdrLayer.setAry, zero]
      · simpa [IdrLayer.setAry, zero] using spare.ary k slot (by omega)
    case outside => exact outside
    case apart => exact pool.apart a mem_cons_self
    case old => exact pool.old a mem_cons_self
    case mem => exact others
    case top => rfl
    case layers => rfl

theorem moveToFreeList_spec (pool : Pool s free pos) (present : p ≠ 0) (spare : (s.mem p).Spare)
    (outside : p ∉ free) (old : p < s.brk) (apart : ∀ l q, pos l q ≠ p) :
    wp (moveToFreeList p) (fun _ t => Pool t (p :: free) pos ∧ t.top = s.top ∧
      t.layers = s.layers ∧ t.brk = s.brk ∧ ∀ a, a ≠ p → t.mem a = s.mem a) never s := by
  simp only [moveToFreeList, wp_bind, wp_get, wp_change present, wp_modify]
  have others : ∀ a, a ≠ p → (s.update p (.setAry 0 s.idFree)).mem a = s.mem a :=
    fun a other => IdrState.update_mem_of_ne _ other
  have kept : ∀ a ∈ free, a ≠ p := by
    rintro a member rfl
    exact outside member
  refine ⟨?_, rfl, rfl, rfl, others⟩
  constructor
  case chain =>
    refine ⟨rfl, present, ?_⟩
    simp only [IdrState.update_mem_self, IdrLayer.setAry, update_self]
    exact pool.chain.congr fun a member => others a (kept a member)
  case nodup => exact nodup_cons.mpr ⟨outside, pool.nodup⟩
  case count =>
    have := pool.count
    simp only [IdrState.update_idFreeCnt, length_cons]
    omega
  case spare =>
    intro a member
    by_cases same : a = p
    · subst same
      simp only [IdrState.update_mem_self]
      refine ⟨spare.bitmap, spare.count, fun k slot positive => ?_⟩
      simpa [IdrLayer.setAry, Nat.ne_of_gt positive] using spare.ary k slot positive
    · simp only [others a same]
      exact pool.spare a ((mem_cons.mp member).resolve_left same)
  case old =>
    intro a member
    rcases mem_cons.mp member with rfl | member
    · exact old
    · exact pool.old a member
  case apart =>
    intro a member
    rcases mem_cons.mp member with rfl | member
    · exact apart
    · exact pool.apart a member
  case inside => exact pool.inside

theorem idrPreGet_spec (room : Nat) (pool : Pool s free pos) :
    wp (idrPreGet room) (fun _ t => (∃ free', Pool t free' pos) ∧ Kept s t pos) never s := by
  induction room generalizing s free with
  | zero =>
    simp only [idrPreGet, wp_bind, wp_get, wp_ite, wp_pure]
    exact ⟨fun _ => ⟨⟨free, pool⟩, .refl⟩, fun _ => ⟨⟨free, pool⟩, .refl⟩⟩
  | succ room ih =>
    simp only [idrPreGet, wp_bind, wp_get, wp_ite, wp_pure]
    refine ⟨fun _ => ?_, fun _ => ⟨⟨free, pool⟩, .refl⟩⟩
    simp only [zalloc, wp_bind, wp_get, wp_set, wp_pure]
    -- the new layer lies behind all others
    generalize fresh : ({ s with
      mem := update s.mem s.brk .zero
      brk := s.brk + 1 } : IdrState) = s₁
    have brk : s₁.brk = s.brk + 1 := by rw [← fresh]
    have mem : ∀ a, a ≠ s.brk → s₁.mem a = s.mem a := by
      intro a other
      rw [← fresh]
      exact update_of_ne other _ _
    have zero : s₁.mem s.brk = .zero := by
      rw [← fresh]
      exact update_self _ _ _
    have pool' : Pool s₁ free pos := by
      constructor
      case chain =>
        rw [← fresh]
        exact pool.chain.congr fun a member =>
          update_of_ne (Nat.ne_of_lt (pool.old a member)) _ _
      case nodup => exact pool.nodup
      case count =>
        rw [← fresh]
        exact pool.count
      case spare =>
        intro a member
        rw [mem a (Nat.ne_of_lt (pool.old a member))]
        exact pool.spare a member
      case old =>
        intro a member
        have := pool.old a member
        omega
      case apart => exact pool.apart
      case inside =>
        intro l q
        have := pool.inside l q
        omega
    have present : s.brk ≠ 0 := Nat.ne_of_gt ((Nat.zero_le _).trans_lt (pool.inside 0 0))
    refine (moveToFreeList_spec pool' present ?_ ?_ (by omega) ?_).returns ?_
    · rw [zero]
      exact ⟨rfl, rfl, fun _ _ _ => rfl⟩
    · intro member
      exact Nat.lt_irrefl _ (pool.old _ member)
    · intro l q
      exact Nat.ne_of_lt (pool.inside l q)
    · rintro - t ⟨pool'', top, layers, -, others⟩
      refine (ih pool'').returns fun _ u => ?_
      rintro ⟨rest, kept⟩
      refine ⟨rest, Kept.trans ⟨fun l q _ => ?_, ?_, ?_⟩ kept⟩
      · have := Nat.ne_of_lt (pool.inside l q)
        rw [others _ this, mem _ this]
      · rw [top, ← fresh]
      · rw [layers, ← fresh]

theorem trimLoop_spec (pool : Pool s free pos) {rounds : Nat} (enough : free.length < rounds) :
    wp (trimLoop rounds) (fun _ t => (∃ free', Pool t free' pos) ∧ Kept s t pos) never s := by
  induction rounds generalizing s free with
  | zero => omega
  | succ rounds ih =>
    simp only [trimLoop, wp_bind, wp_get, wp_ite, wp_pure]
    refine ⟨fun many => ?_, fun _ => ⟨⟨free, pool⟩, .refl⟩⟩
    refine (getFromFreeList_spec pool).returns fun p t => ?_
    rintro (⟨rfl, rfl, rfl⟩ | ⟨rest, rfl, taken⟩)
    · -- there are at least `idrFreeMax` layers
      have := pool.count
      rw [this] at many
      exact absurd many (by decide)
    · refine ⟨fun zero => absurd zero taken.present, fun _ => ?_⟩
      refine (ih taken.pool (by simpa using enough)).returns fun _ u => ?_
      rintro ⟨rest', kept⟩
      exact ⟨rest', taken.kept.trans kept⟩

end Pool

/-! ### States -/

/-- The state stands for `σ`, with the layers of its tree at `pos`. -/
structure Laid (s : IdrState) (pos : Nat → Nat → Nat) (σ : Slots) : Prop where
  pool : ∃ free, Pool s free pos
  tree : (s.top = 0 ∧ s.layers = 0 ∧ pos = (fun _ _ => 0) ∧ ∀ x, σ.used x = false) ∨
    ∃ h, s.layers = h + 1 ∧ Tree s.mem s.top h pos σ σ.Full

/-- The state stands for `σ`. -/
def Holds (s : IdrState) (σ : Slots) : Prop := ∃ pos, Laid s pos σ

theorem holds_init : Holds idrInit .empty := by
  refine ⟨fun _ _ => 0, ⟨[], ?_⟩, .inl ⟨rfl, rfl, rfl, fun _ => rfl⟩⟩
  constructor
  case chain => rfl
  case nodup => exact nodup_nil
  case count => rfl
  case inside => exact fun _ _ => Nat.one_pos
  all_goals
    intro a member
    cases member

theorem Laid.kept {s t : IdrState} {pos : Nat → Nat → Nat} {σ : Slots} (laid : Laid s pos σ)
    (pool : ∃ free, Pool t free pos) (kept : Kept s t pos) : Laid t pos σ := by
  refine ⟨pool, ?_⟩
  rw [kept.top, kept.layers]
  rcases laid.tree with empty | ⟨h, layers, tree⟩
  · exact .inl empty
  · exact .inr ⟨h, layers, tree.frame kept.mem⟩

end AndroidKernel.Idr
