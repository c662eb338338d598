import AndroidKernel.Pmem.Slots

/-!
What a walk over the slots sees, the slots that `pmem_setup` makes, and the order that a
length needs.
-/

namespace AndroidKernel.Pmem

open Lib Function BitVec

/-- The slots follow each other from `low` to `high`, each at a multiple of its size. -/
def Tiles (low high : Nat) : List Slot → Prop
  | [] => low = high
  | s :: rest => s.index = low ∧ 2 ^ s.order ∣ low ∧ Tiles (low + 2 ^ s.order) high rest

section Walk

variable {info info' : PmemInfo} {held held' : Nat → Option Nat} {rounds : Nat}
  {slot : Nat → Option Nat}

section

variable (tiled : Tiled info slot held)
include tiled

theorem walkLoop_tiles {curr : Nat} (enough : info.numEntries ≤ curr + rounds)
    (atSlot : AtSlot info slot curr) : Tiles curr info.numEntries (walkLoop info rounds curr) := by
  induction rounds generalizing curr with
  | zero =>
    rcases atSlot with rfl | ⟨o, there⟩
    · rfl
    · exact absurd (tiled.tiling.lt there) (by omega)
  | succ rounds ih =>
    rw [walkLoop]
    rcases atSlot with rfl | ⟨o, there⟩
    · rw [if_neg (Nat.lt_irrefl _)]
      rfl
    · have size := Nat.two_pow_pos o
      rw [if_pos (tiled.tiling.lt there), tiled.nextIndex there, tiled.order there]
      have later : info.numEntries ≤ curr + 2 ^ o + rounds := by omega
      exact ⟨rfl, tiled.tiling.aligned there, ih later (tiled.atSlot_next there)⟩

theorem mem_walkLoop {curr : Nat} (enough : info.numEntries ≤ curr + rounds)
    (atSlot : AtSlot info slot curr) {s : Slot} :
    s ∈ walkLoop info rounds curr ↔ slot s.index = some s.order ∧ curr ≤ s.index := by
  have outside : ∀ c, info.numEntries ≤ c → ¬(slot s.index = some s.order ∧ c ≤ s.index) := by
    rintro c after ⟨there, high⟩
    have := tiled.tiling.lt there
    omega
  induction rounds generalizing curr with
  | zero => exact ⟨fun member => absurd member List.not_mem_nil, fun found =>
    absurd found (outside _ enough)⟩
  | succ rounds ih =>
    rw [walkLoop]
    rcases atSlot with rfl | ⟨o, there⟩
    · grind
    have size := Nat.two_pow_pos o
    have later := ih (show info.numEntries ≤ curr + 2 ^ o + rounds by omega)
      (tiled.atSlot_next there)
    rw [if_pos (tiled.tiling.lt there), tiled.nextIndex there, tiled.order there, List.mem_cons]
    refine (or_congr_right later).trans ?_
    constructor
    · rintro (rfl | ⟨found, high⟩)
      · exact ⟨there, Nat.le_refl _⟩
      · exact ⟨found, by omega⟩
    rintro ⟨found, high⟩
    by_cases same : s.index = curr
    · rw [same, there, Option.some.injEq] at found
      refine .inl ?_
      rw [← same, found]
    · refine .inr ⟨found, ?_⟩
      by_contra low
      have := tiled.before_next there found (by omega) same
      omega

theorem Tiled.tiles_walk : Tiles 0 info.numEntries info.walk :=
  walkLoop_tiles tiled (Nat.le_add_left _ _) tiled.atSlot_zero

theorem Tiled.mem_walk {s : Slot} : s ∈ info.walk ↔ slot s.index = some s.order := by
  rw [PmemInfo.walk, mem_walkLoop tiled (Nat.le_add_left _ _) tiled.atSlot_zero]
  exact ⟨And.left, fun there => ⟨there, Nat.zero_le _⟩⟩

/-- The walk depends on the slots only. -/
theorem Tiled.walk_eq (tiled' : Tiled info' slot held')
    (entries : info.numEntries = info'.numEntries) : info.walk = info'.walk := by
  have loops : ∀ rounds curr, AtSlot info slot curr →
      walkLoop info rounds curr = walkLoop info' rounds curr := by
    intro rounds
    induction rounds with
    | zero => exact fun _ _ => rfl
    | succ rounds ih =>
      intro curr atSlot
      rw [walkLoop, walkLoop, ← entries]
      rcases atSlot with rfl | ⟨o, there⟩
      · rw [if_neg (Nat.lt_irrefl _), if_neg (Nat.lt_irrefl _)]
      · rw [tiled.nextIndex there, tiled'.nextIndex there, tiled.order there,
          tiled'.order there, ih _ (tiled.atSlot_next there)]
  rw [PmemInfo.walk, PmemInfo.walk, ← entries]
  exact loops _ _ tiled.atSlot_zero

end

end Walk

/-! ### Setting up -/

theorem base_eq_add_testBit (n i : Nat) :
    base n i = base n (i + 1) + if n.testBit i then 2 ^ i else 0 := by
  have quotient : n / 2 ^ (i + 1) = n / 2 ^ i / 2 := by
    rw [Nat.pow_succ, Nat.div_div_eq_div_mul]
  have halves : n / 2 ^ i = n / 2 ^ i / 2 * 2 + n / 2 ^ i % 2 := by omega
  simp only [base, quotient, Nat.testBit_eq_decide_div_mod_eq, decide_eq_true_eq]
  generalize n / 2 ^ i = q at halves ⊢
  split_ifs with odd
  · rw [odd] at halves
    calc q * 2 ^ i = (q / 2 * 2 + 1) * 2 ^ i := by rw [← halves]
      _ = q / 2 * 2 ^ (i + 1) + 2 ^ i := by ring
  · have even : q = q / 2 * 2 := by omega
    calc q * 2 ^ i = q / 2 * 2 * 2 ^ i := by rw [← even]
      _ = q / 2 * 2 ^ (i + 1) + 0 := by ring

/-- The slots that the loop has made before it looks at bit `i - 1`. -/
structure SetUp (info : PmemInfo) (i : Nat) (slot : Nat → Option Nat) : Prop where
  tiling : Tiling (base info.numEntries i) slot
  order : ∀ {p o}, slot p = some o → info.order p = o
  high : ∀ {p o}, slot p = some o → i ≤ o
  alone : ∀ {p q o}, slot p = some o → slot q = some o → p = q

theorem SetUp.push {info : PmemInfo} {i : Nat}
    (setUp : SetUp info (i + 1) slot) (bit : info.numEntries.testBit i = true) :
    SetUp (info.setOrder (base info.numEntries (i + 1)) i) i
      (update slot (base info.numEntries (i + 1)) (some i)) := by
  have size := Nat.two_pow_pos i
  have next := base_eq_add_testBit info.numEntries i
  rw [bit, if_pos rfl] at next
  have low : base info.numEntries (i + 1) < info.numEntries := by
    have := @base_le info.numEntries i
    omega
  have cases : ∀ {p o}, update slot (base info.numEntries (i + 1)) (some i) p = some o →
      p = base info.numEntries (i + 1) ∧ o = i ∨
        p ≠ base info.numEntries (i + 1) ∧ slot p = some o := by grind
  refine ⟨?_, fun found => ?_, fun found => ?_, fun first second => ?_⟩
  · rw [numEntries_setOrder, next]
    exact setUp.tiling.append (dvd_of_succ dvd_base)
  · rcases cases found with ⟨rfl, rfl⟩ | ⟨other, old⟩
    · exact order_setOrder_self low
    · rw [order_setOrder_of_ne other, setUp.order old]
  · rcases cases found with ⟨-, rfl⟩ | ⟨-, old⟩
    · exact Nat.le_refl _
    · exact (Nat.le_succ i).trans (setUp.high old)
  · rcases cases first with ⟨rfl, rfl⟩ | ⟨-, old⟩
    · rcases cases second with ⟨rfl, -⟩ | ⟨-, old'⟩
      · rfl
      · exact absurd (setUp.high old') (by omega)
    · rcases cases second with ⟨-, rfl⟩ | ⟨-, old'⟩
      · exact absurd (setUp.high old) (by omega)
      · exact setUp.alone old old'

theorem setupLoop_spec {info : PmemInfo} {i : Nat}
    (setUp : SetUp info i slot) :
    ∃ slot', SetUp (setupLoop i (base info.numEntries i) info) 0 slot' ∧
      (setupLoop i (base info.numEntries i) info).numEntries = info.numEntries ∧
      (setupLoop i (base info.numEntries i) info).noAllocator = info.noAllocator ∧
      ∀ p, (setupLoop i (base info.numEntries i) info).isFree p ↔ info.isFree p := by
  induction i generalizing info slot with
  | zero => exact ⟨slot, setUp, rfl, rfl, fun _ => Iff.rfl⟩
  | succ i ih =>
    have next := base_eq_add_testBit info.numEntries i
    rw [setupLoop]
    cases bit : info.numEntries.testBit i with
    | true =>
      rw [bit, if_pos rfl] at next
      have setUp' := setUp.push bit
      have index : (info.setOrder (base info.numEntries (i + 1)) i).nextIndex
          (base info.numEntries (i + 1)) = base info.numEntries i := by
        rw [PmemInfo.nextIndex, setUp'.order (update_self ..), next]
      simp only [if_true, index]
      obtain ⟨slot', done, entries, mode, free⟩ := ih setUp'
      exact ⟨slot', done, entries, mode, fun p => (free p).trans isFree_setOrder⟩
    | false =>
      rw [bit] at next
      simp only [Bool.false_eq_true, if_false, Nat.add_zero] at next ⊢
      rw [← next]
      exact ih ⟨next ▸ setUp.tiling, setUp.order, fun found =>
        (Nat.le_succ i).trans (setUp.high found), setUp.alone⟩

theorem numEntries_lt (size : BitVec 32) : size.toNat / minAlloc < 2 ^ 20 := by
  rw [minAlloc]
  omega

/-- The slots of `pmem_setup`: all are free, and no two have the same order. -/
theorem pmemSetup_spec (size : BitVec 32) (noAllocator : Bool) :
    ∃ slot, Tiled (pmemSetup size noAllocator) slot (fun _ => none) ∧
      Joined slot (fun _ => none) ∅ ∧
      (pmemSetup size noAllocator).numEntries = size.toNat / minAlloc ∧
      (pmemSetup size noAllocator).noAllocator = noAllocator := by
  have small := numEntries_lt size
  have none : base (size.toNat / minAlloc) 32 = 0 := by
    rw [base, Nat.div_eq_of_lt (by omega), Nat.zero_mul]
  have empty : SetUp ⟨size, size.toNat / minAlloc, fun _ => ⟨false, 0⟩, noAllocator, false⟩ 32
      fun _ => .none := by
    refine ⟨?_, fun found => ?_, fun found => ?_, fun found => ?_⟩
    · rw [none]
      exact Tiling.empty
    all_goals exact absurd found (Option.some_ne_none _).symm
  obtain ⟨slot, setUp, entries, mode, free⟩ := setupLoop_spec empty
  simp only [none] at setUp entries mode free
  have whole : base (pmemSetup size noAllocator).numEntries 0 =
      (pmemSetup size noAllocator).numEntries := base_zero
  refine ⟨slot, ⟨whole ▸ setUp.tiling, setUp.order, fun found => ?_, fun {p} low => ?_⟩,
    fun first second => ?_, entries, mode⟩
  · exact absurd found (Option.some_ne_none _).symm
  · refine ⟨fun _ => rfl, fun _ => (free p).mpr ?_⟩
    rw [PmemInfo.isFree, PmemInfo.entry, if_pos (entries ▸ low)]
  · exact absurd (setUp.alone second.1 first.1) buddy_ne

/-! ### The order of a length -/

/-- The pages that a length takes. -/
def pages (len : BitVec 32) : Nat := (len.toNat + minAlloc - 1) / minAlloc

/-- The order of the smallest slots for a length; a length of no pages needs none. -/
def Needs (len : BitVec 32) (o : Nat) : Prop := pages len ≤ 2 ^ o ∧ 2 ^ o < 2 * pages len

theorem orderLoop_eq (v : BitVec 32) {i : Nat} (all : i + rounds = 32)
    (low : i ≤ v.toNat.size) : orderLoop v rounds i = v.toNat.size := by
  have bound : v.toNat.size ≤ 32 := Nat.size_le.mpr v.isLt
  induction rounds generalizing i with
  | zero =>
    rw [orderLoop]
    omega
  | succ rounds ih =>
    have shifted : v >>> i = 0 ↔ v.toNat.size ≤ i := by
      rw [Nat.size_le, ← toNat_inj, toNat_ushiftRight, Nat.shiftRight_eq_div_pow]
      exact Nat.div_eq_zero_iff_lt (Nat.two_pow_pos i)
    rw [orderLoop]
    simp only [shifted]
    split_ifs with done
    · omega
    · exact ih (by omega) (by omega)

theorem pmemOrder_eq (len : BitVec 32) :
    pmemOrder len = ((len + BitVec.ofNat 32 minAlloc - 1) / BitVec.ofNat 32 minAlloc - 1).toNat.size :=
  orderLoop_eq _ rfl (Nat.zero_le _)

/-- For lengths whose rounding up does not wrap around. -/
theorem pmemOrder_regular (some : 0 < len.toNat)
    (regular : len.toNat + minAlloc ≤ 2 ^ 32) : pmemOrder len = (pages len - 1).size := by
  rw [pmemOrder_eq]
  congr 1
  rw [minAlloc] at regular
  rw [pages, minAlloc]
  simp only [toNat_sub, toNat_udiv, toNat_add, toNat_ofNat,
    BitVec.reduceToNat, Nat.reducePow, Nat.reduceMod, Nat.reduceSub]
  omega

theorem pmemOrder_irregular
    (irregular : len.toNat = 0 ∨ 2 ^ 32 < len.toNat + minAlloc) : pmemOrder len = 32 := by
  have all : ((len + BitVec.ofNat 32 minAlloc - 1) / BitVec.ofNat 32 minAlloc - 1).toNat =
      2 ^ 32 - 1 := by
    rw [minAlloc] at irregular ⊢
    simp only [toNat_sub, toNat_udiv, toNat_add, toNat_ofNat,
    BitVec.reduceToNat, Nat.reducePow, Nat.reduceMod, Nat.reduceSub]
    omega
  rw [pmemOrder_eq, all]
  decide +kernel

theorem pmemOrder_le (len : BitVec 32) : pmemOrder len ≤ 32 := by
  rw [pmemOrder_eq]
  exact Nat.size_le.mpr (BitVec.isLt _)

/-- A slot of the region that is large enough for `pmem_order` has the order that is needed. -/
theorem needs_pmemOrder (small : pmemOrder len < 32) :
    Needs len (pmemOrder len) := by
  by_cases irregular : len.toNat = 0 ∨ 2 ^ 32 < len.toNat + minAlloc
  · exact absurd (pmemOrder_irregular irregular) small.ne
  have some : 0 < len.toNat := by omega
  have page : 0 < pages len := by
    rw [pages, minAlloc]
    omega
  rw [pmemOrder_regular some (by omega)]
  constructor
  · have := Nat.lt_size_self (pages len - 1)
    omega
  rcases Nat.eq_zero_or_pos (pages len - 1) with one | more
  · rw [one, Nat.size_zero]
    omega
  obtain ⟨k, top⟩ : ∃ k, (pages len - 1).size = k + 1 :=
    ⟨_, (Nat.succ_pred_eq_of_pos (Nat.size_pos.mpr more)).symm⟩
  have : 2 ^ k ≤ pages len - 1 := Nat.lt_size.mp (top ▸ Nat.lt_succ_self k)
  rw [top, Nat.pow_succ]
  omega

/-- No order below that of `pmem_order` that a slot of the region can have is enough. -/
theorem pmemOrder_le_of_needs {o : Nat} (needs : Needs len o) (small : o < 20) :
    pmemOrder len ≤ o := by
  have bound : 2 ^ o < 2 ^ 20 := Nat.pow_lt_pow_right (by omega) small
  obtain ⟨enough, few⟩ := needs
  have some : 0 < pages len := by omega
  have regular : 0 < len.toNat ∧ len.toNat + minAlloc ≤ 2 ^ 32 := by
    rw [pages, minAlloc] at some enough
    rw [minAlloc]
    omega
  rw [pmemOrder_regular regular.1 regular.2, Nat.size_le]
  omega

end AndroidKernel.Pmem
