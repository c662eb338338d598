import AndroidKernel.Bootmem.Marks

/-!
The search for free pages, and the place of the new block.

`findBlock` gives the first aligned run of free pages, or there is none. The block
starts on the first of them, or before it in the page where the last block ended.
-/

namespace AndroidKernel.Bootmem

open Lib

section Bits

variable {map : Nat → Bool} {n idx : Nat}

theorem zeroLoop_spec (map : Nat → Bool) (n idx : Nat) : idx ≤ zeroLoop map n idx ∧ zeroLoop map n idx ≤ idx + n ∧
    ∀ j, idx ≤ j → j < zeroLoop map n idx → map j = true := by
  induction n generalizing idx with
  | zero => exact ⟨le_rfl, le_rfl, fun j above below => absurd below (by rw [zeroLoop]; omega)⟩
  | succ n ih =>
    rw [zeroLoop]
    by_cases set : map idx = true
    · grind
    · rw [if_neg set]
      exact ⟨le_rfl, by omega, fun j low high => by omega⟩

/-- Clear bits are at or after the one that is found. -/
theorem findNextZeroBit_spec (map : Nat → Bool) (size offset : Word) :
    (findNextZeroBit map size offset).toNat ≤ size.toNat ∧
      (offset.toNat ≤ (findNextZeroBit map size offset).toNat ∨
        findNextZeroBit map size offset = size) ∧
      ∀ c, offset.toNat ≤ c → c < size.toNat → map c = false →
        (findNextZeroBit map size offset).toNat ≤ c := by
  unfold findNextZeroBit
  by_cases past : size ≤ offset
  · rw [if_pos past]
    exact ⟨le_rfl, .inr rfl, fun c low high _ => by bv_omega⟩
  have range : offset.toNat < size.toNat := by bv_omega
  obtain ⟨above, below, marked⟩ := zeroLoop_spec map (size.toNat - offset.toNat) offset.toNat
  have := size.isLt
  rw [if_neg past, toNat_offset (by omega)]
  refine ⟨by omega, .inl above, fun c low high clear => ?_⟩
  by_contra! before
  rw [marked c low before] at clear
  cases clear

theorem firstSet_none (none : firstSet map n idx = none) : ∀ j, idx ≤ j → j < idx + n → map j = false := by
  induction n generalizing idx with
  | zero => exact fun j low high => by omega
  | succ n ih =>
    rw [firstSet] at none
    by_cases set : map idx = true
    · rw [if_pos set] at none
      cases none
    · grind

theorem firstSet_some {i : Nat} (found : firstSet map n idx = some i) :
    idx ≤ i ∧ i < idx + n ∧ map i = true := by
  induction n generalizing idx with
  | zero => cases found
  | succ n ih => grind [firstSet]

end Bits

/-! ### Runs of free pages -/

/-- The pages from `c` on are free, up to the bound, and aligned. -/
structure FreeRun (b : Bdata) (step need midx c : Nat) : Prop where
  aligned : step ∣ b.nodeMinPfn.toNat + c
  within : c + need ≤ midx
  clear : ∀ j, c ≤ j → j < c + need → b.nodeBootmemMap j = false

section Search

variable {b : Bdata} {size step midx sidx : Word} {k : Nat}

theorem toNat_alignIdx (idx : Word) (proper : b.Proper) (power : step.toNat = 2 ^ k) (small : step.toNat ≤ 2 ^ 19)
    (near : idx.toNat < 2 ^ 21) :
    (alignIdx b idx step).toNat = roundUp (b.nodeMinPfn.toNat + idx.toNat) step.toNat - b.nodeMinPfn.toNat := by
  have first := proper.nonempty
  have last := proper.below
  have sum : (b.nodeMinPfn + idx).toNat = b.nodeMinPfn.toNat + idx.toNat := by bv_omega
  have positive : 0 < step.toNat := power ▸ Nat.two_pow_pos k
  have rounded := toNat_alignUp (x := b.nodeMinPfn + idx) power (by omega)
  have lower := le_roundUp (x := b.nodeMinPfn.toNat + idx.toNat) positive
  rw [sum] at rounded
  rw [alignIdx]
  bv_omega

/-- The answer of the search from `sidx` on. -/
def Found (b : Bdata) (step need midx sidx : Nat) : Option Word → Prop
  | some c => FreeRun b step need midx c.toNat
  | none => ∀ c, sidx ≤ c → ¬FreeRun b step need midx c

theorem Found.mono {need start start' bound : Nat} {r : Option Word}
    (found : Found b step.toNat need bound start' r)
    (skip : ∀ c, start ≤ c → FreeRun b step.toNat need bound c → start' ≤ c) :
    Found b step.toNat need bound start r := by
  cases r with
  | some c => exact found
  | none => exact fun c above run => found c (skip c above run) run

theorem findBlock_spec {rounds : Nat} (proper : b.Proper) (power : step.toNat = 2 ^ k)
    (small : step.toNat ≤ 2 ^ 19) (needed : 0 < (pfnUp size).toNat) (short : (pfnUp size).toNat ≤ 2 ^ 20)
    (within : midx.toNat ≤ b.pages) (near : sidx.toNat < 2 ^ 21) (enough : midx.toNat - sidx.toNat < rounds) :
    ∃ r, findBlock b size step midx rounds sidx = .ok r ∧
      Found b step.toNat (pfnUp size).toNat midx.toNat sidx.toNat r := by
  induction rounds generalizing sidx with
  | zero => omega
  | succ rounds ih =>
    have positive : 0 < step.toNat := power ▸ Nat.two_pow_pos k
    have pages : b.pages < 2 ^ 20 := by
      have := proper.below
      unfold Bdata.pages
      omega
    obtain ⟨bound, after, least⟩ := findNextZeroBit_spec b.nodeBootmemMap midx sidx
    rw [findBlock]
    generalize findNextZeroBit b.nodeBootmemMap midx sidx = z at bound after least
    have here := toNat_alignIdx z proper power small (by omega)
    have lower := le_roundUp (x := b.nodeMinPfn.toNat + z.toNat) positive
    have upper := roundUp_lt (x := b.nodeMinPfn.toNat + z.toNat) positive
    generalize alignIdx b z step = a at here
    have stop : (a + pfnUp size).toNat = a.toNat + (pfnUp size).toNat := by
      bv_omega
    -- no run starts before `a`
    have skip : ∀ c, sidx.toNat ≤ c → FreeRun b step.toNat (pfnUp size).toNat midx.toNat c → a.toNat ≤ c := by
      intro c above run
      have within := run.within
      have zero := least c above (by omega) (run.clear c le_rfl (by omega))
      have := roundUp_le positive run.aligned (x := b.nodeMinPfn.toNat + z.toNat) (by omega)
      omega
    by_cases out : midx ≤ a ∨ midx < a + pfnUp size
    · rw [if_pos out]
      refine ⟨none, rfl, fun c above run => ?_⟩
      have := skip c above run
      have within := run.within
      rcases out with out | out <;> bv_omega
    rw [if_neg out]
    rw [not_or] at out
    obtain ⟨outA, outE⟩ := out
    have count : (a + pfnUp size).toNat - a.toNat = (pfnUp size).toNat := by omega
    have inside : a.toNat + (pfnUp size).toNat ≤ midx.toNat := by bv_omega
    cases bit : firstSet b.nodeBootmemMap ((a + pfnUp size).toNat - a.toNat) a.toNat with
    | none =>
      rw [count] at bit
      refine ⟨some a, rfl, ?_, inside, firstSet_none bit⟩
      have : b.nodeMinPfn.toNat + a.toNat = roundUp (b.nodeMinPfn.toNat + z.toNat) step.toNat := by
        omega
      rw [this]
      exact dvd_roundUp
    | some i =>
      rw [count] at bit
      obtain ⟨low, high, marked⟩ := firstSet_some bit
      have index : (BitVec.ofNat 32 i).toNat = i := toNat_offset (by omega)
      have next := toNat_alignIdx (BitVec.ofNat 32 i) proper power small (by omega)
      rw [index] at next
      have lower' := le_roundUp (x := b.nodeMinPfn.toNat + i) positive
      have upper' := roundUp_lt (x := b.nodeMinPfn.toNat + i) positive
      dsimp only
      generalize alignIdx b (BitVec.ofNat 32 i) step = a' at next
      -- every run that starts at `i` or before contains it
      have later : ∀ c, sidx.toNat ≤ c →
          FreeRun b step.toNat (pfnUp size).toNat midx.toNat c → i < c ∧ a'.toNat ≤ c := by
        intro c above run
        have := skip c above run
        have past : i < c := by
          by_contra! before
          rw [run.clear i before (by omega)] at marked
          cases marked
        have := roundUp_le positive run.aligned (x := b.nodeMinPfn.toNat + i) (by omega)
        exact ⟨past, by omega⟩
      have before : sidx.toNat ≤ a.toNat := by
        rcases after with after | rfl
        · omega
        · bv_omega
      by_cases same : a' = BitVec.ofNat 32 i
      · rw [if_pos same]
        rw [same, index] at next
        have sum : (a' + step).toNat = i + step.toNat := by
          bv_omega
        obtain ⟨r, run, found⟩ := @ih (a' + step) (by omega) (by omega)
        refine ⟨r, run, found.mono fun c above free => ?_⟩
        have past := (later c above free).1
        have self : step.toNat ∣ b.nodeMinPfn.toNat + i := by
          rw [show b.nodeMinPfn.toNat + i = roundUp (b.nodeMinPfn.toNat + i) step.toNat by omega]
          exact dvd_roundUp
        have gap := (Nat.dvd_sub free.aligned self)
        have := Nat.le_of_dvd (by omega) gap
        omega
      · rw [if_neg same]
        have other : a'.toNat ≠ i := by
          intro eq
          exact same (BitVec.eq_of_toNat_eq (eq.trans index.symm))
        obtain ⟨r, run, found⟩ := @ih a' (by omega) (by omega)
        exact ⟨r, run, found.mono fun c above free => (later c above free).2⟩

end Search

/-! ### Requests -/

/-- A size that can be rounded up to pages, and a power of two as alignment. -/
structure Request.Sane (r : Request) (k : Nat) : Prop where
  some : 0 < r.size.toNat
  rounds : r.size.toNat + 4095 < 2 ^ 32
  power : r.align.toNat = 2 ^ k

/-- The pages that are needed. -/
def Request.need (r : Request) : Nat := (r.size.toNat + 4095) / 4096

/-- The alignment in pages. -/
def Request.step (r : Request) : Nat := max (r.align.toNat / 4096) 1

/-- The frame after the last one that may be used, on a node that ends at `stop`. -/
def Request.maxFrame (r : Request) (stop : Nat) : Nat :=
  if r.limit.toNat / 4096 = 0 then stop else min stop (r.limit.toNat / 4096)

/-- The first frame to search from. -/
def Request.startFrame (r : Request) (first stop : Nat) : Nat :=
  roundUp (if first < r.goal.toNat / 4096 ∧ r.goal.toNat / 4096 < r.maxFrame stop then
    r.goal.toNat / 4096 else first) r.step

section Requests

variable {b : Bdata} {r : Request} {k : Nat}

theorem toNat_shift (x : Word) : (x >>> 12).toNat = x.toNat / 4096 := toNat_pfnDown

theorem toNat_pageStep : (pageStep r.align).toNat = r.step := by
  unfold pageStep Request.step
  by_cases page : (1 : Word) ≤ r.align >>> 12
  · rw [if_pos page]
    bv_omega
  · rw [if_neg page]
    bv_omega

theorem toNat_maxPfn : (maxPfn b r.limit).toNat = r.maxFrame b.nodeLowPfn.toNat := by
  unfold maxPfn Request.maxFrame
  by_cases lower : r.limit >>> 12 ≠ 0 ∧ r.limit >>> 12 < b.nodeLowPfn
  · obtain ⟨some, before⟩ := lower
    rw [if_pos ⟨some, before⟩, if_neg (by bv_omega)]
    bv_omega
  rw [if_neg lower]
  by_cases none : r.limit.toNat / 4096 = 0
  · rw [if_pos none]
  · rw [if_neg none]
    bv_omega

theorem Request.maxFrame_le (stop : Nat) : r.maxFrame stop ≤ stop := by
  unfold Request.maxFrame
  split
  · exact le_rfl
  · exact Nat.min_le_left ..

theorem toNat_tail (x : Word) : (x &&& 4095).toNat = x.toNat % 4096 := by
  exact Nat.and_two_pow_sub_one_eq_mod x.toNat 12

variable (proper : b.Proper) (sane : r.Sane k) (hint : b.hintIdx.toNat ≤ b.pages)
include sane

theorem Request.Sane.lt : k < 32 := by
  have := r.align.isLt
  rw [sane.power] at this
  exact (Nat.pow_lt_pow_iff_right (by norm_num)).mp this

theorem Request.Sane.step_eq : r.step = 2 ^ (k - 12) := by
  rw [Request.step, sane.power]
  by_cases small : k < 12
  · have less : 2 ^ k < 4096 := Nat.pow_lt_pow_right (by norm_num) small
    rw [Nat.div_eq_of_lt less, show k - 12 = 0 by omega]
    rfl
  · have quotient : 2 ^ k / 4096 = 2 ^ (k - 12) := Nat.pow_div (m := k) (n := 12) (by omega) (by norm_num)
    rw [quotient]
    exact max_eq_left Nat.one_le_two_pow

theorem Request.Sane.step_le : r.step ≤ 2 ^ 19 := by
  have := sane.lt
  rw [sane.step_eq]
  exact Nat.pow_le_pow_right (by norm_num) (by omega)

theorem Request.Sane.toNat_pfnUp : (pfnUp r.size).toNat = r.need :=
  Bootmem.toNat_pfnUp sane.rounds

theorem Request.Sane.need_pos : 0 < r.need ∧ r.need ≤ 2 ^ 20 := by
  have := sane.some
  unfold Request.need
  omega

theorem Request.Sane.startFrame (first stop : Nat) :
    first ≤ r.startFrame first stop ∧ r.step ∣ r.startFrame first stop ∧
      (first < 2 ^ 20 → r.startFrame first stop < 2 ^ 20 + 2 ^ 19) := by
  have positive : 0 < r.step := sane.step_eq ▸ Nat.two_pow_pos _
  have small := sane.step_le
  have goal := r.goal.isLt
  unfold Request.startFrame
  refine ⟨?_, dvd_roundUp, fun below => ?_⟩
  · split
    case isTrue inside =>
      exact inside.1.le.trans (le_roundUp positive)
    case isFalse => exact le_roundUp positive
  · split
    case isTrue =>
      have := roundUp_lt (x := r.goal.toNat / 4096) positive
      omega
    case isFalse =>
      have := roundUp_lt (x := first) positive
      omega

/-- Pages that are aligned for a request start at an aligned address. -/
theorem Request.Sane.dvd_page {p : Nat} (aligned : r.step ∣ p) : r.align.toNat ∣ p * 4096 := by
  rw [sane.power]
  by_cases small : k ≤ 12
  · exact (Nat.pow_dvd_pow 2 small).mul_left p
  rw [sane.step_eq] at aligned
  have split : 2 ^ k = 2 ^ (k - 12) * 4096 := by
    rw [show 4096 = 2 ^ 12 from rfl, ← Nat.pow_add]
    congr 1
    omega
  rw [split]
  exact Nat.mul_dvd_mul_right aligned 4096

include proper

theorem toNat_startPfn :
    (startPfn b r).toNat = r.startFrame b.nodeMinPfn.toNat b.nodeLowPfn.toNat := by
  have first := proper.nonempty
  have last := proper.below
  have step := sane.step_le
  have power : (pageStep r.align).toNat = 2 ^ (k - 12) := toNat_pageStep.trans sane.step_eq
  have goal := toNat_shift r.goal
  have max := toNat_maxPfn (b := b) (r := r)
  have round : ∀ x : Word, x.toNat < 2 ^ 20 →
      (alignUp x (pageStep r.align)).toNat = roundUp x.toNat r.step := by
    intro x small
    rw [toNat_alignUp power (by rw [toNat_pageStep]; omega), toNat_pageStep]
  have same : (r.goal >>> 12 ≠ 0 ∧ b.nodeMinPfn < r.goal >>> 12 ∧ r.goal >>> 12 < maxPfn b r.limit) ↔
      b.nodeMinPfn.toNat < r.goal.toNat / 4096 ∧
        r.goal.toNat / 4096 < r.maxFrame b.nodeLowPfn.toNat := by
    rw [← max, ← goal]
    constructor
    · rintro ⟨-, low, high⟩
      exact ⟨low, high⟩
    · rintro ⟨low, high⟩
      exact ⟨by bv_omega, low, high⟩
  unfold startPfn Request.startFrame
  by_cases inside : b.nodeMinPfn.toNat < r.goal.toNat / 4096 ∧
      r.goal.toNat / 4096 < r.maxFrame b.nodeLowPfn.toNat
  · rw [if_pos (same.mpr inside), if_pos inside, round _ (by omega), goal]
  · rw [if_neg (fun holds => inside (same.mp holds)), if_neg inside, round _ (by omega)]

include hint in
theorem findPages_spec (inside : b.nodeMinPfn.toNat < r.maxFrame b.nodeLowPfn.toNat) :
    ∃ res, findPages b r = .ok res ∧
      Found b r.step r.need (r.maxFrame b.nodeLowPfn.toNat - b.nodeMinPfn.toNat)
        (r.startFrame b.nodeMinPfn.toNat b.nodeLowPfn.toNat - b.nodeMinPfn.toNat) res := by
  have first := proper.nonempty
  have last := proper.below
  have pages : b.pages < 2 ^ 20 := by
    unfold Bdata.pages
    omega
  have bound := r.maxFrame_le b.nodeLowPfn.toNat
  obtain ⟨above, aligned, near⟩ := sane.startFrame b.nodeMinPfn.toNat b.nodeLowPfn.toNat
  have step := toNat_pageStep (r := r)
  have power : (pageStep r.align).toNat = 2 ^ (k - 12) := step.trans sane.step_eq
  have small : (pageStep r.align).toNat ≤ 2 ^ 19 := step ▸ sane.step_le
  have positive : 0 < r.step := sane.step_eq ▸ Nat.two_pow_pos _
  have need := sane.toNat_pfnUp
  have needed := sane.need_pos
  have sidx : (startPfn b r - b.nodeMinPfn).toNat =
      r.startFrame b.nodeMinPfn.toNat b.nodeLowPfn.toNat - b.nodeMinPfn.toNat := by
    have := toNat_startPfn proper sane
    bv_omega
  have midx : (maxPfn b r.limit - b.nodeMinPfn).toNat =
      r.maxFrame b.nodeLowPfn.toNat - b.nodeMinPfn.toNat := by
    have := toNat_maxPfn (b := b) (r := r)
    bv_omega
  have run : ∀ s : Word, s.toNat < 2 ^ 21 →
      ∃ res, findBlock b r.size (pageStep r.align) (maxPfn b r.limit - b.nodeMinPfn) maxRounds s = .ok res ∧
        Found b r.step r.need (r.maxFrame b.nodeLowPfn.toNat - b.nodeMinPfn.toNat) s.toNat res := by
    intro s close
    rw [← step, ← need, ← midx]
    refine findBlock_spec proper power small (by omega) (by omega) ?_ close ?_
    · unfold Bdata.pages
      omega
    · unfold maxRounds
      omega
  rw [← sidx]
  unfold findPages
  dsimp only
  by_cases hinted : startPfn b r - b.nodeMinPfn < b.hintIdx
  · rw [if_pos hinted]
    have atHint := toNat_alignIdx b.hintIdx proper power small (by omega)
    have upper := roundUp_lt (x := b.nodeMinPfn.toNat + b.hintIdx.toNat) (a := (pageStep r.align).toNat)
      (by omega)
    obtain ⟨res, ran, found⟩ := run (alignIdx b b.hintIdx (pageStep r.align)) (by omega)
    cases res with
    | some c => exact ⟨some c, by rw [ran]; rfl, found⟩
    | none =>
      -- the start is aligned already
      have start : alignIdx b (startPfn b r - b.nodeMinPfn + 1 - 1) (pageStep r.align) =
          startPfn b r - b.nodeMinPfn := by
        apply BitVec.eq_of_toNat_eq
        rw [BitVec.add_sub_cancel, toNat_alignIdx _ proper power small (by omega), sidx, step,
          Nat.add_sub_cancel' above, roundUp_of_dvd positive aligned]
      obtain ⟨res, ran', found'⟩ := run (startPfn b r - b.nodeMinPfn) (by omega)
      refine ⟨res, ?_, found'⟩
      rw [ran, start]
      exact ran'
  · rw [if_neg hinted]
    exact run (startPfn b r - b.nodeMinPfn) (by omega)

/-! ### The new block -/

/-- Where a block starts in its node: on a page, or after the end of the last block in
the page before. -/
def Starts (b : Bdata) (c off : Nat) : Prop :=
  off = c * 4096 ∨ b.lastEndOff.toNat % 4096 ≠ 0 ∧ b.lastEndOff.toNat / 4096 + 1 = c ∧
    b.lastEndOff.toNat ≤ off ∧ off ≤ c * 4096

theorem startOff_spec {sidx : Word} (aligned : r.step ∣ b.nodeMinPfn.toNat + sidx.toNat)
    (inside : sidx.toNat < b.pages) :
    Starts b sidx.toNat (startOff b sidx r.align).toNat ∧
      r.align.toNat ∣ b.nodeMinPfn.toNat * 4096 + (startOff b sidx r.align).toNat := by
  have first := proper.nonempty
  have last := proper.below
  unfold Bdata.pages at inside
  have page := sane.dvd_page aligned
  have down := toNat_pfnDown (x := b.lastEndOff)
  have positive : 0 < r.align.toNat := sane.power ▸ Nat.two_pow_pos k
  unfold startOff
  by_cases shared : b.lastEndOff &&& 4095 ≠ 0 ∧ pfnDown b.lastEndOff + 1 = sidx
  · obtain ⟨part, next⟩ := shared
    have partly : b.lastEndOff.toNat % 4096 ≠ 0 := by
      rw [← toNat_tail b.lastEndOff]
      intro zero
      exact part (BitVec.eq_of_toNat_eq zero)
    have isNext : b.lastEndOff.toNat / 4096 + 1 = sidx.toNat := by bv_omega
    rw [if_pos ⟨part, next⟩]
    have base : (pfnPhys b.nodeMinPfn).toNat = b.nodeMinPfn.toNat * 4096 := toNat_pfnPhys (by omega)
    have sum : (pfnPhys b.nodeMinPfn + b.lastEndOff).toNat =
        b.nodeMinPfn.toNat * 4096 + b.lastEndOff.toNat := by bv_omega
    have le := roundUp_le positive page (x := b.nodeMinPfn.toNat * 4096 + b.lastEndOff.toNat) (by omega)
    rw [Nat.add_mul] at page le
    -- the address of the pages is a multiple of the alignment, so nothing wraps
    have room : r.align.toNat ≤ 2 ^ 32 - (b.nodeMinPfn.toNat * 4096 + sidx.toNat * 4096) := by
      have top : r.align.toNat ∣ 2 ^ 32 := sane.power ▸ Nat.pow_dvd_pow 2 sane.lt.le
      exact Nat.le_of_dvd (by omega) (Nat.dvd_sub top page)
    have ge := le_roundUp (x := b.nodeMinPfn.toNat * 4096 + b.lastEndOff.toNat) positive
    have rounded := toNat_alignUp (x := pfnPhys b.nodeMinPfn + b.lastEndOff) sane.power (by omega)
    rw [sum] at rounded
    have off : (alignOff b b.lastEndOff r.align).toNat =
        roundUp (b.nodeMinPfn.toNat * 4096 + b.lastEndOff.toNat) r.align.toNat - b.nodeMinPfn.toNat * 4096 := by
      unfold alignOff
      bv_omega
    refine ⟨.inr ⟨partly, isNext, by omega, by omega⟩, ?_⟩
    rw [off, Nat.add_sub_cancel' ((Nat.le_add_right ..).trans ge)]
    exact dvd_roundUp
  · rw [if_neg shared, toNat_pfnPhys (by omega)]
    refine ⟨.inl rfl, ?_⟩
    rwa [← Nat.add_mul]

/-- What the node is like after a block of `size` bytes is taken at `off`, on the pages
from `c` on. -/
structure Taken (b : Bdata) (c off size : Nat) (b' : Bdata) : Prop where
  first : b'.nodeMinPfn = b.nodeMinPfn
  stop : b'.nodeLowPfn = b.nodeLowPfn
  lastEnd : b'.lastEndOff.toNat = off + size
  hint : b'.hintIdx.toNat ≤ (off + size + 4095) / 4096
  map : b'.nodeBootmemMap = mark b.nodeBootmemMap c ((off + size + 4095) / 4096) true

theorem takeBlock_spec {sidx : Word} {midx : Nat} {never : Bug → Prop} (within : midx ≤ b.pages)
    (run : FreeRun b r.step r.need midx sidx.toNat) :
    wp (takeBlock r.size r.align sidx) (fun address b' => ∃ off, Starts b sidx.toNat off ∧
      address.toNat = b.nodeMinPfn.toNat * 4096 + off ∧ r.align.toNat ∣ address.toNat ∧
      off + r.size.toNat ≤ (sidx.toNat + r.need) * 4096 ∧ Taken b sidx.toNat off r.size.toNat b') never b := by
  have first := proper.nonempty
  have last := proper.below
  have bits := proper.bits
  have needed := sane.need_pos
  have fits := run.within
  have pages : b.pages = b.nodeLowPfn.toNat - b.nodeMinPfn.toNat := rfl
  obtain ⟨starts, aligned⟩ := startOff_spec proper sane run.aligned (by omega)
  rw [takeBlock, wp_bind, wp_get]
  dsimp only
  generalize startOff b sidx r.align = off at starts aligned
  -- the block is on the pages found, or starts on the page before
  have low : sidx.toNat * 4096 < off.toNat + 4096 ∧ off.toNat ≤ sidx.toNat * 4096 := by
    rcases starts with same | ⟨part, next, above, below⟩
    · omega
    · omega
  have size : r.size.toNat ≤ r.need * 4096 := by
    unfold Request.need
    omega
  have ends : (off + r.size).toNat = off.toNat + r.size.toNat := by bv_omega
  have stop : (pfnUp (off + r.size)).toNat = (off.toNat + r.size.toNat + 4095) / 4096 := by
    rw [toNat_pfnUp (by omega), ends]
  have page : (pfnDown off).toNat = off.toNat / 4096 := toNat_pfnDown
  have start : pfnDown off + (if pfnDown off < sidx then 1 else 0) = sidx := by
    by_cases merge : pfnDown off < sidx
    · rw [if_pos merge]
      bv_omega
    · rw [if_neg merge]
      bv_omega
  have base : (pfnPhys b.nodeMinPfn).toNat = b.nodeMinPfn.toNat * 4096 := toNat_pfnPhys (by omega)
  have address : (pfnPhys b.nodeMinPfn + off).toNat = b.nodeMinPfn.toNat * 4096 + off.toNat := by bv_omega
  have sameBits : ({ b with lastEndOff := off + r.size, hintIdx := pfnUp (off + r.size) } : Bdata).bits =
      b.bits := rfl
  rw [start, wp_bind, wp_modify, wp_bind]
  refine (rawReserve_spec (by omega) (by omega)).returns ?_
  rintro answer b' ⟨map, reserved, hint, lower, rfl⟩
  rw [stop] at reserved
  rcases reserved with ⟨rfl, rfl, -⟩ | ⟨rfl, -, -, i, above, below, set⟩
  · refine ⟨off.toNat, starts, address, ?_, by omega, rfl, rfl, ends, ?_, rfl⟩
    · rw [address]
      exact aligned
    · rw [← stop]
      exact lower
  · have clear := run.clear i above (by omega)
    rw [show b.nodeBootmemMap i = true from set] at clear
    cases clear

/-- What `alloc_bootmem_core` answers and does. -/
def Allocated (b : Bdata) (r : Request) (answer : Option Word) (b' : Bdata) : Prop :=
  match answer with
  | none => b' = b ∧ ∀ c, r.startFrame b.nodeMinPfn.toNat b.nodeLowPfn.toNat ≤ b.nodeMinPfn.toNat + c →
      ¬FreeRun b r.step r.need (r.maxFrame b.nodeLowPfn.toNat - b.nodeMinPfn.toNat) c
  | some address => ∃ c off,
      FreeRun b r.step r.need (r.maxFrame b.nodeLowPfn.toNat - b.nodeMinPfn.toNat) c ∧ Starts b c off ∧
      address.toNat = b.nodeMinPfn.toNat * 4096 + off ∧ r.align.toNat ∣ address.toNat ∧
      off + r.size.toNat ≤ (c + r.need) * 4096 ∧ Taken b c off r.size.toNat b'

include hint in
theorem allocBootmemCore_spec :
    wp (allocBootmemCore r) (Allocated b r) (fun bug => bug = .badRequest ∧ r.limit ≠ 0 ∧
      r.limit < r.goal + r.size) b := by
  have some := sane.some
  have needed := sane.need_pos
  have first := proper.nonempty
  have bound := r.maxFrame_le b.nodeLowPfn.toNat
  have max := toNat_maxPfn (b := b) (r := r)
  have powerOfTwo : r.align &&& (r.align - 1) = 0 := by
    apply BitVec.eq_of_toNat_eq
    have positive := Nat.two_pow_pos k
    have power := sane.power
    have pred : (r.align - 1).toNat = 2 ^ k - 1 := by bv_omega
    rw [BitVec.toNat_and, pred, power, Nat.and_two_pow_sub_one_eq_mod, Nat.mod_self]
    rfl
  rw [allocBootmemCore, if_neg (by bv_omega), if_neg (not_not.mpr powerOfTwo), wp_ite, wp_throw]
  refine ⟨fun beyond => ⟨rfl, beyond⟩, fun _ => ?_⟩
  rw [wp_bind, wp_get, wp_ite, wp_pure]
  refine ⟨fun none => ⟨rfl, fun c _ run => ?_⟩, fun inside => ?_⟩
  · have := run.within
    bv_omega
  obtain ⟨res, ran, found⟩ := findPages_spec proper sane hint (by bv_omega)
  rw [wp_bind, wp_liftM ran]
  cases res with
  | none => exact ⟨rfl, fun c above run => found c (by omega) run⟩
  | some sidx =>
    rw [wp_bind]
    refine (takeBlock_spec proper sane ?_ found).returns ?_
    · unfold Bdata.pages
      omega
    · rintro address b' ⟨off, taken⟩
      exact ⟨sidx.toNat, off, found, taken⟩

end Requests

end AndroidKernel.Bootmem
