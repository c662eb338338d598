import AndroidKernel.Bootmem.Core
import AndroidKernel.Lib.RoundUp

/-!
Marking pages in the bitmap of a node.

The functions are described by the bitmap they leave. Everything else of the node
stays, except that the hint can become smaller.
-/

namespace AndroidKernel.Bootmem

open Lib BitVec
open Function (update update_self update_of_ne update_eq_self)

variable {exclusive : Bool} {n idx : Nat} {sidx : Word}

/-! ### Arithmetic of pages -/

section Arithmetic

variable {x a : Word} {k : Nat}

theorem toNat_pfnDown : (pfnDown x).toNat = x.toNat / 4096 := by
  rw [pfnDown, toNat_ushiftRight, Nat.shiftRight_eq_div_pow]

theorem toNat_pfnUp (small : x.toNat + 4095 < 2 ^ 32) : (pfnUp x).toNat = (x.toNat + 4095) / 4096 := by
  have sum : (x + 4095).toNat = x.toNat + 4095 := by
    exact Nat.mod_eq_of_lt small
  rw [pfnUp, toNat_ushiftRight, Nat.shiftRight_eq_div_pow, sum]

theorem toNat_pfnPhys (small : x.toNat < 2 ^ 20) : (pfnPhys x).toNat = x.toNat * 4096 := by
  rw [pfnPhys, toNat_shiftLeft, Nat.shiftLeft_eq, Nat.mod_eq_of_lt (by omega)]

theorem toNat_alignUp (power : a.toNat = 2 ^ k) (small : x.toNat + (a.toNat - 1) < 2 ^ 32) :
    (alignUp x a).toNat = roundUp x.toNat a.toNat :=
  toNat_roundUp power small

theorem toNat_offset {i : Nat} (small : i < 2 ^ 32) : (BitVec.ofNat 32 i).toNat = i := by
  rw [toNat_ofNat, Nat.mod_eq_of_lt small]

end Arithmetic

/-! ### Bitmaps -/

/-- The bits from `s` to before `e` are set to a value. -/
def mark (map : Nat → Bool) (s e : Nat) (v : Bool) : Nat → Bool :=
  fun i => if s ≤ i ∧ i < e then v else map i

section Mark

variable {map : Nat → Bool} {s e i : Nat} {v : Bool}

theorem mark_empty (empty : e ≤ s) : mark map s e v = map := by
  funext i
  exact if_neg (by omega)

theorem mark_cons (inside : s < e) : mark (update map s v) (s + 1) e v = mark map s e v := by
  funext i
  unfold mark
  by_cases first : i = s
  · subst first
    rw [if_neg (by omega), if_pos (by omega), update_self]
  · rw [update_of_ne first]
    exact if_congr (by omega) rfl rfl

theorem mark_concat (inside : s ≤ e) : update (mark map s e v) e v = mark map s (e + 1) v := by
  funext i
  unfold mark
  by_cases last : i = e
  · subst last
    rw [update_self, if_pos (by omega)]
  · rw [update_of_ne last]
    exact if_congr (by omega) rfl rfl

/-- Bits that had the value before are put back. -/
theorem mark_mark (before : ∀ i, s ≤ i → i < e → map i = v) : mark (mark map s e !v) s e v = map := by
  funext i
  unfold mark
  by_cases inside : s ≤ i ∧ i < e
  · rw [if_pos inside, before i inside.1 inside.2]
  · rw [if_neg inside, if_neg inside]

end Mark

/-! ### A node -/

/-- A node with at least one page, which ends below the last page of the memory. -/
structure Bdata.Proper (b : Bdata) : Prop where
  nonempty : b.nodeMinPfn.toNat < b.nodeLowPfn.toNat
  below : b.nodeLowPfn.toNat < 2 ^ 20

def Bdata.pages (b : Bdata) : Nat := b.nodeLowPfn.toNat - b.nodeMinPfn.toNat

section Node

variable {b b' : Bdata} {map : Nat → Bool} {never : Bug → Prop}

theorem Bdata.Proper.toNat_pages (proper : b.Proper) :
    (b.nodeLowPfn - b.nodeMinPfn).toNat = b.pages := by
  have := proper.nonempty
  unfold Bdata.pages
  bv_omega

/-- There is a bit for every page, and not much more. -/
theorem Bdata.Proper.bits (proper : b.Proper) : b.pages ≤ b.bits ∧ b.bits < 2 ^ 21 := by
  have low := proper.below
  have pages : b.pages < 2 ^ 20 := by
    unfold Bdata.pages
    omega
  have bytes : ((b.nodeLowPfn - b.nodeMinPfn + 7) >>> 3).toNat = (b.pages + 7) / 8 := by
    have sum : (b.nodeLowPfn - b.nodeMinPfn + 7).toNat = b.pages + 7 := by
      have := proper.toNat_pages
      bv_omega
    rw [toNat_ushiftRight, Nat.shiftRight_eq_div_pow, sum]
  have four : (4 : Word).toNat = 2 ^ 2 := rfl
  have rounded : (bootmapBytes (b.nodeLowPfn - b.nodeMinPfn)).toNat = roundUp ((b.pages + 7) / 8) 4 := by
    rw [bootmapBytes, toNat_alignUp four (by rw [bytes, four]; omega), bytes]
    rfl
  have lower := le_roundUp (x := (b.pages + 7) / 8) (a := 4) (by norm_num)
  have upper := roundUp_lt (x := (b.pages + 7) / 8) (a := 4) (by norm_num)
  rw [Bdata.bits, rounded]
  omega

/-- Only the bitmap changes, and the hint becomes smaller. -/
def Remapped (b : Bdata) (map : Nat → Bool) (b' : Bdata) : Prop :=
  ∃ hint, hint ≤ b.hintIdx ∧ b' = { b with nodeBootmemMap := map, hintIdx := hint }

theorem freeLoop_spec (within : idx + n ≤ b.bits)
    (set : ∀ i, idx ≤ i → i < idx + n → b.nodeBootmemMap i = true) :
    wp (freeLoop n idx) (fun _ b' =>
      b' = { b with nodeBootmemMap := mark b.nodeBootmemMap idx (idx + n) false }) never b := by
  induction n generalizing b idx with
  | zero =>
    rw [freeLoop, wp_pure, mark_empty (by omega)]
  | succ n ih =>
    have here : b.nodeBootmemMap idx = true := set idx le_rfl (by omega)
    have cleared : ({ b with nodeBootmemMap := update b.nodeBootmemMap idx false } : Bdata).bits =
        b.bits := rfl
    rw [freeLoop, testAndClearBit, wp_bind, wp_bind, wp_get, if_neg (by omega), wp_bind, wp_set,
      wp_pure, here, if_pos rfl]
    refine (ih (by omega) fun i low high => ?_).returns fun _ b' same => ?_
    · exact (update_of_ne (by omega) ..).trans (set i (by omega) (by omega))
    · rw [same, show idx + 1 + n = idx + (n + 1) by omega, mark_cons (by omega)]

/-- Beyond the bitmap the loop does not come to its end. -/
theorem freeLoop_beyond (some : 0 < n) (out : b.bits < idx + n) :
    wp (freeLoop n idx) (fun _ _ => False) (fun bug => bug ≠ .expectedFree) b := by
  induction n generalizing b idx with
  | zero => omega
  | succ n ih =>
    rw [freeLoop, testAndClearBit, wp_bind, wp_bind, wp_get, wp_ite, wp_throw, wp_bind, wp_set, wp_pure,
      wp_ite, wp_throw]
    refine ⟨fun _ => nofun, fun inside => ⟨fun _ => ?_, fun _ => nofun⟩⟩
    have cleared : ({ b with nodeBootmemMap := update b.nodeBootmemMap idx false } : Bdata).bits =
        b.bits := rfl
    exact ih (by omega) (by omega)

theorem rawFree_spec {eidx : Word} (within : eidx.toNat ≤ b.bits)
    (set : ∀ i, sidx.toNat ≤ i → i < eidx.toNat → b.nodeBootmemMap i = true) :
    wp (rawFree sidx eidx) (fun _ b' =>
      Remapped b (mark b.nodeBootmemMap sidx.toNat eidx.toNat false) b') never b := by
  by_cases empty : eidx.toNat ≤ sidx.toNat
  · have none : eidx.toNat - sidx.toNat = 0 := by omega
    rw [rawFree, wp_bind, wp_get, wp_bind, wp_ifThen, wp_modify, none, mark_empty empty]
    exact ⟨fun lower => ⟨sidx, by bv_omega, rfl⟩, fun _ => ⟨b.hintIdx, by bv_omega, rfl⟩⟩
  have stop : sidx.toNat + (eidx.toNat - sidx.toNat) = eidx.toNat := by omega
  rw [rawFree, wp_bind, wp_get, wp_bind, wp_ifThen, wp_modify]
  refine ⟨fun lower => ?_, fun _ => ?_⟩
  · refine (freeLoop_spec (by rw [stop]; exact within) (by rwa [stop])).returns fun _ b' same => ?_
    exact ⟨sidx, by bv_omega, by rw [same, stop]⟩
  · refine (freeLoop_spec (by rw [stop]; exact within) (by rwa [stop])).returns fun _ b' same => ?_
    exact ⟨b.hintIdx, by bv_omega, by rw [same, stop]⟩

/-- What a reservation answers and the bitmap it leaves: when it is exclusive and a bit
is set already, the one before. -/
def Reserved (map : Nat → Bool) (s e : Nat) (exclusive : Bool) (answer : Answer) (map' : Nat → Bool) :
    Prop :=
  answer = .ok ∧ map' = mark map s e true ∧ (exclusive = true → ∀ i, s ≤ i → i < e → map i = false) ∨
    answer = .ebusy ∧ map' = map ∧ exclusive = true ∧ ∃ i, s ≤ i ∧ i < e ∧ map i = true

theorem reserveLoop_spec (start : sidx.toNat ≤ idx)
    (within : idx + n ≤ b.bits) (small : b.bits < 2 ^ 32)
    (now : b.nodeBootmemMap = mark map sidx.toNat idx true)
    (clear : exclusive = true → ∀ i, sidx.toNat ≤ i → i < idx → map i = false) :
    wp (reserveLoop sidx exclusive n idx) (fun answer b' => ∃ map',
      Reserved map sidx.toNat (idx + n) exclusive answer map' ∧ Remapped b map' b') never b := by
  induction n generalizing b idx with
  | zero =>
    rw [reserveLoop, wp_pure]
    exact ⟨_, .inl ⟨rfl, rfl, clear⟩, b.hintIdx, by bv_omega, by rw [Nat.add_zero, ← now]⟩
  | succ n ih =>
    have old : b.nodeBootmemMap idx = map idx := by
      rw [now]
      exact if_neg (by omega)
    have next : update b.nodeBootmemMap idx true = mark map sidx.toNat (idx + 1) true := by
      rw [now, mark_concat start]
    -- the rest of the loop, when it goes on
    have further : (exclusive = true → map idx = false) →
        wp (reserveLoop sidx exclusive n (idx + 1)) (fun answer b' => ∃ map',
          Reserved map sidx.toNat (idx + (n + 1)) exclusive answer map' ∧ Remapped b map' b') never
          { b with nodeBootmemMap := update b.nodeBootmemMap idx true } := by
      intro free
      have bits : ({ b with nodeBootmemMap := update b.nodeBootmemMap idx true } : Bdata).bits =
          b.bits := rfl
      refine (ih (by omega) (by omega) (by omega) next fun only i low high => ?_).returns fun answer b' => ?_
      · rcases Nat.lt_succ_iff_lt_or_eq.mp high with before | rfl
        · exact clear only i low before
        · exact free only
      · rw [show idx + 1 + n = idx + (n + 1) by omega]
        exact id
    rw [reserveLoop, testAndSetBit, wp_bind, wp_bind, wp_get, if_neg (by omega), wp_bind, wp_set,
      wp_pure, old, wp_ite, wp_ite]
    refine ⟨fun set => ⟨fun only => ?_, fun shared => further fun only => absurd only shared⟩,
      fun unset => further fun _ => by simpa using unset⟩
    have stop : (BitVec.ofNat 32 idx).toNat = idx := toNat_offset (by omega)
    have unchanged : update b.nodeBootmemMap idx true = b.nodeBootmemMap := by
      rw [← set, ← old, update_eq_self]
    rw [wp_bind, unchanged]
    refine (rawFree_spec (b := b) (by omega) fun i low high => ?_).returns fun _ b' remapped => ?_
    · rw [now]
      exact if_pos ⟨low, by omega⟩
    · refine ⟨map, .inr ⟨rfl, rfl, only, idx, start, by omega, set⟩, ?_⟩
      rw [stop, now] at remapped
      have back : mark (mark map sidx.toNat idx true) sidx.toNat idx false = map := mark_mark (clear only)
      rwa [back] at remapped

theorem rawReserve_spec {eidx : Word} (within : eidx.toNat ≤ b.bits) (small : b.bits < 2 ^ 32) :
    wp (rawReserve sidx eidx exclusive) (fun answer b' => ∃ map',
      Reserved b.nodeBootmemMap sidx.toNat eidx.toNat exclusive answer map' ∧ Remapped b map' b')
      never b := by
  by_cases empty : eidx.toNat ≤ sidx.toNat
  · have none : eidx.toNat - sidx.toNat = 0 := by omega
    rw [rawReserve, none, reserveLoop, wp_pure]
    refine ⟨b.nodeBootmemMap, .inl ⟨rfl, (mark_empty empty).symm, fun _ i low high => by omega⟩, ?_⟩
    exact ⟨b.hintIdx, by bv_omega, rfl⟩
  · have stop : sidx.toNat + (eidx.toNat - sidx.toNat) = eidx.toNat := by omega
    refine (reserveLoop_spec le_rfl (by omega) small
      (mark_empty le_rfl).symm fun _ i low high => by omega).returns fun answer b' => ?_
    rw [stop]
    exact id

variable {start stop : Word}

/-- A range of frames on the node. -/
structure Bdata.On (b : Bdata) (start stop : Word) : Prop where
  low : b.nodeMinPfn.toNat ≤ start.toNat
  range : start.toNat ≤ stop.toNat
  high : stop.toNat ≤ b.nodeLowPfn.toNat

theorem Bdata.On.toNat (on : b.On start stop) :
    (start - b.nodeMinPfn).toNat = start.toNat - b.nodeMinPfn.toNat ∧
      (stop - b.nodeMinPfn).toNat = stop.toNat - b.nodeMinPfn.toNat := by
  have := on.low
  have := on.range
  constructor <;> bv_omega

theorem markBootmemNode_reserve (proper : b.Proper) (on : b.On start stop) :
    wp (markBootmemNode start stop true exclusive) (fun answer b' => ∃ map',
      Reserved b.nodeBootmemMap (start.toNat - b.nodeMinPfn.toNat) (stop.toNat - b.nodeMinPfn.toNat)
        exclusive answer map' ∧ Remapped b map' b') never b := by
  have bits := proper.bits
  have high := on.high
  have low := on.low
  obtain ⟨sidx, eidx⟩ := on.toNat
  rw [markBootmemNode, wp_bind, wp_get, if_neg (by bv_omega), if_neg (by bv_omega)]
  rw [← sidx, ← eidx]
  exact rawReserve_spec (by rw [eidx]; unfold Bdata.pages at bits; omega) (by omega)

theorem markBootmemNode_free (proper : b.Proper) (on : b.On start stop)
    (set : ∀ i, start.toNat - b.nodeMinPfn.toNat ≤ i → i < stop.toNat - b.nodeMinPfn.toNat →
      b.nodeBootmemMap i = true) :
    wp (markBootmemNode start stop false exclusive) (fun answer b' => answer = .ok ∧
      Remapped b (mark b.nodeBootmemMap (start.toNat - b.nodeMinPfn.toNat)
        (stop.toNat - b.nodeMinPfn.toNat) false) b') never b := by
  have bits := proper.bits
  have high := on.high
  have low := on.low
  obtain ⟨sidx, eidx⟩ := on.toNat
  rw [markBootmemNode, wp_bind, wp_get, if_neg (by bv_omega), if_neg (by bv_omega)]
  rw [← sidx, ← eidx] at set ⊢
  dsimp only
  rw [if_neg Bool.false_ne_true, wp_bind]
  refine (rawFree_spec (by rw [eidx]; unfold Bdata.pages at bits; omega) set).returns
    fun _ b' remapped => ⟨rfl, remapped⟩

/-- Without pages to free there is nothing to change; a range that ends before the node
runs beyond the bitmap. -/
theorem markBootmemNode_empty (proper : b.Proper) (empty : stop.toNat ≤ start.toNat) :
    wp (markBootmemNode start stop false exclusive) (fun answer b' => answer = .ok ∧
      Remapped b b.nodeBootmemMap b') (fun bug => bug ≠ .expectedFree) b := by
  have bits := proper.bits
  have := proper.nonempty
  have := proper.below
  rw [markBootmemNode, wp_bind, wp_get, wp_ite, wp_ite, wp_throw]
  refine ⟨fun _ => nofun, fun first => ⟨fun _ => nofun, fun last => ?_⟩⟩
  dsimp only
  rw [if_neg Bool.false_ne_true, wp_bind]
  by_cases before : stop.toNat < b.nodeMinPfn.toNat
  · have count : (stop - b.nodeMinPfn).toNat = 2 ^ 32 + stop.toNat - b.nodeMinPfn.toNat := by bv_omega
    have more : (start - b.nodeMinPfn).toNat < (stop - b.nodeMinPfn).toNat := by bv_omega
    have run : ∀ c : Bdata, c.bits = b.bits → wp (freeLoop ((stop - b.nodeMinPfn).toNat -
        (start - b.nodeMinPfn).toNat) (start - b.nodeMinPfn).toNat)
        (fun _ _ => False) (fun bug => bug ≠ .expectedFree) c := by
      intro c same
      exact freeLoop_beyond (by omega) (by omega)
    rw [rawFree, wp_bind, wp_get, wp_bind, wp_ifThen, wp_modify]
    refine ⟨fun _ => ?_, fun _ => (run b rfl).returns fun _ _ => False.elim⟩
    exact (run { b with hintIdx := start - b.nodeMinPfn } rfl).returns fun _ _ => False.elim
  · have order : (stop - b.nodeMinPfn).toNat ≤ (start - b.nodeMinPfn).toNat := by bv_omega
    refine (rawFree_spec (by unfold Bdata.pages at bits; bv_omega) fun i low high => by omega).returns
      fun _ b' remapped => ⟨rfl, ?_⟩
    rwa [mark_empty order] at remapped

end Node

end AndroidKernel.Bootmem
