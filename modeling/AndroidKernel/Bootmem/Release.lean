import AndroidKernel.Bootmem.Marks

/-!
Handing the pages of a node to the page allocator: `free_all_bootmem_core` of `mm/bootmem.c`.

A word of the bitmap without a set bit is released as one block of 32 pages if the node starts at
a multiple of 32 and goes on behind the block; any other word is released bit by bit. The last word
is read to its end, so the bits behind the last page count too; `init_bootmem_core` leaves them set.
-/

namespace AndroidKernel.Bootmem

open Lib
open List (range')

/-- The calls of `__free_pages_bootmem`, each with its first page and its order, and `count`. -/
structure Handover where
  calls : List (Nat × Nat)
  count : Word
deriving DecidableEq

def Handover.freePagesBootmem (h : Handover) (page order : Nat) : Handover :=
  { h with calls := h.calls ++ [(page, order)] }

def Handover.add (h : Handover) (pages : Word) : Handover := { h with count := h.count + pages }

/-- The word `map[i]`. -/
def Bdata.mapWord (b : Bdata) (i : Nat) : Word := .ofFnLE fun k => b.nodeBootmemMap (32 * i + k)

def bitLoop (start : Word) : Nat → Word → Word → Handover → Handover
  | 0, _, _, h => h
  | rounds + 1, vec, off, h =>
    if vec ≠ 0 ∧ off < 32 then
      let h := if vec &&& 1 ≠ 0 then (h.freePagesBootmem (start + off).toNat 0).add 1 else h
      bitLoop start rounds (vec >>> 1) (off + 1) h
    else h

def releaseLoop (b : Bdata) (aligned : Bool) : Nat → Word → Handover → Except Bug Handover
  | 0, _, _ => .error .endless
  | rounds + 1, start, h =>
    if start < b.nodeLowPfn then
      let vec := ~~~b.mapWord ((start - b.nodeMinPfn).toNat / 32)
      if aligned ∧ vec = ~~~0 ∧ start + 32 < b.nodeLowPfn then
        releaseLoop b aligned rounds (start + 32) ((h.freePagesBootmem start.toNat 5).add 32)
      else releaseLoop b aligned rounds (start + 32) (bitLoop start 32 vec 0 h)
    else .ok h

def mapLoop : Nat → Nat → Handover → Handover
  | 0, _, h => h
  | pages + 1, page, h => mapLoop pages (page + 1) (h.freePagesBootmem page 0)

def bootmapPages (pages : Word) : Word := alignUp (bootmapBytes pages) 4096 >>> 12

/-- `free_all_bootmem_core`; `map` is the page that holds the bitmap, if there is one. -/
def freeAllBootmemCore (b : Bdata) (map : Option Nat) : Except Bug Handover :=
  match map with
  | none => .ok ⟨[], 0⟩
  | some page => do
    let h ← releaseLoop b (b.nodeMinPfn &&& 31 = 0) maxRounds b.nodeMinPfn ⟨[], 0⟩
    let pages := bootmapPages (b.nodeLowPfn - b.nodeMinPfn)
    return mapLoop pages.toNat page (h.add pages)

/-! ### Released pages -/

/-- The pages that the page allocator gets. -/
def Handover.pages (h : Handover) : List Nat := h.calls.flatMap fun c => range' c.1 (2 ^ c.2)

structure Handover.Holds (h : Handover) (released : List Nat) : Prop where
  pages : h.pages = released
  count : h.count = .ofNat 32 released.length

variable {b : Bdata} {h : Handover} {released : List Nat} {clear : Nat → Bool} {start : Word}

theorem Handover.Holds.release (holds : h.Holds released) (page order : Nat) :
    ((h.freePagesBootmem page order).add (.ofNat 32 (2 ^ order))).Holds
      (released ++ range' page (2 ^ order)) where
  pages := by simp [← holds.pages, Handover.pages, freePagesBootmem, add]
  count := by simp [add, freePagesBootmem, holds.count, BitVec.ofNat_add]

theorem and_one_ne_zero (vec : Word) : vec &&& 1 ≠ 0 ↔ vec.getLsbD 0 = true := by
  rw [show (1 : Word) = 1#32 from rfl, BitVec.and_one_eq_setWidth_ofBool_getLsbD]
  cases vec.getLsbD 0 <;> decide

theorem filter_range'_nil {s n : Nat} (none : ∀ k < n, clear (s + k) = false) :
    (range' s n).filter clear = [] := by
  refine List.filter_eq_nil_iff.2 fun p mem => ?_
  rw [List.mem_range'_1] at mem
  obtain ⟨k, rfl⟩ := Nat.exists_eq_add_of_le mem.1
  simp [none k (by omega)]

/-- The bits of `vec` are those of the pages from `start + off` on. -/
theorem bitLoop_spec (small : start.toNat + 32 ≤ 2 ^ 32) {n : Nat} {vec off : Word}
    (left : off.toNat + n = 32)
    (bits : ∀ k < n, vec.getLsbD k = clear (start.toNat + off.toNat + k))
    (holds : h.Holds released) :
    (bitLoop start n vec off h).Holds
      (released ++ (range' (start.toNat + off.toNat) n).filter clear) := by
  induction n generalizing vec off h released with
  | zero => simpa [bitLoop] using holds
  | succ n ih =>
    have next : start.toNat + (off + 1).toNat = start.toNat + off.toNat + 1 := by bv_omega
    have page : (start + off).toNat = start.toNat + off.toNat := by bv_omega
    have shifted : ∀ k < n, (vec >>> 1).getLsbD k = clear (start.toNat + (off + 1).toNat + k) := by
      intro k bound
      rw [BitVec.getLsbD_ushiftRight, bits (1 + k) (by omega), next]
      congr 1
      omega
    rw [bitLoop]
    by_cases zero : vec = 0
    · -- no bit of the word is left
      have none := filter_range'_nil fun k bound => (bits k bound).symm.trans (by simp [zero])
      rw [if_neg (fun more => more.1 zero), none, List.append_nil]
      exact holds
    · have first : vec.getLsbD 0 = clear (start.toNat + off.toNat) := bits 0 (by omega)
      rw [if_pos ⟨zero, by bv_omega⟩, List.range'_succ, List.filter_cons, ← first]
      simp only [and_one_ne_zero]
      split
      · have rest := ih (by omega) shifted (holds.release (start + off).toNat 0)
        rw [next, page] at rest
        simpa [page] using rest
      · have rest := ih (by omega) shifted holds
        rw [next] at rest
        exact rest

/-! ### The words of the bitmap -/

def Bdata.isClear (b : Bdata) (p : Nat) : Bool := !b.nodeBootmemMap (p - b.nodeMinPfn.toNat)

def Bdata.clearPages (b : Bdata) (n : Nat) : List Nat :=
  (range' b.nodeMinPfn.toNat n).filter b.isClear

theorem Bdata.clearPages_add (n k : Nat) : b.clearPages (n + k) =
    b.clearPages n ++ (range' (b.nodeMinPfn.toNat + n) k).filter b.isClear := by
  rw [clearPages, ← List.range'_append_1, List.filter_append]
  rfl

/-- The bits behind a place add nothing exactly when they are set. -/
theorem Bdata.clearPages_eq_iff {m n : Nat} (le : m ≤ n) :
    b.clearPages n = b.clearPages m ↔ ∀ i, m ≤ i → i < n → b.nodeBootmemMap i = true := by
  obtain ⟨k, rfl⟩ := Nat.exists_eq_add_of_le le
  rw [clearPages_add, List.append_right_eq_self, List.filter_eq_nil_iff]
  refine ⟨fun none i low high => ?_, fun set p mem => ?_⟩
  · have := none (b.nodeMinPfn.toNat + i) (List.mem_range'_1.2 (by omega))
    rwa [isClear, Nat.add_sub_cancel_left, Bool.not_eq_true', Bool.not_eq_false] at this
  · rw [List.mem_range'_1] at mem
    rw [isClear, set _ (by omega) (by omega)]
    exact Bool.noConfusion

theorem releaseLoop_spec (low : b.nodeLowPfn.toNat ≤ 2 ^ 20) (aligned : Bool) (rounds : Nat) {w : Nat}
    (word : start.toNat = b.nodeMinPfn.toNat + 32 * w)
    (close : start.toNat < b.nodeLowPfn.toNat + 32)
    (enough : b.nodeLowPfn.toNat + 64 ≤ start.toNat + 32 * rounds)
    (holds : h.Holds (b.clearPages (32 * w))) : ∃ h', releaseLoop b aligned rounds start h = .ok h' ∧
      h'.Holds (b.clearPages (roundUp b.pages 32)) := by
  -- Along the words: the pages of the first `w` of them are released.
  induction rounds generalizing start h w with
  | zero => omega
  | succ rounds ih =>
    rw [releaseLoop]
    split
    case isFalse done =>
      have last : roundUp b.pages 32 = 32 * w := by
        unfold roundUp Bdata.pages
        bv_omega
      exact ⟨h, rfl, last ▸ holds⟩
    case isTrue more =>
      have next : (start + 32).toNat = b.nodeMinPfn.toNat + 32 * (w + 1) := by bv_omega
      have index : (start - b.nodeMinPfn).toNat / 32 = w := by bv_omega
      have bits : ∀ k < 32, (~~~b.mapWord w).getLsbD k = b.isClear (start.toNat + k) := by
        intro k bound
        simp [Bdata.mapWord, Bdata.isClear, bound, word, Nat.add_assoc]
      simp only [index]
      split
      case isTrue whole =>
        have block := holds.release start.toNat 5
        have all : (range' start.toNat 32).filter b.isClear = range' start.toNat 32 := by
          refine List.filter_eq_self.2 fun p mem => ?_
          rw [List.mem_range'_1] at mem
          obtain ⟨k, rfl⟩ := Nat.exists_eq_add_of_le mem.1
          have bound : k < 32 := by omega
          rw [← bits k bound, whole.2.1, BitVec.getLsbD_not]
          simp [bound]
        refine ih next (by bv_omega) (by bv_omega) ?_
        rw [Nat.mul_succ, Bdata.clearPages_add, ← word, all]
        exact block
      case isFalse =>
        refine ih next (by bv_omega) (by bv_omega) ?_
        rw [Nat.mul_succ, Bdata.clearPages_add, ← word]
        exact bitLoop_spec (by omega) (by decide) bits holds

theorem mapLoop_spec (n page : Nat) : (mapLoop n page h).count = h.count ∧
    (mapLoop n page h).pages = h.pages ++ range' page n := by
  induction n generalizing page h with
  | zero => simp [mapLoop]
  | succ n ih =>
    have block : (h.freePagesBootmem page 0).pages = h.pages ++ [page] := by
      simp [Handover.pages, Handover.freePagesBootmem]
    rw [mapLoop, (ih (page + 1)).1, (ih (page + 1)).2, block, List.range'_succ]
    exact ⟨rfl, by simp⟩

/-- **The free pages are handed over**: every page whose bit is clear once, no page whose bit is set,
and then the pages of the bitmap; the result is their number. They are pages of the node exactly when
the bits behind its last page are set. -/
theorem freeAllBootmemCore_releases (b : Bdata) (page : Nat)
    (range : b.nodeMinPfn.toNat ≤ b.nodeLowPfn.toNat) (below : b.nodeLowPfn.toNat ≤ 2 ^ 20) :
    let map := range' page (bootmapPages (b.nodeLowPfn - b.nodeMinPfn)).toNat
    ∃ h, freeAllBootmemCore b (some page) = .ok h ∧ h.count.toNat = h.pages.length ∧
      h.pages = b.clearPages (roundUp b.pages 32) ++ map ∧
      (h.pages = b.clearPages b.pages ++ map ↔
        ∀ i, b.pages ≤ i → i < roundUp b.pages 32 → b.nodeBootmemMap i = true) := by
  intro map
  have start : Handover.Holds ⟨[], 0⟩ (b.clearPages (32 * 0)) := ⟨rfl, rfl⟩
  obtain ⟨h, run, holds⟩ := releaseLoop_spec below (b.nodeMinPfn &&& 31 = 0)
    maxRounds (Nat.add_zero _).symm (by omega) (by unfold maxRounds; omega) start
  obtain ⟨count, pages⟩ := mapLoop_spec (h := h.add (bootmapPages (b.nodeLowPfn - b.nodeMinPfn)))
    (bootmapPages (b.nodeLowPfn - b.nodeMinPfn)).toNat page
  have released : (h.add (bootmapPages (b.nodeLowPfn - b.nodeMinPfn))).pages =
      b.clearPages (roundUp b.pages 32) := holds.pages
  rw [released] at pages
  refine ⟨_, by rw [freeAllBootmemCore, run]; rfl, ?_, pages, ?_⟩
  · have few : (b.clearPages (roundUp b.pages 32)).length ≤ roundUp b.pages 32 :=
      (List.length_filter_le _ _).trans List.length_range'.le
    have less : roundUp b.pages 32 < 2 ^ 20 + 32 := by
      have := roundUp_lt (x := b.pages) (a := 32) (by decide)
      unfold Bdata.pages at this ⊢
      omega
    have small : (bootmapPages (b.nodeLowPfn - b.nodeMinPfn)).toNat < 2 ^ 20 := by
      rw [bootmapPages, BitVec.toNat_ushiftRight, Nat.shiftRight_eq_div_pow]
      omega
    rw [count, pages, List.length_append, List.length_range', Handover.add, holds.count,
      BitVec.toNat_add, BitVec.toNat_ofNat]
    omega
  · rw [pages, List.append_left_inj]
    exact Bdata.clearPages_eq_iff (le_roundUp (by decide))

/-- Pages 34 and 35 of a node of four pages that starts at page 33, with its bitmap in page 36. -/
theorem freeAllBootmemCore_releases_small :
    let b : Bdata := ⟨33, 37, fun i => i = 0 ∨ 3 ≤ i, 0, 0⟩
    b.clearPages b.pages = [34, 35] ∧ ∃ h, freeAllBootmemCore b (some 36) = .ok h ∧
      h.pages = b.clearPages b.pages ++
        range' 36 (bootmapPages (b.nodeLowPfn - b.nodeMinPfn)).toNat := by
  intro b
  obtain ⟨h, run, -, -, own⟩ := freeAllBootmemCore_releases b 36 (by decide) (by decide)
  have padded : ∀ i, b.pages ≤ i → i < roundUp b.pages 32 → b.nodeBootmemMap i = true :=
    fun i (all : 4 ≤ i) _ => decide_eq_true (.inr (by omega))
  exact ⟨by decide, h, run, own.2 padded⟩

/-- A node of one page with a bitmap of clear bits: 31 pages behind the node are released too. -/
theorem freeAllBootmemCore_padding :
    let b : Bdata := ⟨0, 1, fun _ => false, 0, 0⟩
    b.clearPages b.pages = [0] ∧ (freeAllBootmemCore b (some 100)).map Handover.pages =
      .ok (range' 0 32 ++ [100]) := by
  decide +kernel

end AndroidKernel.Bootmem
