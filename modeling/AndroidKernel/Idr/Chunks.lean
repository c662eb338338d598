import AndroidKernel.Idr.Ida
import AndroidKernel.Idr.Removal

/-!
The chunks of an ida.

The slots of the idr inside of an ida point to chunks, one for each slot, and a
slot counts as full when all bits of its chunk are set (`Chunks`). Each function
of the ida keeps this and changes one bit: `chunkOf_spec`, `takeBit_spec`,
`idaRemove_spec`.
-/

namespace AndroidKernel.Idr

open Lib BitVec
open Function (update update_self update_of_ne)

/-- The idr inside of an ida is reasoned about on its own. -/
@[simp] theorem wp_onIdr {α : Type} {p : Prog α} {post : α → IdaState → Prop}
    {fault : Fault → Prop} {s : IdaState} :
    wp (onIdr p) post fault s ↔ wp p (fun a t => post a { s with idr := t }) fault s.idr := by
  unfold wp onIdr
  cases p s.idr <;> rfl

/-- The bit `k` of the chunk in the slot `x`. -/
def IdaState.bit (s : IdaState) (σ : Slots) (x k : Nat) : Prop :=
  σ.used x = true ∧ (s.chunks (σ.ptr x)).bitmap.getLsbD k = true

structure Chunks (s : IdaState) (σ : Slots) : Prop where
  present : ∀ {x}, σ.used x = true → σ.ptr x ≠ 0
  old : ∀ {x}, σ.used x = true → σ.ptr x < s.brk
  apart : ∀ {x y}, σ.used x = true → σ.used y = true → σ.ptr x = σ.ptr y → x = y
  kept : s.freeBitmap < s.brk
  free : ∀ {x}, σ.used x = true → σ.ptr x ≠ s.freeBitmap
  busy : ∀ {x}, σ.used x = true →
    (s.chunks (σ.ptr x)).nrBusy = tally 992 (s.chunks (σ.ptr x)).bitmap.getLsbD
  full : ∀ {x}, σ.used x = true →
    (σ.full x = true ↔ ∀ k < 992, (s.chunks (σ.ptr x)).bitmap.getLsbD k = true)

theorem chunks_init : Chunks idaInit .empty := by
  constructor
  case kept => decide
  all_goals
    intros
    contradiction

section Chunks

variable {s t u : IdaState} {σ σ' : Slots} {h x k i : Nat} {pos : Nat → Nat → Nat} {pa : Nat → Nat}
  {never : Fault → Prop} {c : IdaBitmap} {marks : Nat → Nat → Prop} {id : BitVec 32}

/-- The idr may change. -/
theorem Chunks.onIdr (chunks : Chunks s σ) (idr : IdrState) : Chunks { s with idr := idr } σ :=
  ⟨chunks.present, chunks.old, chunks.apart, chunks.kept, chunks.free, chunks.busy, chunks.full⟩

/-- The chunk `c` is written into the slot `x`. -/
structure Written (s u : IdaState) (σ σ' : Slots) (x : Nat) (c : IdaBitmap) : Prop where
  busy : σ.used x = true
  used : σ'.used = σ.used
  ptr : σ'.ptr = σ.ptr
  chunks : u.chunks = Function.update s.chunks (σ.ptr x) c
  brk : u.brk = s.brk
  free : u.freeBitmap = s.freeBitmap
  count : c.nrBusy = tally 992 c.bitmap.getLsbD
  full : σ'.full x = true ↔ ∀ k < 992, c.bitmap.getLsbD k = true
  others : ∀ y, y ≠ x → σ'.full y = σ.full y

section

variable (written : Written s u σ σ' x c)
include written

theorem Written.own : u.chunks (σ'.ptr x) = c := by
  rw [written.chunks, written.ptr, update_self]

theorem Written.other {y : Nat} (chunks : Chunks s σ) (busy : σ.used y = true) (other : y ≠ x) :
    u.chunks (σ'.ptr y) = s.chunks (σ.ptr y) := by
  rw [written.chunks, written.ptr, update_of_ne]
  exact fun same => other (chunks.apart busy written.busy same)

theorem Written.keeps (chunks : Chunks s σ) : Chunks u σ' := by
  have used : ∀ {y}, σ'.used y = true → σ.used y = true := by
    intro y busy
    rwa [written.used] at busy
  refine ⟨?_, ?_, ?_, ?_, ?_, ?_, ?_⟩
  · rw [written.ptr]
    exact fun busy => chunks.present (used busy)
  · rw [written.ptr, written.brk]
    exact fun busy => chunks.old (used busy)
  · rw [written.ptr]
    exact fun busy busy' => chunks.apart (used busy) (used busy')
  · rw [written.free, written.brk]
    exact chunks.kept
  · rw [written.ptr, written.free]
    exact fun busy => chunks.free (used busy)
  · intro y busy
    by_cases same : y = x
    · rw [same, written.own]
      exact written.count
    · rw [written.other chunks (used busy) same]
      exact chunks.busy (used busy)
  · intro y busy
    by_cases same : y = x
    · rw [same, written.own]
      exact written.full
    · rw [written.other chunks (used busy) same, written.others y same]
      exact chunks.full (used busy)

theorem Written.bit (chunks : Chunks s σ) (y k : Nat) :
    u.bit σ' y k ↔ if y = x then c.bitmap.getLsbD k = true else s.bit σ y k := by
  unfold IdaState.bit
  rw [written.used]
  split
  · rename_i same
    rw [same, written.own]
    exact and_iff_right written.busy
  · rename_i other
    refine and_congr_right fun busy => ?_
    rw [written.other chunks busy other]

end

/-! ### The bits of a chunk -/

theorem getLsbD_take (b : BitVec 992) (slot : k < 992) (j : Nat) :
    (b ||| twoPow 992 k).getLsbD j = (b.getLsbD j || decide (j = k)) := by
  by_cases same : j = k
  · simp [same, slot]
  · simp [same, Ne.symm same]

theorem getLsbD_drop (b : BitVec 992) (j : Nat) :
    (b &&& ~~~twoPow 992 k).getLsbD j = (b.getLsbD j && decide (j ≠ k)) := by
  by_cases inside : j < 992
  · by_cases same : k = j
    · simp [same, inside]
    · simp [inside, Ne.symm same]
  · have beyond := getLsbD_of_ge b j (by omega)
    rw [getLsbD_and, beyond, Bool.false_and, Bool.false_and]

/-! ### Allocation -/

/-- The index of a slot in its leaf layer. -/
theorem leaf_digit (own : x = i % 32 ^ (h + 1)) : i &&& idrMask = x % 32 := by
  have := slot_digit (i := i) (Nat.zero_le h)
  rw [pow_zero, Nat.div_one, Nat.div_one, ← own] at this
  rw [digit_zero, this]

/-- The pointer in the leaf layer of a slot. -/
theorem Marked.leaf_ptr {s : IdrState} (marked : Marked s h pos σ marks)
    (own : x = i % 32 ^ (h + 1)) (present : pos 0 (x / 32) ≠ 0) :
    (s.mem (pos 0 (x / 32))).ary (i &&& idrMask) = σ.ptr x := by
  have leaf := marked.tree.leaf present (Nat.mod_lt x (by decide))
  rw [Nat.div_add_mod] at leaf
  rw [leaf_digit own, leaf]

/-- The kept chunk goes into an unused slot. -/
theorem Chunks.enter (chunks : Chunks s σ) (some : s.freeBitmap ≠ 0)
    (unused : σ.used x = false) (mem : u.chunks = update s.chunks s.freeBitmap ⟨0, 0⟩)
    (brk : u.brk = s.brk) (free : u.freeBitmap = 0) :
    Chunks u (σ.occupy x s.freeBitmap) ∧
      ∀ y k, u.bit (σ.occupy x s.freeBitmap) y k ↔ s.bit σ y k := by
  have own : (σ.occupy x s.freeBitmap).ptr x = s.freeBitmap := by simp [Slots.occupy]
  have used : ∀ {y}, y ≠ x → (σ.occupy x s.freeBitmap).used y = σ.used y := by
    intro y other
    simp [Slots.occupy, other]
  have ptr : ∀ {y}, y ≠ x → (σ.occupy x s.freeBitmap).ptr y = σ.ptr y := by
    intro y other
    simp [Slots.occupy, other]
  have fresh : u.chunks s.freeBitmap = ⟨0, 0⟩ := by rw [mem, update_self]
  have same : ∀ {y}, σ.used y = true → u.chunks (σ.ptr y) = s.chunks (σ.ptr y) := by
    intro y busy
    rw [mem, update_of_ne (chunks.free busy)]
  have zero : ∀ k, (0 : BitVec 992).getLsbD k = false := fun k => getLsbD_zero
  have notFull : (σ.occupy x s.freeBitmap).full x = false := by
    by_contra full
    have := σ.full_used x (by simpa [Slots.occupy] using full)
    rw [unused] at this
    cases this
  constructor
  · constructor
    case present => grind [→ Chunks.present]
    case old => grind [→ Chunks.kept, → Chunks.old]
    case apart => grind [→ Chunks.free, → Chunks.apart]
    case kept =>
      rw [free, brk]
      exact (Nat.zero_le _).trans_lt chunks.kept
    case free => grind [→ Chunks.present]
    case busy =>
      intro y busy
      by_cases here : y = x
      · rw [here, own, fresh]
        exact (tally_eq_zero.mpr fun k _ => zero k).symm
      · rw [used here] at busy
        rw [ptr here, same busy]
        exact chunks.busy busy
    case full =>
      intro y busy
      by_cases here : y = x
      · rw [here, own, fresh, notFull]
        refine iff_of_false (by decide) fun all => ?_
        have := all 0 (by decide)
        rw [zero] at this
        cases this
      · rw [used here] at busy
        rw [ptr here, same busy]
        exact chunks.full busy
  · intro y k
    unfold IdaState.bit
    by_cases here : y = x
    · rw [here, own, fresh, zero, unused]
      simp
    · rw [used here, ptr here]
      exact and_congr_right fun busy => by rw [same busy]

/-- A slot whose chunk was never written keeps its bits when the kept chunk is
forgotten. -/
theorem Chunks.forget (chunks : Chunks s σ) : Chunks { s with freeBitmap := 0 } σ :=
  { chunks with
    kept := (Nat.zero_le _).trans_lt chunks.kept
    free := chunks.present
    busy := chunks.busy
    full := chunks.full }

theorem chunkOf_spec (own : x = i % 32 ^ (h + 1)) (standing : Standing s.idr h pos σ)
    (chunks : Chunks s σ) (path : Path pos h pa i) :
    wp (chunkOf i pa) (fun b u =>
      (b = 0 ∧ Standing u.idr h pos σ ∧ Chunks u σ ∧ ∀ y k, u.bit σ y k ↔ s.bit σ y k) ∨
      (b ≠ 0 ∧ σ.used x = true ∧ b = σ.ptr x ∧ u = s) ∨
      (b ≠ 0 ∧ σ.used x = false ∧ Standing u.idr h pos (σ.occupy x b) ∧ Chunks u (σ.occupy x b) ∧
        ∀ y k, u.bit (σ.occupy x b) y k ↔ s.bit σ y k)) never s := by
  obtain ⟨entry, present⟩ := path.entry (Nat.zero_le h)
  rw [zero_add, pow_one, ← own] at entry present
  have leaf := standing.leaf_ptr own present
  have there := entry.trans_ne present
  simp only [chunkOf, wp_bind, wp_onIdr, wp_load there, wp_ite, wp_get, wp_modify, wp_pure]
  rw [entry, leaf]
  refine ⟨fun empty => ?_, fun some => .inr (.inl ⟨some, Slots.used_of_ptr some, rfl, trivial⟩)⟩
  · have unused : σ.used x = false := Bool.eq_false_iff.mpr fun busy => chunks.present busy empty
    refine ⟨fun none => .inl ⟨trivial, standing, chunks.forget, fun _ _ => .rfl⟩, fun some => ?_⟩
    simp only [storeChunk, wp_ite, wp_throw, wp_modify, wp_change present]
    refine ⟨fun none => absurd none some, fun _ => .inr (.inr ⟨some, unused, ?_, ?_⟩)⟩
    · have installed := standing.install s.freeBitmap path (own ▸ unused)
      rwa [entry, ← own] at installed
    · exact chunks.enter some unused rfl rfl rfl

/-- Taking a bit may take a layer from the free list. -/
theorem Standing.spend {s : IdrState} (standing : Standing s h pos σ) :
    wp getFromFreeList (fun _ t => Holds t σ) never s := by
  obtain ⟨free, pool⟩ := standing.pool
  refine (getFromFreeList_spec pool).returns ?_
  rintro p t (⟨-, rfl, -⟩ | ⟨rest, -, taken⟩)
  · exact standing.holds
  · refine ⟨pos, standing.laid.kept ⟨rest, taken.pool⟩ ⟨fun l q _ => ?_, taken.top, taken.layers⟩⟩
    exact taken.mem _ (taken.apart l q)

theorem takeBit_spec (own : x = i % 32 ^ (h + 1)) (standing : Standing s.idr h pos σ)
    (chunks : Chunks s σ) (path : Path pos h pa i) (busy : σ.used x = true) (slot : k < 992)
    (clear : ¬s.bit σ x k) :
    wp (takeBit (σ.ptr x) k i pa) (fun _ u => ∃ σ', Holds u.idr σ' ∧ Chunks u σ' ∧
      σ'.used = σ.used ∧ ∀ y k', u.bit σ' y k' ↔ s.bit σ y k' ∨ y = x ∧ k' = k) never s := by
  have present := chunks.present busy
  obtain ⟨c, chunk⟩ : ∃ c, s.chunks (σ.ptr x) = c := ⟨_, rfl⟩
  have off : c.bitmap.getLsbD k = false := by
    by_contra set
    exact clear ⟨busy, by simpa [chunk] using set⟩
  have count : c.nrBusy + 1 = tally 992 (c.bitmap ||| twoPow 992 k).getLsbD := by
    have := chunks.busy busy
    rw [chunk] at this
    rw [this]
    refine (tally_set slot off ?_ fun j _ other => ?_).symm
    · rw [getLsbD_take _ slot]
      simp
    · rw [getLsbD_take _ slot]
      simp [other]
  have room : σ.full x = false := by
    by_contra full
    have := (chunks.full busy).mp (by simpa using full) k slot
    rw [chunk, off] at this
    cases this
  -- the chunk with the bit set, as `σ'` sees it
  set c' : IdaBitmap := ⟨c.nrBusy + 1, c.bitmap ||| twoPow 992 k⟩
  have done : ∀ {v : IdaState} {σ' : Slots}, Written s v σ σ' x c' →
      Chunks v σ' ∧ σ'.used = σ.used ∧ ∀ y k', v.bit σ' y k' ↔ s.bit σ y k' ∨ y = x ∧ k' = k := by
    intro v σ' written
    refine ⟨written.keeps chunks, written.used, fun y k' => ?_⟩
    rw [written.bit chunks]
    split
    · rename_i here
      simp [here, c', getLsbD_take _ slot, IdaState.bit, busy, chunk]
    · rename_i other
      simp [other]
  simp only [takeBit, wp_bind, loadChunk, storeChunk, wp_ite, wp_throw, wp_modify, wp_get, wp_pure,
    chunk, wp_ifThen, wp_onIdr]
  refine ⟨fun none => absurd none present, fun _ => ⟨fun none => absurd none present, fun _ =>
    ⟨fun last => ?_, fun more => ?_⟩⟩⟩
  · refine (idrMarkFull_spec standing path (own ▸ busy)).returns fun _ t standing' => ?_
    have written : ∀ idr, Written s { s with idr, chunks := update s.chunks (σ.ptr x) c' }
        σ (σ.mark x busy) x c' := by
      intro idr
      refine ⟨busy, rfl, rfl, rfl, rfl, rfl, count, ?_, fun y other => ?_⟩
      · rw [count] at last
        exact iff_of_true (by simp [Slots.mark]) (tally_eq_size.mp last)
      · simp [Slots.mark, other]
    have standing₂ : Standing t h pos (σ.mark x busy) := by
      subst own
      exact standing'
    exact ⟨fun _ => standing₂.spend.returns fun _ u holds => ⟨_, holds, done (written _)⟩,
      fun _ => ⟨_, standing₂.holds, done (written _)⟩⟩
  · have written : ∀ idr, Written s { s with idr, chunks := update s.chunks (σ.ptr x) c' }
        σ σ x c' := by
      intro idr
      refine ⟨busy, rfl, rfl, rfl, rfl, rfl, count, ?_, fun y other => rfl⟩
      rw [room]
      rw [count] at more
      exact iff_of_false (by decide) fun all => more (tally_eq_size.mpr all)
    exact ⟨fun _ => standing.spend.returns fun _ u holds => ⟨_, holds, done (written _)⟩,
      fun _ => ⟨_, standing.holds, done (written _)⟩⟩

/-! ### Removal -/

/-- The leaf layer of the slot `x`, or null. -/
def IdrState.leaf (s : IdrState) (x : Nat) : Nat :=
  match replaceLoop (s.layers - 1) x s.top s with
  | .ok (p, _) => p
  | .error _ => 0

theorem Marked.leaf_eq {s : IdrState} (marked : Marked s h pos σ marks)
    (inside : x < 32 ^ (h + 1)) : s.leaf x = pos 0 (x / 32) := by
  have walk : wp (replaceLoop h x (pos h (x / 32 ^ (h + 1))))
      (fun p t => t = s ∧ p = pos 0 (x / 32)) (fun _ => False) s :=
    replaceLoop_spec marked.tree le_rfl
  obtain ⟨p, t, run, -, rfl⟩ := walk.total
  rw [marked.tree.root_eq inside] at run
  rw [IdrState.leaf, marked.layers, Nat.add_sub_cancel, run]

/-- A slot is given up; its chunk may be kept. -/
theorem Chunks.vacate (chunks : Chunks s σ) : Chunks s (σ.vacate x) := by
  have used : ∀ {y}, (σ.vacate x).used y = true → σ.used y = true ∧ y ≠ x := by
    intro y busy
    by_cases here : y = x
    · simp [Slots.vacate, here] at busy
    · exact ⟨by simpa [Slots.vacate, here] using busy, here⟩
  have ptr : ∀ {y}, y ≠ x → (σ.vacate x).ptr y = σ.ptr y := by
    intro y other
    simp [Slots.vacate, other]
  constructor
  case kept => exact chunks.kept
  case full =>
    intro y busy
    obtain ⟨busy, other⟩ := used busy
    rw [ptr other, ← chunks.full busy]
    simp [Slots.vacate, other]
  case apart =>
    intro y z busy busy' eq
    obtain ⟨busy, other⟩ := used busy
    obtain ⟨busy', other'⟩ := used busy'
    rw [ptr other, ptr other'] at eq
    exact chunks.apart busy busy' eq
  all_goals
    intro y busy
    obtain ⟨busy, other⟩ := used busy
    rw [ptr other]
  · exact chunks.present busy
  · exact chunks.old busy
  · exact chunks.free busy
  · exact chunks.busy busy

theorem freeBitmap_spec {p : Nat} (chunks : Chunks s σ) (old : p < s.brk)
    (apart : ∀ y, σ.used y = true → σ.ptr y ≠ p) :
    wp (freeBitmap p) (fun _ u => u.idr = s.idr ∧ u.chunks = s.chunks ∧ Chunks u σ) never s := by
  simp only [freeBitmap, wp_bind, wp_get, wp_ifThen, wp_modify]
  refine ⟨fun _ => ⟨trivial, trivial, ?_⟩, fun _ => ⟨trivial, trivial, chunks⟩⟩
  exact { chunks with
    kept := old
    free := fun {y} busy => apart y busy
    busy := chunks.busy
    full := chunks.full }

/-- The full-bits after the way to the slot `x` is cleared, down to its own. -/
theorem Slots.cleared_iff {j y : Nat} (below : j ≤ h) :
    cleared σ.Full x h j y ∧ ¬(j = 0 ∧ y = x) ↔ σ.Full j y ∧ y ≠ x / 32 ^ j := by
  unfold cleared
  rcases Nat.eq_zero_or_pos j with rfl | positive
  · simp
  · grind

theorem Marked.unmark {s : IdrState} (marked : Marked s h pos σ marks) :
    Marked s h pos (σ.unmark x) marks :=
  ⟨marked.pool, marked.layers,
    { marked.tree with
      count := fun {l q} here => (marked.tree.count here).trans (by cases l <;> rfl)
      leaf := marked.tree.leaf
      used := marked.tree.used }⟩

/-- What `ida_remove` of the bit `k` of the chunk in the slot `x` leaves. -/
structure Removed (s u : IdaState) (σ σ' : Slots) (x k : Nat) : Prop where
  holds : Holds u.idr σ'
  chunks : Chunks u σ'
  used : ∀ y, σ'.used y = true → σ.used y = true
  bits : ∀ y j, u.bit σ' y j ↔ s.bit σ y j ∧ ¬(y = x ∧ j = k)
  same : ¬s.bit σ x k → σ' = σ

/-- The slot of a chunk that loses its last bit is removed from the idr. -/
theorem idrRemove_cleared {t : IdrState} (own : x = maskId id % 32 ^ (h + 1))
    (marked : Marked t h pos σ fun j y => cleared σ.Full x h j y ∧ ¬(j = 0 ∧ y = x))
    (busy : σ.used x = true) :
    wp (do change (pos 0 (x / 32)) (.setBit (x % 32)); idrRemove id)
      (fun _ u => Holds u (σ.vacate x)) never t := by
  have present : pos 0 (x / 32) ≠ 0 := marked.tree.used busy
  have whole : 32 * (x / 32) + x % 32 = x := Nat.div_add_mod x 32
  have faked := marked.setBit present (Nat.mod_lt x (by decide))
  rw [whole] at faked
  rw [wp_bind, wp_change present, idrRemove, wp_bind]
  refine (subRemove_used faked own (fun j below y other => ?_) (.inr ⟨rfl, rfl⟩) busy).returns
    fun _ u removed => settle_spec removed
  rw [Slots.cleared_iff below, and_iff_left other]
  refine or_iff_left ?_
  rintro ⟨rfl, rfl⟩
  exact other (by rw [pow_zero, Nat.div_one])

/-- The bit is set: it is cleared, and a chunk without bits is given up. -/
theorem dropBit_spec {p offset : Nat} {t : IdrState}
    (own : x = maskId id % 32 ^ (h + 1)) (chunks : Chunks s σ)
    (marked : Marked t h pos σ fun j y => cleared σ.Full x h j y ∧ ¬(j = 0 ∧ y = x))
    (leaf : p = pos 0 (x / 32)) (slot : offset < 992) (set : s.bit σ x offset)
    (chunk : s.chunks (σ.ptr x) = c) :
    wp (do
        storeChunk (σ.ptr x) ⟨c.nrBusy - 1, c.bitmap &&& ~~~twoPow 992 offset⟩
        ifThen (c.nrBusy - 1 = 0) do
          onIdr (change p (.setBit (x % 32)))
          onIdr (idrRemove id)
          freeBitmap (σ.ptr x))
      (fun _ u => ∃ σ', Removed s u σ σ' x offset) never { s with idr := t } := by
  obtain ⟨busy, on⟩ := set
  rw [chunk] at on
  have count : c.nrBusy = tally 992 (c.bitmap &&& ~~~twoPow 992 offset).getLsbD + 1 := by
    have := chunks.busy busy
    rw [chunk] at this
    rw [this]
    refine tally_set slot ?_ on fun j _ other => ?_
    · rw [getLsbD_drop]
      simp
    · rw [getLsbD_drop]
      simp [other]
  -- the chunk without the bit, in a slot that is not full
  have written : Written s
      { s with
        idr := t
        chunks := update s.chunks (σ.ptr x)
          ⟨c.nrBusy - 1, c.bitmap &&& ~~~twoPow 992 offset⟩ }
      σ (σ.unmark x) x ⟨c.nrBusy - 1, c.bitmap &&& ~~~twoPow 992 offset⟩ := by
    refine ⟨busy, rfl, rfl, rfl, rfl, rfl, by simp [count], ?_, fun y other => ?_⟩
    · refine iff_of_false (by simp [Slots.unmark]) fun all => ?_
      have := all offset slot
      rw [getLsbD_drop] at this
      simp at this
    · simp [Slots.unmark, other]
  have bits : ∀ y j, (if y = x then (c.bitmap &&& ~~~twoPow 992 offset).getLsbD j = true
      else s.bit σ y j) ↔ s.bit σ y j ∧ ¬(y = x ∧ j = offset) := by
    intro y j
    split
    · rename_i here
      rw [getLsbD_drop, here, IdaState.bit, chunk]
      simp [busy]
    · rename_i other
      simp [other]
  have notSame : ∀ {σ' : Slots}, ¬s.bit σ x offset → σ' = σ :=
    fun clear => absurd ⟨busy, by rwa [chunk]⟩ clear
  simp only [storeChunk, wp_bind, wp_ite, wp_throw, wp_modify, wp_ifThen, wp_onIdr]
  refine ⟨fun none => absurd none (chunks.present busy), fun _ => ⟨fun last => ?_, fun more => ?_⟩⟩
  · have again : (σ.unmark x).vacate x = σ.vacate x := by simp [Slots.vacate, Slots.unmark]
    have left := (written.keeps chunks).vacate (x := x)
    rw [again] at left
    have removed : wp _ _ never t := idrRemove_cleared own marked busy
    rw [wp_bind, ← leaf] at removed
    refine removed.returns fun _ t' run => run.returns fun _ t'' holds => ?_
    refine (freeBitmap_spec (left.onIdr t'') (chunks.old busy) fun y used => ?_).returns ?_
    · by_cases here : y = x
      · simp [Slots.vacate, here] at used
      · have ptr : (σ.vacate x).ptr y = σ.ptr y := by simp [Slots.vacate, here]
        rw [ptr]
        exact fun eq => here (chunks.apart (by simpa [Slots.vacate, here] using used) busy eq)
    rintro - u ⟨idr, mem, kept⟩
    refine ⟨σ.vacate x, idr ▸ holds, kept, fun y used => ?_, fun y j => ?_, notSame⟩
    · by_cases here : y = x
      · rwa [here]
      · simpa [Slots.vacate, here] using used
    rw [← bits]
    unfold IdaState.bit
    rw [mem]
    split
    · rename_i here
      have none := tally_eq_zero.mp (by omega : tally 992
        (c.bitmap &&& ~~~twoPow 992 offset).getLsbD = 0)
      refine iff_of_false (by simp [Slots.vacate, here]) ?_
      by_cases inside : j < 992
      · rw [none j inside]
        decide
      · rw [getLsbD_of_ge _ j (by omega)]
        decide
    · rename_i other
      have own := written.bit chunks y j
      rw [if_neg other, IdaState.bit, IdaState.bit] at own
      simp only [Slots.vacate, update_of_ne other]
      exact own
  · have standing : Standing t h pos (σ.unmark x) := by
      refine marked.unmark.remark fun j below y => ?_
      rw [Slots.unmark_full, Slots.cleared_iff below]
    refine ⟨σ.unmark x, standing.holds, written.keeps chunks, fun y used => used, fun y j => ?_,
      notSame⟩
    rw [written.bit chunks, bits]

theorem maskId_chunk (id : BitVec 32) :
    maskId (BitVec.ofNat 32 (id.toNat / 992)) = id.toNat / 992 := by
  have small : id.toNat / 992 < 2 ^ 31 := by
    have := id.isLt
    omega
  rw [maskId, toNat_and, toNat_ofNat, toNat_ofNat,
    Nat.mod_eq_of_lt (by omega : id.toNat / 992 < 2 ^ 32),
    Nat.mod_eq_of_lt (by decide : maxIdBit - 1 < 2 ^ 32), show maxIdBit = 2 ^ 31 from rfl,
    Nat.and_two_pow_sub_one_eq_mod, Nat.mod_eq_of_lt small]

/-- `ida_remove` clears the bit of the id, if it is set, and faults exactly when
there is a leaf layer for the chunk of the id but no chunk. -/
theorem idaRemove_spec (own : x = id.toNat / 992 % 32 ^ s.idr.layers)
    (holds : Holds s.idr σ) (chunks : Chunks s σ) :
    wp (idaRemove id)
      (fun _ u => (σ.used x = true ∨ s.idr.leaf x = 0) ∧ ∃ σ', Removed s u σ σ' x (id.toNat % 992))
      (fun f => f = .nullDereference ∧ σ.used x = false ∧ s.idr.leaf x ≠ 0) s := by
  obtain ⟨pos, laid⟩ := holds
  have slot : id.toNat % 992 < 992 := Nat.mod_lt _ (by decide)
  -- nothing is removed
  have nothing : ∀ {t : IdrState}, Holds t σ → ¬s.bit σ x (id.toNat % 992) →
      ∃ σ', Removed s { s with idr := t } σ σ' x (id.toNat % 992) := by
    intro t holds clear
    refine ⟨σ, holds, chunks.onIdr t, fun _ used => used, fun y j => ?_, fun _ => rfl⟩
    refine (and_iff_left_of_imp fun bit => ?_).symm
    rintro ⟨rfl, rfl⟩
    exact clear bit
  simp only [idaRemove, wp_bind, wp_get, wp_onIdr, show idaBitmapBits = 992 from rfl]
  rcases laid.tree with ⟨top, layers, rfl, unused⟩ | ⟨h, layers, tree⟩
  · have leaf : s.idr.leaf x = 0 := by
      rw [IdrState.leaf, layers, top]
      rfl
    rw [layers, top]
    simp only [wp_pure, wp_ite]
    refine ⟨fun _ => ⟨.inr leaf, nothing ⟨_, laid⟩ ?_⟩, fun some => absurd rfl some⟩
    rintro ⟨busy, -⟩
    rw [unused] at busy
    cases busy
  have standing : Standing s.idr h pos σ := ⟨laid.pool, layers, tree⟩
  rw [layers] at own ⊢
  have inside : x < 32 ^ (h + 1) := own ▸ Nat.mod_lt _ (by positivity)
  have leafEq := standing.leaf_eq inside
  rw [Nat.add_sub_cancel, ← tree.root_eq inside]
  refine (clearPath_spec standing le_rfl own _).returns ?_
  rintro ⟨p, paa⟩ t ⟨rfl, -, marked⟩
  simp only [wp_ite, wp_pure]
  have whole : 32 * (x / 32) + x % 32 = x := Nat.div_add_mod x 32
  -- where the slot is not full, no full-bit was set on the way
  have untouched : σ.full x = false → ∀ {j y}, σ.Full j y → y ≠ x / 32 ^ j := by
    rintro clear j - full rfl
    have := Slots.full_zero.mp (full.down (Nat.zero_le j))
    rw [pow_zero, Nat.div_one, clear] at this
    cases this
  refine ⟨fun missing => ⟨.inr (leafEq.trans missing), ?_⟩, fun present => ?_⟩
  · have unused : ¬σ.used x = true := fun busy => tree.used busy missing
    have clear : σ.full x = false := Slots.not_full (Bool.eq_false_iff.mpr unused)
    have standing' : Standing t h pos σ := by
      refine marked.remark fun j _ y => (and_iff_left_of_imp fun full => ?_).symm
      exact fun own => untouched clear full own.2.2
    exact nothing standing'.holds fun bit => unused bit.1
  rw [leaf_digit own, wp_bind, wp_onIdr, wp_change present, wp_bind, wp_onIdr, wp_load present]
  have marked' := marked.clearBit present (Nat.mod_lt x (by decide))
  rw [whole] at marked'
  have ptr := marked'.leaf_ptr own present
  rw [leaf_digit own] at ptr
  generalize t.update (pos 0 (x / 32)) (.clearBit (x % 32)) = v at marked' ptr ⊢
  simp only [ptr, loadChunk, wp_bind (m := ite _ _ _), wp_ite, wp_throw, wp_pure]
  refine ⟨fun missing => ⟨trivial, ?_, leafEq.trans_ne present⟩, fun some => ?_⟩
  · exact Bool.eq_false_iff.mpr fun busy => chunks.present busy missing
  have busy := Slots.used_of_ptr some
  refine ⟨fun set => ?_, fun clear => ⟨.inl busy, ?_⟩⟩
  · refine wp.returns (dropBit_spec ?_ chunks marked' rfl slot ⟨busy, set⟩ rfl)
      fun _ u removed => ⟨.inl busy, removed⟩
    rwa [maskId_chunk]
  have notFull : σ.full x = false :=
    Bool.eq_false_iff.mpr fun full => clear ((chunks.full busy).mp full _ slot)
  have standing' : Standing v h pos σ := by
    refine marked'.remark fun j below y => ?_
    rw [Slots.cleared_iff below]
    exact (and_iff_left_of_imp (untouched notFull)).symm
  exact nothing standing'.holds fun bit => clear bit.2

end Chunks

end AndroidKernel.Idr
