import AndroidKernel.Lib.PosTree
import AndroidKernel.Idr.Layers

/-!
What the layers in memory stand for.

`Slots` says which ids have something stored for them, which of them count as
full, and what is stored. `Tree` says that the layers found from a root are laid
out by their places, and that counts, slots and full-bits are those of the
slots. The full-bits are compared with a relation of their own, `marks`, which
is `Slots.Full` except while a program is setting or clearing the bits on the
way to an id. `Pool` describes the free list.

The lemmas say how each change of the memory changes what it stands for.
-/

namespace AndroidKernel.Idr

open Lib Function

/-! ### Digits and bits -/

theorem digit_eq (id l : Nat) : (id >>> (idrBits * l)) &&& idrMask = id / 32 ^ l % 32 := by
  calc (id >>> (5 * l)) &&& ((1 <<< 5) - 1) = (id >>> (5 * l)) % 2 ^ 5 := and_mask 5 _
    _ = id / 32 ^ l % 32 := by rw [shift_eq_div, show 2 ^ 5 = 32 from rfl]

theorem digit_zero (id : Nat) : id &&& idrMask = id % 32 := and_mask 5 id

namespace IdrLayer

variable {p : IdrLayer} {n k : Nat}

theorem setBit_bit (slot : n < 32) :
    (p.setBit n).bitmap.getLsbD k = true ↔ p.bitmap.getLsbD k = true ∨ k = n := by
  simp only [setBit, BitVec.getLsbD_or, BitVec.getLsbD_twoPow, Bool.or_eq_true, Bool.and_eq_true,
    decide_eq_true_eq, slot, true_and]
  exact or_congr_right eq_comm

theorem clearBit_bit (slot : k < 32) :
    (p.clearBit n).bitmap.getLsbD k = true ↔ p.bitmap.getLsbD k = true ∧ k ≠ n := by
  simp only [clearBit, BitVec.getLsbD_and, BitVec.getLsbD_not, BitVec.getLsbD_twoPow, slot,
    decide_true, Bool.true_and, Bool.and_eq_true, Bool.not_eq_true', Bool.and_eq_false_iff,
    decide_eq_false_iff_not]
  refine and_congr_right fun _ => ⟨fun clear same => ?_, fun other => ?_⟩
  · subst same
    exact clear.elim (fun out => out slot) fun out => out rfl
  · exact .inr fun same => other same.symm

theorem eq_idrFull_iff : p.bitmap = idrFull ↔ ∀ k < 32, p.bitmap.getLsbD k = true := by
  have ones : idrFull = BitVec.allOnes 32 := by decide
  rw [ones]
  constructor
  · intro full k slot
    rw [full, BitVec.getLsbD_allOnes, decide_eq_true slot]
  · intro set
    apply BitVec.eq_of_getLsbD_eq
    intro k slot
    rw [set k slot, BitVec.getLsbD_allOnes, decide_eq_true slot]

end IdrLayer

/-! ### Rules for the memory -/

section Memory

variable {s : IdrState} {p : Nat} {never : Fault → Prop}

theorem wp_load {post : IdrLayer → IdrState → Prop} (present : p ≠ 0) :
    wp (load p) post never s ↔ post (s.mem p) s := by
  simp only [load, if_neg present, wp_bind, wp_get, wp_pure]

theorem wp_change {post : Unit → IdrState → Prop} {f : IdrLayer → IdrLayer} (present : p ≠ 0) :
    wp (change p f) post never s ↔ post () (s.update p f) := by
  simp only [change, if_neg present, wp_modify]

end Memory

section

variable (s : IdrState) (p : Nat) (f : IdrLayer → IdrLayer)

@[simp] theorem IdrState.update_mem_self : (s.update p f).mem p = f (s.mem p) := by
  simp [IdrState.update]

@[simp] theorem IdrState.update_idFreeCnt : (s.update p f).idFreeCnt = s.idFreeCnt := rfl

theorem IdrState.update_mem_of_ne {s : IdrState} {p q : Nat} (other : q ≠ p) :
    (s.update p f).mem q = s.mem q := by
  simp [IdrState.update, other]

theorem IdrState.update_update (g : IdrLayer → IdrLayer) :
    (s.update p f).update p g = s.update p fun x => g (f x) := by
  simp [IdrState.update]

end

/-! ### Slots -/

/-- What the slots of the leaves hold. A slot in use need not count as full: the
bitmap allocator marks a slot only when the chunk in it is full. -/
structure Slots where
  used : Nat → Bool
  full : Nat → Bool
  ptr : Nat → Nat
  full_used : ∀ x, full x = true → used x = true
  unused_ptr : ∀ x, used x = false → ptr x = 0

namespace Slots

def empty : Slots where
  used _ := false
  full _ := false
  ptr _ := 0
  full_used _ full := full
  unused_ptr _ _ := rfl

section

variable {σ : Slots} {x : Nat}

theorem not_full (unused : σ.used x = false) : σ.full x = false :=
  Bool.eq_false_iff.mpr fun full => Bool.eq_false_iff.mp unused (σ.full_used x full)

theorem used_of_ptr (some : σ.ptr x ≠ 0) : σ.used x = true :=
  Bool.of_not_eq_false fun unused => some (σ.unused_ptr x unused)

end

/-- All slots below the place `x` on level `l` are full; on level 0 the places
are the slots themselves. -/
def Full (σ : Slots) (l x : Nat) : Prop := ∀ y, y / 32 ^ l = x → σ.full y = true

variable {σ : Slots} {l x y a : Nat}

theorem full_zero : σ.Full 0 x ↔ σ.full x = true := by
  simp [Full]

theorem full_succ : σ.Full (l + 1) x ↔ ∀ k < 32, σ.Full l (32 * x + k) := by
  constructor
  · intro full k slot y below
    apply full y
    rw [pow_succ, ← Nat.div_div_eq_div_mul, below]
    omega
  · intro full y below
    rw [pow_succ, ← Nat.div_div_eq_div_mul] at below
    exact full (y / 32 ^ l % 32) (by omega) y (by omega)

/-- Store `a` in the slot `x`. -/
def occupy (σ : Slots) (x a : Nat) : Slots where
  used := update σ.used x true
  full := σ.full
  ptr := update σ.ptr x a
  full_used y full := by
    by_cases same : y = x
    · simp [same]
    · simpa [same] using σ.full_used y full
  unused_ptr y unused := by
    by_cases same : y = x
    · simp [same] at unused
    · simp only [ne_eq, same, not_false_eq_true, update_of_ne] at unused ⊢
      exact σ.unused_ptr y unused

/-- Count the slot `x` as full. -/
def mark (σ : Slots) (x : Nat) (busy : σ.used x = true) : Slots where
  used := σ.used
  full := update σ.full x true
  ptr := σ.ptr
  full_used y full := by
    by_cases same : y = x
    · rw [same, busy]
    · exact σ.full_used y (by simpa [same] using full)
  unused_ptr := σ.unused_ptr

/-- Count the slot `x` as not full. -/
def unmark (σ : Slots) (x : Nat) : Slots where
  used := σ.used
  full := update σ.full x false
  ptr := σ.ptr
  full_used y full := by
    by_cases same : y = x
    · simp [same] at full
    · exact σ.full_used y (by simpa [same] using full)
  unused_ptr := σ.unused_ptr

/-- Clear the slot `x`. -/
def vacate (σ : Slots) (x : Nat) : Slots where
  used := update σ.used x false
  full := update σ.full x false
  ptr := update σ.ptr x 0
  full_used y full := by
    by_cases same : y = x
    · simp [same] at full
    · simpa [same] using σ.full_used y (by simpa [same] using full)
  unused_ptr y unused := by
    by_cases same : y = x
    · simp [same]
    · simp only [ne_eq, same, not_false_eq_true, update_of_ne] at unused ⊢
      exact σ.unused_ptr y unused

theorem mark_full_of_ne {busy : σ.used x = true} (other : y ≠ x / 32 ^ l) :
    (σ.mark x busy).Full l y ↔ σ.Full l y := by
  refine forall_congr' fun z => imp_congr_right fun below => ?_
  have apart : z ≠ x := by
    rintro rfl
    exact other below.symm
  simp [mark, apart]

theorem Full.mark {busy : σ.used x = true} (full : σ.Full l y) : (σ.mark x busy).Full l y := by
  intro z below
  by_cases same : z = x
  · simp [Slots.mark, same]
  · simpa [Slots.mark, same] using full z below

theorem unmark_full : (σ.unmark x).Full l y ↔ σ.Full l y ∧ y ≠ x / 32 ^ l := by
  constructor
  · intro full
    refine ⟨fun z below => ?_, fun same => ?_⟩
    · by_cases eq : z = x
      · have := full z below
        simp [unmark, eq] at this
      · simpa [unmark, eq] using full z below
    · have := full x same.symm
      simp [unmark] at this
  · rintro ⟨full, other⟩ z below
    have apart : z ≠ x := by
      rintro rfl
      exact other below.symm
    simpa [unmark, apart] using full z below

theorem vacate_full : (σ.vacate x).Full l y ↔ σ.Full l y ∧ y ≠ x / 32 ^ l := unmark_full

/-- Something is below a place. -/
def occupied (σ : Slots) (pos : Nat → Nat → Nat) : Nat → Nat → Bool
  | 0, x => σ.used x
  | l + 1, x => decide (pos l x ≠ 0)

end Slots

/-! ### Trees of layers -/

/-- The layers found from `top`, which stands on level `h`, are laid out by `pos`
and hold `σ`. -/
structure Tree (mem : Nat → IdrLayer) (top h : Nat) (pos : Nat → Nat → Nat) (σ : Slots)
    (marks : Nat → Nat → Prop) : Prop where
  low : h ≤ 5
  placed : Placed 32 (fun a k => (mem a).ary k) top h pos
  layer : ∀ {l q}, pos l q ≠ 0 → (mem (pos l q)).layer = l
  bits : ∀ {l q k}, pos l q ≠ 0 → k < 32 →
    ((mem (pos l q)).bitmap.getLsbD k = true ↔ marks l (32 * q + k))
  count : ∀ {l q}, pos l q ≠ 0 →
    (mem (pos l q)).count = tally 32 fun k => σ.occupied pos l (32 * q + k)
  leaf : ∀ {q k}, pos 0 q ≠ 0 → k < 32 → (mem (pos 0 q)).ary k = σ.ptr (32 * q + k)
  used : ∀ {x}, σ.used x = true → pos 0 (x / 32) ≠ 0

/-- No layer was changed but the one on level `l` with the number `q`. -/
def OnlyAt (mem mem' : Nat → IdrLayer) (pos : Nat → Nat → Nat) (l q : Nat) : Prop :=
  ∀ l' q', ¬(l' = l ∧ q' = q) → pos l' q' ≠ 0 → mem' (pos l' q') = mem (pos l' q')

section Trees

variable {mem mem' : Nat → IdrLayer} {top h l q k a x : Nat} {pos : Nat → Nat → Nat} {σ : Slots}
  {marks marks' : Nat → Nat → Prop}

/-- A layer at the place `q` of level `l`. -/
structure Stands (p : IdrLayer) (l q : Nat) (pos : Nat → Nat → Nat) (σ : Slots)
    (marks : Nat → Nat → Prop) : Prop where
  layer : p.layer = l
  bits : ∀ {k}, k < 32 → (p.bitmap.getLsbD k = true ↔ marks l (32 * q + k))
  count : p.count = tally 32 fun k => σ.occupied pos l (32 * q + k)
  leaf : l = 0 → ∀ {k}, k < 32 → p.ary k = σ.ptr (32 * q + k)

theorem Tree.stands (tree : Tree mem top h pos σ marks) (here : pos l q ≠ 0) :
    Stands (mem (pos l q)) l q pos σ marks where
  layer := tree.layer here
  bits := tree.bits here
  count := tree.count here
  leaf := by
    rintro rfl
    exact tree.leaf here

theorem Tree.of_stands (low : h ≤ 5) (placed : Placed 32 (fun a k => (mem a).ary k) top h pos)
    (stands : ∀ {l q}, pos l q ≠ 0 → Stands (mem (pos l q)) l q pos σ marks)
    (used : ∀ {x}, σ.used x = true → pos 0 (x / 32) ≠ 0) : Tree mem top h pos σ marks :=
  ⟨low, placed, fun here => (stands here).layer, fun here => (stands here).bits,
    fun here => (stands here).count, fun here => (stands here).leaf rfl, used⟩

theorem Stands.repos {p : IdrLayer} {pos' : Nat → Nat → Nat} (stands : Stands p l q pos σ marks)
    (same : ∀ k < 32, σ.occupied pos' l (32 * q + k) = σ.occupied pos l (32 * q + k)) :
    Stands p l q pos' σ marks :=
  { stands with count := stands.count.trans (tally_congr fun k slot => (same k slot).symm) }

section

variable (tree : Tree mem top h pos σ marks)

include tree

theorem Tree.frame (same : ∀ l q, pos l q ≠ 0 → mem' (pos l q) = mem (pos l q)) :
    Tree mem' top h pos σ marks := by
  refine .of_stands tree.low (tree.placed.congr fun here _ => ?_) (fun here => ?_) tree.used
  · rw [same _ _ here]
  · rw [same _ _ here]
    exact tree.stands here

/-- Other bits in the layers. -/
theorem Tree.rebit
    (same : ∀ l q, pos l q ≠ 0 → (mem' (pos l q)).ary = (mem (pos l q)).ary ∧
      (mem' (pos l q)).count = (mem (pos l q)).count ∧
      (mem' (pos l q)).layer = (mem (pos l q)).layer)
    (bits : ∀ {l q k}, pos l q ≠ 0 → k < 32 →
      ((mem' (pos l q)).bitmap.getLsbD k = true ↔ marks' l (32 * q + k))) :
    Tree mem' top h pos σ marks' where
  low := tree.low
  placed := tree.placed.congr fun here _ => by rw [(same _ _ here).1]
  layer here := by rw [(same _ _ here).2.2, tree.layer here]
  bits := bits
  count here := by rw [(same _ _ here).2.1, tree.count here]
  leaf here slot := by rw [(same _ _ here).1, tree.leaf here slot]
  used := tree.used

theorem Tree.remark (same : ∀ l ≤ h, ∀ x, marks' l x ↔ marks l x) : Tree mem top h pos σ marks':=
  tree.rebit (fun _ _ _ => ⟨rfl, rfl, rfl⟩) fun here slot =>
    (tree.bits here slot).trans (same _ (tree.placed.low here) _).symm

/-- A layer that stands at no other place. -/
theorem Tree.apart {l' q' : Nat} (here : pos l q ≠ 0)
    (other : ¬(l' = l ∧ q' = q)) : pos l' q' ≠ pos l q := by
  intro same
  obtain ⟨rfl, rfl⟩ := tree.placed.inj here same.symm
  exact other ⟨rfl, rfl⟩

/-- The slots outside of the tree are not in use. -/
theorem Tree.used_lt (busy : σ.used x = true) : x < 32 ^ (h + 1) := by
  have near := tree.placed.near (by decide) (tree.used busy)
  exact (Nat.div_lt_iff_lt_mul (by decide)).mp near

theorem Tree.unused_of_le (outside : 32 ^ (h + 1) ≤ x) : σ.used x = false :=
  Bool.eq_false_iff.mpr fun busy => outside.not_gt (tree.used_lt busy)

/-- The layers on the way to a slot that is in use. -/
theorem Tree.used_above (busy : σ.used x = true) (inside : l ≤ h) : pos l (x / 32 ^ (l + 1)) ≠ 0 := by
  have up := tree.placed.above (tree.used busy) (d := l) (by omega)
  rwa [zero_add, Nat.div_div_eq_div_mul, ← pow_succ'] at up

/-- Where there is nothing, nothing is full. -/
theorem Tree.not_full (inside : l ≤ h + 1) (vacant : σ.occupied pos l x = false) : ¬σ.Full l x := by
  intro full
  have own := full (x * 32 ^ l) (Nat.mul_div_cancel _ (by positivity))
  have busy := σ.full_used _ own
  cases l with
  | zero =>
    rw [pow_zero, mul_one] at busy
    simp [Slots.occupied, busy] at vacant
  | succ l =>
    have up := tree.used_above busy (show l ≤ h by omega)
    rw [Nat.mul_div_cancel _ (by positivity)] at up
    simp [Slots.occupied, up] at vacant

/-- Where there is no layer, there is nothing below. -/
theorem Tree.vacant_below (inside : l ≤ h)
    (vacant : pos l x = 0) (slot : k < 32) : σ.occupied pos l (32 * x + k) = false := by
  cases l with
  | zero =>
    by_contra busy
    have := tree.used (by simpa [Slots.occupied] using busy)
    rw [Nat.mul_add_div (by decide), Nat.div_eq_of_lt slot, add_zero] at this
    exact this vacant
  | succ l => simp [Slots.occupied, tree.placed.empty_below slot inside vacant]

/-! ### Bits -/

/-- Other bits in one layer. -/
theorem Tree.rebitAt {p : IdrLayer} (changed : mem' (pos l q) = p)
    (ary : p.ary = (mem (pos l q)).ary) (count : p.count = (mem (pos l q)).count)
    (layer : p.layer = (mem (pos l q)).layer) (others : OnlyAt mem mem' pos l q)
    (bits : ∀ {l' q' k'}, pos l' q' ≠ 0 → k' < 32 →
      ((mem' (pos l' q')).bitmap.getLsbD k' = true ↔ marks' l' (32 * q' + k'))) :
    Tree mem' top h pos σ marks' := by
  refine tree.rebit (fun l' q' here' => ?_) bits
  by_cases same : l' = l ∧ q' = q
  · rw [same.1, same.2, changed]
    exact ⟨ary, count, layer⟩
  · rw [others _ _ same here']
    exact ⟨rfl, rfl, rfl⟩

theorem Tree.setBit (slot : k < 32) (changed : mem' (pos l q) = (mem (pos l q)).setBit k)
    (others : OnlyAt mem mem' pos l q) :
    Tree mem' top h pos σ fun l' x => marks l' x ∨ l' = l ∧ x = 32 * q + k := by
  refine tree.rebitAt changed rfl rfl rfl others fun {l' q' k'} here' slot' => ?_
  by_cases same : l' = l ∧ q' = q
  · obtain ⟨rfl, rfl⟩ := same
    rw [changed, IdrLayer.setBit_bit slot, tree.bits here' slot']
    exact or_congr_right ⟨fun eq => ⟨rfl, by omega⟩, fun eq => by omega⟩
  · rw [others _ _ same here', tree.bits here' slot']
    exact ⟨.inl, fun either => either.resolve_right fun eq => same ⟨eq.1, by omega⟩⟩

theorem Tree.clearBit (slot : k < 32) (changed : mem' (pos l q) = (mem (pos l q)).clearBit k)
    (others : OnlyAt mem mem' pos l q) :
    Tree mem' top h pos σ fun l' x => marks l' x ∧ ¬(l' = l ∧ x = 32 * q + k) := by
  refine tree.rebitAt changed rfl rfl rfl others fun {l' q' k'} here' slot' => ?_
  by_cases same : l' = l ∧ q' = q
  · obtain ⟨rfl, rfl⟩ := same
    rw [changed, IdrLayer.clearBit_bit slot', tree.bits here' slot']
    exact and_congr_right fun _ => ⟨fun ne eq => ne (by omega), fun ne eq => ne ⟨rfl, by omega⟩⟩
  · rw [others _ _ same here', tree.bits here' slot']
    exact ⟨fun set => ⟨set, fun eq => same ⟨eq.1, by omega⟩⟩, And.left⟩

/-! ### The slots of the leaves -/

section

variable (here : pos 0 q ≠ 0) (slot : k < 32)
include here slot

/-- Another content of one slot. -/
theorem Tree.reslot {σ' : Slots} (layer : (mem' (pos 0 q)).layer = (mem (pos 0 q)).layer)
    (bitmap : (mem' (pos 0 q)).bitmap = (mem (pos 0 q)).bitmap)
    (ary : (mem' (pos 0 q)).ary = update (mem (pos 0 q)).ary k (σ'.ptr (32 * q + k)))
    (count : (mem' (pos 0 q)).count = tally 32 fun k' => σ'.used (32 * q + k'))
    (others : OnlyAt mem mem' pos 0 q)
    (rest : ∀ x, x ≠ 32 * q + k → σ'.used x = σ.used x ∧ σ'.ptr x = σ.ptr x) :
    Tree mem' top h pos σ' marks := by
  refine .of_stands tree.low (tree.placed.congr fun here' _ => ?_) (fun {l' q'} here' => ?_)
    fun {x} busy => ?_
  · rw [others _ _ (by omega) here']
  · by_cases same : l' = 0 ∧ q' = q
    · obtain ⟨rfl, rfl⟩ := same
      refine ⟨layer.trans (tree.layer here), fun slot' => ?_, count, fun _ k' slot' => ?_⟩
      · rw [bitmap, tree.bits here slot']
      · rw [ary]
        by_cases eq : k' = k
        · rw [eq, update_self]
        · rw [update_of_ne eq, tree.leaf here slot', (rest _ (by omega)).2]
    · rw [others _ _ same here']
      refine ⟨tree.layer here', tree.bits here', ?_, ?_⟩
      · refine (tree.count here').trans (tally_congr fun k' slot' => ?_)
        cases l' with
        | zero => exact (rest _ fun eq => same ⟨rfl, by omega⟩).1.symm
        | succ l' => rfl
      · rintro rfl k' slot'
        rw [tree.leaf here' slot', (rest _ (by omega)).2]
  · by_cases same : x = 32 * q + k
    · rw [same, Nat.mul_add_div (by decide), Nat.div_eq_of_lt slot, add_zero]
      exact here
    · exact tree.used ((rest x same).1.symm.trans busy)

/-- Use a slot. -/
theorem Tree.occupy (vacant : σ.used (32 * q + k) = false)
    (changed : mem' (pos 0 q) = ((mem (pos 0 q)).setAry k a).addCount 1)
    (others : OnlyAt mem mem' pos 0 q) : Tree mem' top h pos (σ.occupy (32 * q + k) a) marks := by
  refine tree.reslot here slot (by rw [changed]; rfl) (by rw [changed]; rfl) ?_ ?_ others ?_
  · rw [changed]
    simp [IdrLayer.setAry, IdrLayer.addCount, Slots.occupy]
  · have next : tally 32 (fun k' => (σ.occupy (32 * q + k) a).used (32 * q + k')) =
        tally 32 (fun k' => σ.used (32 * q + k')) + 1 :=
      tally_set slot vacant (by simp [Slots.occupy]) fun k' _ other => by
        simp [Slots.occupy, other]
    rw [changed, next]
    exact congrArg (· + 1) (tree.count here)
  · intro x other
    simp [Slots.occupy, other]

/-- Store something else in a slot that is in use. -/
theorem Tree.assign (busy : σ.used (32 * q + k) = true)
    (changed : mem' (pos 0 q) = (mem (pos 0 q)).setAry k a) (others : OnlyAt mem mem' pos 0 q) :
    Tree mem' top h pos (σ.occupy (32 * q + k) a) marks := by
  refine tree.reslot here slot (by rw [changed]; rfl) (by rw [changed]; rfl) ?_ ?_ others ?_
  · rw [changed]
    simp [IdrLayer.setAry, Slots.occupy]
  · rw [changed]
    refine (tree.count here).trans (tally_congr fun k' _ => ?_)
    by_cases same : k' = k
    · simp [Slots.occupy, Slots.occupied, same, busy]
    · simp [Slots.occupy, Slots.occupied, same]
  · intro x other
    simp [Slots.occupy, other]

/-- Clear a slot. -/
theorem Tree.vacate (busy : σ.used (32 * q + k) = true)
    (changed : mem' (pos 0 q) = ((mem (pos 0 q)).setAry k 0).addCount (-1))
    (others : OnlyAt mem mem' pos 0 q) : Tree mem' top h pos (σ.vacate (32 * q + k)) marks := by
  refine tree.reslot here slot (by rw [changed]; rfl) (by rw [changed]; rfl) ?_ ?_ others ?_
  · rw [changed]
    simp [IdrLayer.setAry, IdrLayer.addCount, Slots.vacate]
  · have next : tally 32 (fun k' => σ.used (32 * q + k')) =
        tally 32 (fun k' => (σ.vacate (32 * q + k)).used (32 * q + k')) + 1 :=
      tally_set slot (by simp [Slots.vacate]) busy fun k' _ other => by
        simp [Slots.vacate, other]
    have before : (mem (pos 0 q)).count = tally 32 fun k' => σ.used (32 * q + k') :=
      tree.count here
    rw [changed]
    simp only [IdrLayer.setAry, IdrLayer.addCount]
    omega
  · intro x other
    simp [Slots.vacate, other]

end

end

/-! ### Layers coming and going -/

/-- A layer as it is in the free list, without its link. -/
structure IdrLayer.Blank (p : IdrLayer) : Prop where
  bitmap : p.bitmap = 0
  count : p.count = 0
  ary : ∀ k < 32, p.ary k = 0

theorem Slots.occupied_place {l' x' : Nat} (other : ¬(l' = l + 1 ∧ x' = x)) :
    σ.occupied (place pos l x a) l' x' = σ.occupied pos l' x' := by
  cases l' with
  | zero => rfl
  | succ l' =>
    simp only [Slots.occupied]
    rw [place_of_ne]
    omega

section

variable (tree : Tree mem top h pos σ marks)
include tree

/-- A blank layer under a slot. -/
theorem Tree.attach (above : pos (l + 1) q ≠ 0) (slot : k < 32) (vacant : pos l (32 * q + k) = 0)
    (present : a ≠ 0) (new : ∀ l q, pos l q ≠ a) (blank : (mem a).Blank)
    (clear : ∀ k' < 32, ¬marks l (32 * (32 * q + k) + k'))
    (parent : mem' (pos (l + 1) q) = ((mem (pos (l + 1) q)).setAry k a).addCount 1)
    (child : mem' a = (mem a).setLayer l) (others : OnlyAt mem mem' pos (l + 1) q) :
    Tree mem' top h (place pos l (32 * q + k) a) σ marks := by
  have inside : l ≤ h := (Nat.le_succ l).trans (tree.placed.low above)
  -- a place of the new tree is the new layer, its parent, or another layer
  have split : ∀ {l' q'}, place pos l (32 * q + k) a l' q' ≠ 0 →
      (l' = l ∧ q' = 32 * q + k) ∨ (l' = l + 1 ∧ q' = q) ∨ (¬(l' = l ∧ q' = 32 * q + k) ∧
        ¬(l' = l + 1 ∧ q' = q) ∧ pos l' q' ≠ 0) := by grind [place_of_ne]
  have childless : tally 32 (fun k' => σ.occupied (place pos l (32 * q + k) a) l
      (32 * (32 * q + k) + k')) = 0 := by
    refine tally_eq_zero.mpr fun k' slot' => ?_
    rw [Slots.occupied_place (by omega)]
    exact tree.vacant_below inside vacant slot'
  refine .of_stands tree.low (tree.placed.attach above slot vacant new ?_ ?_ ?_) ?_ ?_
  · simp [parent, IdrLayer.setAry, IdrLayer.addCount]
  · intro k' slot' _
    simpa [child, IdrLayer.setLayer] using blank.ary k' slot'
  · intro l' q' k' here slot' other
    by_cases same : l' + 1 = l + 1 ∧ q' = q
    · obtain ⟨level, rfl⟩ := same
      obtain rfl : l' = l := by omega
      have : k' ≠ k := fun eq => other ⟨rfl, rfl, eq⟩
      simp [parent, IdrLayer.setAry, IdrLayer.addCount, this]
    · rw [others _ _ same here]
  · intro l' q' here
    obtain ⟨rfl, rfl⟩ | ⟨rfl, rfl⟩ | ⟨first, second, old⟩ := split here
    · rw [place_self, child]
      refine ⟨rfl, fun slot' => ?_, blank.count.trans childless.symm, ?_⟩
      · simp [IdrLayer.setLayer, blank.bitmap, clear _ slot']
      rintro rfl k' slot'
      have unused : σ.used (32 * (32 * q + k) + k') = false :=
        tree.vacant_below (Nat.zero_le h) vacant slot'
      rw [σ.unused_ptr _ unused]
      exact blank.ary k' slot'
    · rw [place_of_ne _ (by omega), parent]
      refine ⟨tree.layer above, tree.bits above, ?_, by omega⟩
      rw [tally_set slot (p := fun k' => σ.occupied pos (l + 1) (32 * q' + k'))
        (by simp [Slots.occupied, vacant]) (by simp [Slots.occupied, present])
        fun k' _ other => Slots.occupied_place (by omega)]
      exact congrArg (· + 1) (tree.count above)
    · rw [place_of_ne _ first, others _ _ second old]
      exact (tree.stands old).repos fun k' slot' => Slots.occupied_place (by omega)
  · intro x busy
    rw [place_apply]
    split
    · exact present
    · exact tree.used busy

/-- A layer without content is taken out. -/
theorem Tree.detach (here : pos l (32 * q + k) ≠ 0) (below : l < h) (slot : k < 32)
    (zero : (mem (pos l (32 * q + k))).count = 0)
    (parent : mem' (pos (l + 1) q) = ((mem (pos (l + 1) q)).setAry k 0).addCount (-1))
    (others : OnlyAt mem mem' pos (l + 1) q) :
    Tree mem' top h (place pos l (32 * q + k) 0) σ marks := by
  have above : pos (l + 1) q ≠ 0 := by
    have up := tree.placed.parent here below
    rwa [Nat.mul_add_div (by decide), Nat.div_eq_of_lt slot, add_zero] at up
  have childless := tally_eq_zero.mp ((tree.count here).symm.trans zero)
  refine .of_stands tree.low (tree.placed.detach above slot ?_ ?_ ?_) ?_ ?_
  · simp [parent, IdrLayer.setAry, IdrLayer.addCount]
  · rintro l' rfl k' slot'
    simpa [Slots.occupied] using childless k' slot'
  · intro l' q' k' here' slot' other
    by_cases same : l' + 1 = l + 1 ∧ q' = q
    · obtain ⟨level, rfl⟩ := same
      obtain rfl : l' = l := by omega
      have : k' ≠ k := fun eq => other ⟨rfl, rfl, eq⟩
      simp [parent, IdrLayer.setAry, IdrLayer.addCount, this]
    · rw [others _ _ same here']
  · intro l' q' here'
    obtain ⟨old, other⟩ := place_zero_ne here'
    rw [place_of_ne _ other]
    by_cases own : l' = l + 1 ∧ q' = q
    · obtain ⟨rfl, rfl⟩ := own
      rw [parent]
      refine ⟨tree.layer old, tree.bits old, ?_, by omega⟩
      have next : tally 32 (fun k' => σ.occupied pos (l + 1) (32 * q' + k')) =
          tally 32 (fun k' => σ.occupied (place pos l (32 * q' + k) 0) (l + 1) (32 * q' + k')) + 1 :=
        tally_set slot (by simp [Slots.occupied]) (by simp [Slots.occupied, here])
          fun k' _ ne => (Slots.occupied_place (by omega)).symm
      have before := tree.count old
      simp only [IdrLayer.setAry, IdrLayer.addCount]
      omega
    · rw [others _ _ own old]
      exact (tree.stands old).repos fun k' slot' => Slots.occupied_place (by omega)
  · intro x busy
    rw [place_of_ne]
    · exact tree.used busy
    · rintro ⟨rfl, eq⟩
      have := childless (x % 32) (Nat.mod_lt _ (by decide))
      rw [← eq, Nat.div_add_mod] at this
      simp [Slots.occupied, busy] at this

/-! ### The root -/

/-- Nothing is stored below a root without content. -/
theorem Tree.unused (zero : (mem top).count = 0) (x : Nat) : σ.used x = false := by
  by_contra busy
  replace busy : σ.used x = true := by simpa using busy
  have root := tree.placed.present
  rw [← tree.placed.root] at root zero
  have childless := tally_eq_zero.mp ((tree.count root).symm.trans zero)
  have inside := tree.used_lt busy
  -- the child of the root on the way to the slot
  have slot : x / 32 ^ h < 32 := by
    exact Nat.div_lt_of_lt_mul inside
  have child := childless _ slot
  cases h with
  | zero => simp [Slots.occupied, busy] at child
  | succ h => simp [Slots.occupied, tree.used_above busy (Nat.le_succ h)] at child

end

/-- A blank layer as the only one of the tree. -/
theorem Tree.single (present : top ≠ 0) (low : h ≤ 5) (blank : (mem top).Blank)
    (layer : (mem top).layer = h) (unused : ∀ x, σ.used x = false) :
    Tree mem top h (place (fun _ _ => 0) h 0 top) σ σ.Full := by
  have notFull : ∀ l x, ¬σ.Full l x := by
    intro l x full
    have own := σ.full_used _ (full (x * 32 ^ l) (Nat.mul_div_cancel _ (by positivity)))
    rw [unused] at own
    cases own
  refine .of_stands low (placed_root present blank.ary) (fun {l q} here => ?_) fun {x} busy => ?_
  · obtain ⟨rfl, rfl⟩ := place_only here
    rw [place_self]
    refine ⟨layer, fun slot => ?_, ?_, fun _ k slot => ?_⟩
    · simp [blank.bitmap, notFull]
    · rw [blank.count, eq_comm, tally_eq_zero]
      intro k slot
      cases l with
      | zero => exact unused _
      | succ l => simp [Slots.occupied, place_apply]
    · rw [blank.ary k slot, σ.unused_ptr _ (unused _)]
  · rw [unused] at busy
    cases busy

/-- A root without content is blank. -/
theorem Tree.blank (tree : Tree mem top h pos σ σ.Full) (zero : (mem top).count = 0) :
    (mem top).Blank := by
  have unused := tree.unused zero
  have root := tree.placed.present
  rw [← tree.placed.root] at root zero ⊢
  have childless := tally_eq_zero.mp ((tree.count root).symm.trans zero)
  constructor
  case bitmap =>
    apply BitVec.eq_of_getLsbD_eq
    intro k slot
    rw [Bool.eq_iff_iff, tree.bits root slot]
    simp only [BitVec.ofNat_eq_ofNat, BitVec.getLsbD_zero, Bool.false_eq_true, iff_false]
    exact tree.not_full (by omega) (childless k slot)
  case count => exact zero
  case ary =>
    intro k slot
    cases h with
    | zero => rw [tree.leaf root slot, σ.unused_ptr _ (unused _)]
    | succ h =>
      rw [tree.placed.link root slot]
      simpa [Slots.occupied] using childless k slot

/-- A new root on top of a tree. -/
theorem Tree.grow (tree : Tree mem top h pos σ σ.Full) (low : h < 5) (present : a ≠ 0)
    (new : ∀ l q, pos l q ≠ a) (first : (mem' a).ary 0 = top)
    (rest : ∀ k < 32, 0 < k → (mem' a).ary k = 0) (layer : (mem' a).layer = h + 1)
    (count : (mem' a).count = 1)
    (bits : ∀ k < 32, ((mem' a).bitmap.getLsbD k = true ↔ k = 0 ∧ (mem top).bitmap = idrFull))
    (others : ∀ l q, pos l q ≠ 0 → mem' (pos l q) = mem (pos l q)) :
    Tree mem' a (h + 1) (place pos (h + 1) 0 a) σ σ.Full := by
  have root := tree.placed.root
  have split : ∀ {l q}, place pos (h + 1) 0 a l q ≠ 0 →
      (l = h + 1 ∧ q = 0) ∨ (¬(l = h + 1 ∧ q = 0) ∧ pos l q ≠ 0) := by
    grind [place_of_ne]
  have children : ∀ k, σ.occupied (place pos (h + 1) 0 a) (h + 1) k = decide (pos h k ≠ 0) := by
    intro k
    rw [Slots.occupied_place (by omega)]
    rfl
  have alone : ∀ k, k ≠ 0 → pos h k = 0 := by
    intro k other
    by_contra here
    exact other (tree.placed.only here)
  refine .of_stands (by omega) (tree.placed.grow present new first rest fun l q k here slot => ?_)
    (fun {l q} here => ?_) fun {x} busy => ?_
  · rw [others _ _ here]
  · obtain ⟨rfl, rfl⟩ | ⟨other, old⟩ := split here
    · rw [place_self]
      refine ⟨layer, fun {k} slot => ?_, ?_, by omega⟩
      · rw [bits k slot, mul_zero, zero_add]
        by_cases zero : k = 0
        · subst zero
          rw [IdrLayer.eq_idrFull_iff, Slots.full_succ, ← root]
          simp only [true_and]
          refine forall_congr' fun k' => imp_congr_right fun slot' => ?_
          exact tree.bits (root.trans_ne tree.placed.present) slot'
        · refine iff_of_false (fun both => zero both.1) ?_
          refine tree.not_full le_rfl ?_
          simp [Slots.occupied, alone k zero]
      · have one : tally 32 (fun k => σ.occupied (place pos (h + 1) 0 a) (h + 1) (32 * 0 + k)) =
            tally 32 (fun _ => false) + 1 :=
          tally_set (n := 0) (by decide) rfl (by simp [children, root, tree.placed.present])
            fun k _ other => by simp [children, alone k other]
        rw [count, one, tally_eq_zero.mpr fun _ _ => rfl]
        rfl
    · have := tree.placed.low old
      rw [place_of_ne _ other, others _ _ old]
      exact (tree.stands old).repos fun k slot => Slots.occupied_place (by omega)
  · rw [place_of_ne _ (by omega)]
    exact tree.used busy

/-- A root whose only child is the first one is dropped. -/
theorem Tree.drop (tree : Tree mem top (h + 1) pos σ marks) (one : (mem top).count = 1)
    (first : (mem top).ary 0 ≠ 0)
    (others : ∀ l q, pos l q ≠ 0 → pos l q ≠ top → mem' (pos l q) = mem (pos l q)) :
    Tree mem' ((mem top).ary 0) h (place pos (h + 1) 0 0) σ marks := by
  have root := tree.placed.root
  have present : pos (h + 1) 0 ≠ 0 := root.trans_ne tree.placed.present
  have child : (mem top).ary 0 = pos h 0 := by
    have := tree.placed.link present (show 0 < 32 by decide)
    rwa [root] at this
  rw [child] at first ⊢
  have counted := tree.count present
  rw [root, one] at counted
  have rest : ∀ k < 32, 0 < k → pos h k = 0 := by
    intro k slot positive
    have := tally_eq_one counted.symm (show 0 < 32 by decide) (by simp [Slots.occupied, first])
      k slot (by omega)
    simpa [Slots.occupied] using this
  have same : ∀ {l q}, place pos (h + 1) 0 0 l q ≠ 0 →
      mem' (place pos (h + 1) 0 0 l q) = mem (pos l q) ∧ pos l q ≠ 0 := by
    intro l q here
    obtain ⟨old, other⟩ := place_zero_ne here
    rw [place_of_ne _ other]
    exact ⟨others _ _ old (root ▸ tree.apart present other), old⟩
  have placed := tree.placed.drop (by decide) first rest
  refine .of_stands ((Nat.le_succ h).trans tree.low) (placed.congr fun {l q k} here slot => ?_)
    (fun {l q} here => ?_) fun {x} busy => ?_
  · rw [(same here).1, place_of_ne _ (place_zero_ne here).2]
  · have := placed.low here
    rw [(same here).1]
    exact (tree.stands (same here).2).repos fun k slot => Slots.occupied_place (by omega)
  · rw [place_of_ne _ (by omega)]
    exact tree.used busy

end Trees

end AndroidKernel.Idr
