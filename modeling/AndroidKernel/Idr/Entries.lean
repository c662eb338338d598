import AndroidKernel.Idr.Growth

/-!
Entering, finding and removing ids.

Each function is described by what it does to the slots the state stands for.
The id `i` uses the slot `i % 32 ^ (h + 1)` of a tree of height `h`, of whose
place on level `l` the number is the quotient by `32 ^ (l + 1)`.
-/

namespace AndroidKernel.Idr

open Lib

section Entries

variable {s t : IdrState} {h l q x i : Nat} {pos : Nat → Nat → Nat} {σ : Slots} {pa : Nat → Nat}
  {free : List Nat} {never : Fault → Prop} {marks : Nat → Nat → Prop} {busy : σ.used x = true}
  {marks' : Nat → Nat → Prop}

/-! ### Changes inside of a layer -/

section

variable (marked : Marked s h pos σ marks)
include marked

theorem Marked.update {σ' : Slots} (f : IdrLayer → IdrLayer)
    (tree : Tree (s.update (pos l q) f).mem s.top h pos σ' marks') :
    Marked (s.update (pos l q) f) h pos σ' marks' := by
  obtain ⟨free, pool⟩ := marked.pool
  refine ⟨⟨free, pool.frame (fun a member => ?_) rfl rfl rfl fun l' q' => .inr (.inl ⟨l', q', rfl⟩)⟩,
    marked.layers, tree⟩
  exact IdrState.update_mem_of_ne _ (pool.apart a member l q).symm

theorem Marked.remark (same : ∀ l ≤ h, ∀ y, marks' l y ↔ marks l y) :
    Marked s h pos σ marks' :=
  ⟨marked.pool, marked.layers, marked.tree.remark same⟩

theorem Marked.others (here : pos l q ≠ 0) (f : IdrLayer → IdrLayer) (l' q' : Nat)
    (other : ¬(l' = l ∧ q' = q)) : (s.update (pos l q) f).mem (pos l' q') = s.mem (pos l' q') :=
  IdrState.update_mem_of_ne _ (marked.tree.apart here other)

theorem Marked.setBit {k : Nat} (here : pos l q ≠ 0) (slot : k < 32) :
    Marked (s.update (pos l q) (.setBit k)) h pos σ
      fun l' x => marks l' x ∨ l' = l ∧ x = 32 * q + k :=
  marked.update _ (marked.tree.setBit slot (IdrState.update_mem_self s _ _)
    fun l' q' other _ => marked.others here _ l' q' other)

theorem Marked.clearBit {k : Nat} (here : pos l q ≠ 0) (slot : k < 32) :
    Marked (s.update (pos l q) (.clearBit k)) h pos σ
      fun l' x => marks l' x ∧ ¬(l' = l ∧ x = 32 * q + k) :=
  marked.update _ (marked.tree.clearBit slot (IdrState.update_mem_self s _ _)
    fun l' q' other _ => marked.others here _ l' q' other)

end

/-! ### Digits of a slot -/

theorem slot_div (below : l ≤ h) : i % 32 ^ (h + 1) / 32 ^ (l + 1) = i / 32 ^ (l + 1) % 32 ^ (h - l) := by
  rw [mod_div (by omega)]
  congr 2
  omega

theorem slot_digit (below : l ≤ h) : i / 32 ^ l % 32 = i % 32 ^ (h + 1) / 32 ^ l % 32 := by
  rw [mod_div (by omega), Nat.mod_mod_of_dvd]
  exact dvd_pow_self 32 (by omega)

theorem Path.entry (path : Path pos h pa i) (below : l ≤ h) :
    pa l = pos l (i % 32 ^ (h + 1) / 32 ^ (l + 1)) ∧ pos l (i % 32 ^ (h + 1) / 32 ^ (l + 1)) ≠ 0 := by
  obtain ⟨same, present⟩ := path.all l below
  rw [slot_div below]
  exact ⟨same, same.symm.trans_ne present⟩

/-! ### Full-bits -/

theorem Slots.Full.down {j : Nat} (full : σ.Full j (x / 32 ^ j)) (below : l ≤ j) :
    σ.Full l (x / 32 ^ l) :=
  fun y same => full y (div_upper same below)

/-- The full-bits while the slot `x` is being marked: those up to level `l` are
set. -/
def partly (σ : Slots) (x : Nat) (busy : σ.used x = true) (l j y : Nat) : Prop :=
  if j ≤ l then (σ.mark x busy).Full j y else σ.Full j y

theorem partly_done
    (done : h ≤ l ∨ ¬(σ.mark x busy).Full (l + 1) (x / 32 ^ (l + 1))) {j y : Nat} (inside : j ≤ h) :
    (σ.mark x busy).Full j y ↔ partly σ x busy l j y := by
  unfold partly
  split
  · rfl
  by_cases own : y = x / 32 ^ j
  · subst own
    have notFull := done.resolve_left (by omega)
    refine iff_of_false (fun full => ?_) fun full => ?_
    · exact notFull (full.down (by omega))
    · exact notFull (full.mark.down (by omega))
  · exact Slots.mark_full_of_ne own

theorem partly_next
    (full : (σ.mark x busy).Full (l + 1) (x / 32 ^ (l + 1))) {j y : Nat} :
    partly σ x busy (l + 1) j y ↔ partly σ x busy l j y ∨ j = l + 1 ∧ y = x / 32 ^ (l + 1) := by
  unfold partly
  by_cases lower : j ≤ l
  · simp only [lower, if_true, show j ≤ l + 1 by omega, show j ≠ l + 1 by omega, false_and, or_false]
  by_cases here : j = l + 1
  · subst here
    simp only [le_refl, if_true, lower, if_false, true_and]
    by_cases own : y = x / 32 ^ (l + 1)
    · subst own
      exact iff_of_true full (.inr rfl)
    · rw [Slots.mark_full_of_ne own]
      simp [own]
  · simp only [lower, if_false, show ¬j ≤ l + 1 by omega, here, false_and, or_false]

theorem shift_digit (i l : Nat) : (i / 32 ^ l) >>> idrBits = i / 32 ^ (l + 1) := by
  have shift := shift_eq_div 5 1 (i / 32 ^ l)
  rwa [pow_one, mul_one, show 2 ^ 5 = 32 from rfl, Nat.div_div_eq_div_mul, ← pow_succ] at shift

theorem markFullLoop_spec {rounds : Nat} (enough : h - l < rounds)
    (below : l ≤ h) (own : x = i % 32 ^ (h + 1))
    (marked : Marked s h pos (σ.mark x busy) (partly σ x busy l)) (path : Path pos h pa i) :
    wp (markFullLoop pa rounds l (i / 32 ^ l) (pa l)) (fun _ t => Standing t h pos (σ.mark x busy))
      never s := by
  induction rounds generalizing s l with
  | zero => omega
  | succ rounds ih =>
    obtain ⟨entry, present⟩ := path.entry below
    rw [← own] at entry present
    have filled : (s.mem (pos l (x / 32 ^ (l + 1)))).bitmap = idrFull ↔
        (σ.mark x busy).Full (l + 1) (x / 32 ^ (l + 1)) := by
      rw [IdrLayer.eq_idrFull_iff, Slots.full_succ]
      refine forall_congr' fun k => imp_congr_right fun slot => ?_
      rw [marked.tree.bits present slot, partly, if_pos le_rfl]
    rw [entry]
    simp only [markFullLoop, wp_bind, wp_load present, wp_ite, filled, wp_pure]
    refine ⟨fun full => ⟨fun top => ?_, fun inner => ?_⟩, fun notFull => ?_⟩
    · have last : h ≤ l := by
        by_contra lower
        exact (path.all (l + 1) (by omega)).2 top
      exact marked.remark fun j inside y => partly_done (.inl last) inside
    · have lower : l + 1 ≤ h := by
        by_contra last
        obtain rfl : l = h := by omega
        exact inner path.stop
      obtain ⟨entry', present'⟩ := path.entry lower
      rw [← own] at entry' present'
      rw [wp_change inner, shift_digit, digit_zero, slot_digit lower, ← own]
      refine ih (by omega) lower ?_
      rw [entry']
      refine (marked.setBit present' (Nat.mod_lt _ (by decide))).remark fun j _ y => ?_
      rw [div_step]
      exact partly_next full
    · exact marked.remark fun j inside y => partly_done (.inr notFull) inside

theorem Marked.mark (marked : Marked s h pos σ marks) (busy : σ.used x = true) :
    Marked s h pos (σ.mark x busy) marks :=
  ⟨marked.pool, marked.layers,
    { marked.tree with
      count := fun {l q} here => (marked.tree.count here).trans (by cases l <;> rfl)
      leaf := marked.tree.leaf
      used := marked.tree.used }⟩

theorem idrMarkFull_spec (standing : Standing s h pos σ) (path : Path pos h pa i)
    (busy : σ.used (i % 32 ^ (h + 1)) = true) :
    wp (idrMarkFull pa i) (fun _ t => Standing t h pos (σ.mark _ busy)) never s := by
  have levels : maxLevel = 7 := rfl
  have low := standing.tree.low
  obtain ⟨entry, present⟩ := path.entry (Nat.zero_le h)
  have first := (path.all 0 (Nat.zero_le h)).2
  simp only [idrMarkFull, wp_bind, wp_change first]
  have marked : Marked (s.update (pa 0) (.setBit (i &&& idrMask))) h pos (σ.mark _ busy)
      (partly σ _ busy 0) := by
    rw [entry, digit_zero]
    refine ((standing.mark busy).setBit present (Nat.mod_lt _ (by decide))).remark fun j _ y => ?_
    have digit := slot_digit (i := i) (Nat.zero_le h)
    have step := div_step (i % 32 ^ (h + 1)) 0
    rw [pow_zero, Nat.div_one, Nat.div_one] at digit
    rw [pow_zero, Nat.div_one] at step
    rw [digit, step]
    unfold partly
    by_cases zero : j = 0
    · subst zero
      simp only [le_refl, if_true, true_and, Slots.full_zero, Slots.mark]
      by_cases same : y = i % 32 ^ (h + 1)
      · simp [same]
      · simp [same]
    · simp [zero]
  have run : wp (markFullLoop pa maxLevel 0 (i / 32 ^ 0) (pa 0))
      (fun _ t => Standing t h pos (σ.mark _ busy)) never _ :=
    markFullLoop_spec (by omega) (Nat.zero_le h) rfl marked path
  rwa [pow_zero, Nat.div_one] at run

variable (ptr : Nat) (id : BitVec 32)

/-- Enter a pointer into an empty slot. -/
theorem Standing.install (standing : Standing s h pos σ) (path : Path pos h pa i)
    (vacant : σ.used (i % 32 ^ (h + 1)) = false) :
    Standing ((s.update (pa 0) (.setAry (i &&& idrMask) ptr)).update (pa 0) (.addCount 1)) h pos
      (σ.occupy (i % 32 ^ (h + 1)) ptr) := by
  obtain ⟨entry, present⟩ := path.entry (Nat.zero_le h)
  rw [zero_add, pow_one] at entry present
  have own : 32 * (i % 32 ^ (h + 1) / 32) + i % 32 = i % 32 ^ (h + 1) := by
    have digit := slot_digit (i := i) (Nat.zero_le h)
    rw [pow_zero, Nat.div_one, Nat.div_one] at digit
    rw [digit]
    exact Nat.div_add_mod _ _
  rw [entry, digit_zero, IdrState.update_update]
  have tree := standing.tree.occupy present (Nat.mod_lt i (by decide)) (by rwa [own])
    (IdrState.update_mem_self s _ fun x => (x.setAry (i % 32) ptr).addCount 1)
    fun l' q' other _ => standing.others present _ l' q' other
  rw [own] at tree
  exact standing.update _ tree

/-! ### Lookup -/

theorem findLoop_spec (tree : Tree s.mem s.top h pos σ marks) (below : l ≤ h) :
    wp (findLoop (l + 1) x (pos l (x / 32 ^ (l + 1)))) (fun a t => t = s ∧ a = σ.ptr x) never s := by
  induction l with
  | zero =>
    have own : 32 * (x / 32) + x % 32 = x := Nat.div_add_mod x 32
    simp only [findLoop, wp_ite, wp_pure]
    refine ⟨fun missing => ⟨trivial, ?_⟩, fun present => ?_⟩
    · have unused := tree.vacant_below below missing (Nat.mod_lt x (by decide))
      rw [zero_add, pow_one, own] at unused
      exact (σ.unused_ptr x unused).symm
    · rw [wp_bind, wp_load present, tree.layer present]
      have leaf := tree.leaf present (Nat.mod_lt x (by decide))
      rw [zero_add, pow_one, own] at leaf
      simp [leaf, digit_zero]
  | succ l ih =>
    rw [findLoop]
    simp only [wp_ite, wp_pure]
    refine ⟨fun missing => ⟨trivial, ?_⟩, fun present => ?_⟩
    · have unused : σ.used x = false :=
        Bool.eq_false_iff.mpr fun busy => tree.used_above busy below missing
      exact (σ.unused_ptr x unused).symm
    · have link := tree.placed.link present (Nat.mod_lt (x / 32 ^ (l + 1)) (by decide))
      rw [div_step] at link
      rw [wp_bind, wp_load present, tree.layer present, digit_eq, link]
      simp only [Nat.mul_comm idrBits, ne_eq, not_true_eq_false, if_false]
      exact ih (by omega)

theorem Tree.root_eq {top : Nat} (tree : Tree s.mem top h pos σ marks) (inside : x < 32 ^ (h + 1)) :
    pos h (x / 32 ^ (h + 1)) = top := by
  rw [Nat.div_eq_of_lt inside, tree.placed.root]

theorem Tree.root_layer {top : Nat} (tree : Tree s.mem top h pos σ marks) :
    (s.mem top).layer = h := by
  have := tree.layer (tree.placed.root.trans_ne tree.placed.present)
  rwa [tree.placed.root] at this

theorem idrFind_spec (holds : Holds s σ) :
    wp (idrFind id) (fun a t => t = s ∧ a = σ.ptr (maskId id)) never s := by
  obtain ⟨pos, laid⟩ := holds
  simp only [idrFind, wp_bind, wp_get, wp_ite, wp_pure]
  rcases laid.tree with ⟨top, -, -, unused⟩ | ⟨h, -, tree⟩
  · exact ⟨fun _ => ⟨trivial, (σ.unused_ptr _ (unused _)).symm⟩, fun some => absurd top some⟩
  refine ⟨fun none => absurd none tree.placed.present, fun some => ?_⟩
  rw [wp_load some, tree.root_layer, shift_eq_pow]
  refine ⟨fun big => ⟨rfl, ?_⟩, fun small => ?_⟩
  · exact (σ.unused_ptr _ (tree.unused_of_le big)).symm
  · rw [← tree.root_eq (x := maskId id) (by omega)]
    exact findLoop_spec tree le_rfl

theorem replaceLoop_spec (tree : Tree s.mem s.top h pos σ marks) (below : l ≤ h) :
    wp (replaceLoop l x (pos l (x / 32 ^ (l + 1)))) (fun p t => t = s ∧ p = pos 0 (x / 32)) never s := by
  induction l with
  | zero => simp [replaceLoop]
  | succ l ih =>
    simp only [replaceLoop, wp_ite, wp_pure]
    refine ⟨fun missing => ⟨trivial, ?_⟩, fun present => ?_⟩
    · -- the leaf is missing as well
      by_contra leaf
      have up := tree.placed.above (Ne.symm leaf) (d := l + 1) (by omega)
      rw [zero_add, Nat.div_div_eq_div_mul, ← pow_succ'] at up
      exact up missing
    · have link := tree.placed.link present (Nat.mod_lt (x / 32 ^ (l + 1)) (by decide))
      rw [div_step] at link
      rw [wp_bind, wp_load present, digit_eq, link]
      exact ih (by omega)

theorem idrReplace_spec (holds : Holds s σ) :
    wp (idrReplace ptr id) (fun r t => if σ.full (maskId id) = true then
      r = .ok (σ.ptr (maskId id)) ∧ Holds t (σ.occupy (maskId id) ptr)
      else (∃ e, r = .error e) ∧ t = s) never s := by
  obtain ⟨pos, laid⟩ := holds
  simp only [idrReplace, wp_bind, wp_get, wp_ite, wp_pure]
  rcases laid.tree with ⟨top, -, -, unused⟩ | ⟨h, layers, tree⟩
  · refine ⟨fun _ => ?_, fun some => absurd top some⟩
    rw [if_neg (Bool.eq_false_iff.mp (Slots.not_full (unused _)))]
    exact ⟨⟨_, rfl⟩, trivial⟩
  refine ⟨fun none => absurd none tree.placed.present, fun some => ?_⟩
  rw [wp_load some, tree.root_layer, shift_eq_pow]
  refine ⟨fun big => ?_, fun small => ?_⟩
  · rw [if_neg (Bool.eq_false_iff.mp (Slots.not_full (tree.unused_of_le big)))]
    exact ⟨⟨_, rfl⟩, rfl⟩
  rw [← tree.root_eq (x := maskId id) (by omega)]
  refine (replaceLoop_spec tree le_rfl).returns ?_
  rintro p t ⟨rfl, rfl⟩
  have slot := Nat.mod_lt (maskId id) (show 32 > 0 by decide)
  have own : 32 * (maskId id / 32) + maskId id % 32 = maskId id := Nat.div_add_mod _ _
  refine ⟨fun missing => ?_, fun present => ?_⟩
  · have unused := tree.vacant_below (Nat.zero_le h) missing slot
    rw [own] at unused
    rw [if_neg (Bool.eq_false_iff.mp (Slots.not_full unused))]
    exact ⟨⟨_, rfl⟩, rfl⟩
  have bit := tree.bits present slot
  rw [own, Slots.full_zero] at bit
  rw [wp_load present, digit_zero, wp_change present]
  refine ⟨fun set => ?_, fun clear => ?_⟩
  · rw [if_pos (bit.mp set)]
    have leaf := tree.leaf present slot
    have marked : Standing t h pos σ := ⟨laid.pool, layers, tree⟩
    have tree' := tree.assign present slot (by rw [own]; exact σ.full_used _ (bit.mp set))
      (IdrState.update_mem_self t _ (.setAry (maskId id % 32) ptr))
      fun l' q' other _ => marked.others present _ l' q' other
    rw [own] at leaf tree'
    refine ⟨by rw [leaf], pos, ?_⟩
    exact Standing.laid (marked.update _ tree')
  · rw [if_neg fun full => clear (bit.mpr full)]
    exact ⟨⟨_, rfl⟩, rfl⟩

end Entries

end AndroidKernel.Idr
