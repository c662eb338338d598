import AndroidKernel.Idr.Entries

/-!
Removing ids.

`sub_remove` clears the full-bits on the way to a slot before it looks whether
the slot is in use. When it is, the layers on the way back lose one child each
as long as they become empty; at that point of the way the count of a layer is
one too high. `idr_remove` then drops a root that is not needed any more.
-/

namespace AndroidKernel.Idr

open Lib

section Removal

variable {s t : IdrState} {h l x i : Nat} {pos pos' : Nat → Nat → Nat} {σ : Slots}
  {never : Fault → Prop} {marks : Nat → Nat → Prop}

/-! ### The way down -/

/-- The pointers to the layers on the way to `x`, from level `l` to level `l + d`,
the top one. -/
def links (pos : Nat → Nat → Nat) (x : Nat) : Nat → Nat → List Link
  | 0, _ => [.top]
  | d + 1, l => .slot (pos (l + 1) (x / 32 ^ (l + 2))) (x / 32 ^ (l + 1) % 32) :: links pos x d (l + 1)

theorem links_congr {d : Nat} (same : ∀ j, l < j → pos' j = pos j) :
    links pos' x d l = links pos x d l := by
  induction d generalizing l with
  | zero => rfl
  | succ d ih => rw [links, links, same (l + 1) (by omega), ih fun j above => same j (by omega)]

/-- The layers on the way to a layer that is there. -/
theorem Tree.above {mem : Nat → IdrLayer} {top j : Nat} (tree : Tree mem top h pos σ marks)
    (here : pos j (x / 32 ^ (j + 1)) ≠ 0) (higher : j ≤ l) (inside : l ≤ h) :
    pos l (x / 32 ^ (l + 1)) ≠ 0 := by
  obtain ⟨d, rfl⟩ := Nat.exists_eq_add_of_le higher
  have up := tree.placed.above here (d := d) inside
  rwa [Nat.div_div_eq_div_mul, ← pow_add, show j + 1 + d = j + d + 1 by omega] at up

/-- The full-bits above the leaves and up to level `l` on the way to `x` are
cleared. -/
def cleared (marks : Nat → Nat → Prop) (x l j y : Nat) : Prop :=
  marks j y ∧ ¬(0 < j ∧ j ≤ l ∧ y = x / 32 ^ j)

/-- Where a layer is missing there are no bits to clear. -/
theorem Marked.cleared_missing (marked : Marked s h pos σ marks) (inside : l ≤ h)
    (missing : pos l (x / 32 ^ (l + 1)) = 0) : Marked s h pos σ (cleared marks x l) := by
  refine ⟨marked.pool, marked.layers,
    marked.tree.rebit (fun _ _ _ => ⟨rfl, rfl, rfl⟩) fun {j q k} here slot => ?_⟩
  rw [marked.tree.bits here slot, cleared]
  refine ⟨fun set => ⟨set, ?_⟩, And.left⟩
  rintro ⟨-, lower, own⟩
  have place : q = x / 32 ^ (j + 1) := by
    have := div_step x j
    omega
  subst place
  exact marked.tree.above here lower inside missing

theorem clearPath_spec (marked : Marked s h pos σ marks) (below : l ≤ h)
    (own : x = i % 32 ^ (h + 1)) (paa : List Link) :
    wp (clearPath l i (pos l (x / 32 ^ (l + 1))) paa) (fun r t =>
      r.1 = pos 0 (x / 32) ∧ (paa = links pos x (h - l) l → r.1 ≠ 0 → r.2 = links pos x h 0) ∧
      Marked t h pos σ (cleared marks x l)) never s := by
  induction l generalizing s marks paa with
  | zero => grind [clearPath, wp_pure, cleared, Marked.remark]
  | succ l ih =>
    simp only [clearPath, wp_ite, wp_pure]
    refine ⟨fun missing => ⟨?_, fun _ some => absurd missing some, ?_⟩, fun present => ?_⟩
    · rw [missing]
      by_contra leaf
      refine marked.tree.above (j := 0) ?_ (Nat.zero_le _) below missing
      rw [zero_add, pow_one]
      exact Ne.symm leaf
    · exact marked.cleared_missing below missing
    have slot : x / 32 ^ (l + 1) % 32 < 32 := Nat.mod_lt _ (by decide)
    rw [digit_eq, slot_digit below, ← own, wp_bind, wp_change present, wp_bind, wp_load present]
    have marked' := marked.clearBit present slot
    have link := marked'.tree.placed.link present slot
    rw [div_step] at link
    rw [link]
    have more : links pos x (h - l) l = .slot (pos (l + 1) (x / 32 ^ (l + 2)))
        (x / 32 ^ (l + 1) % 32) :: links pos x (h - (l + 1)) (l + 1) := by
      rw [show h - l = h - (l + 1) + 1 by omega, links]
    refine (ih marked' (by omega) _).returns ?_
    rintro r t ⟨leaf, path, marked''⟩
    refine ⟨leaf, fun same => path (by rw [more, same]), marked''.remark fun j _ y => ?_⟩
    rw [div_step]
    unfold cleared
    constructor
    · grind
    · grind

/-! ### The way back -/

theorem releaseLoop_spec {d : Nat} (height : l + d = h) (inside : x < 32 ^ (h + 1))
    (here : pos l (x / 32 ^ (l + 1)) ≠ 0)
    (standing : Standing (s.update (pos l (x / 32 ^ (l + 1))) (.addCount (-1))) h pos σ) :
    wp (releaseLoop (links pos x d l)) (fun _ t => Holds t σ) never s := by
  induction d generalizing l s pos with
  | zero =>
    obtain rfl : l = h := by omega
    have root : s.top = pos l (x / 32 ^ (l + 1)) := by
      rw [Nat.div_eq_of_lt inside]
      exact standing.tree.placed.root.symm
    simp only [links, releaseLoop, wp_bind, loadLink, wp_get, wp_pure]
    rw [root, wp_change here, wp_load here, wp_ite]
    refine ⟨fun zero => ?_, fun _ => standing.holds⟩
    have unused := standing.tree.unused (show ((s.update (pos l (x / 32 ^ (l + 1)))
      (.addCount (-1))).mem s.top).count = 0 by rwa [root])
    obtain ⟨free, pool⟩ := standing.pool
    exact ⟨fun _ _ => 0, ⟨free, pool.frame (fun _ _ => rfl) rfl rfl rfl fun _ _ => .inl rfl⟩,
      .inl ⟨rfl, rfl, rfl, unused⟩⟩
  | succ d ih =>
    have slot : x / 32 ^ (l + 1) % 32 < 32 := Nat.mod_lt _ (by decide)
    have step := div_step x (l + 1)
    have above : pos (l + 1) (x / 32 ^ (l + 2)) ≠ 0 :=
      standing.tree.above here (Nat.le_succ l) (by omega)
    have apart : pos (l + 1) (x / 32 ^ (l + 2)) ≠ pos l (x / 32 ^ (l + 1)) :=
      standing.tree.apart here (by omega)
    have link : (s.mem (pos (l + 1) (x / 32 ^ (l + 2)))).ary (x / 32 ^ (l + 1) % 32) =
        pos l (x / 32 ^ (l + 1)) := by
      have := standing.tree.placed.link above slot
      rwa [IdrState.update_mem_of_ne _ apart, step] at this
    simp only [links, releaseLoop, wp_bind, loadLink, wp_load above, wp_pure]
    rw [link, wp_change here, wp_load here, wp_ite]
    refine ⟨fun zero => ?_, fun _ => standing.holds⟩
    simp only [storeLink, wp_bind, wp_change above]
    have same : ∀ j, l + 1 < j → place pos l (x / 32 ^ (l + 1)) 0 j = pos j := by
      intro j high
      funext y
      exact place_of_ne _ (by omega)
    rw [← links_congr same]
    have kept : place pos l (x / 32 ^ (l + 1)) 0 (l + 1) (x / 32 ^ (l + 2)) =
        pos (l + 1) (x / 32 ^ (l + 2)) := place_of_ne _ (by omega)
    refine ih (by omega) (kept.trans_ne above) ?_
    rw [kept, IdrState.update_update]
    have tree := standing.tree.detach (l := l) (q := x / 32 ^ (l + 2)) (k := x / 32 ^ (l + 1) % 32)
      (by rwa [step]) (by omega) slot (by rwa [step])
      (IdrState.update_mem_self _ _ fun y => (y.setAry (x / 32 ^ (l + 1) % 32) 0).addCount (-1))
      fun l' q' other _ => standing.others above _ l' q' other
    rw [step] at tree
    obtain ⟨free, pool⟩ := standing.pool
    refine ⟨⟨free, pool.frame (fun a member => ?_) rfl rfl rfl fun l' q' => ?_⟩,
      standing.layers, tree⟩
    · exact IdrState.update_mem_of_ne _ (pool.apart a member _ _).symm
    · rw [place_apply]
      split
      · exact .inl rfl
      · exact .inr (.inl ⟨l', q', rfl⟩)

/-! ### The whole removal -/

/-- Removing a slot whose full-bit is set. The bits on the way to it need not be
those of `σ`. -/
theorem subRemove_used (marked : Marked s h pos σ marks) (own : x = i % 32 ^ (h + 1))
    (agree : ∀ j ≤ h, ∀ y, y ≠ x / 32 ^ j → (marks j y ↔ σ.Full j y)) (set : marks 0 x)
    (busy : σ.used x = true) :
    wp (subRemove i) (fun _ t => Holds t (σ.vacate x)) never s := by
  have inside : x < 32 ^ (h + 1) := marked.tree.used_lt busy
  have root : s.top = pos h (x / 32 ^ (h + 1)) := (marked.tree.root_eq inside).symm
  have first : ([.top] : List Link) = links pos x (h - h) h := by rw [Nat.sub_self, links]
  simp only [subRemove, wp_bind, wp_get, marked.layers, Nat.add_sub_cancel]
  rw [root]
  refine (clearPath_spec marked le_rfl own _).returns ?_
  rintro ⟨p, paa⟩ t ⟨rfl, path, marked'⟩
  have present : pos 0 (x / 32) ≠ 0 := marked.tree.used busy
  have slot : x % 32 < 32 := Nat.mod_lt x (by decide)
  have whole : 32 * (x / 32) + x % 32 = x := Nat.div_add_mod x 32
  have digit : i &&& idrMask = x % 32 := by
    have := slot_digit (i := i) (Nat.zero_le h)
    rw [pow_zero, Nat.div_one, Nat.div_one, ← own] at this
    rw [digit_zero, this]
  have bit : (t.mem (pos 0 (x / 32))).bitmap.getLsbD (x % 32) = true := by
    rw [marked'.tree.bits present slot, whole]
    exact ⟨set, fun above => absurd above.1 (lt_irrefl 0)⟩
  obtain rfl : paa = links pos x h 0 := path first present
  simp only [digit, wp_ite, wp_load present, wp_bind, bit, wp_change present]
  refine ⟨fun missing => absurd missing present, fun _ => ⟨fun _ => ?_, fun no => absurd trivial no⟩⟩
  -- the leaf after the slot is cleared, with its count one too high
  have atLeaf : pos 0 (x / 32 ^ (0 + 1)) = pos 0 (x / 32) := by rw [zero_add, pow_one]
  refine releaseLoop_spec (zero_add h) inside (atLeaf.trans_ne present) ?_
  rw [atLeaf, IdrState.update_update]
  have marked₂ := marked'.clearBit present slot
  have tree := marked₂.tree.vacate present slot (by rwa [whole])
    (IdrState.update_mem_self _ _ fun y => (y.setAry (x % 32) 0).addCount (-1))
    fun l' q' other _ => marked₂.others present _ l' q' other
  rw [whole] at tree
  refine (marked₂.update _ tree).remark fun j below y => ?_
  rw [Slots.vacate_full]
  unfold cleared
  by_cases same : y = x / 32 ^ j
  · grind
  · grind

/-- Removing a slot that is not full changes nothing. -/
theorem subRemove_unused (laid : Laid s pos σ) (clear : σ.full (i % 32 ^ s.layers) = false) :
    wp (subRemove i) (fun _ t => Laid t pos σ) never s := by
  rcases laid.tree with ⟨top, layers, rfl, unused⟩ | ⟨h, layers, tree⟩
  · simp only [subRemove, wp_bind, wp_get, layers, top, wp_pure, wp_ite]
    exact ⟨fun _ => laid, fun some => absurd rfl some⟩
  rw [layers] at clear
  have standing : Standing s h pos σ := ⟨laid.pool, layers, tree⟩
  obtain ⟨x, own⟩ : ∃ x, x = i % 32 ^ (h + 1) := ⟨_, rfl⟩
  have inside : x < 32 ^ (h + 1) := own ▸ Nat.mod_lt _ (by positivity)
  simp only [subRemove, wp_bind, wp_get, layers, Nat.add_sub_cancel]
  rw [← tree.root_eq inside]
  refine (clearPath_spec standing le_rfl own _).returns ?_
  rintro ⟨p, paa⟩ t ⟨rfl, -, marked⟩
  -- no full-bit was set on the way
  have standing' : Standing t h pos σ := by
    refine marked.remark fun j below y => ?_
    unfold cleared
    refine (and_iff_left_of_imp fun full => ?_).symm
    rintro ⟨-, -, rfl⟩
    have := Slots.full_zero.mp (full.down (Nat.zero_le j))
    rw [pow_zero, Nat.div_one, own, clear] at this
    cases this
  have slot : x % 32 < 32 := Nat.mod_lt x (by decide)
  have digit : i &&& idrMask = x % 32 := by
    have := slot_digit (i := i) (Nat.zero_le h)
    rw [pow_zero, Nat.div_one, Nat.div_one, ← own] at this
    rw [digit_zero, this]
  simp only [wp_ite, wp_pure, wp_bind]
  refine ⟨fun _ => standing'.laid, fun present => ?_⟩
  have bit : (t.mem (pos 0 (x / 32))).bitmap.getLsbD (x % 32) = false := by
    rw [Bool.eq_false_iff, ne_eq, standing'.tree.bits present slot, Nat.div_add_mod, Slots.full_zero,
      own, clear]
    decide
  rw [wp_load present, digit, bit]
  exact ⟨fun no => absurd no (by decide), fun _ => standing'.laid⟩

theorem shrink_spec (holds : Holds s σ) : wp shrink (fun _ t => Holds t σ) never s := by
  obtain ⟨pos, laid⟩ := holds
  simp only [shrink, wp_bind, wp_get, wp_ifThen]
  refine ⟨fun some => ?_, fun _ => ⟨pos, laid⟩⟩
  rw [wp_load some]
  refine ⟨?_, fun _ => ⟨pos, laid⟩⟩
  rintro ⟨one, two, first⟩
  rcases laid.tree with ⟨top, -⟩ | ⟨h, layers, tree⟩
  · exact absurd top some
  obtain ⟨h, rfl⟩ : ∃ h', h = h' + 1 := ⟨h - 1, by omega⟩
  rw [wp_modify, wp_change some]
  obtain ⟨free, pool⟩ := laid.pool
  have root := tree.placed.root
  refine ⟨place pos (h + 1) 0 0, ⟨free, pool.frame (fun a member => ?_) rfl rfl rfl fun l q => ?_⟩,
    .inr ⟨h, ?_, ?_⟩⟩
  · refine IdrState.update_mem_of_ne _ ?_
    rintro rfl
    exact pool.apart _ member _ _ root
  · rw [place_apply]
    split
    · exact .inl rfl
    · exact .inr (.inl ⟨l, q, rfl⟩)
  · simp [IdrState.update, layers]
  · exact tree.drop one first fun l q _ other => IdrState.update_mem_of_ne _ other

/-- The end of `idr_remove`. -/
theorem settle_spec (holds : Holds s σ) :
    wp (do shrink; let s ← get; trimLoop (s.idFreeCnt.toNat + 1)) (fun _ t => Holds t σ)
      never s := by
  rw [wp_bind]
  refine (shrink_spec holds).returns ?_
  rintro - t ⟨pos, laid⟩
  obtain ⟨free, pool⟩ := laid.pool
  rw [wp_bind, wp_get]
  refine (trimLoop_spec pool ?_).returns fun _ u kept => ⟨pos, laid.kept kept.1 kept.2⟩
  rw [pool.count]
  simp

/-- `idr_remove` of an id whose slot is full clears the slot. -/
theorem idrRemove_used {id : BitVec 32} (holds : Holds s σ)
    (full : σ.full (maskId id % 32 ^ s.layers) = true) :
    wp (idrRemove id) (fun _ t => Holds t (σ.vacate (maskId id % 32 ^ s.layers))) never s := by
  have busy := σ.full_used _ full
  obtain ⟨h, pos, standing⟩ := holds.standing busy
  rw [standing.layers] at full busy ⊢
  rw [idrRemove, wp_bind]
  refine (subRemove_used standing rfl (fun _ _ _ _ => .rfl) (Slots.full_zero.mpr full)
    busy).returns ?_
  exact fun _ t removed => settle_spec removed

/-- `idr_remove` of an id whose slot is not full changes nothing. -/
theorem idrRemove_unused {id : BitVec 32} (holds : Holds s σ)
    (clear : σ.full (maskId id % 32 ^ s.layers) = false) :
    wp (idrRemove id) (fun _ t => Holds t σ) never s := by
  obtain ⟨pos, laid⟩ := holds
  rw [idrRemove, wp_bind]
  exact (subRemove_unused laid clear).returns fun _ t laid' => settle_spec ⟨pos, laid'⟩

end Removal

end AndroidKernel.Idr
