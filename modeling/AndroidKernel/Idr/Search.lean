import AndroidKernel.Idr.Pool

/-!
The search for an empty slot in a tree of layers.

`sub_alloc` looks only at the digits of an id that the tree has levels for. So
the search is about the slots read periodically: the id `i` stands for the slot
`i % 32 ^ (h + 1)`, and `cell pos h l q` and `Fully σ h l q` take any number of a
place. The search finds the first id from the starting one on whose slot is not
full. It leaves the tree at the top and asks for a higher one when the search
ends there, but when it ends in a layer below the top it goes on at the next
multiple of `32 ^ (h + 1)`, which stands for the slot 0 again.
-/

namespace AndroidKernel.Idr

open Lib Function

variable {i l h m rounds : Nat} {marks : Nat → Nat → Prop}

/-! ### Numbers of places -/

theorem pow_split (inside : l ≤ h) : 32 ^ (h + 1 - l) = 32 * 32 ^ (h - l) := by
  rw [← pow_succ']
  congr 1
  omega

theorem mod_child {q k : Nat} (slot : k < 32) (inside : l ≤ h) :
    (32 * q + k) % 32 ^ (h + 1 - l) = 32 * (q % 32 ^ (h - l)) + k := by
  rw [pow_split inside, Nat.add_mod, Nat.mul_mod_mul_left,
    Nat.mod_eq_of_lt (b := 32 * 32 ^ (h - l)) (a := k)]
  · refine Nat.mod_eq_of_lt ?_
    have : q % 32 ^ (h - l) < 32 ^ (h - l) := Nat.mod_lt _ (by positivity)
    omega
  · have : 0 < 32 ^ (h - l) := by positivity
    omega

theorem mod_div (inside : l ≤ h + 1) :
    i % 32 ^ (h + 1) / 32 ^ l = i / 32 ^ l % 32 ^ (h + 1 - l) := by
  have parts : 32 ^ (h + 1) = 32 ^ l * 32 ^ (h + 1 - l) := by
    rw [← pow_add, Nat.add_sub_cancel' inside]
  rw [parts, Nat.mod_mul_right_div_self]

theorem div_step (i l : Nat) : 32 * (i / 32 ^ (l + 1)) + i / 32 ^ l % 32 = i / 32 ^ l := by
  rw [pow_succ, ← Nat.div_div_eq_div_mul]
  exact Nat.div_add_mod _ _

theorem div_upper {j : Nat} (same : j / 32 ^ l = i / 32 ^ l) (above : l ≤ m) :
    j / 32 ^ m = i / 32 ^ m := by
  obtain ⟨d, rfl⟩ := Nat.exists_eq_add_of_le above
  rw [pow_add, ← Nat.div_div_eq_div_mul, ← Nat.div_div_eq_div_mul, same]

/-! ### Slots and layers, read periodically -/

/-- The layer on level `l` with the number `q`, for any `q`. -/
def cell (pos : Nat → Nat → Nat) (h l q : Nat) : Nat := pos l (q % 32 ^ (h - l))

/-- All ids below the place `q` on level `l` stand for full slots. -/
def Slots.Fully (σ : Slots) (h l q : Nat) : Prop :=
  ∀ i, i / 32 ^ l = q → σ.full (i % 32 ^ (h + 1)) = true

section Periodic

variable {mem : Nat → IdrLayer} {top q k : Nat} {pos : Nat → Nat → Nat} {σ : Slots}

theorem Slots.fully_zero : σ.Fully h 0 i ↔ σ.full (i % 32 ^ (h + 1)) = true := by
  simp [Slots.Fully]

theorem Slots.fully_succ : σ.Fully h (l + 1) q ↔ ∀ k < 32, σ.Fully h l (32 * q + k) := by
  constructor
  · intro full k slot i below
    apply full i
    rw [pow_succ, ← Nat.div_div_eq_div_mul, below]
    omega
  · intro full i below
    refine full (i / 32 ^ l % 32) (by omega) i ?_
    rw [← below]
    exact (div_step i l).symm

theorem Slots.fully_iff (inside : l ≤ h + 1) : σ.Fully h l q ↔ σ.Full l (q % 32 ^ (h + 1 - l)) := by
  constructor
  · intro full y below
    have own : (q * 32 ^ l + y % 32 ^ l) % 32 ^ (h + 1) = y := by
      have parts : 32 ^ (h + 1) = 32 ^ l * 32 ^ (h + 1 - l) := by
        rw [← pow_add, Nat.add_sub_cancel' inside]
      rw [parts, Nat.mod_mul, Nat.mul_add_mod_of_lt (Nat.mod_lt _ (by positivity)),
        Nat.mul_comm q, Nat.mul_add_div (by positivity),
        Nat.div_eq_of_lt (Nat.mod_lt _ (by positivity)), add_zero, ← below, Nat.mod_add_div]
    have := full (q * 32 ^ l + y % 32 ^ l) (by
      rw [Nat.mul_comm, Nat.mul_add_div (by positivity),
        Nat.div_eq_of_lt (Nat.mod_lt _ (by positivity)), add_zero])
    rwa [own] at this
  · intro full i below
    refine full _ ?_
    rw [mod_div inside, below]

theorem cell_child (slot : k < 32) (below : l < h) :
    cell pos h l (32 * q + k) = pos l (32 * (q % 32 ^ (h - (l + 1))) + k) := by
  have := mod_child (q := q) (h := h - 1) (l := l) slot (by omega)
  rw [show h - 1 + 1 - l = h - l by omega, show h - 1 - l = h - (l + 1) by omega] at this
  rw [cell, this]

theorem Tree.cell_top (tree : Tree mem top h pos σ marks) (q : Nat) :
    cell pos h h q = top := by
  simp [cell, Nat.mod_one, tree.placed.root]

theorem Tree.cell_link (tree : Tree mem top h pos σ marks)
    (here : cell pos h (l + 1) q ≠ 0) (slot : k < 32) :
    (mem (cell pos h (l + 1) q)).ary k = cell pos h l (32 * q + k) := by
  have below := tree.placed.low here
  rw [cell_child slot (by omega)]
  exact tree.placed.link here slot

theorem Tree.cell_bit (tree : Tree mem top h pos σ σ.Full) (here : cell pos h l q ≠ 0)
    (slot : k < 32) :
    (mem (cell pos h l q)).bitmap.getLsbD k = true ↔ σ.Fully h l (32 * q + k) := by
  have below := tree.placed.low here
  rw [Slots.fully_iff (by omega), mod_child slot below]
  exact tree.bits here slot

end Periodic

/-! ### Descending -/

/-- Layers were added to the tree; it stands for the same slots. -/
structure Extended (s t : IdrState) (h : Nat) (pos pos' : Nat → Nat → Nat) (σ : Slots) : Prop where
  pool : ∃ free, Pool t free pos'
  tree : Tree t.mem s.top h pos' σ σ.Full
  kept : ∀ l q, pos l q ≠ 0 → pos' l q = pos l q
  top : t.top = s.top
  layers : t.layers = s.layers

section Search

variable {s t u : IdrState} {q k id start : Nat} {pos pos' pos'' : Nat → Nat → Nat} {σ : Slots}
  {pa : Nat → Nat} {never : Fault → Prop} (pool : ∃ free, Pool s free pos)
  (tree : Tree s.mem s.top h pos σ σ.Full)

theorem Extended.trans (first : Extended s t h pos pos' σ) (second : Extended t u h pos' pos'' σ) :
    Extended s u h pos pos'' σ where
  pool := second.pool
  tree := first.top ▸ second.tree
  kept l q here := by
    have same := first.kept l q here
    exact (second.kept l q (same.trans_ne here)).trans same
  top := second.top.trans first.top
  layers := second.layers.trans first.layers

include pool tree

theorem Extended.refl : Extended s s h pos pos σ := ⟨pool, tree, fun _ _ _ => rfl, rfl, rfl⟩

theorem fillSlot_spec (here : pos (l + 1) q ≠ 0) (slot : k < 32) :
    wp (fillSlot (pos (l + 1) q) (l + 1) k) (fun filled t => ∃ pos', Extended s t h pos pos' σ ∧
      (filled = true → pos' l (32 * q + k) ≠ 0)) never s := by
  have inside := tree.placed.low here
  have link : (s.mem (pos (l + 1) q)).ary k = pos l (32 * q + k) := tree.placed.link here slot
  obtain ⟨free, pool⟩ := pool
  simp only [fillSlot, wp_bind, wp_load here, wp_ite, wp_pure, link]
  constructor
  case right => exact fun present => ⟨pos, .refl ⟨free, pool⟩ tree, fun _ => present⟩
  case left =>
    intro vacant
    refine (getFromFreeList_spec pool).returns fun new t => ?_
    rintro (⟨rfl, rfl, rfl⟩ | ⟨rest, rfl, taken⟩)
    · exact ⟨fun _ => ⟨pos, .refl ⟨[], pool⟩ tree, fun no => absurd no (by decide)⟩,
        fun some => absurd rfl some⟩
    refine ⟨fun zero => absurd zero taken.present, fun _ => ?_⟩
    simp only [wp_change taken.present, wp_change here, Nat.add_sub_cancel]
    generalize hung : ((t.update new (.setLayer l)).update (pos (l + 1) q) (.setAry k new)).update
      (pos (l + 1) q) (.addCount 1) = u
    have apart := taken.apart (l + 1) q
    have parent : u.mem (pos (l + 1) q) = ((t.mem (pos (l + 1) q)).setAry k new).addCount 1 := by
      rw [← hung, IdrState.update_mem_self, IdrState.update_mem_self,
        IdrState.update_mem_of_ne _ apart]
    have child : u.mem new = (t.mem new).setLayer l := by
      rw [← hung, IdrState.update_mem_of_ne _ apart.symm, IdrState.update_mem_of_ne _ apart.symm,
        IdrState.update_mem_self]
    have others : ∀ a, a ≠ new → a ≠ pos (l + 1) q → u.mem a = t.mem a := by
      grind [IdrState.update_mem_of_ne]
    have tree' : Tree u.mem s.top h (place pos l (32 * q + k) new) σ σ.Full := by
      refine (tree.frame taken.kept.mem).attach here slot vacant taken.present taken.apart
        taken.blank (fun k' slot' => ?_) parent child fun l' q' other _ =>
          others _ (taken.apart l' q') (tree.apart here other)
      exact tree.not_full (by omega) (tree.vacant_below (by omega) vacant slot')
    refine ⟨place pos l (32 * q + k) new, ⟨⟨rest, ?_⟩, tree', ?_, ?_, ?_⟩, fun _ => ?_⟩
    · refine taken.pool.frame ?_ ?_ ?_ ?_ ?_
      · intro a member
        refine others a ?_ ?_
        · rintro rfl
          exact taken.outside member
        · rintro rfl
          exact taken.pool.apart _ member _ _ rfl
      · rw [← hung]
        rfl
      · rw [← hung]
        rfl
      · rw [← hung]
        rfl
      · intro l' q'
        rw [place_apply]
        split
        · exact .inr (.inr ⟨taken.outside, taken.old⟩)
        · exact .inr (.inl ⟨l', q', rfl⟩)
    · intro l' q' old
      rw [place_of_ne]
      rintro ⟨rfl, rfl⟩
      exact old vacant
    · rw [← hung]
      exact taken.top
    · rw [← hung]
      exact taken.layers
    · rw [place_self]
      exact taken.present

omit pool tree

/-! ### One round of the search -/

/-- All ids from `start` up to `id` stand for full slots. -/
def Slots.Passed (σ : Slots) (h start id : Nat) : Prop :=
  start ≤ id ∧ ∀ j, start ≤ j → j < id → σ.full (j % 32 ^ (h + 1)) = true

theorem Slots.Passed.extend {n : Nat} (passed : σ.Passed h start id) (digit : 32 * q + n = id / 32 ^ l)
    (less : n < m) (full : ∀ k, n ≤ k → k < m → σ.Fully h l (32 * q + k)) :
    id < (32 * q + m) * 32 ^ l ∧ σ.Passed h start ((32 * q + m) * 32 ^ l) := by
  have beyond : id < (32 * q + m) * 32 ^ l := (Nat.div_lt_iff_lt_mul (by positivity)).mp (by omega)
  refine ⟨beyond, passed.1.trans beyond.le, fun j low high => ?_⟩
  by_cases before : j < id
  · exact passed.2 j low before
  · have first : id / 32 ^ l ≤ j / 32 ^ l := Nat.div_le_div_right (by omega)
    have last : j / 32 ^ l < 32 * q + m := (Nat.div_lt_iff_lt_mul (by positivity)).mpr high
    exact full (j / 32 ^ l - 32 * q) (by omega) (by omega) j (by omega)

/-- The array `pa` holds the layers above level `l` on the way to `id`. -/
structure Way (pos : Nat → Nat → Nat) (h : Nat) (pa : Nat → Nat) (id l : Nat) : Prop where
  above : ∀ j, l < j → j ≤ h → pa j = cell pos h j (id / 32 ^ (j + 1)) ∧ pa j ≠ 0
  stop : pa (h + 1) = 0

/-- The array `pa` holds all layers on the way to `id`. -/
structure Path (pos : Nat → Nat → Nat) (h : Nat) (pa : Nat → Nat) (id : Nat) : Prop where
  all : ∀ j ≤ h, pa j = cell pos h j (id / 32 ^ (j + 1)) ∧ pa j ≠ 0
  stop : pa (h + 1) = 0

/-- The search came past the end of the tree only if the last child of the root
has room. -/
def Slots.Crossed (σ : Slots) (h start id : Nat) : Prop :=
  id / 32 ^ (h + 1) = start / 32 ^ (h + 1) ∨ ¬σ.Fully h h (32 * (start / 32 ^ (h + 1)) + 31)

/-- What the search for the first slot from `start` on returns. -/
def Outcome (s : IdrState) (h : Nat) (pos : Nat → Nat → Nat) (σ : Slots) (start : Nat)
    (r : SubAlloc) (t : IdrState) : Prop :=
  ∃ pos', Extended s t h pos pos' σ ∧ match r with
    | .found id pa => σ.Passed h start id ∧ σ.full (id % 32 ^ (h + 1)) = false ∧ id < maxIdBit ∧
        σ.Crossed h start id ∧ Path pos' h pa id
    | .noMemory => True
    | .needToGrow id => id = (start / 32 ^ (h + 1) + 1) * 32 ^ (h + 1) ∧ σ.Passed h start id
    | .noMoreSpace => σ.Passed h start maxIdBit

theorem Outcome.after {r : SubAlloc} (extended : Extended s t h pos pos' σ)
    (outcome : Outcome t h pos' σ start r u) : Outcome s h pos σ start r u := by
  obtain ⟨pos'', extended', rest⟩ := outcome
  exact ⟨pos'', extended.trans extended', rest⟩

theorem Way.extend (way : Way pos h pa id l) (kept : ∀ l q, pos l q ≠ 0 → pos' l q = pos l q) :
    Way pos' h pa id l where
  above j low high := by
    obtain ⟨same, present⟩ := way.above j low high
    refine ⟨?_, present⟩
    rw [same] at present ⊢
    exact (kept _ _ present).symm
  stop := way.stop

/-- Another id below the same layers. -/
theorem Way.upper {l' : Nat} (way : Way pos h pa id l) (below : l ≤ l')
    (same : i / 32 ^ (l' + 2) = id / 32 ^ (l' + 2)) : Way pos h pa i l' where
  above j low high := by
    obtain ⟨entry, present⟩ := way.above j (by omega) high
    exact ⟨by rw [entry, div_upper same (by omega)], present⟩
  stop := way.stop

theorem Way.down (way : Way pos h pa id (l + 1)) (inside : l + 1 ≤ h)
    (here : cell pos h (l + 1) (id / 32 ^ (l + 2)) ≠ 0) :
    Way pos h (update pa (l + 1) (cell pos h (l + 1) (id / 32 ^ (l + 2)))) id l where
  above j low high := by
    by_cases same : j = l + 1
    · subst same
      rw [update_self]
      exact ⟨rfl, here⟩
    · rw [update_of_ne same]
      exact way.above j (by omega) high
  stop := by
    rw [update_of_ne (by omega)]
    exact way.stop

variable (way : Way pos h pa id l) (passed : σ.Passed h start id) (crossed : σ.Crossed h start id)
  (here : cell pos h l (id / 32 ^ (l + 1)) ≠ 0) (small : start ≤ maxIdBit)
  {again : Nat → Nat → Nat → (Nat → Nat) → Prog SubAlloc}

include pool tree way passed crossed here small in
theorem goDown_spec (digit : id / 32 ^ l % 32 = m) (room : ¬σ.Fully h l (id / 32 ^ l))
    (deeper : ∀ l' t pos' pa', l = l' + 1 → Extended s t h pos pos' σ → Way pos' h pa' id l' →
      cell pos' h l' (id / 32 ^ (l' + 1)) ≠ 0 → id < maxIdBit →
      wp (again id l' (cell pos' h l' (id / 32 ^ (l' + 1))) pa') (Outcome t h pos' σ start)
        never t) :
    wp (goDown again id l (cell pos h l (id / 32 ^ (l + 1))) m pa) (Outcome s h pos σ start)
      never s := by
  have slot : m < 32 := by omega
  simp only [goDown, wp_ite, wp_pure]
  refine ⟨fun big => ?_, fun bound => ⟨fun leaf => ?_, fun inner => ?_⟩⟩
  · exact ⟨pos, .refl pool tree, small, fun j low high => passed.2 j low (by omega)⟩
  · subst leaf
    rw [pow_zero, Nat.div_one, Slots.fully_zero, Bool.not_eq_true] at room
    refine ⟨pos, .refl pool tree, passed, room, by omega, crossed, fun j inside => ?_, ?_⟩
    · grind [→ Way.above]
    · rw [update_of_ne (by omega)]
      exact way.stop
  obtain ⟨l, rfl⟩ := Nat.exists_eq_succ_of_ne_zero inner
  have inside := tree.placed.low here
  rw [wp_bind]
  refine (fillSlot_spec pool tree here slot).returns fun filled t => ?_
  rintro ⟨pos', extended, below⟩
  have same : cell pos' h (l + 1) (id / 32 ^ (l + 2)) = cell pos h (l + 1) (id / 32 ^ (l + 2)) :=
    extended.kept _ _ here
  have here' := same.trans_ne here
  rw [wp_ite]
  refine ⟨fun done => ?_, fun _ => by simpa using ⟨pos', extended, trivial⟩⟩
  have child : cell pos' h l (id / 32 ^ (l + 1)) ≠ 0 := by
    rw [← div_step id (l + 1), digit, cell_child slot (by omega)]
    exact below done
  have tree' := extended.tree
  simp only [wp_bind, Nat.succ_eq_add_one, Nat.add_sub_cancel]
  rw [wp_load here]
  have link : (t.mem (cell pos h (l + 1) (id / 32 ^ (l + 2)))).ary m =
      cell pos' h l (id / 32 ^ (l + 1)) := by
    rw [← same, tree'.cell_link here' slot, ← digit, div_step]
  rw [link, ← same]
  have way' := (way.extend extended.kept).down inside here'
  exact (deeper l t pos' _ rfl extended way' child (by omega)).returns fun r u =>
    Outcome.after extended

include tree here in
/-- One round: the layer has room from the id on, or it has not. -/
theorem subAllocLoop_round {post : SubAlloc → IdrState → Prop}
    (back : (∀ k, id / 32 ^ l % 32 ≤ k → k < 32 → σ.Fully h l (32 * (id / 32 ^ (l + 1)) + k)) →
      wp (goBack (subAllocLoop rounds) id l pa) post never s)
    (down : ∀ m i, m < 32 →
      (∀ k, id / 32 ^ l % 32 ≤ k → k < m → σ.Fully h l (32 * (id / 32 ^ (l + 1)) + k)) →
      ¬σ.Fully h l (32 * (id / 32 ^ (l + 1)) + m) →
      (m = id / 32 ^ l % 32 ∧ i = id ∨
        id / 32 ^ l % 32 < m ∧ i = (32 * (id / 32 ^ (l + 1)) + m) * 32 ^ l) →
      wp (goDown (subAllocLoop rounds) i l (cell pos h l (id / 32 ^ (l + 1))) m pa) post never s) :
    wp (subAllocLoop (rounds + 1) id l (cell pos h l (id / 32 ^ (l + 1))) pa) post never s := by
  have size : idrSize = 32 := rfl
  obtain ⟨low, high, before, stop⟩ := nextZero_spec
    (p := (s.mem (cell pos h l (id / 32 ^ (l + 1)))).bitmap.getLsbD)
    (show id / 32 ^ l % 32 ≤ 32 from (Nat.mod_lt _ (by decide)).le)
  simp only [subAllocLoop, wp_bind, wp_load here, digit_eq, wp_ite, size]
  generalize nextZero (s.mem (cell pos h l (id / 32 ^ (l + 1)))).bitmap.getLsbD 32
    (id / 32 ^ l % 32) = m at *
  refine ⟨fun none => back fun k first last => ?_, fun some => ⟨fun same => ?_, fun other => ?_⟩⟩
  · exact (tree.cell_bit here last).mp (before k first (by omega))
  all_goals
    have full : ∀ k, id / 32 ^ l % 32 ≤ k → k < m → σ.Fully h l (32 * (id / 32 ^ (l + 1)) + k) :=
      fun k first last => (tree.cell_bit here (by omega)).mp (before k first last)
    have room : ¬σ.Fully h l (32 * (id / 32 ^ (l + 1)) + m) := by
      rw [← tree.cell_bit here (by omega), stop (by omega)]
      decide
  · exact down m id (by omega) full room (.inl ⟨same, rfl⟩)
  · refine down m _ (by omega) full room (.inr ⟨by omega, ?_⟩)
    have exchanged := xor_digit (b := 5) (id / 32 ^ l) (show m < 2 ^ 5 by omega)
    rw [idrBits, shift_eq_div, Nat.shiftLeft_eq, pow_mul, show 2 ^ 5 = 32 from rfl] at *
    rw [exchanged, Nat.div_div_eq_div_mul, ← pow_succ, Nat.mul_comm 32]

/-! ### The whole search -/

theorem Slots.Crossed.upper (crossed : σ.Crossed h start id) (inside : l ≤ h + 1)
    (same : i / 32 ^ l = id / 32 ^ l) : σ.Crossed h start i := by
  unfold Slots.Crossed at *
  rwa [div_upper same inside]

include pool tree way passed crossed here small in
/-- Below a place that has room, the search from its first id on ends. -/
theorem descend_spec (enough : l < rounds) (aligned : 32 ^ (l + 1) ∣ id)
    (room : ¬σ.Fully h (l + 1) (id / 32 ^ (l + 1))) :
    wp (subAllocLoop rounds id l (cell pos h l (id / 32 ^ (l + 1))) pa) (Outcome s h pos σ start)
      never s := by
  induction rounds generalizing l id s pos pa with
  | zero => omega
  | succ rounds ih =>
    have inside := tree.placed.low here
    have first : id / 32 ^ l % 32 = 0 := by
      obtain ⟨c, rfl⟩ := aligned
      rw [pow_succ, Nat.mul_assoc, Nat.mul_div_cancel_left _ (by positivity), Nat.mul_mod_right]
    refine subAllocLoop_round tree here (fun full => ?_) fun m i slot full clear next => ?_
    · refine absurd (Slots.fully_succ.mpr fun k slot => full k ?_ slot) room
      omega
    -- in both cases `i` is the first id below slot `m`
    have own : i = (32 * (id / 32 ^ (l + 1)) + m) * 32 ^ l := by
      rcases next with ⟨same, rfl⟩ | ⟨-, eq⟩
      · rw [same, div_step]
        exact (Nat.div_mul_cancel ((pow_dvd_pow 32 (Nat.le_succ l)).trans aligned)).symm
      · exact eq
    have digits : i / 32 ^ l = 32 * (id / 32 ^ (l + 1)) + m := by
      rw [own, Nat.mul_div_cancel _ (by positivity)]
    have upper : i / 32 ^ (l + 1) = id / 32 ^ (l + 1) := by
      have := div_step i l
      omega
    have passed' : σ.Passed h start i := by
      rcases next with ⟨-, rfl⟩ | ⟨less, rfl⟩
      · exact passed
      · exact (passed.extend (div_step id l) less full).2
    rw [← upper] at here ⊢
    refine goDown_spec pool tree (way.upper le_rfl (div_upper upper (by omega))) passed'
      (crossed.upper (by omega) upper) here small (by omega) (by rwa [digits]) ?_
    rintro l' t pos' pa' rfl extended way' here' -
    exact ih extended.pool (extended.top ▸ extended.tree) way' passed' (crossed.upper (by omega) upper)
      here' (by omega) ⟨_, own.trans (Nat.mul_comm _ _)⟩ (by rwa [digits])

/-- The id to go on with after a layer without room. -/
theorem next_eq (id l : Nat) (small : (id / 32 ^ (l + 1) + 1) * 32 ^ (l + 1) < 2 ^ 32) :
    ((id ||| ((1 <<< (idrBits * (l + 1))) - 1)) + 1) % 2 ^ 32 =
      (id / 32 ^ (l + 1) + 1) * 32 ^ (l + 1) := by
  have counted := or_mask_succ (idrBits * (l + 1)) id
  rw [idrBits, pow_mul, show 2 ^ 5 = 32 from rfl] at counted
  rw [idrBits, counted, Nat.mod_eq_of_lt small]

theorem next_le {D bound : Nat} (dvd : D ∣ bound) (less : id < bound) :
    (id / D + 1) * D ≤ bound := by
  obtain ⟨c, rfl⟩ := dvd
  have := Nat.div_lt_of_lt_mul less
  rw [Nat.mul_comm D c]
  exact Nat.mul_le_mul_right D this

theorem pow_dvd_maxIdBit (inside : l ≤ 6) : 32 ^ l ∣ maxIdBit := by
  have : 32 ^ l = 2 ^ (5 * l) := by rw [pow_mul, show 2 ^ 5 = 32 from rfl]
  rw [this, maxIdBit, maxIdShift, Nat.one_shiftLeft]
  exact pow_dvd_pow 2 (by omega)

/-- The search leaves the tree from the last child of the root. -/
theorem leaves_last (below : l < h)
    (other : (id / 32 ^ (l + 1) + 1) * 32 ^ (l + 1) / 32 ^ (h + 1) ≠ id / 32 ^ (h + 1)) :
    id / 32 ^ h = 32 * (id / 32 ^ (h + 1)) + 31 := by
  have dvd : 32 ^ (l + 1) ∣ (id / 32 ^ h + 1) * 32 ^ h :=
    (pow_dvd_pow 32 below).trans (Nat.dvd_mul_left _ _)
  have high := next_le dvd (Nat.lt_mul_of_div_lt (Nat.lt_succ_self _) (by positivity))
  have low : id ≤ (id / 32 ^ (l + 1) + 1) * 32 ^ (l + 1) :=
    (Nat.lt_mul_of_div_lt (Nat.lt_succ_self _) (by positivity)).le
  generalize (id / 32 ^ (l + 1) + 1) * 32 ^ (l + 1) = next at *
  have least : id / 32 ^ h ≤ next / 32 ^ h := Nat.div_le_div_right low
  have most : next / 32 ^ h ≤ id / 32 ^ h + 1 :=
    Nat.div_le_of_le_mul (by rwa [Nat.mul_comm] at high)
  rw [pow_succ, ← Nat.div_div_eq_div_mul, ← Nat.div_div_eq_div_mul] at *
  omega

/-- When a whole period was passed, all slots are full. -/
theorem Slots.Passed.all {c : Nat} (passed : σ.Passed h start ((c + 1) * 32 ^ (h + 1)))
    (before : start ≤ c * 32 ^ (h + 1)) (x : Nat) : σ.full (x % 32 ^ (h + 1)) = true := by
  have := passed.2 (c * 32 ^ (h + 1) + x % 32 ^ (h + 1)) (by omega) (by rw [Nat.succ_mul]; omega)
  rwa [Nat.mul_add_mod', Nat.mod_mod] at this

include pool tree way passed crossed in
theorem goBack_spec (layers : s.layers = h + 1) (inside : l ≤ h)
    (bound : id < maxIdBit ∨ id = maxIdBit ∧ l = h) (room : l < h → ¬σ.Fully h h (id / 32 ^ h))
    (full : ∀ k, id / 32 ^ l % 32 ≤ k → k < 32 → σ.Fully h l (32 * (id / 32 ^ (l + 1)) + k))
    (upward : ∀ i, l < h → 32 ^ (l + 1) ∣ i → i / 32 ^ (l + 2) = id / 32 ^ (l + 2) →
      i < maxIdBit → σ.Passed h start i → σ.Crossed h start i →
      cell pos h (l + 1) (i / 32 ^ (l + 2)) ≠ 0 →
      wp (again i (l + 1) (cell pos h (l + 1) (i / 32 ^ (l + 2))) pa) (Outcome s h pos σ start)
        never s)
    (restart : ∀ i, l < h → 32 ^ (l + 1) ∣ i → i ≤ maxIdBit → σ.Passed h start i →
      σ.Crossed h start i →
      wp (again i h s.top (update pa (h + 1) 0)) (Outcome s h pos σ start) never s) :
    wp (goBack again id l pa) (Outcome s h pos σ start) never s := by
  have low := tree.low
  have word : maxIdBit = 2 ^ 31 := rfl
  -- all ids up to the next one are passed
  obtain ⟨beyond, passed'⟩ := passed.extend (div_step id l) (Nat.mod_lt _ (by decide)) full
  have next : (32 * (id / 32 ^ (l + 1)) + 32) * 32 ^ l =
      (id / 32 ^ (l + 1) + 1) * 32 ^ (l + 1) := by ring
  rw [next] at passed' beyond
  have least : 32 ^ (l + 1) ≤ 2 ^ 30 := by
    calc 32 ^ (l + 1) ≤ 32 ^ 6 := Nat.pow_le_pow_right (by decide) (by omega)
      _ = 2 ^ 30 := by norm_num
  have small' : (id / 32 ^ (l + 1) + 1) * 32 ^ (l + 1) < 2 ^ 32 := by
    have := Nat.div_mul_le_self id (32 ^ (l + 1))
    rw [Nat.succ_mul]
    omega
  rw [goBack, next_eq id l small']
  simp only [wp_ite, wp_pure, wp_bind, wp_get]
  refine ⟨fun top => ?_, fun inner => ?_⟩
  · -- at the top the tree has to grow
    obtain rfl : l = h := by
      by_contra lower
      exact (way.above (l + 1) (by omega) (by omega)).2 top
    refine ⟨pos, .refl pool tree, ?_, passed'⟩
    rcases crossed with same | last
    · rw [same]
    by_contra other
    refine last fun i _ => passed'.all ?_ i
    have first : start / 32 ^ (l + 1) ≤ id / 32 ^ (l + 1) := Nat.div_le_div_right passed.1
    have apart : start / 32 ^ (l + 1) ≠ id / 32 ^ (l + 1) := fun same => other (by rw [same])
    exact (Nat.lt_mul_of_div_lt (Nat.lt_of_le_of_ne first apart) (by positivity)).le
  · have lower : l < h := by
      by_contra top
      obtain rfl : l = h := by omega
      exact inner way.stop
    have bounded : id < maxIdBit := by omega
    have high := next_le (pow_dvd_maxIdBit (show l + 1 ≤ 6 by omega)) bounded
    have last : _ → id / 32 ^ h = 32 * (id / 32 ^ (h + 1)) + 31 := leaves_last lower
    generalize forward : (id / 32 ^ (l + 1) + 1) * 32 ^ (l + 1) = i at *
    have aligned : 32 ^ (l + 1) ∣ i := ⟨_, forward.symm.trans (Nat.mul_comm _ _)⟩
    obtain ⟨entry, present⟩ := way.above (l + 1) (by omega) lower
    have shifts : ∀ j, j >>> (idrBits * (l + 2)) = j / 32 ^ (l + 2) := fun j =>
      (shift_eq_div 5 (l + 2) j).trans (by rw [show 2 ^ 5 = 32 from rfl])
    rw [shifts, shifts]
    refine ⟨fun same => ?_, fun other => ?_⟩
    · rw [entry, same] at present ⊢
      refine upward i lower aligned same.symm ?_ passed' (crossed.upper (by omega) same.symm) present
      -- the last id has other digits
      by_contra end'
      obtain rfl : i = maxIdBit := by omega
      have := Nat.div_lt_div_of_lt_of_dvd (pow_dvd_maxIdBit (show l + 2 ≤ 6 by omega)) bounded
      omega
    · rw [layers, Nat.add_sub_cancel]
      refine restart i lower aligned high passed' ?_
      by_cases same : i / 32 ^ (h + 1) = id / 32 ^ (h + 1)
      · exact crossed.upper le_rfl same
      rcases crossed with still | gone
      · right
        rw [← still, ← last same]
        exact room lower
      · exact .inr gone

include pool tree way passed crossed here small in
theorem search_spec {z : Nat} (enough : (h + 1 - z) * (h + 2) + l < rounds) (below : z ≤ l)
    (layers : s.layers = h + 1) (aligned : 32 ^ z ∣ id)
    (bound : id < maxIdBit ∨ id = maxIdBit ∧ l = h) (room : l < h → ¬σ.Fully h h (id / 32 ^ h)) :
    wp (subAllocLoop rounds id l (cell pos h l (id / 32 ^ (l + 1))) pa) (Outcome s h pos σ start)
      never s := by
  induction rounds generalizing z l id s pos pa with
  | zero => omega
  | succ rounds ih =>
    have inside := tree.placed.low here
    -- a round without room aligns the id to a higher level
    have fewer : (h + 1 - (l + 1)) * (h + 2) + (h + 2) ≤ (h + 1 - z) * (h + 2) := by
      calc (h + 1 - (l + 1)) * (h + 2) + (h + 2) = (h + 1 - (l + 1) + 1) * (h + 2) := by ring
        _ ≤ (h + 1 - z) * (h + 2) := Nat.mul_le_mul_right _ (by omega)
    refine subAllocLoop_round tree here (fun full => ?_) fun m i slot full clear next => ?_
    · refine goBack_spec pool tree way passed crossed layers inside bound room full ?_ ?_
      · intro i lower aligned' same bounded passed' crossed' present
        refine ih (z := l + 1) pool tree (way.upper (Nat.le_succ l) (div_upper same (by omega)))
          passed' crossed' present (by omega) le_rfl layers aligned' (.inl bounded) ?_
        intro below'
        rw [div_upper same (by omega)]
        exact room lower
      · intro i lower aligned' bounded passed' crossed'
        rw [← tree.cell_top (i / 32 ^ (h + 1))]
        refine ih (z := l + 1) pool tree ⟨?_, ?_⟩ passed' crossed' ?_ (by omega) lower layers
          aligned' ?_ fun none => absurd none (lt_irrefl h)
        · intro j above level
          omega
        · exact update_self _ _ _
        · rw [tree.cell_top]
          exact tree.placed.present
        · omega
    · have digits : i / 32 ^ l = 32 * (id / 32 ^ (l + 1)) + m := by
        rcases next with ⟨rfl, rfl⟩ | ⟨-, rfl⟩
        · exact (div_step i l).symm
        · exact Nat.mul_div_cancel _ (by positivity)
      have upper : i / 32 ^ (l + 1) = id / 32 ^ (l + 1) := by
        have := div_step i l
        omega
      have passed' : σ.Passed h start i := by
        rcases next with ⟨-, rfl⟩ | ⟨less, rfl⟩
        · exact passed
        · exact (passed.extend (div_step id l) less full).2
      have crossed' := crossed.upper (by omega) upper
      rw [← digits] at clear
      rw [← upper] at here ⊢
      refine goDown_spec pool tree (way.upper le_rfl (div_upper upper (by omega))) passed' crossed'
        here small (by omega) clear ?_
      rintro l' t pos' pa' rfl extended way' here' bounded
      have tree' : Tree t.mem t.top h pos' σ σ.Full := extended.top ▸ extended.tree
      by_cases search : 32 ^ (l' + 1) ∣ i
      · exact descend_spec extended.pool tree' way' passed' crossed' here' small (by omega) search
          clear
      -- the id is the old one, and not aligned to this level
      obtain rfl : i = id := by
        rcases next with ⟨-, rfl⟩ | ⟨-, rfl⟩
        · rfl
        · exact absurd (Nat.dvd_mul_left _ _) search
      have lower : z ≤ l' := by
        by_contra high
        obtain rfl : z = l' + 1 := by omega
        exact search aligned
      refine ih (z := z) extended.pool tree' way' passed' crossed' here' (by omega) lower
        (extended.layers.trans layers) aligned (.inl bounded) fun _ => ?_
      by_cases last : l' + 1 = h
      · rw [← last]
        exact last ▸ clear
      · exact room (by omega)

include pool tree in
theorem subAlloc_spec (layers : s.layers = h + 1) (bound : start ≤ maxIdBit) (pa : Nat → Nat) :
    wp (subAlloc start pa) (Outcome s h pos σ start) never s := by
  have low := tree.low
  simp only [subAlloc, wp_bind, wp_get, layers, Nat.add_sub_cancel]
  rw [← tree.cell_top (start / 32 ^ (h + 1))]
  refine search_spec (z := 0) pool tree ⟨fun j above level => by omega, update_self _ _ _⟩
    ⟨le_rfl, fun j first last => by omega⟩ (.inl rfl) ?_ bound ?_ (Nat.zero_le h) layers (one_dvd _)
    (by omega) fun none => absurd none (lt_irrefl h)
  · rw [tree.cell_top]
    exact tree.placed.present
  · have : (h + 1) * (h + 2) ≤ 6 * 7 := Nat.mul_le_mul (by omega) (by omega)
    rw [subAllocRounds, Nat.sub_zero]
    omega

include tree in
/-- In a full tree the search ends at once. -/
theorem subAlloc_full (layers : s.layers = h + 1)
    (full : ∀ x, σ.full (x % 32 ^ (h + 1)) = true) (pa : Nat → Nat) :
    wp (subAlloc id pa) (fun r t => t = s ∧ ∃ i, r = .needToGrow i) never s := by
  simp only [subAlloc, wp_bind, wp_get, layers, Nat.add_sub_cancel]
  rw [← tree.cell_top (id / 32 ^ (h + 1)), subAllocRounds]
  refine subAllocLoop_round tree ?_ (fun _ => ?_) fun m i slot _ room => ?_
  · rw [tree.cell_top]
    exact tree.placed.present
  · simp only [goBack, update_self, if_true, wp_pure, true_and]
    exact ⟨_, rfl⟩
  · exact absurd (fun j _ => full j) room

end Search

end AndroidKernel.Idr
