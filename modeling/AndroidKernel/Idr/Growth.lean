import AndroidKernel.Idr.Search

/-!
Growing the tree, and the search for an empty slot with growth.

A tree without content grows by moving its root up. On any other tree new roots
are put, which hang together by their first slots until the search accepts the
last of them (`Stack`); when no layer is to be had for a root, they go back to
the free list and the old tree is as it was.
-/

namespace AndroidKernel.Idr

open Lib Function

section Growth

variable {s t : IdrState} {p h h₀ id : Nat} {pos pos₀ : Nat → Nat → Nat} {σ : Slots}
  {free built : List Nat} {never : Fault → Prop} {pos' : Nat → Nat → Nat}
  {rounds start : Nat} {pa : Nat → Nat}

/-! ### New roots -/

/-- The layers put on top of the tree, from `p` down to the old root. -/
def Stack (mem : Nat → IdrLayer) (top : Nat) : Nat → List Nat → Prop
  | p, [] => p = top
  | p, a :: built => p = a ∧ a ≠ 0 ∧ (∀ k < 32, 0 < k → (mem a).ary k = 0) ∧
      Stack mem top ((mem a).ary 0) built

theorem Stack.congr {mem mem' : Nat → IdrLayer} {top : Nat} (stack : Stack mem top p built)
    (same : ∀ a ∈ built, mem' a = mem a) : Stack mem' top p built := by
  induction built generalizing p with
  | nil => exact stack
  | cons a built ih =>
    obtain ⟨head, present, rest, tail⟩ := stack
    have own := same a List.mem_cons_self
    refine ⟨head, present, by rwa [own], ?_⟩
    rw [own]
    exact ih tail fun b member => same b (List.mem_cons_of_mem a member)

theorem tearDown_spec (enough : built.length < rounds) (pool : Pool s free pos₀)
    (root : pos₀ h₀ 0 = s.top) (stack : Stack s.mem s.top p built) (nodup : built.Nodup)
    (outside : ∀ a ∈ built, a ∉ free ∧ a < s.brk ∧ ∀ l q, pos₀ l q ≠ a) :
    wp (tearDown rounds p) (fun _ t => (∃ free', Pool t free' pos₀) ∧ Kept s t pos₀) never s := by
  induction built generalizing rounds s p free with
  | nil =>
    obtain ⟨rounds, rfl⟩ := Nat.exists_eq_succ_of_ne_zero (Nat.ne_of_gt enough)
    have top : p = s.top := stack
    simp only [tearDown, wp_bind, wp_get, wp_ite, wp_pure]
    exact ⟨fun above => absurd top above.2, fun _ => ⟨⟨free, pool⟩, .refl⟩⟩
  | cons a built ih =>
    obtain ⟨rounds, rfl⟩ : ∃ r, rounds = r + 1 := ⟨rounds - 1, by omega⟩
    obtain ⟨rfl, present, rest, tail⟩ := stack
    obtain ⟨own, unique⟩ := List.nodup_cons.mp nodup
    obtain ⟨notFree, old, apart⟩ := outside p List.mem_cons_self
    have notTop : p ≠ s.top := fun same => apart h₀ 0 (root.trans same.symm)
    simp only [tearDown, wp_bind, wp_get, wp_ite, wp_pure, wp_load present, wp_change present]
    refine ⟨fun _ => ?_, fun none => absurd ⟨present, notTop⟩ none⟩
    generalize cleared : (s.update p (.setAry 0 0)).update p
      (fun x => { x with bitmap := 0, count := 0 }) = s₁
    have others : ∀ b, b ≠ p → s₁.mem b = s.mem b := by
      intro b other
      rw [← cleared, IdrState.update_mem_of_ne _ other, IdrState.update_mem_of_ne _ other]
    have spare : (s₁.mem p).Spare := by
      rw [← cleared, IdrState.update_mem_self, IdrState.update_mem_self]
      refine ⟨rfl, rfl, fun k slot positive => ?_⟩
      simpa [IdrLayer.setAry, Nat.ne_of_gt positive] using rest k slot positive
    have pool₁ : Pool s₁ free pos₀ := by
      refine pool.frame (fun b member => others b ?_) ?_ ?_ ?_ fun l q => .inr (.inl ⟨l, q, rfl⟩)
      · rintro rfl
        exact notFree member
      all_goals
        rw [← cleared]
        rfl
    have top₁ : s₁.top = s.top := by
      rw [← cleared]
      rfl
    have brk₁ : s₁.brk = s.brk := by
      rw [← cleared]
      rfl
    refine (moveToFreeList_spec pool₁ present spare notFree (by omega) apart).returns ?_
    rintro - t ⟨pool', top, layers, brk, mem⟩
    have kept : ∀ b, b ≠ p → t.mem b = s.mem b := fun b other =>
      (mem b other).trans (others b other)
    have tail' : Stack t.mem t.top ((s.mem p).ary 0) built := by
      rw [top, top₁]
      refine tail.congr fun b member => kept b ?_
      rintro rfl
      exact own member
    refine (ih (by simpa using enough) pool' (by rw [top, top₁, root]) tail'
      unique fun b member => ?_).returns ?_
    · grind
    rintro - u ⟨pool'', kept'⟩
    refine ⟨pool'', Kept.trans ⟨fun l q _ => kept _ (apart l q), ?_, ?_⟩ kept'⟩
    · rw [top, top₁]
    · rw [layers, ← cleared]
      rfl

/-- The tree is high enough for an id, or as high as it can be. -/
def Fits (h id : Nat) : Prop := h = 5 ∨ id < 32 ^ (h + 1) ∨ maxIdBit ≤ id

/-- A tree of height `h` was made one of height `h'` with the root `p`, for `id`. -/
structure Grown (s t : IdrState) (σ : Slots) (id h p h' : Nat) (pos' : Nat → Nat → Nat) : Prop where
  pool : ∃ free, Pool t free pos'
  tree : Tree t.mem p h' pos' σ σ.Full
  top : t.top = s.top
  layers : t.layers = s.layers
  fits : Fits h' id
  above : h ≤ h'
  stays : id < 32 ^ (h + 1) → h' = h

theorem shift_eq_pow (n : Nat) : 1 <<< (n * idrBits) = 32 ^ n := by
  rw [Nat.one_shiftLeft, Nat.mul_comm, idrBits, pow_mul, show 2 ^ 5 = 32 from rfl]

/-- The loop stops when the tree is high enough. -/
theorem fits_of_not (low : h ≤ 5)
    (stop : ¬(h + 1 < maxLevel - 1 ∧ 1 <<< ((h + 1) * idrBits) ≤ id ∧ id < maxIdBit)) :
    Fits h id := by
  have levels : maxLevel = 7 := rfl
  rw [shift_eq_pow] at stop
  unfold Fits
  omega

/-- A root without content moves up. -/
theorem Tree.moveUp (tree : Tree s.mem p h pos σ σ.Full) (zero : (s.mem p).count = 0) (low : h < 5)
    (moved : t = s.update p (.setLayer ((s.mem p).layer + 1))) :
    Tree t.mem p (h + 1) (place (fun _ _ => 0) (h + 1) 0 p) σ σ.Full ∧ (t.mem p).count = 0 := by
  have present := tree.placed.present
  have blank := tree.blank zero
  have layer : (s.mem p).layer = h := by
    have := tree.layer (tree.placed.root.trans_ne present)
    rwa [tree.placed.root] at this
  have own : t.mem p = (s.mem p).setLayer (h + 1) := by
    rw [moved, IdrState.update_mem_self, layer]
  have blank' : (t.mem p).Blank := by
    rw [own]
    exact ⟨blank.bitmap, blank.count, blank.ary⟩
  exact ⟨Tree.single present low blank' (by rw [own]; rfl) (tree.unused zero), blank'.count⟩

theorem growLoop_empty (enough : 5 - h < rounds) (pool : ∃ free, Pool s free pos)
    (tree : Tree s.mem p h pos σ σ.Full) (zero : (s.mem p).count = 0) :
    wp (growLoop rounds id p (h + 1)) (fun r t => ∃ h' pos', r = some (p, h' + 1) ∧
      Grown s t σ id h p h' pos') never s := by
  induction rounds generalizing s h pos with
  | zero => omega
  | succ rounds ih =>
    have levels : maxLevel = 7 := rfl
    have low := tree.low
    have present := tree.placed.present
    simp only [growLoop, wp_bind, wp_ite, wp_pure, wp_load present, zero, wp_change present]
    refine ⟨fun more => ⟨fun _ => ?_, fun some => absurd trivial some⟩, fun stop => ?_⟩
    · generalize moved : s.update p (.setLayer ((s.mem p).layer + 1)) = s₁
      obtain ⟨tree₁, zero₁⟩ := tree.moveUp zero (by omega) moved.symm
      have pool₁ : ∃ free, Pool s₁ free (place (fun _ _ => 0) (h + 1) 0 p) := by
        obtain ⟨free, pool⟩ := pool
        refine ⟨free, moved ▸ pool.frame (fun a member => ?_) rfl rfl rfl fun l q => ?_⟩
        · refine IdrState.update_mem_of_ne _ ?_
          rintro rfl
          exact pool.apart a member h 0 tree.placed.root
        · rw [place_apply]
          split
          · exact .inr (.inl ⟨h, 0, tree.placed.root.symm⟩)
          · exact .inl rfl
      refine (ih (by omega) pool₁ tree₁ zero₁).returns fun r t => ?_
      rintro ⟨h', pos', rfl, grown⟩
      refine ⟨h', pos', rfl, grown.pool, grown.tree, grown.top.trans ?_, grown.layers.trans ?_,
        grown.fits, (Nat.le_succ h).trans grown.above, fun small => ?_⟩
      · rw [← moved]
        rfl
      · rw [← moved]
        rfl
      · rw [shift_eq_pow] at more
        omega
    · exact ⟨h, pos, rfl, pool, tree, rfl, rfl, fits_of_not low stop, le_rfl, fun _ => rfl⟩

/-- The layer `new` is the root above `p`. -/
structure OnTop (s u : IdrState) (new p h : Nat) (free : List Nat) (pos : Nat → Nat → Nat)
    (σ : Slots) : Prop where
  tree : Tree u.mem new (h + 1) (place pos (h + 1) 0 new) σ σ.Full
  pool : Pool u free (place pos (h + 1) 0 new)
  first : (u.mem new).ary 0 = p
  rest : ∀ k < 32, 0 < k → (u.mem new).ary k = 0
  count : (u.mem new).count = 1
  top : u.top = s.top
  layers : u.layers = s.layers
  mem : ∀ a, a ≠ new → u.mem a = s.mem a

theorem Taken.onTop {u : IdrState} {new : Nat} (taken : Taken s t new free pos)
    (tree : Tree s.mem p h pos σ σ.Full) (low : h < 5)
    (ary : (u.mem new).ary = update (t.mem new).ary 0 p) (count : (u.mem new).count = 1)
    (layer : (u.mem new).layer = h + 1)
    (bits : ∀ k < 32, ((u.mem new).bitmap.getLsbD k = true ↔ k = 0 ∧ (s.mem p).bitmap = idrFull))
    (others : ∀ a, a ≠ new → u.mem a = t.mem a) (top : u.top = t.top) (layers : u.layers = t.layers)
    (idFree : u.idFree = t.idFree) (free' : u.idFreeCnt = t.idFreeCnt) (brk : u.brk = t.brk) :
    OnTop s u new p h free pos σ := by
  have first : (u.mem new).ary 0 = p := by rw [ary, update_self]
  have rest : ∀ k < 32, 0 < k → (u.mem new).ary k = 0 := by
    intro k slot positive
    rw [ary, update_of_ne (Nat.ne_of_gt positive)]
    exact taken.blank.ary k slot
  have mem : ∀ a, a ≠ new → u.mem a = s.mem a := fun a other =>
    (others a other).trans (taken.mem a other)
  refine ⟨?_, ?_, first, rest, count, top.trans taken.top, layers.trans taken.layers, mem⟩
  · exact tree.grow low taken.present taken.apart first rest layer count bits
      fun l q _ => mem _ (taken.apart l q)
  refine taken.pool.frame (fun a member => others a ?_) idFree free' brk fun l q => ?_
  · rintro rfl
    exact taken.outside member
  · rw [place_apply]
    split
    · exact .inr (.inr ⟨taken.outside, taken.old⟩)
    · exact .inr (.inl ⟨l, q, rfl⟩)

theorem putOnTop_spec {new : Nat} (taken : Taken s t new free pos)
    (tree : Tree s.mem p h pos σ σ.Full) (low : h < 5) :
    wp (putOnTop new p (h + 2)) (fun _ u => OnTop s u new p h free pos σ) never t := by
  have apart : p ≠ new := fun same => taken.apart h 0 (tree.placed.root.trans same)
  simp only [putOnTop, wp_bind, wp_change taken.present, wp_load tree.placed.present, wp_ifThen]
  generalize built : ((t.update new (.setAry 0 p)).update new fun x => { x with count := 1 }).update
    new (.setLayer (h + 2 - 1)) = u
  have own : u.mem new = { t.mem new with
      ary := update (t.mem new).ary 0 p, count := 1, layer := h + 1 } := by
    rw [← built, IdrState.update_mem_self, IdrState.update_mem_self, IdrState.update_mem_self]
    rfl
  have others : ∀ a, a ≠ new → u.mem a = t.mem a := by
    intro a other
    rw [← built, IdrState.update_mem_of_ne _ other, IdrState.update_mem_of_ne _ other,
      IdrState.update_mem_of_ne _ other]
  have below : u.mem p = s.mem p := (others p apart).trans (taken.mem p apart)
  rw [below]
  refine ⟨fun full => ?_, fun notFull => ?_⟩
  · have set := IdrState.update_mem_self u new (.setBit 0)
    refine taken.onTop tree low ?_ ?_ ?_ (fun k slot => ?_)
      (fun a other => (IdrState.update_mem_of_ne _ other).trans (others a other)) ?_ ?_ ?_ ?_ ?_
    · rw [set, own]
      rfl
    · rw [set, own]
      rfl
    · rw [set, own]
      rfl
    · rw [set, own, IdrLayer.setBit_bit (by decide)]
      simp [taken.blank.bitmap, full]
    all_goals
      rw [← built]
      rfl
  · refine taken.onTop tree low (by rw [own]) (by rw [own]) (by rw [own]) (fun k slot => ?_)
      others ?_ ?_ ?_ ?_ ?_
    · rw [own]
      simp [taken.blank.bitmap, notFull]
    all_goals
      rw [← built]
      rfl

/-- What growing a tree with content leads to; when it fails, the old tree is as
it was. -/
def Climbed (s : IdrState) (σ : Slots) (id h : Nat) (pos₀ : Nat → Nat → Nat) :
    Option (Nat × Nat) → IdrState → Prop
  | none, t => (∃ free, Pool t free pos₀) ∧ Kept s t pos₀
  | some (p, layers), t => ∃ h' pos', layers = h' + 1 ∧ Grown s t σ id h p h' pos'

theorem growLoop_stack (enough : 5 - h < rounds) (pool : Pool s free pos)
    (tree : Tree s.mem p h pos σ σ.Full) (some : (s.mem p).count ≠ 0)
    (root : pos₀ h₀ 0 = s.top) (within : ∀ l q, pos₀ l q = 0 ∨ ∃ l' q', pos₀ l q = pos l' q')
    (stack : Stack s.mem s.top p built) (nodup : built.Nodup) (short : built.length ≤ h)
    (outside : ∀ a ∈ built, a ≠ 0 ∧ (∃ l q, pos l q = a) ∧ ∀ l q, pos₀ l q ≠ a) :
    wp (growLoop rounds id p (h + 1)) (Climbed s σ id h pos₀) never s := by
  induction rounds generalizing s p h pos built free with
  | zero => omega
  | succ rounds ih =>
    have levels : maxLevel = 7 := rfl
    have low := tree.low
    have present := tree.placed.present
    simp only [growLoop, wp_bind, wp_ite, wp_pure, wp_load present]
    refine ⟨fun more => ⟨fun zero => absurd zero some, fun _ => ?_⟩, fun stop => ?_⟩
    · refine (getFromFreeList_spec pool).returns fun new t => ?_
      rintro (⟨rfl, rfl, rfl⟩ | ⟨rest, rfl, taken⟩)
      · -- no layer: back to the old tree
        refine ⟨fun _ => ?_, fun some => absurd rfl some⟩
        have pool₀ : Pool t [] pos₀ := pool.frame (fun _ _ => rfl) rfl rfl rfl fun l q =>
          (within l q).imp_right .inl
        refine (tearDown_spec (by omega) pool₀ root stack nodup fun a member => ?_).returns
          fun _ u result => result
        obtain ⟨-, ⟨l, q, rfl⟩, apart⟩ := outside a member
        exact ⟨List.not_mem_nil, pool.inside l q, apart⟩
      refine ⟨fun zero => absurd zero taken.present, fun _ => ?_⟩
      refine (putOnTop_spec taken tree (by omega)).returns fun _ u onTop => ?_
      have notBuilt : ∀ a ∈ built, a ≠ new := by
        rintro a member rfl
        obtain ⟨-, ⟨l, q, same⟩, -⟩ := outside a member
        exact taken.apart l q same
      have notOld : ∀ l q, pos₀ l q ≠ new := by
        intro l q
        rcases within l q with zero | ⟨l', q', same⟩
        · rw [zero]
          exact taken.present.symm
        · rw [same]
          exact taken.apart l' q'
      have stack' : Stack u.mem u.top new (new :: built) := by
        refine ⟨rfl, taken.present, onTop.rest, ?_⟩
        rw [onTop.first, onTop.top]
        exact stack.congr fun a member => onTop.mem a (notBuilt a member)
      have high : ∀ l q, pos l q ≠ 0 → ¬(l = h + 1 ∧ q = 0) := by
        intro l q here
        have := tree.placed.low here
        omega
      refine (ih (by omega) onTop.pool onTop.tree (by rw [onTop.count]; decide)
        (root.trans onTop.top.symm) ?_ stack' ?_ (by simpa using short) ?_).returns ?_
      · intro l q
        rcases within l q with zero | ⟨l', q', same⟩
        · exact .inl zero
        · by_cases here : pos l' q' = 0
          · exact .inl (same.trans here)
          · exact .inr ⟨l', q', by rw [same, place_of_ne _ (high l' q' here)]⟩
      · exact List.nodup_cons.mpr ⟨fun member => notBuilt new member rfl, nodup⟩
      · intro a member
        rcases List.mem_cons.mp member with rfl | member
        · exact ⟨taken.present, ⟨h + 1, 0, place_self _ _ _ _⟩, notOld⟩
        · obtain ⟨present', ⟨l, q, same⟩, apart⟩ := outside a member
          refine ⟨present', ⟨l, q, ?_⟩, apart⟩
          rw [place_of_ne _ (high l q (same.trans_ne present')), same]
      · rintro (- | ⟨p', layers⟩) v climbed
        · obtain ⟨free', kept⟩ := climbed
          refine ⟨free', Kept.trans ⟨fun l q _ => ?_, onTop.top, onTop.layers⟩ kept⟩
          exact onTop.mem _ (notOld l q)
        obtain ⟨h', pos', rfl, grown⟩ := climbed
        refine ⟨h', pos', rfl, grown.pool, grown.tree, grown.top.trans onTop.top,
          grown.layers.trans onTop.layers, grown.fits, (Nat.le_succ h).trans grown.above,
          fun small => ?_⟩
        rw [shift_eq_pow] at more
        omega
    · exact ⟨h, pos, rfl, ⟨free, pool⟩, tree, rfl, rfl, fits_of_not low stop, le_rfl, fun _ => rfl⟩

/-! ### The search with growth -/

/-- A state with a tree of height `h`, whose full-bits are `marks`. -/
structure Marked (s : IdrState) (h : Nat) (pos : Nat → Nat → Nat) (σ : Slots)
    (marks : Nat → Nat → Prop) : Prop where
  pool : ∃ free, Pool s free pos
  layers : s.layers = h + 1
  tree : Tree s.mem s.top h pos σ marks

/-- A state with a tree of height `h`. -/
abbrev Standing (s : IdrState) (h : Nat) (pos : Nat → Nat → Nat) (σ : Slots) : Prop :=
  Marked s h pos σ σ.Full

theorem Standing.laid (standing : Standing s h pos σ) : Laid s pos σ :=
  ⟨standing.pool, .inr ⟨h, standing.layers, standing.tree⟩⟩

theorem Holds.standing {x : Nat} (holds : Holds s σ) (busy : σ.used x = true) :
    ∃ h pos, Standing s h pos σ := by
  obtain ⟨pos, laid⟩ := holds
  rcases laid.tree with ⟨-, -, -, unused⟩ | ⟨h, layers, tree⟩
  · rw [unused] at busy
    cases busy
  · exact ⟨h, pos, laid.pool, layers, tree⟩

theorem Standing.holds (standing : Standing s h pos σ) : Holds s σ := ⟨pos, standing.laid⟩

theorem Standing.extended (standing : Standing s h pos σ)
    (extended : Extended s t h pos pos' σ) : Standing t h pos' σ :=
  ⟨extended.pool, extended.layers.trans standing.layers, extended.top ▸ extended.tree⟩

/-- The tree grown for an id becomes the tree of the state. -/
theorem Grown.standing {h' : Nat} (grown : Grown s t σ id h p h' pos') :
    Standing { t with top := p, layers := h' + 1 } h' pos' σ := by
  obtain ⟨free, pool⟩ := grown.pool
  exact ⟨⟨free, pool.frame (fun _ _ => rfl) rfl rfl rfl fun l q => .inr (.inl ⟨l, q, rfl⟩)⟩, rfl,
    grown.tree⟩

/-- Either the tree of the state is high enough for the id, or it is made so and
holds nothing from the id on. -/
theorem emptySlotLoop_round {post : EmptySlot → IdrState → Prop}
    (laid : Laid s pos σ) (noMemory : ∀ t, Holds t σ → post .noMemory t)
    (search : ∀ u h pos', Standing u h pos' σ → Fits h id → s.layers ≤ h + 1 →
      (s.layers = h + 1 ∨ ∀ x, id ≤ x → σ.used x = false) →
      wp (subAlloc id pa) (fun r t => match r with
        | .found i pa => post (.slot i pa) t
        | .noMemory => post .noMemory t
        | .needToGrow i => wp (emptySlotLoop rounds i pa) post never t
        | .noMoreSpace => post .noMoreSpace t) never u) :
    wp (emptySlotLoop (rounds + 1) id pa) post never s := by
  have levels : maxLevel = 7 := rfl
  have continues : ∀ {s' t h p h' pos'}, Grown s' t σ id h p h' pos' → s.layers ≤ h + 1 →
      (s.layers = h' + 1 ∨ ∀ x, id ≤ x → σ.used x = false) →
      wp (do
        modify fun s => { s with top := p, layers := h' + 1 }
        match ← subAlloc id pa with
        | .found id pa => return .slot id pa
        | .noMemory => return .noMemory
        | .needToGrow id => emptySlotLoop rounds id pa
        | .noMoreSpace => return .noMoreSpace) post never t := by
    intro s' t h p h' pos' grown least high
    rw [wp_bind, wp_modify, wp_bind]
    have above := grown.above
    refine (search _ h' pos' grown.standing grown.fits (by omega) high).returns fun r u result => ?_
    cases r <;> exact result
  rw [emptySlotLoop, wp_bind]
  rcases laid.tree with ⟨top, layers, rfl, unused⟩ | ⟨h, layers, tree⟩
  · -- the first layer
    obtain ⟨free, pool⟩ := laid.pool
    simp only [firstLayer, wp_bind, wp_get, wp_ite, top, wp_pure]
    refine ⟨fun _ => (getFromFreeList_spec pool).returns fun new t => ?_,
      fun some => absurd trivial some⟩
    rintro (⟨rfl, rfl, rfl⟩ | ⟨rest, rfl, taken⟩)
    · exact ⟨fun _ => noMemory t ⟨_, laid⟩, fun some => absurd rfl some⟩
    refine ⟨fun zero => absurd zero taken.present, fun _ => ?_⟩
    rw [wp_change taken.present]
    generalize first : t.update new (.setLayer 0) = t₁
    have own : t₁.mem new = (t.mem new).setLayer 0 := by rw [← first, IdrState.update_mem_self]
    have blank : (t₁.mem new).Blank := by
      rw [own]
      exact ⟨taken.blank.bitmap, taken.blank.count, taken.blank.ary⟩
    have tree := Tree.single taken.present (Nat.zero_le 5) blank (by rw [own]; rfl) unused
    have pool₁ : Pool t₁ rest (place (fun _ _ => 0) 0 0 new) := by
      refine first ▸ taken.pool.frame (fun a member => ?_) rfl rfl rfl fun l q => ?_
      · refine IdrState.update_mem_of_ne _ ?_
        rintro rfl
        exact taken.outside member
      · rw [place_apply]
        split
        · exact .inr (.inr ⟨taken.outside, taken.old⟩)
        · exact .inl rfl
    refine (growLoop_empty (by omega) ⟨rest, pool₁⟩ tree blank.count).returns fun r u => ?_
    rintro ⟨h', pos', rfl, grown⟩
    exact continues grown (by omega) (.inr fun x _ => unused x)
  · have present := tree.placed.present
    have high : ∀ {h'}, (id < 32 ^ (h + 1) → h' = h) →
        (s.layers = h' + 1 ∨ ∀ x, id ≤ x → σ.used x = false) := by
      intro h' stays
      by_cases small : id < 32 ^ (h + 1)
      · exact .inl (by rw [layers, stays small])
      · exact .inr fun x above => tree.unused_of_le (by omega)
    simp only [firstLayer, wp_bind, wp_get, wp_ite, wp_pure]
    refine ⟨fun zero => absurd zero present, fun _ => ?_⟩
    rw [layers]
    by_cases zero : (s.mem s.top).count = 0
    · refine (growLoop_empty (by omega) laid.pool tree zero).returns fun r u => ?_
      rintro ⟨h', pos', rfl, grown⟩
      exact continues grown (by omega) (high grown.stays)
    obtain ⟨free, pool⟩ := laid.pool
    refine (growLoop_stack (by omega) pool tree zero tree.placed.root
      (fun l q => .inr ⟨l, q, rfl⟩) (show Stack s.mem s.top s.top [] from rfl) List.nodup_nil
      (Nat.zero_le h)
      fun a member => absurd member List.not_mem_nil).returns ?_
    rintro (- | ⟨p, layers'⟩) u climbed
    · obtain ⟨pool', kept⟩ := climbed
      exact noMemory u ⟨pos, laid.kept pool' kept⟩
    · obtain ⟨h', pos', rfl, grown⟩ := climbed
      exact continues grown (by omega) (high grown.stays)

/-- What `idr_get_empty_slot` returns, with `good` for the height and the id found. -/
def Landed (σ : Slots) (good : Nat → Nat → Prop) : EmptySlot → IdrState → Prop
  | .slot id pa, t => ∃ h pos, Standing t h pos σ ∧ σ.full (id % 32 ^ (h + 1)) = false ∧
      id < maxIdBit ∧ Path pos h pa id ∧ good h id
  | .noMemory, t => Holds t σ
  | .noMoreSpace, t => Holds t σ

/-- For every starting id the search ends in a state that stands for the same
slots, or it does not end. -/
theorem emptySlotLoop_any (laid : Laid s pos σ)
    (bound : id < maxIdBit ∨ s.layers = 6 ∧ (id = maxIdBit ∨ ∀ x, σ.full (x % 32 ^ 6) = true)) :
    wp (emptySlotLoop rounds id pa) (Landed σ fun _ _ => True) (· = .endless) s := by
  induction rounds generalizing s id pos with
  | zero => rfl
  | succ rounds ih =>
    refine emptySlotLoop_round laid (fun _ holds => holds) fun u h pos' standing fits above _ => ?_
    have word : maxIdBit = 2 * 32 ^ 6 := by decide
    have low := standing.tree.low
    by_cases full : s.layers = 6 ∧ ∀ x, σ.full (x % 32 ^ 6) = true
    · obtain rfl : h = 5 := by omega
      refine (subAlloc_full standing.tree standing.layers full.2 pa).returns ?_
      rintro r t ⟨rfl, i, rfl⟩
      exact ih standing.laid (.inr ⟨standing.layers, .inr full.2⟩)
    have bound' : id ≤ maxIdBit := by
      rcases bound with less | ⟨six, eq | all⟩
      · exact less.le
      · exact eq.le
      · exact absurd ⟨six, all⟩ full
    refine (subAlloc_spec standing.pool standing.tree standing.layers bound' pa).returns ?_
    rintro r t ⟨pos'', extended, result⟩
    have standing' := standing.extended extended
    cases r with
    | found i pa' =>
      obtain ⟨-, room, small, -, path⟩ := result
      exact ⟨h, pos'', standing', room, small, path, trivial⟩
    | noMemory | noMoreSpace => exact standing'.holds
    | needToGrow i =>
      refine ih standing'.laid ?_
      obtain ⟨next, passed⟩ := result
      by_cases lower : h < 5
      · have small : id < 32 ^ (h + 1) := by
          rcases fits with top | small | big
          · omega
          · exact small
          · omega
        have : 32 ^ (h + 1) ≤ 32 ^ 5 := Nat.pow_le_pow_right (by decide) (by omega)
        rw [Nat.div_eq_of_lt small, zero_add, one_mul] at next
        omega
      · obtain rfl : h = 5 := by omega
        have layers := standing'.layers
        by_cases less : id < maxIdBit
        · have := next_le (pow_dvd_maxIdBit (show 6 ≤ 6 from le_rfl)) less
          omega
        -- the whole tree was passed
        obtain rfl : id = 2 * 32 ^ 6 := by omega
        rw [next] at passed
        exact .inr ⟨layers, .inr (passed.all le_rfl)⟩

/-- The search from `start` on goes past the end of a tree with so many layers:
there is no room from `start` on, and the tree cannot grow, or its last subtree
has room before `start`. -/
def Slots.Wraps (σ : Slots) (layers start : Nat) : Prop :=
  start < 32 ^ layers ∧ (∀ j, start ≤ j → j < 32 ^ layers → σ.full j = true) ∧
    (layers = 6 ∨ ∃ j, 31 * 32 ^ (layers - 1) ≤ j ∧ j < start ∧ σ.full j = false)

/-- The first slot from `start` on that is not full. -/
def Slots.First (σ : Slots) (start id : Nat) : Prop :=
  IsLeast { j | start ≤ j ∧ σ.full j = false } id

theorem Slots.Passed.first {h : Nat} (passed : σ.Passed h start id)
    (room : σ.full (id % 32 ^ (h + 1)) = false) (inside : id < 32 ^ (h + 1)) :
    σ.First start id := by
  rw [Nat.mod_eq_of_lt inside] at room
  refine ⟨⟨passed.1, room⟩, ?_⟩
  rintro j ⟨low, room'⟩
  by_contra less
  have full := passed.2 j low (by omega)
  rw [Nat.mod_eq_of_lt (by omega), room'] at full
  cases full

/-- The search in a tree that holds nothing from `start` on ends at once. -/
theorem subAlloc_unused (standing : Standing s h pos σ)
    (inside : start < 32 ^ (h + 1)) (unused : ∀ x, start ≤ x → σ.used x = false) :
    wp (subAlloc start pa) (fun r t => match r with
      | .found id pa => Landed σ (fun h id => id < 32 ^ (h + 1) ∧ id = start) (.slot id pa) t
      | .needToGrow _ => False
      | _ => Holds t σ) never s := by
  have low := standing.tree.low
  have bound : start ≤ maxIdBit := by
    have : 32 ^ (h + 1) ≤ 32 ^ 6 := Nat.pow_le_pow_right (by decide) (by omega)
    have word : maxIdBit = 2 * 32 ^ 6 := by decide
    omega
  have room : σ.full start = false := Slots.not_full (unused start le_rfl)
  have stay : ∀ {id}, σ.Passed h start id → id = start := by
    intro id passed
    by_contra other
    have := passed.2 start le_rfl (lt_of_le_of_ne passed.1 (Ne.symm other))
    rw [Nat.mod_eq_of_lt inside, room] at this
    cases this
  refine (subAlloc_spec standing.pool standing.tree standing.layers bound pa).returns ?_
  rintro r t ⟨pos', extended, result⟩
  have standing' := standing.extended extended
  cases r with
  | found id pa' =>
    obtain ⟨passed, room', small, -, path⟩ := result
    obtain rfl := stay passed
    exact ⟨h, pos', standing', room', small, path, inside, rfl⟩
  | noMemory | noMoreSpace => exact standing'.holds
  | needToGrow id =>
    obtain ⟨next, passed⟩ := result
    have := stay passed
    rw [next, Nat.div_eq_of_lt inside, zero_add, one_mul] at this
    omega

/-- A search that comes past the end of the tree wraps. -/
theorem Slots.Passed.wraps (passed : σ.Passed h start id)
    (inside : start < 32 ^ (h + 1)) (beyond : 32 ^ (h + 1) ≤ id)
    (last : h = 5 ∨ ¬σ.Fully h h 31) : σ.Wraps (h + 1) start := by
  have full : ∀ j, start ≤ j → j < 32 ^ (h + 1) → σ.full j = true := by
    intro j low high
    have := passed.2 j low (by omega)
    rwa [Nat.mod_eq_of_lt high] at this
  refine ⟨inside, full, last.imp (by omega) fun room => ?_⟩
  obtain ⟨j, below, clear⟩ : ∃ j, j / 32 ^ h = 31 ∧ σ.full (j % 32 ^ (h + 1)) = false := by
    simpa [Slots.Fully] using room
  have first : 31 * 32 ^ h ≤ j := by
    rw [← below]
    exact Nat.div_mul_le_self _ _
  have high : j < 32 ^ (h + 1) := by
    rw [pow_succ, Nat.mul_comm]
    exact Nat.lt_mul_of_div_lt (by omega) (by positivity)
  rw [Nat.mod_eq_of_lt high] at clear
  refine ⟨j, first, ?_, clear⟩
  by_contra low
  rw [full j (by omega) high] at clear
  cases clear

theorem Fits.inside (fits : Fits h id) (small : id < 32 ^ 6) : id < 32 ^ (h + 1) := by
  have word : maxIdBit = 2 * 32 ^ 6 := by decide
  rcases fits with rfl | inside | big
  · exact small
  · exact inside
  · omega

/-- When the search does not wrap, it ends, and finds the first slot. -/
theorem idrGetEmptySlot_first (laid : Laid s pos σ)
    (small : start < 32 ^ 6) (straight : ¬σ.Wraps s.layers start) :
    wp (idrGetEmptySlot start pa) (Landed σ fun h id => id < 32 ^ (h + 1) ∧ σ.First start id ∧
      (σ.used id = true → s.layers = h + 1)) never s := by
  -- in a tree that holds nothing from an id on, that id is found
  have unusedCase : ∀ {rounds u h pos' id}, Standing u h pos' σ → id < 32 ^ (h + 1) →
      (∀ x, id ≤ x → σ.used x = false) → start ≤ id → (∀ j, start ≤ j → j < id → σ.full j = true) →
      wp (subAlloc id pa) (fun r t => match r with
        | .found i pa => Landed σ (fun h id => id < 32 ^ (h + 1) ∧ σ.First start id ∧
            (σ.used id = true → s.layers = h + 1)) (.slot i pa) t
        | .noMemory => Holds t σ
        | .needToGrow i => wp (emptySlotLoop rounds i pa) (Landed σ fun h id => id < 32 ^ (h + 1) ∧
            σ.First start id ∧ (σ.used id = true → s.layers = h + 1)) never t
        | .noMoreSpace => Holds t σ) never u := by
    intro rounds u h pos' id standing inside unused low full
    refine (subAlloc_unused standing inside unused).returns fun r t result => ?_
    cases r with
    | found i pa' =>
      obtain ⟨h', pos'', standing', room, bound, path, inside', rfl⟩ := result
      refine ⟨h', pos'', standing', room, bound, path, inside', ?_, fun busy => ?_⟩
      case refine_2 =>
        rw [unused i le_rfl] at busy
        cases busy
      rw [Nat.mod_eq_of_lt inside'] at room
      refine ⟨⟨low, room⟩, ?_⟩
      rintro j ⟨from', clear⟩
      by_contra less
      rw [full j from' (by omega)] at clear
      cases clear
    | noMemory | noMoreSpace => exact result
    | needToGrow i => exact result.elim
  refine emptySlotLoop_round laid (fun _ holds => holds) fun u h pos' standing fits above high => ?_
  have inside := fits.inside small
  rcases high with layers | unused
  case inr =>
    exact unusedCase standing inside unused le_rfl fun j low less => absurd low (by omega)
  case inl =>
    rw [layers] at straight
    have bound : start ≤ maxIdBit := small.le.trans (by decide)
    refine (subAlloc_spec standing.pool standing.tree standing.layers bound pa).returns ?_
    rintro r t ⟨pos'', extended, result⟩
    have standing' := standing.extended extended
    cases r with
    | noMemory | noMoreSpace => exact standing'.holds
    | found i pa' =>
      obtain ⟨passed, room, bound', crossed, path⟩ := result
      have inside' : i < 32 ^ (h + 1) := by
        by_contra beyond
        refine straight (passed.wraps inside (by omega) (.inr ?_))
        rcases crossed with same | last
        · rw [Nat.div_eq_of_lt inside, Nat.div_eq_zero_iff_lt (by positivity)] at same
          exact absurd same beyond
        · rwa [Nat.div_eq_of_lt inside, mul_zero, zero_add] at last
      exact ⟨h, pos'', standing', room, bound', path, inside', passed.first room inside',
        fun _ => layers⟩
    | needToGrow i =>
      -- the tree is full from `start` on: the first id above it is free
      obtain ⟨next, passed⟩ := result
      rw [Nat.div_eq_of_lt inside, zero_add, one_mul] at next
      subst next
      have low : h < 5 := by
        by_contra top
        have := standing.tree.low
        exact straight (passed.wraps inside le_rfl (.inl (by omega)))
      have small' : 32 ^ (h + 1) < 32 ^ 6 := Nat.pow_lt_pow_right (by decide) (by omega)
      refine emptySlotLoop_round standing'.laid (fun _ holds => holds) ?_
      intro v h' pos₃ standing₃ fits' above' high'
      have inside₃ := fits'.inside small'
      refine unusedCase standing₃ inside₃ ?_ passed.1 fun j from' less => ?_
      · rcases high' with same | unused
        · rw [standing'.layers] at same
          obtain rfl : h = h' := by omega
          exact absurd inside₃ (lt_irrefl _)
        · exact unused
      · have := passed.2 j from' less
        rwa [Nat.mod_eq_of_lt less] at this

end Growth

end AndroidKernel.Idr
