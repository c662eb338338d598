import AndroidKernel.Buddy.Freeing

/-!
Allocating a block.

A block is taken from the smallest list that has one and broken down to the order asked
for (`wp_expand`). When the type has no block of its own, one is stolen from another
type, after its pageblock may have been moved to other lists (`Moved`). A call that
returns nothing has found the lists it looks at empty and leaves the zone as it was.
-/

namespace AndroidKernel.Buddy

open Lib Function

/-- The block of the order asked for is no longer free, everything else still is. -/
def Taken (s : Span) (f : Nat → Option Nat) (order page : Nat) (z' : Zone) : Prop :=
  ∃ f', Kept s z' f' 0 ∧ Loose s f' page order ∧
    ∀ x, Covered f' x ∨ base x order = page ↔ Covered f x

section Expand

variable {s : Span} {z : Zone} {f : Nat → Option Nat} {page high : Nat} {t : MigrateType} {d : Int}
  {never : Fault → Prop}

/-- The upper half of a loose block is listed, the lower half stays loose. -/
theorem Kept.halve (kept : Kept s z f d) (loose : Loose s f page (high + 1)) :
    Kept s (z.put (page + 2 ^ high) high t) (update f (page + 2 ^ high) (some high))
        (d - 2 ^ high) ∧
      Loose s (update f (page + 2 ^ high) (some high)) page high ∧
      ∀ x, Covered (update f (page + 2 ^ high) (some high)) x ∨ base x high = page ↔
        Covered f x ∨ base x (high + 1) = page := by
  have aligned := dvd_of_succ loose.aligned
  have halves := fun x => @base_succ_eq_iff x page high loose.aligned
  have positive := Nat.two_pow_pos high
  have upper : Loose s f (page + 2 ^ high) high := by
    refine ⟨Nat.dvd_add aligned dvd_rfl, Nat.lt_of_succ_lt loose.small, ?_, ?_⟩
    · exact fun own => loose.within ((halves _).mpr (.inr own))
    · exact fun own => loose.free ((halves _).mpr (.inr own))
  have other : buddy (page + 2 ^ high) high = page := by
    rcases buddy_cases aligned with ⟨-, same⟩ | ⟨above, -⟩
    · rw [← same, buddy_buddy]
    · rw [base_of_dvd loose.aligned] at above
      omega
  have covers := fun x => @Blocks.covered_insert _ _ high x _ kept.blocks upper.head
  refine ⟨kept.put upper fun _ => ?_, ⟨aligned, upper.small, ?_, ?_⟩, fun x => ?_⟩
  · rw [other, kept.blocks.eq_none loose.head]
    exact nofun
  · exact fun own => loose.within ((halves _).mpr (.inl own))
  · intro x own covered
    rcases (covers x).mp covered with old | above
    · exact loose.free ((halves x).mpr (.inl own)) old
    · omega
  · rw [covers, halves, or_assoc, or_comm (b := base x high = page)]

theorem wp_expandLoop (rounds : Nat) (bound : rounds ≤ high) (kept : Kept s z f d)
    (loose : Loose s f page high) :
    wp (expandLoop page t rounds high)
      (fun _ z' => ∃ f', Kept s z' f' (d - (2 ^ high - 2 ^ (high - rounds))) ∧
        Loose s f' page (high - rounds) ∧
        ∀ x, Covered f' x ∨ base x (high - rounds) = page ↔ Covered f x ∨ base x high = page)
      never z := by
  induction rounds generalizing z f high d with
  | zero =>
    refine wp_pure _ |>.mpr ⟨f, ?_, loose, fun x => Iff.rfl⟩
    rwa [Nat.sub_zero, sub_self, sub_zero]
  | succ rounds ih =>
    obtain ⟨half, rfl⟩ : ∃ half, high = half + 1 := ⟨high - 1, by omega⟩
    have low : half + 1 - (rounds + 1) = half - rounds := Nat.add_sub_add_right ..
    unfold expandLoop
    simp only [wp_bind, listAdd, addNrFree, setPageOrder, wp_modify, Nat.add_sub_cancel,
      Nat.one_shiftLeft]
    obtain ⟨kept', loose', same⟩ := kept.halve (t := t) loose
    refine (ih (by omega) kept' loose').returns ?_
    rintro - z' ⟨f', kept'', loose'', covers⟩
    rw [low]
    refine ⟨f', ?_, loose'', fun x => (covers x).trans (same x)⟩
    have rest : d - 2 ^ half - (2 ^ half - 2 ^ (half - rounds)) =
        d - (2 ^ (half + 1) - 2 ^ (half - rounds)) := by
      rw [pow_succ]
      ring
    rwa [rest] at kept''

/-- What is left of a loose block goes back to the lists. -/
theorem wp_expand {order : Nat} (le : order ≤ high) (kept : Kept s z f (2 ^ high - 2 ^ order))
    (loose : Loose s f page high) :
    wp (expand page order high t)
      (fun _ z' => ∃ f', Kept s z' f' 0 ∧ Loose s f' page order ∧
        ∀ x, Covered f' x ∨ base x order = page ↔ Covered f x ∨ base x high = page)
      never z := by
  have low : high - (high - order) = order := Nat.sub_sub_self le
  refine (wp_expandLoop (high - order) (Nat.sub_le ..) kept loose).returns ?_
  rintro - z' ⟨f', kept', loose', covers⟩
  rw [low] at kept' loose' covers
  rw [sub_self] at kept'
  exact ⟨f', kept', loose', covers⟩

/-- A listed block has been taken off and counted out: breaking it down serves the
allocation. -/
theorem wp_expand_taken {order : Nat} (le : order ≤ high) (kept : Kept s z f 0)
    (there : f page = some high) {z' : Zone} (lists : z'.freeList = (z.take page high).freeList)
    (counts : z'.nrFree = (z.take page high).nrFree)
    (pages : z'.nrFreePages = z.nrFreePages + -(1 <<< order : Nat))
    (flags : z'.pageBuddy = (z.take page high).pageBuddy)
    (orders : z'.pagePrivate = (z.take page high).pagePrivate) :
    wp (expand page order high t) (fun _ z'' => Taken s f order page z'') never z' := by
  have taken := (kept.take there).adjust lists counts pages flags orders
  rw [zero_add, Nat.one_shiftLeft, Nat.cast_pow, Nat.cast_ofNat, ← sub_eq_add_neg] at taken
  refine (wp_expand le taken (kept.loose there)).returns ?_
  rintro - z'' ⟨f', kept', loose, covers⟩
  refine ⟨f', kept', loose, fun x => (covers x).trans ?_⟩
  rw [kept.blocks.covered_erase there]
  constructor
  · rintro (⟨covered, -⟩ | own)
    · exact covered
    · exact covered_of_mem there own
  · intro covered
    by_cases own : base x high = page
    · exact .inr own
    · exact .inl ⟨covered, own⟩

end Expand

section Smallest

variable {s : Span} {z : Zone} {f : Nat → Option Nat} {order : Nat} {t : MigrateType}
  {never : Fault → Prop}

/-- What a search answers: a block is taken, or the zone is as it was and the lists it
has looked at are empty. -/
def Answered (s : Span) (f : Nat → Option Nat) (order : Nat) (z : Zone) (empty : Prop)
    (answer : Option Nat) (z' : Zone) : Prop :=
  match answer with
  | some page => Taken s f order page z'
  | none => z' = z ∧ empty

theorem Listed.head (listed : Listed s z f) {o page : Nat} {rest : List Nat}
    (first : z.freeList o t = page :: rest) : f page = some o :=
  listed.mem.mp ⟨t, first ▸ List.mem_cons_self ..⟩

theorem wp_smallestLoop (rounds currentOrder : Nat) (le : order ≤ currentOrder)
    (kept : Kept s z f 0) :
    wp (smallestLoop order t rounds currentOrder)
      (Answered s f order z (∀ o, currentOrder ≤ o → o < currentOrder + rounds → z.freeList o t = []))
      never z := by
  induction rounds generalizing currentOrder with
  | zero => exact wp_pure _ |>.mpr ⟨rfl, fun o low high => absurd high (Nat.not_lt.mpr low)⟩
  | succ rounds ih =>
    unfold smallestLoop
    rw [wp_bind, wp_get]
    cases first : z.freeList currentOrder t with
    | nil =>
      refine (ih (currentOrder + 1) (by omega)).returns ?_
      rintro (_ | page) z' answer
      · refine ⟨answer.1, fun o low high => ?_⟩
        by_cases same : o = currentOrder
        · rw [same, first]
        · exact answer.2 o (by omega) (by omega)
      · exact answer
    | cons page rest =>
      have there := kept.listed.head first
      simp only [wp_bind, wp_listDel kept.listed there (kept.blocks.small there), rmvPageOrder,
        addNrFree, modFreePages, wp_modify, wp_pure]
      exact wp_expand_taken le kept there rfl rfl rfl rfl rfl

theorem wp_rmqueueSmallest (kept : Kept s z f 0) :
    wp (rmqueueSmallest order t)
      (Answered s f order z (∀ o, order ≤ o → o < maxOrder → z.freeList o t = [])) never z := by
  refine (wp_smallestLoop (maxOrder - order) order le_rfl kept).returns ?_
  rintro (_ | page) z' answer
  · exact ⟨answer.1, fun o low high => answer.2 o low (by omega)⟩
  · exact answer

end Smallest

/-! ### Moving free blocks to the list of another type -/

/-- The same blocks are on the lists, on those of other types maybe. -/
structure Moved (s : Span) (f : Nat → Option Nat) (z z' : Zone) : Prop where
  listed : Listed s z' f
  counts : z'.nrFree = z.nrFree
  pages : z'.nrFreePages = z.nrFreePages
  blocks : ∀ o, blockCount z'.freeList o = blockCount z.freeList o

section Move

variable {s : Span} {z z' z'' : Zone} {f : Nat → Option Nat} {page o : Nat} {t : MigrateType}
  {never : Fault → Prop}

theorem Moved.refl (listed : Listed s z f) : Moved s f z z := ⟨listed, rfl, rfl, fun _ => rfl⟩

theorem Moved.trans (first : Moved s f z z') (second : Moved s f z' z'') : Moved s f z z'' where
  listed := second.listed
  counts := second.counts.trans first.counts
  pages := second.pages.trans first.pages
  blocks o := (second.blocks o).trans (first.blocks o)

/-- A block goes to the front of another list of its order. -/
theorem Listed.moved (listed : Listed s z f) (there : f page = some o)
    (marked : z.pageBuddy page = true) :
    Moved s f z { z with freeList := Zone.added { z with freeList := z.erased page } page o t } := by
  have again := (listed.take (p := page) (o := o)).put (p := page) (o := o) (t := t)
    (update_self ..)
  rw [update_idem, update_eq_self_iff.mpr there.symm] at again
  refine ⟨again.congr rfl ?_ ?_, rfl, rfl, fun o' => ?_⟩
  · change z.pageBuddy = update (update z.pageBuddy page false) page true
    rw [update_idem, update_eq_self_iff.mpr marked.symm]
  · change z.pagePrivate = update (update z.pagePrivate page 0) page o
    rw [update_idem, update_eq_self_iff.mpr (listed.order there).symm]
  · change blockCount (Zone.added _ page o t) o' = _
    rw [blockCount_added]
    rw [listed.blockCount_erased there]
    split <;> omega

theorem wp_moveLoop {endPage : Nat} (blocks : Blocks maxOrder f) (rounds : Nat)
    (range : ∀ p, page ≤ p → p ≤ endPage → s.Has p) (listed : Listed s z f) :
    wp (moveLoop endPage t rounds page) (fun _ z' => Moved s f z z') never z := by
  induction rounds generalizing page z with
  | zero => exact wp_pure _ |>.mpr (.refl listed)
  | succ rounds ih =>
    unfold moveLoop
    rw [wp_ite]
    refine ⟨fun _ => wp_pure _ |>.mpr (.refl listed), fun more => ?_⟩
    have has := range page le_rfl (Nat.le_of_not_lt more)
    rw [wp_bind, wp_get, wp_ite]
    refine ⟨fun _ => ih (fun p low => range p (by omega)) listed, fun marked => ?_⟩
    rw [Bool.not_eq_false] at marked
    obtain ⟨o, there⟩ := Option.ne_none_iff_exists'.mp
      ((listed.flag (s.own page has.1 has.2)).mp marked)
    rw [listed.order there]
    simp only [wp_bind, wp_listDel listed there (blocks.small there), listAdd, wp_modify, wp_pure]
    have moved : Moved s f z _ := listed.moved (t := t) there marked
    refine (ih (fun p low => range p ?_) moved.listed).returns fun _ z' rest => moved.trans rest
    exact (Nat.le_add_right ..).trans low

theorem wp_moveFreepagesBlock (blocks : Blocks maxOrder f) (has : s.Has page)
    (listed : Listed s z f) :
    wp (moveFreepagesBlock s page t) (fun _ z' => Moved s f z z') never z := by
  have start : page - (page &&& (2 ^ pageblockOrder - 1)) = base page pageblockOrder := by
    rw [Nat.and_two_pow_sub_one_eq_mod, base]
    have := Nat.div_add_mod' page (2 ^ pageblockOrder)
    omega
  have low := @base_le page pageblockOrder
  have high := @lt_base_add page pageblockOrder
  have above := has.1
  unfold moveFreepagesBlock moveFreepages
  simp only [Nat.one_shiftLeft, start]
  generalize base page pageblockOrder = block at *
  generalize 2 ^ pageblockOrder = size at *
  rw [wp_ite]
  refine ⟨fun _ => wp_pure _ |>.mpr (.refl listed), fun inside => ?_⟩
  generalize first : (if block < s.zoneStartPfn then page else block) = startPage
  have range : ∀ p, startPage ≤ p → p ≤ block + size - 1 → s.Has p := by
    intro p above below
    split at first <;> exact ⟨by omega, by omega⟩
  have between : startPage ≤ block + size - 1 := by
    split at first <;> omega
  have starts := range startPage le_rfl between
  have stops := range (block + size - 1) between le_rfl
  have same : s.zoneId startPage = s.zoneId (block + size - 1) :=
    (s.own _ starts.1 starts.2).trans (s.own _ stops.1 stops.2).symm
  rw [wp_ite]
  exact ⟨fun other => absurd same other, fun _ => wp_moveLoop blocks _ range listed⟩

theorem wp_claimBlock {currentOrder : Nat} {start : MigrateType} (blocks : Blocks maxOrder f)
    (has : s.Has page) (listed : Listed s z f) :
    wp (claimBlock s page currentOrder start t) (fun _ z' => Moved s f z z') never z := by
  unfold claimBlock
  rw [wp_ite]
  refine ⟨fun _ => ?_, fun _ => wp_pure _ |>.mpr (.refl listed)⟩
  rw [wp_bind]
  refine (wp_moveFreepagesBlock blocks has listed).returns fun pages z' moved => ?_
  simp only [wp_bind, wp_ifThen, wp_pure, setPageblockMigratetype, wp_modify]
  refine ⟨fun _ => ?_, fun _ => moved⟩
  exact ⟨moved.listed.congr rfl rfl rfl, moved.counts, moved.pages, moved.blocks⟩

end Move

/-! ### Fallback -/

section Fallback

variable {s : Span} {z : Zone} {f : Nat → Option Nat} {page order currentOrder : Nat}
  {start t : MigrateType} {never : Fault → Prop}

theorem wp_steal (kept : Kept s z f 0) (there : f page = some currentOrder)
    (le : order ≤ currentOrder) :
    wp (steal s page order currentOrder start t) (fun _ z' => Taken s f order page z') never z := by
  have has := (kept.loose there).has
  unfold steal
  simp only [wp_bind, addNrFree, wp_modify]
  have counted : Listed s { z with
      nrFree := update z.nrFree currentOrder (z.nrFree currentOrder + -1) } f :=
    kept.listed.congr rfl rfl rfl
  refine (wp_claimBlock kept.blocks has counted).returns ?_
  intro migratetype z₁ moved
  simp only [wp_listDel moved.listed there (kept.blocks.small there), rmvPageOrder, modFreePages,
    wp_modify, wp_ifThen, setPageblockMigratetype]
  -- the count went down before the block left its list: put it back to see the lists
  have before : Kept s { z₁ with nrFree := z.nrFree } f 0 := by
    refine ⟨moved.listed.congr rfl rfl rfl, kept.blocks, kept.inside, fun o => ?_, ?_⟩
    · exact (kept.tallied.blocks o).trans (moved.blocks o).symm
    · exact moved.pages.trans kept.tallied.pages
  constructor
  · exact fun _ => wp_expand_taken le before there rfl moved.counts rfl rfl rfl
  · exact fun _ => wp_expand_taken le before there rfl moved.counts rfl rfl rfl

theorem wp_fallbackTypes (kept : Kept s z f 0) (le : order ≤ currentOrder)
    (types : List MigrateType) :
    wp (fallbackTypes s order currentOrder start types)
      (Answered s f order z (∀ t ∈ types, t ≠ .reserve → z.freeList currentOrder t = [])) never z := by
  induction types with
  | nil => exact wp_pure _ |>.mpr ⟨rfl, nofun⟩
  | cons migratetype rest ih =>
    have next (skipped : migratetype ≠ .reserve → z.freeList currentOrder migratetype = []) :
        wp (fallbackTypes s order currentOrder start rest)
          (Answered s f order z (∀ t ∈ migratetype :: rest, t ≠ .reserve →
            z.freeList currentOrder t = [])) never z := by
      refine ih.returns ?_
      rintro (_ | page) z' answer
      · refine ⟨answer.1, fun t member => ?_⟩
        rcases List.mem_cons.mp member with rfl | later
        · exact skipped
        · exact answer.2 t later
      · exact answer
    unfold fallbackTypes
    rw [wp_ite]
    refine ⟨fun reserve => next fun other => absurd reserve other, fun _ => ?_⟩
    rw [wp_bind, wp_get]
    cases first : z.freeList currentOrder migratetype with
    | nil => exact next fun _ => first
    | cons page others =>
      simp only [wp_bind, wp_pure]
      exact wp_steal kept (kept.listed.head first) le

theorem wp_fallbackLoop (kept : Kept s z f 0) (rounds : Nat) :
    wp (fallbackLoop s order start rounds)
      (Answered s f order z (∀ o, order ≤ o → o < order + rounds → ∀ t ∈ fallbacks start,
        t ≠ .reserve → z.freeList o t = [])) never z := by
  induction rounds with
  | zero => exact wp_pure _ |>.mpr ⟨rfl, fun o low high => absurd high (Nat.not_lt.mpr low)⟩
  | succ rounds ih =>
    unfold fallbackLoop
    rw [wp_bind]
    refine (wp_fallbackTypes kept (Nat.le_add_right order rounds) (fallbacks start)).returns ?_
    rintro (_ | page) z' answer
    · obtain ⟨rfl, empty⟩ := answer
      refine ih.returns ?_
      rintro (_ | page) z'' answer
      · refine ⟨answer.1, fun o low high => ?_⟩
        by_cases same : o = order + rounds
        · exact same ▸ empty
        · exact answer.2 o low (by omega)
      · exact answer
    · exact answer

/-- The lists that an allocation of a type looks at: its own, those it may fall back to
and the reserve. -/
def searched (start : MigrateType) : List MigrateType := start :: .reserve :: fallbacks start

theorem wp_rmqueue (kept : Kept s z f 0) :
    wp (rmqueue s order start)
      (Answered s f order z (∀ o, order ≤ o → ∀ t ∈ searched start, z.freeList o t = []))
      never z := by
  have large : ∀ o t, maxOrder ≤ o → z.freeList o t = [] := by
    intro o t large
    refine List.eq_nil_iff_forall_not_mem.mpr fun p member => ?_
    exact absurd (kept.blocks.small (kept.listed.mem.mp ⟨t, member⟩)) (Nat.not_lt.mpr large)
  unfold rmqueue rmqueueFallback
  rw [wp_bind]
  refine (wp_rmqueueSmallest kept).returns ?_
  rintro (_ | page) z₁ answer
  case some => exact answer
  obtain ⟨rfl, own⟩ := answer
  simp only [wp_bind]
  refine (wp_fallbackLoop kept (maxOrder - order)).returns ?_
  rintro (_ | page) z₂ answer
  case some => exact answer
  obtain ⟨rfl, others⟩ := answer
  refine (wp_rmqueueSmallest kept).returns ?_
  rintro (_ | page) z₃ answer
  case some => exact answer
  obtain ⟨rfl, reserve⟩ := answer
  refine ⟨rfl, fun o low t member => ?_⟩
  rcases Nat.lt_or_ge o maxOrder with small | big
  case inr => exact large o t big
  rcases List.mem_cons.mp member with rfl | member
  · exact own o low small
  rcases List.mem_cons.mp member with rfl | member
  · exact reserve o low small
  by_cases same : t = .reserve
  · exact same ▸ reserve o low small
  · exact others o low (by omega) t member same

end Fallback

end AndroidKernel.Buddy
