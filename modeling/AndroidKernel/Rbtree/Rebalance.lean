import AndroidKernel.Rbtree.Shape

/-!
The rotations and the two rebalancing loops in memory follow the ones on trees.
-/

namespace AndroidKernel.Rbtree

open Lib RbTree

variable {s : RbState} {never : Fault → Prop} {side : Side} {c : RbColor} {v parent : Ptr} {path :
  List (RbCrumb Ptr)} {t near far sibling : RbTree Ptr} {post : Unit → RbState → Prop} {rounds :
  Nat}

/-! ### Rotations -/

/-- What a rotation at `v`, whose child `w` moves up, has changed before it turns
to the parent. -/
def turned (s : RbState) (side : Side) (v w inner parent : Ptr) : RbState :=
  (((s.update v (.setChild side.other inner)).touch inner (.rbSetParent v)).update w
    (.setChild side v)).update w (.rbSetParent parent)

section Turned

variable {c' : RbColor} {w inner p : Ptr}

theorem turned_root : (turned s side v w inner parent).root = s.root := by
  simp [turned]

theorem turned_node (notV : p ≠ v) (notW : p ≠ w) (notInner : p ≠ inner) :
    (turned s side v w inner parent).node p = s.node p := by
  rw [turned, update_node_of_ne _ notW, update_node_of_ne _ notW, touch_node_of_ne _ notInner,
    update_node_of_ne _ notV]

theorem turned_node_low (differ : w ≠ v) (notInner : v ≠ inner) :
    (turned s side v w inner parent).node v = (s.node v).setChild side.other inner := by
  rw [turned, update_node_of_ne _ differ.symm, update_node_of_ne _ differ.symm,
    touch_node_of_ne _ notInner, update_node_self]

theorem turned_node_high (differ : w ≠ v) (notInner : w ≠ inner) :
    (turned s side v w inner parent).node w = ((s.node w).setChild side v).rbSetParent parent := by
  rw [turned, update_node_self, update_node_self, touch_node_of_ne _ notInner,
    update_node_of_ne _ differ]

theorem Linked.turned (linked : Linked s w t) (nodup : t.inorder.Nodup)
    (notV : v ∉ t.inorder) (notW : w ∉ t.inorder) :
    Linked (turned s side v w (ptr t) parent) v t := by
  have linked' : Linked (s.update v (.setChild side.other (ptr t))) w t := by
    refine linked.frame fun p mem => update_node_of_ne _ ?_
    rintro rfl
    exact notV mem
  refine (linked'.reparent nodup v).frame fun p mem => ?_
  have differ : p ≠ w := by
    rintro rfl
    exact notW mem
  rw [Rbtree.turned, update_node_of_ne _ differ, update_node_of_ne _ differ]

theorem wp_rotate {near far : Ptr}
    (low : Cell s side v parent c near w) (high : Cell s side w v c' inner far) (differ : w ≠ v) :
    wp (rotate side v) post never s ↔
      wp (changeChild side v w parent) (fun _ s' => post () (s'.update v (.rbSetParent w))) never
        (turned s side v w inner parent) := by
  obtain rfl := high.near
  obtain rfl := low.parent
  have reread : ((s.update v (.setChild side.other ((s.node w).child side))).node w).child side =
      (s.node w).child side := by
    rw [update_node_of_ne _ differ]
  simp only [rotate, wp_bind, wp_loadChild low.present, wp_loadParent low.present,
    wp_change low.present, low.far, wp_loadChild high.present]
  rw [wp_ifThen, wp_bind, wp_loadChild high.present, reread, ← wp_ifThen, wp_touch]
  simp only [wp_change high.present, turned]

end Turned

theorem rotate_spec {c' : RbColor} {inner outer : RbTree Ptr} {w : Ptr}
    (zip : Zip s (.branch side c near v (.branch side c' inner w outer)) path) :
    wp (rotate side v)
      (fun _ s' => Zip s' (.branch side c' (.branch side c near v inner) w outer) path) never s := by
  obtain ⟨linked, hung, below, above, apart⟩ := zip
  simp only [linked_branch, ptr_branch, nodup_branch, mem_branch] at linked hung below apart
  obtain ⟨low, linkedNear, high, linkedInner, linkedOuter⟩ := linked
  have differ : w ≠ v := by grind
  have vInner : v ≠ ptr inner := ne_ptr low.present (by grind)
  have wInner : w ≠ ptr inner := ne_ptr high.present (by grind)
  -- below the place
  generalize first : turned s side v w (ptr inner) (top path) = s₁
  have same₁ : ∀ p, p ≠ null → p ≠ v → p ≠ w → p ∉ inner.inorder → s₁.node p = s.node p := by
    intro p present notV notW outside
    rw [← first, turned_node notV notW (ne_ptr present outside)]
  have nodeV : s₁.node v = (s.node v).setChild side.other (ptr inner) := by
    rw [← first, turned_node_low differ vInner]
  have nodeW : s₁.node w = ((s.node w).setChild side v).rbSetParent (top path) := by
    rw [← first, turned_node_high differ wInner]
  have inner₁ : Linked s₁ v inner := by
    rw [← first]
    exact linkedInner.turned (by grind) (by grind) (by grind)
  have near₁ : Linked s₁ v near :=
    linkedNear.frame fun p mem =>
      same₁ p (linkedNear.ne_null mem) (by grind) (by grind) (by grind)
  have outer₁ : Linked s₁ w outer :=
    linkedOuter.frame fun p mem =>
      same₁ p (linkedOuter.ne_null mem) (by grind) (by grind) (by grind)
  have hung₁ : Hung s₁ v path := by
    refine hung.frame (by rw [← first, turned_root]) fun p mem => ?_
    exact same₁ p (hung.ne_null mem) (by grind) (by grind) (by grind)
  rw [wp_rotate low high differ, first]
  refine (changeChild_spec side w hung₁ low.present (by grind) above).returns ?_
  -- above it, and the last change
  rintro _ s₂ ⟨hung₂, same₂⟩
  generalize last : s₂.update v (.rbSetParent w) = s₃
  have same₃ : ∀ p, p ∉ around path → p ≠ v → s₃.node p = s₁.node p := by
    intro p outside notV
    rw [← last, update_node_of_ne _ notV, same₂ p outside]
  have nodeV₃ : s₃.node v = ((s.node v).setChild side.other (ptr inner)).rbSetParent w := by
    rw [← last, update_node_self, same₂ v (by grind), nodeV]
  have nodeW₃ : s₃.node w = ((s.node w).setChild side v).rbSetParent (top path) := by
    rw [same₃ w (by grind) differ, nodeW]
  refine ⟨linked_branch.mpr ⟨?_, linked_branch.mpr ⟨?_, ?_, ?_⟩, ?_⟩, ?_, ?_, above, ?_⟩
  · rw [ptr_branch]
    exact ⟨high.present, by simp [nodeW₃], by simp [nodeW₃, high.color], by simp [nodeW₃],
      by simp [nodeW₃, high.far]⟩
  · exact ⟨low.present, by simp [nodeV₃], by simp [nodeV₃, low.color],
      by simp [nodeV₃, low.near], by simp [nodeV₃]⟩
  · exact near₁.frame fun p mem => same₃ p (by grind) (by grind)
  · exact inner₁.frame fun p mem => same₃ p (by grind) (by grind)
  · exact outer₁.frame fun p mem => same₃ p (by grind) (by grind)
  · rw [ptr_branch]
    refine hung₂.frame (by rw [← last, update_root]) fun p mem => ?_
    rw [← last, update_node_of_ne _ (by grind)]
  · simp only [nodup_branch, mem_branch]
    grind
  · simp only [mem_branch]
    grind

/-! ### Looking around -/

theorem Zip.cell (zip : Zip s (.branch side c near v far) path) :
    Cell s side v (top path) c (ptr near) (ptr far) :=
  (linked_branch.mp zip.linked).1

theorem Zip.cell_above (zip : Zip s t (.on side c v sibling :: path)) :
    Cell s side v (top path) c (ptr t) (ptr sibling) :=
  (hung_on.mp zip.hung).1

/-- Turning to the other child. -/
theorem zip_other :
    Zip s t (.on side c v sibling :: path) ↔ Zip s sibling (.on side.other c v t :: path) := by
  rw [zip_on, zip_on, branch_other]

theorem wp_presentRed {post : Bool → RbState → Prop}
    (linked : Linked s parent t) : wp (presentRed (ptr t)) post never s ↔ post t.isRed s := by
  cases t with
  | leaf => simp [presentRed, isRed]
  | node c l v r =>
    have cell := linked.1
    simp [presentRed, cell.present, wp_loadColor cell.present, cell.color]

theorem wp_presentRed_cell {near far : Ptr}
    {post : Bool → RbState → Prop} (cell : Cell s side v parent c near far) :
    wp (presentRed v) post never s ↔ post (decide (c = .red)) s := by
  simp [presentRed, cell.present, wp_loadColor cell.present, cell.color]

theorem setBlack_spec (zip : Zip s (.branch side c near v far) path) :
    wp (change v .rbSetBlack) (fun _ s' => Zip s' (.branch side .black near v far) path) never s := by
  rw [wp_change zip.cell.present, funext RbNode.rbSetBlack_eq]
  exact zip.recolor .black

theorem setRed_spec (zip : Zip s (.branch side c near v far) path) :
    wp (change v .rbSetRed) (fun _ s' => Zip s' (.branch side .red near v far) path) never s := by
  rw [wp_change zip.cell.present, funext RbNode.rbSetRed_eq]
  exact zip.recolor .red

/-- A node becomes black and goes up, the one above it becomes red and goes down. -/
theorem turnUp_spec {c' : RbColor} {w : Ptr}
    (zip : Zip s (.branch side c near v far) (.on side c' w sibling :: path))
    (done : ∀ s', Zip s' near (.on side .black v (.branch side .red far w sibling) :: path) →
      post () s') :
    wp (change v .rbSetBlack) (fun _ s => wp (change w .rbSetRed)
      (fun _ s => wp (rotate side.other w) post never s) never s) never s := by
  refine (setBlack_spec zip).returns fun _ s₁ zip₁ => ?_
  refine (setRed_spec (zip_on.mp zip₁)).returns fun _ s₂ zip₂ => ?_
  rw [← branch_other, ← branch_other side .black] at zip₂
  refine (rotate_spec zip₂).returns fun _ s₃ zip₃ => done s₃ (zip_on.mpr ?_)
  rwa [branch_other, branch_other] at zip₃

/-- The pointers to a subtree and to its sibling differ. -/
theorem Zip.ptr_ne (zip : Zip s t (.on side c v sibling :: path))
    (present : ptr t ≠ null) : ptr t ≠ ptr sibling := by
  refine ne_ptr present fun mem => ?_
  exact zip.apart _ (ptr_mem present) (mem_around_on.mpr (.inr (.inl mem)))

/-- The test that finds out which child a node is. -/
theorem Cell.side_eq {near far : Ptr}
    (cell : Cell s side v parent c near far) (differ : near ≠ far) :
    (if near = (s.node v).child .left then Side.left else Side.right) = side := by
  cases side with
  | left => rw [cell.near, if_pos rfl]
  | right =>
    have left := cell.far
    rw [Side.other] at left
    rw [left, if_neg differ]

/-! ### Insertion -/

section Insertion

variable {side' side'' : Side} {uncle : RbTree Ptr} {pv gv : Ptr}

theorem insertRound_redUncle
    (zip : Zip s t (.on side .red pv sibling :: .on side' .black gv uncle :: path))
    (red : uncle.isRed = true) :
    wp (insertRound side' v pv gv)
      (fun next s' => next = gv ∧
        Zip s' (.branch side' .red (.branch side .black t pv sibling) gv uncle.blacken) path)
      never s := by
  have upper := zip_on.mp zip
  have beside := zip_other.mp upper
  obtain ⟨un, uv, uf, rfl⟩ : ∃ un uv uf, uncle = .branch .left .red un uv uf := by
    cases uncle with
    | leaf => simp [isRed] at red
    | node c l v r =>
      obtain rfl : c = .red := by simpa using red
      exact ⟨l, v, r, rfl⟩
  simp only [insertRound, wp_bind, wp_loadChild upper.cell_above.present, upper.cell_above.far]
  rw [wp_presentRed beside.linked, red]
  simp only [if_true, wp_bind, ptr_branch, wp_pure]
  -- the uncle, the parent and the grandparent in turn
  refine (setBlack_spec beside).returns fun _ s₁ zip₁ => ?_
  refine (setBlack_spec (zip_other.mpr zip₁)).returns fun _ s₂ zip₂ => ?_
  refine (setRed_spec (zip_on.mp zip₂)).returns fun _ s₃ zip₃ => ?_
  exact ⟨trivial, zip₃⟩

theorem insertRound_outer
    (zip : Zip s (.branch side' c near v far)
      (.on side .red pv sibling :: .on side .black gv uncle :: path))
    (black : uncle.isRed = false) :
    wp (insertRound side v pv gv)
      (fun next s' => next = v ∧ Zip s' (.branch side' c near v far)
        (.on side .black pv (.branch side .red sibling gv uncle) :: path)) never s := by
  have upper := zip_on.mp zip
  have notInner : ptr sibling ≠ v := by
    have differ := zip.ptr_ne (by simpa using zip.cell.present)
    rw [ptr_branch] at differ
    exact differ.symm
  simp only [insertRound, wp_bind, wp_loadChild upper.cell_above.present, upper.cell_above.far]
  rw [wp_presentRed (zip_other.mp upper).linked, black]
  simp only [Bool.false_eq_true, if_false, wp_bind, wp_loadChild zip.cell_above.present,
    zip.cell_above.far, notInner, wp_pure]
  exact turnUp_spec upper fun s' zip' => ⟨trivial, zip'⟩

theorem insertRound_inner
    (zip : Zip s (.branch side c near v far)
      (.on side.other .red pv sibling :: .on side .black gv uncle :: path))
    (black : uncle.isRed = false) :
    wp (insertRound side v pv gv)
      (fun next s' => next = pv ∧ Zip s' (.branch side .red sibling pv near)
        (.on side .black v (.branch side .red far gv uncle) :: path)) never s := by
  have upper := zip_on.mp zip
  have here : ptr (branch side c near v far) = v := ptr_branch side c near far v
  have inner : (s.node pv).child side.other = v := by rw [zip.cell_above.near, here]
  simp only [insertRound, wp_bind, wp_loadChild upper.cell_above.present, upper.cell_above.far]
  rw [wp_presentRed (zip_other.mp upper).linked, black]
  simp only [Bool.false_eq_true, if_false, wp_bind, wp_loadChild zip.cell_above.present, inner,
    if_true, wp_pure]
  rw [← branch_other, Side.other_other] at upper
  refine (rotate_spec upper).returns fun _ s₁ zip₁ => ?_
  exact turnUp_spec zip₁ fun s' zip' => ⟨trivial, zip'⟩

theorem insertLoop_root (zip : Zip s (.branch side c near v far) []) :
    wp (insertLoop (rounds + 1) v) post never s ↔ post () s := by
  simp [insertLoop, wp_loadParent zip.cell.present, zip.cell.parent, presentRed]

theorem insertLoop_underBlack
    (zip : Zip s (.branch side c near v far) (.on side' .black pv sibling :: path)) :
    wp (insertLoop (rounds + 1) v) post never s ↔ post () s := by
  have parent := zip.cell.parent
  simp [insertLoop, wp_loadParent zip.cell.present, parent, wp_presentRed_cell zip.cell_above]

/-- Under a red parent a round is made on the side of that parent. -/
theorem insertLoop_underRed
    (zip : Zip s (.branch side c near v far)
      (.on side' .red pv sibling :: .on side'' .black gv uncle :: path)) :
    wp (insertLoop (rounds + 1) v) post never s ↔
      wp (insertRound side'' v pv gv) (fun next s' => wp (insertLoop rounds next) post never s')
        never s := by
  have upper := zip_on.mp zip
  have parent := zip.cell.parent
  rw [top_on] at parent
  have gparent := zip.cell_above.parent
  rw [top_on] at gparent
  have cell := upper.cell_above
  have which := cell.side_eq (upper.ptr_ne (by simpa using zip.cell_above.present))
  rw [ptr_branch] at which
  simp [insertLoop, wp_loadParent zip.cell.present, parent, wp_presentRed_cell zip.cell_above,
    wp_loadParent zip.cell_above.present, gparent, wp_loadChild cell.present, which]

theorem insertLoop_spec {n : Nat} (zip : Zip s t path) (red : t.Balanced .red n)
    (opens : RbTree.Opens path .black n) (enough : path.length < rounds) :
    wp (insertLoop rounds (ptr t))
      (fun _ s' => ∃ u, Shape s' u ∧ u.blacken = RbTree.rbInsertColor t path) never s := by
  induction rounds using Nat.strong_induction_on generalizing s t path n with
  | _ k ih =>
    obtain ⟨rounds, rfl⟩ : ∃ rounds, k = rounds + 1 := ⟨k - 1, by omega⟩
    cases opens.redAt with
    | root =>
      obtain ⟨near, v, far, rfl⟩ := red.exists_red .left
      rw [ptr_branch, insertLoop_root zip]
      exact ⟨_, shape_plug.mpr zip, rfl⟩
    | underBlack =>
      obtain ⟨near, v, far, rfl⟩ := red.exists_red .left
      rw [ptr_branch, insertLoop_underBlack zip]
      exact ⟨_, shape_plug.mpr zip, RbTree.rbInsertColor_black.symm⟩
    | @underRed side' side pv gv sibling uncle c rest _ beside balanced opens' =>
      obtain ⟨near, v, far, rfl⟩ := red.exists_red side
      simp only [List.length_cons] at enough
      rw [ptr_branch, insertLoop_underRed zip]
      cases c with
      | red =>
        have redUncle : uncle.isRed = true := by simp [balanced.isRed_eq]
        refine (insertRound_redUncle zip redUncle).returns ?_
        rintro _ s' ⟨rfl, zip'⟩
        rw [rbInsertColor_redUncle redUncle]
        have next := ih rounds (by omega) zip' (RbTree.balanced_red.mpr ⟨rfl,
          RbTree.balanced_black.mpr ⟨rfl, n, rfl, ⟨.red, red⟩, ⟨.black, beside⟩⟩,
          balanced.blacken_red⟩) opens' (by omega)
        rwa [ptr_branch] at next
      | black =>
        have black : uncle.isRed = false := by simp [balanced.isRed_eq]
        obtain ⟨more, rfl⟩ : ∃ more, rounds = more + 1 := ⟨rounds - 1, by omega⟩
        rcases side.eq_or_eq_other side' with rfl | rfl
        · refine (insertRound_outer zip black).returns ?_
          rintro _ s' ⟨rfl, zip'⟩
          rw [insertLoop_underBlack zip']
          exact ⟨_, shape_plug.mpr zip', by rw [rbInsertColor_outer black, plug_on]⟩
        · refine (insertRound_inner zip black).returns ?_
          rintro _ s' ⟨rfl, zip'⟩
          rw [insertLoop_underBlack zip']
          exact ⟨_, shape_plug.mpr zip', by rw [rbInsertColor_inner black, plug_on]⟩

end Insertion

end AndroidKernel.Rbtree
