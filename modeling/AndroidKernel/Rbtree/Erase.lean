import AndroidKernel.Rbtree.Rebalance

/-!
Erasing in memory follows erasing on trees: first the rebalancing loop of
`__rb_erase_color`, then `rb_erase` itself, which takes a node with one child
out of the tree or puts the successor in its place.
-/

namespace AndroidKernel.Rbtree

open Lib List

variable {s : RbState} {never : Fault → Prop} {side : Side} {t near far : RbTree Ptr}
  {pv ov : Ptr} {pc c : RbColor} {path : List (RbCrumb Ptr)} {v parent : Ptr} {l r : RbTree Ptr}
  {rounds n : Nat} {post : Ptr → RbState → Prop} {sp : List (RbCrumb Ptr)}

/-! ### One round -/

theorem blackSibling_red (zip : Zip s t (.on side pc pv (.branch side .red near ov far) :: path)) :
    wp (blackSibling side pv)
      (fun other s' => other = ptr near ∧ Zip s' t (.on side .red pv near :: .on side .black ov far ::
        path)) never s := by
  have sibling := (zip_other.mp zip).cell
  have found := zip.cell_above.far
  rw [ptr_branch] at found
  simp only [blackSibling, wp_bind, wp_loadChild zip.cell_above.present, found,
    wp_loadColor sibling.present, sibling.color, if_true]
  refine (setBlack_spec (zip_other.mp zip)).returns fun _ s₁ zip₁ => ?_
  refine (setRed_spec (zip_on.mp (zip_other.mpr zip₁))).returns fun _ s₂ zip₂ => ?_
  refine (rotate_spec zip₂).returns fun _ s₃ zip₃ => ?_
  have zip₄ := zip_on.mpr zip₃
  exact ⟨zip₄.cell.far, zip_on.mpr zip₄⟩

theorem blackSibling_black
    (zip : Zip s t (.on side pc pv (.branch side .black near ov far) :: path)) :
    wp (blackSibling side pv) (fun other s' => other = ov ∧ s' = s) never s := by
  have sibling := (zip_other.mp zip).cell
  have found := zip.cell_above.far
  simp [blackSibling, wp_loadChild zip.cell_above.present, found,
    wp_loadColor sibling.present, sibling.color]

theorem noRedChild_spec {post : Bool → RbState → Prop}
    (linked : Linked s parent (.branch side c near ov far)) :
    wp (noRedChild ov) post never s ↔ post (!near.isRed && !far.isRed) s := by
  obtain ⟨cell, linkedNear, linkedFar⟩ := linked_branch.mp linked
  cases side with
  | left =>
    have right := cell.far
    rw [Side.other] at right
    simp only [noRedChild, wp_bind, wp_loadChild cell.present, cell.near, right, wp_pure,
      wp_presentRed linkedNear, wp_presentRed linkedFar]
  | right =>
    have left := cell.far
    rw [Side.other] at left
    simp only [noRedChild, wp_bind, wp_loadChild cell.present, cell.near, left, wp_pure,
      wp_presentRed linkedNear, wp_presentRed linkedFar, Bool.and_comm]

theorem redFarChild_far (zip : Zip s t (.on side pc pv (.branch side .black near ov far) :: path))
    (red : far.isRed = true) :
    wp (redFarChild side pv ov) (fun other s' => other = ov ∧ s' = s) never s := by
  have sibling := zip_other.mp zip
  simp [redFarChild, wp_loadChild sibling.cell.present, sibling.cell.far,
    wp_presentRed (linked_branch.mp sibling.linked).2.2, red]

theorem redFarChild_near {nn nf : RbTree Ptr} {nv : Ptr}
    (zip : Zip s t (.on side pc pv (.branch side .black (.branch side .red nn nv nf) ov far) :: path))
    (black : far.isRed = false) :
    wp (redFarChild side pv ov)
      (fun other s' => other = nv ∧
        Zip s' t (.on side pc pv (.branch side .black nn nv (.branch side .red nf ov far)) :: path))
      never s := by
  have sibling := zip_other.mp zip
  have near := zip_on.mpr sibling
  have found := sibling.cell.near
  rw [ptr_branch] at found
  simp only [redFarChild, wp_bind, wp_loadChild sibling.cell.present, sibling.cell.far, found,
    wp_presentRed (linked_branch.mp sibling.linked).2.2, black, Bool.false_eq_true, if_false,
    wp_ifThen, near.cell.present, ne_eq, not_false_eq_true, forall_const, not_true_eq_false,
    false_implies, and_true]
  refine turnUp_spec near fun s₃ zip₃ => ?_
  have zip₄ := zip_other.mpr (zip_on.mp zip₃)
  have back := zip₄.cell_above.far
  rw [ptr_branch] at back
  rw [wp_loadChild zip₄.cell_above.present, back]
  exact ⟨rfl, zip₄⟩

theorem settle_spec {side' : Side} {c' : RbColor} {fn ff : RbTree Ptr} {fv : Ptr}
    (zip : Zip s t (.on side pc pv (.branch side c near ov (.branch side' c' fn fv ff)) :: path)) :
    wp (settle side pv ov)
      (fun _ s' => Zip s' (.branch side pc (.branch side .black t pv near) ov
        (.branch side' .black fn fv ff)) path) never s := by
  have sibling := zip_other.mp zip
  simp only [settle, wp_bind, wp_loadColor zip.cell_above.present, zip.cell_above.color,
    wp_change sibling.cell.present]
  have zip₁ := sibling.recolor pc
  refine (setBlack_spec (zip_on.mp (zip_other.mpr zip₁))).returns fun _ s₂ zip₂ => ?_
  have zip₃ := zip_other.mp (zip_on.mpr zip₂)
  have found := zip₃.cell.far
  rw [ptr_branch] at found
  rw [← RbTree.branch_other] at zip₃
  have zip₄ := zip_on.mpr zip₃
  rw [wp_loadChild zip₃.cell.present, found, wp_ifThen]
  refine ⟨fun _ => ?_, fun absent => absurd zip₄.cell.present absent⟩
  refine (setBlack_spec zip₄).returns fun _ s₅ zip₅ => ?_
  have zip₆ := zip_on.mp zip₅
  rw [RbTree.branch_other] at zip₆
  exact rotate_spec (zip_on.mp (zip_other.mpr zip₆))

/-- What a round leaves: the tree of the round on trees, and where it goes on. -/
def Rounded (s : RbState) (path : List (RbCrumb Ptr)) (next : Option (Ptr × Ptr)) :
    RbTree.EraseStep Ptr → Prop
  | .settled u => next = none ∧ Zip s u path
  | .deficit u => next = some (ptr u, top path) ∧ Zip s u path

theorem eraseBeside_spec {c₁ c₂ : RbColor}
    (zip : Zip s t (.on side pc pv (.branch side .black near ov far) :: path))
    (nearBalanced : near.Balanced c₁ n) (farBalanced : far.Balanced c₂ n) :
    wp (eraseBeside side pv ov)
      (fun next s' => Rounded s' path next
        (RbTree.eraseStep side t pc pv (.branch side .black near ov far))) never s := by
  have sibling := zip_other.mp zip
  simp only [eraseBeside, wp_bind, noRedChild_spec sibling.linked]
  cases c₂ with
  | red =>
    have red : far.isRed = true := by simp [farBalanced.isRed_eq]
    simp only [red, Bool.not_true, Bool.and_false, Bool.false_eq_true, if_false, wp_bind, wp_pure]
    refine (redFarChild_far zip red).returns ?_
    rintro _ _ ⟨rfl, rfl⟩
    obtain ⟨fn, fv, ff, rfl⟩ := farBalanced.exists_red side
    refine (settle_spec zip).returns fun _ s₁ zip₁ => ?_
    rw [RbTree.eraseStep_far red, RbTree.blacken_branch]
    exact ⟨rfl, zip₁⟩
  | black =>
    have black : far.isRed = false := by simp [farBalanced.isRed_eq]
    cases c₁ with
    | red =>
      have red : near.isRed = true := by simp [nearBalanced.isRed_eq]
      simp only [red, Bool.not_true, Bool.false_and, Bool.false_eq_true, if_false, wp_bind, wp_pure]
      obtain ⟨nn, nv, nf, rfl⟩ := nearBalanced.exists_red side
      refine (redFarChild_near zip black).returns ?_
      rintro _ s₁ ⟨rfl, zip₁⟩
      refine (settle_spec zip₁).returns fun _ s₂ zip₂ => ?_
      rw [RbTree.eraseStep_near black]
      exact ⟨rfl, zip₂⟩
    | black =>
      have nearBlack : near.isRed = false := by simp [nearBalanced.isRed_eq]
      simp only [nearBlack, black, Bool.not_false, Bool.and_true, if_true, wp_bind, wp_pure]
      refine (setRed_spec sibling).returns fun _ s₁ zip₁ => ?_
      have zip₂ := zip_other.mpr zip₁
      rw [wp_loadParent zip₂.cell_above.present, zip₂.cell_above.parent,
        RbTree.eraseStep_up nearBlack black]
      exact ⟨by rw [ptr_branch], zip_on.mp zip₂⟩

/-! ### The loop -/

theorem Hung.root_mem {hole : Ptr} {crumb : RbCrumb Ptr} (hung : Hung s hole (crumb :: path)) :
    s.root ∈ around (crumb :: path) := by
  induction path generalizing hole crumb with
  | nil =>
    obtain ⟨side, c, v, sibling, rfl⟩ := crumb.exists_on
    exact mem_around_on.mpr (.inl (hung_on.mp hung).2.2)
  | cons next path ih =>
    obtain ⟨side, c, v, sibling, rfl⟩ := crumb.exists_on
    exact mem_around_on.mpr (.inr (.inr (ih (hung_on.mp hung).2.2)))

theorem eraseLoop_red (zip : Zip s t path) (red : t.isRed = true) :
    wp (eraseLoop (rounds + 1) (ptr t) parent) post never s ↔ post (ptr t) s := by
  simp [eraseLoop, wp_presentRed zip.linked, red]

theorem eraseLoop_root
    (zip : Zip s t []) : wp (eraseLoop (rounds + 1) (ptr t) parent) post never s ↔
      post (ptr t) s := by
  have root : s.root = ptr t := zip.hung
  simp [eraseLoop, wp_presentRed zip.linked, root]

theorem eraseLoop_beside {sibling : RbTree Ptr}
    (zip : Zip s t (.on side pc pv sibling :: path)) (black : t.isRed = false)
    (present : ptr sibling ≠ null) :
    wp (eraseLoop (rounds + 1) (ptr t) pv) post never s ↔ wp (eraseRound side pv) (fun next s' =>
        match next with
        | some (node, parent) => wp (eraseLoop rounds node parent) post never s'
        | none => post s'.root s') never s := by
  have notRoot : ptr t ≠ s.root := by
    intro same
    have mem := zip.hung.root_mem
    rw [← same] at mem
    exact zip.apart _ (ptr_mem (zip.hung.ne_null mem)) mem
  have which := zip.cell_above.side_eq ((zip_other.mp zip).ptr_ne present).symm
  simp only [eraseLoop, wp_bind, wp_presentRed zip.linked, black, wp_getRoot, Bool.not_false,
    ne_eq, notRoot, not_false_eq_true, decide_true, Bool.and_self, if_true,
    wp_loadChild zip.cell_above.present, which]
  constructor
  all_goals
    intro run
    refine run.returns fun next s' after => ?_
    cases next <;> exact after

/-- The node that turns black when the loop is left. -/
def Stopped (s : RbState) (t : RbTree Ptr) (node : Ptr) : Prop :=
  ∃ u path, node = ptr u ∧ Zip s u path ∧ u.blacken.plug path = t

theorem stopped_root (zip : Zip s t path) : Stopped s (t.plug path).blacken s.root :=
  have shape := shape_plug.mpr zip
  ⟨t.plug path, [], shape.root, shape_plug.mp shape, rfl⟩

theorem eraseLoop_spec (zip : Zip s t path) (short : t.Short n)
    (opens : RbTree.Opens path .black (n + 1)) (enough : path.length < rounds) :
    wp (eraseLoop rounds (ptr t) (top path))
      (fun node s' => Stopped s' (RbTree.rbEraseColor t path) node) never s := by
  induction rounds generalizing s t path n with
  | zero => omega
  | succ rounds ih =>
    rcases short with balanced | ⟨red, -⟩
    · have black : t.isRed = false := by simp [balanced.isRed_eq]
      cases opens.shortAt with
      | root =>
        rw [eraseLoop_root zip]
        exact ⟨t, [], rfl, zip, rfl⟩
      | @blackSibling side pc c c' pv ov near far rest _ near' far' opens' =>
        rw [top_on, eraseLoop_beside zip black (by simpa using (zip_other.mp zip).cell.present)]
        simp only [eraseRound, wp_bind]
        refine (blackSibling_black zip).returns ?_
        rintro other _ ⟨same, rfl⟩
        rw [same]
        refine (eraseBeside_spec zip near' far').returns fun next s' rounded => ?_
        have round := RbTree.eraseStep_balanced side pv ov balanced near' far' opens'
        cases step : RbTree.eraseStep side t pc pv (.branch side .black near ov far) with
        | settled u =>
          rw [step] at rounded
          obtain ⟨rfl, zip'⟩ := rounded
          rw [RbTree.rbEraseColor_on black, step]
          exact stopped_root zip'
        | deficit u =>
          rw [step] at rounded round
          obtain ⟨rfl, zip'⟩ := rounded
          obtain ⟨-, m, short', opens''⟩ := round
          rw [RbTree.rbEraseColor_on black, step]
          rw [length_cons] at enough
          exact ih zip' short' opens'' (by omega)
      | @redSibling side c c' pv ov nv nn nf far rest _ nn' nf' far' opens' =>
        rw [top_on, eraseLoop_beside zip black (by simpa using (zip_other.mp zip).cell.present)]
        simp only [eraseRound, wp_bind]
        refine (blackSibling_red zip).returns ?_
        rintro other s₁ ⟨same, zip₁⟩
        rw [same, ptr_branch]
        refine (eraseBeside_spec zip₁ nn' nf').returns fun next s' rounded => ?_
        have upper : RbTree.Opens (.on side .black ov far :: rest) .red
            (RbTree.raise .red (n + 1)) :=
          RbTree.opens_black.mpr ⟨⟨.black, far'⟩, opens'⟩
        have round := RbTree.eraseStep_balanced side pv nv balanced nn' nf' upper
        rw [RbTree.rbEraseColor_redSibling black]
        cases step : RbTree.eraseStep side t .red pv (.branch side .black nn nv nf) with
        | settled u =>
          rw [step] at rounded
          obtain ⟨rfl, zip'⟩ := rounded
          rw [RbTree.rbEraseColor_on black, step]
          exact stopped_root zip'
        | deficit u =>
          rw [step] at rounded round
          obtain ⟨rfl, zip'⟩ := rounded
          -- the parent is red now, so the next round is the last
          have red := round.1 rfl
          obtain ⟨more, rfl⟩ : ∃ more, rounds = more + 1 :=
            ⟨rounds - 1, by rw [length_cons] at enough; omega⟩
          rw [RbTree.rbEraseColor_on black, step]
          dsimp only
          rw [RbTree.rbEraseColor_red red]
          show wp _ _ _ _
          rw [eraseLoop_red zip' red]
          exact ⟨u, _, rfl, zip', rfl⟩
    · rw [eraseLoop_red zip red]
      exact ⟨t, path, rfl, zip, (RbTree.rbEraseColor_red red).symm⟩

theorem blacken_spec (zip : Zip s t path) :
    wp (ifThen (ptr t ≠ null) (change (ptr t) .rbSetBlack)) (fun _ s' => Zip s' t.blacken path)
      never s := by
  rw [wp_ifThen]
  cases t with
  | leaf => exact ⟨fun present => absurd rfl present, fun _ => zip⟩
  | node c l v r =>
    have zip' : Zip s (.branch .left c l v r) path := zip
    exact ⟨fun _ => setBlack_spec zip', fun absent => absurd zip'.cell.present absent⟩

theorem rbEraseColor_spec (zip : Zip s t path) (short : t.Short n)
    (opens : RbTree.Opens path .black (n + 1)) (low : path.length < maxRounds) :
    wp (rbEraseColor (ptr t) (top path)) (fun _ s' => Shape s' (RbTree.rbEraseColor t path))
      never s := by
  simp only [rbEraseColor, wp_bind]
  refine (eraseLoop_spec zip short opens low).returns ?_
  rintro _ s' ⟨u, path', rfl, zip', same⟩
  refine (blacken_spec zip').returns fun _ s'' zip'' => ?_
  rw [← same]
  exact shape_plug.mpr zip''

/-! ### Taking a node out -/

/-- What taking out a node with at most one child does to the tree. -/
theorem splice_linked (zip : Zip s (.branch side c .leaf v t) path) :
    Linked (s.touch (ptr t) (.rbSetParent (top path))) (top path) t ∧
      Hung (s.touch (ptr t) (.rbSetParent (top path))) v path := by
  obtain ⟨linked, hung, below, above, apart⟩ := zip
  simp only [linked_branch, nodup_branch, mem_branch, ptr_branch, RbTree.inorder_leaf,
    not_mem_nil] at linked hung below apart
  refine ⟨linked.2.2.reparent below.2.2.2.1 (top path), ?_⟩
  refine hung.frame (touch_root _ _ _) fun p mem => touch_node_of_ne _ ?_
  exact ne_ptr (hung.ne_null mem) (by grind)

theorem Rehung.zip {s' : RbState} (rehung : Rehung s s' path (ptr t)) (linked : Linked s (top path) t)
    (below : t.inorder.Nodup) (above : (around path).Nodup)
    (apart : ∀ p ∈ t.inorder, p ∉ around path) : Zip s' t path :=
  ⟨linked.frame fun p mem => rehung.same p (apart p mem), rehung.hung, below, above, apart⟩

/-- The end of `rb_erase`: a node of colour `c` was taken out above `t`. -/
theorem spliced_spec (zip : Zip s t path)
    (redBlack : ((RbTree.branch side c .leaf v t).plug path).RedBlack)
    (low : path.length < maxRounds) :
    wp (ifThen (c = .black) (rbEraseColor (ptr t) (top path)))
      (fun _ s' => Shape s' (if c = .black then RbTree.rbEraseColor t path else t.plug path))
      never s := by
  obtain ⟨c', n, balanced, opens⟩ := redBlack.of_plug
  rw [wp_ifThen]
  cases c with
  | red => exact ⟨fun black => absurd black (by decide), fun _ => shape_plug.mpr zip⟩
  | black =>
    obtain ⟨rfl, m, rfl, -, ⟨_, child⟩⟩ := RbTree.balanced_black.mp balanced
    exact ⟨fun _ => rbEraseColor_spec zip child.short opens low, fun red => absurd rfl red⟩

theorem eraseSimple_spec (zip : Zip s (.branch side c .leaf v t) path)
    (redBlack : ((RbTree.branch side c .leaf v t).plug path).RedBlack)
    (low : path.length < maxRounds) :
    wp (eraseSimple v (ptr t))
      (fun _ s' => Shape s' (if c = .black then RbTree.rbEraseColor t path else t.plug path))
      never s := by
  obtain ⟨linked₁, hung₁⟩ := splice_linked zip
  have cell := zip.cell
  obtain ⟨-, -, below, above, apart⟩ := zip
  simp only [nodup_branch, mem_branch, RbTree.inorder_leaf, not_mem_nil] at below apart
  simp only [eraseSimple, wp_bind, wp_loadParent cell.present, cell.parent,
    wp_loadColor cell.present, wp_touch]
  refine (changeChild_spec .left (ptr t) hung₁ cell.present (by grind) above).returns ?_
  intro _ s₂ rehung
  have zip₂ := rehung.zip linked₁ below.2.2.2.1 above (by grind)
  rw [wp_ifThen, cell.color, ← wp_ifThen]
  exact spliced_spec zip₂ redBlack low

/-- Putting `y`, which is not in the tree, where `v` is. -/
theorem takePlace_spec {y : Ptr} (zip : Zip s (.branch .left c l v r) path)
    (child : ptr l ≠ null) (present : y ≠ null) (notV : y ≠ v) (notL : y ∉ l.inorder)
    (notR : y ∉ r.inorder) (notAbove : y ∉ around path) :
    wp (takePlace v y) (fun _ s' => Zip s' (.branch .left c l y r) path) never s := by
  obtain ⟨linked, hung, below, above, apart⟩ := zip
  simp only [linked_branch, ptr_branch, nodup_branch, mem_branch] at linked hung below apart
  obtain ⟨cell, linkedL, linkedR⟩ := linked
  have right := cell.far
  rw [Side.other] at right
  generalize first : s.update y (fun _ => s.node v) = s₁
  have same₁ : ∀ p, p ≠ y → s₁.node p = s.node p := by
    intro p differ
    rw [← first, update_node_of_ne _ differ]
  have nodeY : s₁.node y = s.node v := by rw [← first, update_node_self]
  have hung₁ : Hung s₁ v path :=
    hung.frame (by rw [← first, update_root]) fun p mem => same₁ p (by grind)
  simp only [takePlace, wp_bind, wp_load cell.present, wp_change present, first,
    wp_loadParent cell.present, same₁ v notV.symm, cell.parent]
  refine (changeChild_spec .left y hung₁ cell.present (by grind) above).returns ?_
  rintro _ s₂ ⟨hung₂, same₂⟩
  have nodeV : s₂.node v = s.node v := by rw [same₂ v (by grind), same₁ v notV.symm]
  have linkedL₂ : Linked s₂ v l :=
    linkedL.frame fun p mem => by rw [same₂ p (by grind), same₁ p (by grind)]
  have linkedR₂ : Linked s₂ v r :=
    linkedR.frame fun p mem => by rw [same₂ p (by grind), same₁ p (by grind)]
  -- the children get their new parent
  have touched : s₂.update (ptr l) (.rbSetParent y) = s₂.touch (ptr l) (.rbSetParent y) := by
    rw [RbState.touch, if_neg child]
  have vL : v ≠ ptr l := ne_ptr cell.present (by grind)
  rw [wp_loadChild cell.present, nodeV, cell.near, wp_change child, touched,
    wp_loadChild cell.present, touch_node_of_ne _ vL, nodeV, right, wp_touch]
  generalize third : s₂.touch (ptr l) (.rbSetParent y) = s₃
  generalize fourth : s₃.touch (ptr r) (.rbSetParent y) = s₄
  have same₃ : ∀ p, p ≠ null → p ∉ l.inorder → s₃.node p = s₂.node p := by
    intro p here outside
    rw [← third, touch_node_of_ne _ (ne_ptr here outside)]
  have same₄ : ∀ p, p ≠ null → p ∉ r.inorder → s₄.node p = s₃.node p := by
    intro p here outside
    rw [← fourth, touch_node_of_ne _ (ne_ptr here outside)]
  have nodeY₄ : s₄.node y = s.node v := by
    rw [same₄ y present notR, same₃ y present notL, same₂ y notAbove, nodeY]
  have linkedL₃ : Linked s₃ y l := third ▸ linkedL₂.reparent (by grind) y
  have linkedR₃ : Linked s₃ v r :=
    linkedR₂.frame fun p mem => same₃ p (linkedR.ne_null mem) (by grind)
  refine ⟨linked_branch.mpr ⟨?_, ?_, ?_⟩, ?_, ?_, above, ?_⟩
  · exact ⟨present, by rw [nodeY₄, cell.parent], by rw [nodeY₄, cell.color],
      by rw [nodeY₄, cell.near], by rw [nodeY₄, cell.far]⟩
  · exact linkedL₃.frame fun p mem => same₄ p (linkedL.ne_null mem) (by grind)
  · exact fourth ▸ linkedR₃.reparent (by grind) y
  · rw [ptr_branch]
    refine hung₂.frame (by rw [← fourth, ← third, touch_root, touch_root]) fun p mem => ?_
    rw [same₄ p (hung.ne_null mem) (by grind), same₃ p (hung.ne_null mem) (by grind)]
  · rw [nodup_branch]
    grind
  · simp only [mem_branch]
    grind

/-! ### The successor -/

theorem leftmost_spec (zip : Zip s (.node c l v r) path) (enough : l.height < rounds) :
    wp (leftmost rounds v)
      (fun y s' => y = (RbTree.leftmost c l v r path).2.1 ∧ s' = s) never s := by
  induction rounds generalizing c l v r path with
  | zero => omega
  | succ rounds ih =>
    have zip' : Zip s (.branch .left c l v r) path := zip
    simp only [leftmost, wp_bind, wp_loadChild zip'.cell.present, zip'.cell.near]
    cases l with
    | leaf => simp [RbTree.leftmost]
    | node lc ll lv lr =>
      have lower := zip_on.mpr zip'
      have lower' : Zip s (.branch .left lc ll lv lr) (.on .left c v r :: path) := lower
      rw [ptr_node, if_neg lower'.cell.present]
      refine ih lower ?_
      simp only [RbTree.height] at enough
      omega

/-- The place under the parent of the successor of `v`, which is `v` itself or
reached through left children. -/
theorem successor_place (w : Ptr) (lefts : ∀ crumb ∈ sp, ∃ c v r, crumb = RbCrumb.on .left c v r)
    (nodup : (around (sp ++ .right c l v :: path)).Nodup) :
    ∃ side c' p sibling rest, sp ++ .right c l v :: path = .on side c' p sibling :: rest ∧
      (if p = v then Side.right else Side.left) = side ∧
      (if p = v then w else p) = top (sp ++ .right c l w :: path) := by
  cases sp with
  | nil => exact ⟨.right, c, v, l, path, rfl, if_pos rfl, if_pos rfl⟩
  | cons crumb sp =>
    obtain ⟨c', p, sibling, rfl⟩ := lefts crumb mem_cons_self
    have differ : p ≠ v := by
      rw [cons_append, nodup_around_on] at nodup
      rintro rfl
      refine nodup.2.1 (mem_around_append.mpr (.inr ?_))
      show p ∈ around (.on .right c p l :: path)
      exact mem_around_on.mpr (.inl rfl)
    exact ⟨.left, c', p, sibling, sp ++ .right c l v :: path, rfl, if_neg differ, if_neg differ⟩

/-- A place somewhere below the right child of `v`. -/
theorem zip_under :
    Zip s t (sp ++ .right c l v :: path) ↔ Zip s (.branch .left c l v (t.plug sp)) path := by
  rw [← shape_plug, ← shape_plug, RbTree.plug_append]
  rfl

theorem eraseSuccessor_spec {y : Ptr} {yr : RbTree Ptr} {yc : RbColor}
    (zip : Zip s (.branch .left yc .leaf y yr) (sp ++ .right c l v :: path)) (child : ptr l ≠ null)
    (lefts : ∀ crumb ∈ sp, ∃ c v r, crumb = RbCrumb.on .left c v r)
    (redBlack : ((RbTree.branch .left yc .leaf y yr).plug (sp ++ .right c l y :: path)).RedBlack)
    (low : (sp ++ .right c l y :: path).length < maxRounds) :
    wp (eraseSuccessor v y)
      (fun _ s' => Shape s' (if yc = .black then RbTree.rbEraseColor yr (sp ++ .right c l y :: path)
        else yr.plug (sp ++ .right c l y :: path))) never s := by
  obtain ⟨side, c', p, sibling, rest, first, which, next⟩ :=
    successor_place y lefts zip.above
  obtain ⟨linked₁, hung₁⟩ := splice_linked zip
  have cell := zip.cell
  have right := cell.far
  rw [Side.other] at right
  have parent := cell.parent
  obtain ⟨-, -, below, above, apart⟩ := zip
  simp only [nodup_branch, mem_branch, RbTree.inorder_leaf, not_mem_nil] at below apart
  have top' : top (sp ++ .right c l v :: path) = p := by rw [first, top_on]
  rw [top'] at parent linked₁ hung₁
  have present : p ≠ null := by
    rw [first] at hung₁
    exact (hung_on.mp hung₁).1.present
  simp only [eraseSuccessor, wp_bind, wp_loadChild cell.present, right, wp_loadParent cell.present,
    parent, wp_loadColor cell.present, wp_touch, wp_change present, which, next]
  -- the successor is out
  have zip₂ : Zip ((s.touch (ptr yr) (.rbSetParent p)).update p (.setChild side (ptr yr))) yr
      (sp ++ .right c l v :: path) := by
    rw [first] at hung₁ above apart ⊢
    refine (hung₁.rehang above (ptr yr)).zip ?_ below.2.2.2.1 above (by grind)
    rwa [top_on]
  have zip₃ := zip_under.mp zip₂
  have outside : y ∉ around sp ∧ y ≠ v ∧ y ∉ l.inorder ∧ y ∉ around path := by
    have away := apart y (.inl rfl)
    rw [mem_around_append, show RbCrumb.right c l v = .on .right c v l from rfl,
      mem_around_on] at away
    grind
  have notBelow : y ∉ (yr.plug sp).inorder := by
    rw [mem_plug]
    grind
  refine (takePlace_spec zip₃ child cell.present outside.2.1 outside.2.2.1 notBelow
    outside.2.2.2).returns fun _ s₄ zip₄ => ?_
  have zip₅ := zip_under.mpr zip₄
  rw [wp_ifThen, cell.color, ← wp_ifThen]
  exact spliced_spec zip₅ redBlack low

/-- `rb_erase` on the tree: the node `v` at `path` is taken out. -/
theorem rbErase_spec (zip : Zip s (.node c l v r) path)
    (redBlack : ((RbTree.node c l v r).plug path).RedBlack)
    (low : ((RbTree.node c l v r).plug path).height < maxRounds) :
    wp (rbErase v) (fun _ s' => Shape s' (RbTree.unlink c l r path)) never s := by
  have zip' : Zip s (.branch .left c l v r) path := zip
  have right := zip'.cell.far
  rw [Side.other] at right
  have deep := RbTree.length_le_height (.node c l v r) path
  simp only [rbErase, wp_bind, wp_loadChild zip'.cell.present, zip'.cell.near, right]
  cases l with
  | leaf =>
    exact eraseSimple_spec zip' redBlack (by omega)
  | node lc ll lv lr =>
    have cellL : Linked s v (.node lc ll lv lr) := (linked_branch.mp zip'.linked).2.1
    have child : ptr (.node lc ll lv lr) ≠ null := cellL.1.present
    rw [if_neg child]
    cases r with
    | leaf =>
      have zipR : Zip s (.branch .right c .leaf v (.node lc ll lv lr)) path := zip
      exact eraseSimple_spec zipR redBlack (by omega)
    | node rc rl rv rr =>
      have cellR : Linked s v (.node rc rl rv rr) := (linked_branch.mp zip'.linked).2.2
      have present : ptr (.node rc rl rv rr) ≠ null := cellR.1.present
      rw [if_neg present, ptr_node, wp_bind]
      have under : Zip s (.node rc rl rv rr) ([] ++ .right c (.node lc ll lv lr) v :: path) :=
        zip_under.mpr zip
      have high := RbTree.length_le_height (.node rc rl rv rr)
        (.right c (.node lc ll lv lr) v :: path)
      have whole : (RbTree.node rc rl rv rr).plug (.right c (.node lc ll lv lr) v :: path) =
          (RbTree.node c (.node lc ll lv lr) v (.node rc rl rv rr)).plug path := rfl
      rw [whole, RbTree.height, length_cons] at high
      refine (leftmost_spec under (by omega)).returns ?_
      obtain ⟨yc, y, yr, sp, found, split, lefts, unlinked⟩ :=
        RbTree.unlink_successor (l := .node lc ll lv lr) c rc rl rv rr path (by simp)
      rintro _ _ ⟨rfl, rfl⟩
      rw [RbTree.leftmost_append, found, unlinked]
      rw [nil_append, ← nil_append (RbCrumb.right _ _ _ :: path), zip_under,
        RbTree.plug_nil, ← split, ← zip_under] at under
      have replaced := RbTree.redBlack_successor redBlack split
      refine eraseSuccessor_spec under child lefts replaced ?_
      have long := RbTree.length_le_height (.node yc .leaf y yr)
        (sp ++ .right c (.node lc ll lv lr) v :: path)
      rw [RbTree.plug_append, split, whole] at long
      simp only [length_append, length_cons] at long ⊢
      omega

end AndroidKernel.Rbtree
