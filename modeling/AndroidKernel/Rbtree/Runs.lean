import AndroidKernel.Rbtree.Erase

/-!
Every tree that is built from an empty root is a red-black tree, and the next
insertion or erasure in it runs to its end.
-/

namespace AndroidKernel.Rbtree

open Lib List RbTree

variable {s : RbState} {never : Fault → Prop} {t : RbTree Ptr} {path : List (RbCrumb Ptr)} {p node
  : Ptr} {place : Place}

/-! ### Nodes in the tree -/

/-- The nodes that are reached from the root. -/
inductive InTree (s : RbState) : Ptr → Prop where
  | root : s.root ≠ null → InTree s s.root
  | child {p : Ptr} {side : Side} :
      InTree s p → (s.node p).child side ≠ null → InTree s ((s.node p).child side)

theorem Linked.inTree {parent : Ptr} (linked : Linked s parent t)
    (reached : ptr t ≠ null → InTree s (ptr t)) (mem : p ∈ t.inorder) : InTree s p := by
  induction t generalizing parent with
  | leaf => simp at mem
  | node c l v r ihl ihr =>
    obtain ⟨cell, left, right⟩ := linked
    have here : InTree s v := reached cell.present
    have far := cell.far
    simp only [inorder_node, mem_append, mem_cons] at mem
    rcases mem with mem | rfl | mem
    · refine ihl left (fun present => ?_) mem
      rw [← cell.near] at present ⊢
      exact here.child present
    · exact here
    · refine ihr right (fun present => ?_) mem
      rw [← far] at present ⊢
      exact here.child present

/-- A node of the tree, at its place. -/
theorem exists_place (side : Side) (mem : p ∈ t.inorder) :
    ∃ c near far path, t = (branch side c near p far).plug path := by
  induction t with
  | leaf => simp at mem
  | node c l v r ihl ihr =>
    simp only [inorder_node, mem_append, mem_cons] at mem
    rcases mem with mem | rfl | mem
    · obtain ⟨c', near, far, path, rfl⟩ := ihl mem
      exact ⟨c', near, far, path ++ [.left c v r], by rw [plug_append]; rfl⟩
    · obtain ⟨near, far, same⟩ := node_eq_branch side c l r p
      exact ⟨c, near, far, [], same⟩
    · obtain ⟨c', near, far, path, rfl⟩ := ihr mem
      exact ⟨c', near, far, path ++ [.right c l v], by rw [plug_append]; rfl⟩

theorem Shape.inTree_iff (shape : Shape s t) : InTree s p ↔ p ∈ t.inorder := by
  constructor
  · intro reached
    induction reached with
    | root present =>
      rw [shape.root] at present ⊢
      exact ptr_mem present
    | @child p side _ present ih =>
      obtain ⟨c, near, far, path, rfl⟩ := exists_place side ih
      obtain ⟨cell, -⟩ := linked_branch.mp (shape_plug.mp shape).linked
      rw [cell.near] at present ⊢
      exact mem_plug.mpr (.inl (mem_branch.mpr (.inr (.inl (ptr_mem present)))))
  · intro mem
    refine shape.linked.inTree (fun present => ?_) mem
    rw [← shape.root] at present ⊢
    exact .root present

/-! ### How many nodes there are -/

theorem Ptr.div_injective : Function.Injective fun p : Ptr => p.addr.toNat / 4 := by
  have multiple : ∀ p : Ptr, p.addr.toNat % 4 = 0 := by
    intro p
    have low := congrArg BitVec.toNat p.aligned
    exact (Nat.and_two_pow_sub_one_eq_mod p.addr.toNat 2).symm.trans low
  intro p q same
  have hp := multiple p
  have hq := multiple q
  simp only at same
  have addr : p.addr = q.addr := BitVec.eq_of_toNat_eq (by omega)
  cases p
  cases q
  simpa using addr

/-- Nodes fit into the memory. -/
theorem length_le_memory {l : List Ptr} (nodup : l.Nodup) : l.length ≤ 2 ^ 30 := by
  have bounded : ∀ x ∈ l.map (fun p => p.addr.toNat / 4), x < 2 ^ 30 := by
    intro x mem
    obtain ⟨p, -, rfl⟩ := mem_map.mp mem
    omega
  have distinct := nodup.map Ptr.div_injective
  have := List.Nodup.length_le_card (distinct.pmap (f := fun x h => (⟨x, h⟩ : Fin (2 ^ 30)))
    (fun _ _ _ _ same => by simpa using same) (H := bounded))
  simpa using this

/-- The loops have rounds enough for every red-black tree. -/
theorem height_lt_maxRounds (redBlack : t.RedBlack) (nodup : t.inorder.Nodup) :
    t.height < maxRounds := by
  have := redBlack.height_le (k := 31) (lt_of_le_of_lt (length_le_memory nodup) (by decide))
  have : maxRounds = 64 := rfl
  omega

/-! ### Insertion -/

/-- The sequence with a new node at the place it is linked at. -/
def Place.insert (node : Ptr) : Place → List Ptr → List Ptr
  | .root, _ => [node]
  | .child .left p, seq => seq.flatMap fun x => if x = p then [node, x] else [x]
  | .child .right p, seq => seq.flatMap fun x => if x = p then [x, node] else [x]

/-- The node is not in the tree yet, and its place is free. -/
def Fits (s : RbState) (node : Ptr) : Place → Prop
  | .root => node ≠ null ∧ s.root = null
  | .child side p => node ≠ null ∧ ¬InTree s node ∧ InTree s p ∧ (s.node p).child side = null

theorem flatMap_of_notMem {seq : List Ptr} (f : Ptr → List Ptr) (absent : p ∉ seq) :
    seq.flatMap (fun x => if x = p then f x else [x]) = seq := by
  induction seq with
  | nil => rfl
  | cons x seq ih =>
    simp only [mem_cons, not_or] at absent
    rw [flatMap_cons, ih absent.2, if_neg (Ne.symm absent.1)]
    rfl

/-- The path to a free place. -/
inductive Leads : Place → List (RbCrumb Ptr) → Prop where
  | root : Leads .root []
  | child {side : Side} {c : RbColor} {p : Ptr} {sibling : RbTree Ptr} {path : List (RbCrumb Ptr)} :
      Leads (.child side p) (.on side c p sibling :: path)

theorem Leads.insert (node : Ptr) (leads : Leads place path) (nodup : (around path).Nodup) :
    place.insert node (RbTree.leaf.plug path).inorder =
      before path ++ node :: after path := by
  rw [inorder_plug]
  cases leads with
  | root => rfl
  | @child side c p sibling path =>
    obtain ⟨beside, above, -⟩ := nodup_around_on.mp nodup
    simp only [around, mem_append, not_or] at above
    cases side with
    | left =>
      simp only [RbCrumb.on, before_left, after_left, inorder_leaf,
        append_nil, Place.insert, flatMap_append, flatMap_cons, if_true,
        cons_append, flatMap_of_notMem _ above.1, flatMap_of_notMem _ above.2,
        flatMap_of_notMem _ beside, nil_append]
    | right =>
      simp only [RbCrumb.on, before_right, after_right, inorder_leaf,
        append_nil, Place.insert, flatMap_append, flatMap_cons, if_true,
        cons_append, flatMap_of_notMem _ above.1, flatMap_of_notMem _ above.2,
        flatMap_of_notMem _ beside, nil_append, append_assoc]

/-- A free place is a hole in the tree. -/
theorem Fits.leads (fits : Fits s node place) (shape : Shape s t) :
    node ≠ null ∧ node ∉ t.inorder ∧ ∃ path, t = RbTree.leaf.plug path ∧ Leads place path := by
  cases place with
  | root =>
    obtain ⟨present, empty⟩ := fits
    rw [shape.root] at empty
    cases t with
    | leaf => exact ⟨present, by simp, [], rfl, .root⟩
    | node c l v r => exact absurd empty shape.linked.1.present
  | child side p =>
    obtain ⟨present, fresh, mem, free⟩ := fits
    rw [shape.inTree_iff] at fresh mem
    obtain ⟨c, near, far, rest, rfl⟩ := exists_place side mem
    have zip := shape_plug.mp shape
    rw [zip.cell.near] at free
    cases near with
    | leaf => exact ⟨present, fresh, .on side c p far :: rest, by rw [plug_on], .child⟩
    | node c' l v r => exact absurd free (linked_branch.mp zip.linked).2.1.1.present

theorem link_spec (zip : Zip s .leaf path) (leads : Leads place path)
    (present : node ≠ null) (fresh : node ∉ around path) :
    wp (rbLinkNode node place) (fun _ s' => Zip s' (.branch .left .red .leaf node .leaf) path)
      never s := by
  obtain ⟨-, hung, -, above, -⟩ := zip
  generalize first : s.update node
    (fun _ => { rbParentColor := place.parent.addr, rbRight := null, rbLeft := null }) = s₁
  have parent : place.parent = top path := by
    cases leads with
    | root => rfl
    | child => rw [top_on]; rfl
  have hung₁ : Hung s₁ null path := by
    refine hung.frame (by rw [← first, update_root]) fun p mem => ?_
    rw [← first, update_node_of_ne _ (by rintro rfl; exact fresh mem)]
  have linked₁ : Linked s₁ (top path) (.branch .left .red .leaf node .leaf) := by
    have here : s₁.node node = RbNode.rbSetParent (top path) ⟨0, null, null⟩ := by
      rw [← first, update_node_self, RbNode.link_word, parent]
    refine linked_branch.mpr ⟨⟨present, ?_, ?_, ?_, ?_⟩, trivial, trivial⟩
    · rw [here, RbNode.rbParent_rbSetParent]
    · rw [here, RbNode.rbColor_rbSetParent]
      rfl
    · rw [here, RbNode.child_rbSetParent]
      rfl
    · rw [here, RbNode.child_rbSetParent]
      rfl
  have done : ∀ s', Rehung s₁ s' path node → Zip s' (.branch .left .red .leaf node .leaf) path := by
    intro s' rehung
    refine Rehung.zip (by rwa [ptr_branch]) linked₁ ?_ above ?_
    · simp [branch]
    · intro p mem
      obtain rfl : p = node := by simpa [branch] using mem
      exact fresh
  simp only [rbLinkNode, wp_bind, wp_change present, first]
  cases leads with
  | root =>
    exact done _ ⟨rfl, fun _ _ => rfl⟩
  | child =>
    have cell := (hung_on.mp hung₁).1
    rw [wp_change cell.present]
    exact done _ (hung₁.rehang above node)

theorem rbInsertColor_spec {n : Nat} (zip : Zip s t path) (red : t.Balanced .red n)
    (opens : RbTree.Opens path .black n) (low : path.length < maxRounds) :
    wp (rbInsertColor (ptr t)) (fun _ s' => Shape s' (RbTree.rbInsertColor t path)) never s := by
  simp only [rbInsertColor, wp_bind, wp_getRoot]
  refine (insertLoop_spec zip red opens low).returns ?_
  rintro _ s' ⟨u, shape, same⟩
  rw [← same]
  cases u with
  | leaf =>
    -- the node under consideration is in the tree
    have sequence := congrArg RbTree.inorder same
    obtain ⟨near, v, far, rfl⟩ := red.exists_red .left
    simp [blacken, branch] at sequence
  | node c l v r =>
    rw [shape.root]
    have whole : Zip s' (.branch .left c l v r) [] := shape_plug.mp shape
    exact (setBlack_spec whole).returns fun _ s'' zip'' => shape_plug.mpr zip''

/-- Linking a node and rebalancing. -/
theorem insert_total (shape : Shape s t) (redBlack : t.RedBlack) (fits : Fits s node place) :
    ∃ s₁ t₁ s₂ t₂, rbLinkNode node place s = .ok ((), s₁) ∧ Shape s₁ t₁ ∧
      t₁.inorder = place.insert node t.inorder ∧ rbInsertColor node s₁ = .ok ((), s₂) ∧
      Shape s₂ t₂ ∧ t₂.inorder = t₁.inorder ∧ t₂.RedBlack := by
  obtain ⟨present, fresh, path, rfl, leads⟩ := fits.leads shape
  have zip := shape_plug.mp shape
  rw [mem_plug] at fresh
  have outside : node ∉ around path := by
    intro mem
    exact fresh (.inr mem)
  obtain ⟨_, s₁, linked, zip₁⟩ := (link_spec zip leads present outside).total
  have low := height_lt_maxRounds redBlack shape.nodup
  have deep := length_le_height .leaf path
  obtain ⟨c, n, balanced, opens⟩ := redBlack.of_plug
  obtain ⟨rfl, rfl⟩ := RbTree.balanced_leaf.mp balanced
  have red : (branch .left .red .leaf node .leaf).Balanced .red 0 :=
    RbTree.balanced_red.mpr ⟨rfl, .leaf, .leaf⟩
  have colored : wp (rbInsertColor (ptr (.branch .left .red .leaf node .leaf))) _
      (fun _ => False) s₁ := rbInsertColor_spec zip₁ red opens (by omega)
  obtain ⟨_, s₂, ran, shape₂⟩ := colored.total
  refine ⟨s₁, _, s₂, _, linked, shape_plug.mpr zip₁, ?_, ran, shape₂, ?_, ?_⟩
  · rw [leads.insert node zip.above, inorder_plug]
    simp [branch]
  · rw [inorder_rbInsertColor, inorder_plug]
  · exact redBlack_rbInsertColor red opens

/-- `rb_erase` does what `RbTree.rbErase` does to the tree. -/
theorem erase_total (shape : Shape s t) (redBlack : t.RedBlack) (mem : node ∈ t.inorder) :
    ∃ s', rbErase node s = .ok ((), s') ∧ Shape s' (RbTree.rbErase node t) := by
  have low := height_lt_maxRounds redBlack shape.nodup
  unfold RbTree.rbErase
  cases found : locate node t [] with
  | none => exact absurd mem (locate_none found)
  | some place =>
    have whole := locate_plug found
    rw [plug_nil] at whole
    rw [whole] at shape redBlack low
    obtain ⟨_, s', ran, shape'⟩ := (rbErase_spec (shape_plug.mp shape) redBlack low).total
    exact ⟨s', ran, shape'⟩

/-! ### Runs -/

/-- The states of a tree that is only changed by linking and rebalancing new
nodes and by erasing nodes. The rest of the memory may change at any time. -/
inductive Built : RbState → Prop where
  | empty {s : RbState} : s.root = null → Built s
  | elsewhere {s s' : RbState} : Built s → s'.root = s.root →
      (∀ p, InTree s p → s'.node p = s.node p) → Built s'
  | insert {s s₁ s₂ : RbState} {node : Ptr} {place : Place} : Built s → Fits s node place →
      rbLinkNode node place s = .ok ((), s₁) → rbInsertColor node s₁ = .ok ((), s₂) → Built s₂
  | erase {s s' : RbState} {node : Ptr} : Built s → InTree s node →
      rbErase node s = .ok ((), s') → Built s'

theorem Built.shape (built : Built s) : ∃ t, Shape s t ∧ t.RedBlack := by
  induction built with
  | empty root => exact ⟨.leaf, ⟨root, trivial, nodup_nil⟩, 0, .leaf⟩
  | elsewhere _ root same ih =>
    obtain ⟨t, shape, redBlack⟩ := ih
    refine ⟨t, ⟨root.trans shape.root, ?_, shape.nodup⟩, redBlack⟩
    exact shape.linked.frame fun p mem => same p (shape.inTree_iff.mpr mem)
  | insert _ fits linked ran ih =>
    obtain ⟨t, shape, redBlack⟩ := ih
    obtain ⟨s₁, t₁, s₂, t₂, linked', -, -, ran', shape₂, -, redBlack₂⟩ :=
      insert_total shape redBlack fits
    cases linked.symm.trans linked'
    cases ran.symm.trans ran'
    exact ⟨t₂, shape₂, redBlack₂⟩
  | erase _ mem ran ih =>
    obtain ⟨t, shape, redBlack⟩ := ih
    obtain ⟨s', ran', shape'⟩ := erase_total shape redBlack (shape.inTree_iff.mp mem)
    cases ran.symm.trans ran'
    exact ⟨_, shape', redBlack_rbErase redBlack⟩

/-- In every state of a tree that was built from an empty root the pointers make
up a tree that satisfies the three conditions. Linking a node at a free place and
rebalancing, and erasing a node, run to their end there: the first puts the node
into the sequence at the place it was linked at, the second takes it out of the
sequence. -/
theorem built_red_black (built : Built s) :
    ∃ t, Shape s t ∧ t.isRed = false ∧ t.NoRedRed ∧ (∃ n, ∀ k ∈ t.blackCounts, k = n) ∧
      (∀ node place, Fits s node place →
        ∃ s₁ t₁ s₂ t₂, rbLinkNode node place s = .ok ((), s₁) ∧ Shape s₁ t₁ ∧
          t₁.inorder = place.insert node t.inorder ∧ rbInsertColor node s₁ = .ok ((), s₂) ∧
          Shape s₂ t₂ ∧ t₂.inorder = t₁.inorder) ∧
      ∀ node, InTree s node →
        ∃ s' t', rbErase node s = .ok ((), s') ∧ Shape s' t' ∧
          t'.inorder = t.inorder.erase node := by
  obtain ⟨t, shape, redBlack⟩ := built.shape
  obtain ⟨root, reds, blacks⟩ := redBlack.conditions
  refine ⟨t, shape, root, reds, blacks, ?_, ?_⟩
  · intro node place fits
    obtain ⟨s₁, t₁, s₂, t₂, linked, shape₁, placed, ran, shape₂, kept, -⟩ :=
      insert_total shape redBlack fits
    exact ⟨s₁, t₁, s₂, t₂, linked, shape₁, placed, ran, shape₂, kept⟩
  · intro node mem
    have present := shape.inTree_iff.mp mem
    obtain ⟨s', ran, shape'⟩ := erase_total shape redBlack present
    exact ⟨s', _, ran, shape', inorder_rbErase shape.nodup present⟩

/-! A tree of two nodes, linked one after the other. -/

def low : Ptr := ⟨4, by decide⟩

def high : Ptr := ⟨8, by decide⟩

def blank : RbState := { node := fun _ => ⟨0, null, null⟩, root := null }

/-- The state after a program that returns. -/
def after (m : Prog Unit) (s : RbState) : RbState :=
  match m s with
  | .ok (_, s') => s'
  | .error _ => s

theorem run_eq {m : Prog Unit} (returns : (m s).isOk = true) : m s = .ok ((), after m s) := by
  unfold after
  cases result : m s with
  | ok r => rfl
  | error f => simp [result, Except.isOk, Except.toBool] at returns

def oneNode : RbState := after (rbInsertColor low) (after (rbLinkNode low .root) blank)

def twoNodes : RbState :=
  after (rbInsertColor high) (after (rbLinkNode high (.child .right low)) oneNode)

theorem built_oneNode : Built oneNode :=
  .insert (.empty rfl) (show Fits blank low .root from ⟨by decide, rfl⟩) (run_eq (by decide +kernel))
    (run_eq (by decide +kernel))

theorem oneNode_only (mem : InTree oneNode p) : p = low := by
  induction mem with
  | root => decide +kernel
  | @child p side _ present ih =>
    subst ih
    exact absurd (show (oneNode.node low).child side = null by cases side <;> decide +kernel) present

theorem built_twoNodes : Built twoNodes := by
  have root : oneNode.root = low := by decide +kernel
  have here : InTree oneNode low := root ▸ .root (by decide +kernel)
  have fits : Fits oneNode high (.child .right low) := by
    refine ⟨by decide, fun mem => ?_, here, by decide +kernel⟩
    exact absurd (oneNode_only mem) (by decide)
  exact .insert built_oneNode fits (run_eq (by decide +kernel)) (run_eq (by decide +kernel))

theorem built_red_black_twoNodes :
    ∃ t, Shape twoNodes t ∧ t.isRed = false ∧ t.NoRedRed ∧ ∃ n, ∀ k ∈ t.blackCounts, k = n := by
  obtain ⟨t, shape, root, reds, blacks, -⟩ := built_red_black built_twoNodes
  exact ⟨t, shape, root, reds, blacks⟩

end AndroidKernel.Rbtree
