import AndroidKernel.Lib.RbTree

/-!
The balance of red-black trees, and that rebalancing restores it.

`Balanced t c n` is the red-black condition for a tree with root colour `c`: no
red node has a red child, and every way down to a leaf passes `n` black nodes.
`Opens path c n` is the same condition for a tree with a hole: filling the hole
with a tree that is `Balanced` for `c` and `n` makes a red-black tree with a
black root. The loops are proved along the path. `rbInsertColor` is at a red
tree that the hole may have no room for; `rbEraseColor` is at a tree that is one
black short (`Short`).

The cases of the loops come in mirror images. `branch` and `RbCrumb.on` name a
child by its side, so that each pair is proved once.
-/

namespace AndroidKernel.Lib

open List

inductive Side where
  | left
  | right
deriving DecidableEq, Repr

def Side.other : Side → Side
  | .left => .right
  | .right => .left

@[simp] theorem Side.other_other (side : Side) : side.other.other = side := by
  cases side <;> rfl

theorem Side.eq_or_eq_other (side side' : Side) : side' = side ∨ side' = side.other := by
  cases side <;> cases side' <;> simp [Side.other]

variable {α : Type}

/-- The hole is the child on `side`. -/
def RbCrumb.on (side : Side) (c : RbColor) (v : α) (sibling : RbTree α) : RbCrumb α :=
  match side with
  | .left => .left c v sibling
  | .right => .right c sibling v

theorem RbCrumb.exists_on (crumb : RbCrumb α) :
    ∃ side c v sibling, crumb = RbCrumb.on side c v sibling := by
  cases crumb with
  | left c v r => exact ⟨.left, c, v, r, rfl⟩
  | right c l v => exact ⟨.right, c, v, l, rfl⟩

namespace RbTree

variable {n : Nat} {l r t near far sibling : RbTree α} {side side' : Side} {c c' pc : RbColor}
  {v pv ov : α} {path : List (RbCrumb α)}

/-- A node whose child on `side` is `near`. -/
def branch (side : Side) (c : RbColor) (near : RbTree α) (v : α) (far : RbTree α) : RbTree α :=
  match side with
  | .left => .node c near v far
  | .right => .node c far v near

theorem branch_other (side : Side) (c : RbColor) (near far : RbTree α) (v : α) :
    branch side.other c far v near = branch side c near v far := by
  cases side <;> rfl

theorem node_eq_branch (side : Side) (c : RbColor) (l r : RbTree α) (v : α) :
    ∃ near far, RbTree.node c l v r = branch side c near v far := by
  cases side with
  | left => exact ⟨l, r, rfl⟩
  | right => exact ⟨r, l, rfl⟩

@[simp] theorem plug_on :
    t.plug (.on side c v sibling :: path) = (branch side c t v sibling).plug path := by
  cases side <;> rfl

@[simp] theorem blacken_branch :
    (branch side c near v far).blacken = branch side .black near v far := by
  cases side <;> rfl

@[simp] theorem isRed_branch : (branch side c near v far).isRed = decide (c = .red) := by
  cases side <;> cases c <;> rfl

@[simp] theorem isRed_node : (RbTree.node c l v r).isRed = decide (c = .red) := by
  cases c <;> rfl

@[simp] theorem plug_nil : t.plug [] = t := rfl

theorem plug_append (p q : List (RbCrumb α)) : t.plug (p ++ q) = (t.plug p).plug q := by
  induction p generalizing t with
  | nil => rfl
  | cons crumb p ih => exact ih

/-! ### Balance -/

inductive Balanced : RbTree α → RbColor → Nat → Prop where
  | leaf : Balanced .leaf .black 0
  | red {l r : RbTree α} {v : α} {n : Nat} :
      Balanced l .black n → Balanced r .black n → Balanced (.node .red l v r) .red n
  | black {l r : RbTree α} {v : α} {c c' : RbColor} {n : Nat} :
      Balanced l c n → Balanced r c' n → Balanced (.node .black l v r) .black (n + 1)

/-- A red-black tree: balanced, with a black root. -/
def RedBlack (t : RbTree α) : Prop := ∃ n, t.Balanced .black n

theorem Balanced.isRed_eq (balanced : t.Balanced c n) : t.isRed = decide (c = .red) := by
  cases balanced <;> rfl

theorem balanced_leaf : (leaf : RbTree α).Balanced c n ↔ c = .black ∧ n = 0 := by
  constructor
  · intro balanced
    cases balanced
    exact ⟨rfl, rfl⟩
  · rintro ⟨rfl, rfl⟩
    exact .leaf

theorem balanced_red :
    (branch side .red near v far).Balanced c n ↔
      c = .red ∧ near.Balanced .black n ∧ far.Balanced .black n := by
  cases side with
  | left =>
    constructor
    · intro balanced
      cases balanced with
      | red l r => exact ⟨rfl, l, r⟩
    · rintro ⟨rfl, near, far⟩
      exact .red near far
  | right =>
    constructor
    · intro balanced
      cases balanced with
      | red l r => exact ⟨rfl, r, l⟩
    · rintro ⟨rfl, near, far⟩
      exact .red far near

theorem balanced_black :
    (branch side .black near v far).Balanced c n ↔
      c = .black ∧ ∃ m, n = m + 1 ∧ (∃ c₁, near.Balanced c₁ m) ∧ ∃ c₂, far.Balanced c₂ m := by
  cases side with
  | left =>
    constructor
    · intro balanced
      cases balanced with
      | black l r => exact ⟨rfl, _, rfl, ⟨_, l⟩, ⟨_, r⟩⟩
    · rintro ⟨rfl, m, rfl, ⟨_, near⟩, ⟨_, far⟩⟩
      exact .black near far
  | right =>
    constructor
    · intro balanced
      cases balanced with
      | black l r => exact ⟨rfl, _, rfl, ⟨_, r⟩, ⟨_, l⟩⟩
    · rintro ⟨rfl, m, rfl, ⟨_, near⟩, ⟨_, far⟩⟩
      exact .black far near

/-- A balanced tree with a black on the way down has a root. -/
theorem Balanced.exists_branch (side : Side)
    (balanced : t.Balanced c (n + 1)) : ∃ near v far, t = branch side c near v far := by
  cases balanced with
  | red l r =>
    obtain ⟨near, far, same⟩ := node_eq_branch side .red _ _ _
    exact ⟨near, _, far, same⟩
  | black l r =>
    obtain ⟨near, far, same⟩ := node_eq_branch side .black _ _ _
    exact ⟨near, _, far, same⟩

theorem Balanced.exists_red (side : Side) (balanced : t.Balanced .red n) :
    ∃ near v far, t = branch side .red near v far := by
  cases balanced with
  | red l r =>
    obtain ⟨near, far, same⟩ := node_eq_branch side .red _ _ _
    exact ⟨near, _, far, same⟩

theorem Balanced.blacken_eq (balanced : t.Balanced .black n) : t.blacken = t := by
  cases balanced <;> rfl

theorem Balanced.blacken_red (balanced : t.Balanced .red n) :
    t.blacken.Balanced .black (n + 1) := by
  cases balanced with
  | red l r => exact .black l r

/-! ### Holes -/

def Opens : List (RbCrumb α) → RbColor → Nat → Prop
  | [], c, _ => c = .black
  | .left .red _ r :: path, c, n => c = .black ∧ r.Balanced .black n ∧ Opens path .red n
  | .right .red l _ :: path, c, n => c = .black ∧ l.Balanced .black n ∧ Opens path .red n
  | .left .black _ r :: path, _, n => (∃ c', r.Balanced c' n) ∧ Opens path .black (n + 1)
  | .right .black l _ :: path, _, n => (∃ c', l.Balanced c' n) ∧ Opens path .black (n + 1)

theorem opens_red :
    Opens (.on side .red v sibling :: path) c n ↔
      c = .black ∧ sibling.Balanced .black n ∧ Opens path .red n := by
  cases side <;> rfl

theorem opens_black :
    Opens (.on side .black v sibling :: path) c n ↔
      (∃ c', sibling.Balanced c' n) ∧ Opens path .black (n + 1) := by
  cases side <;> rfl

/-- A hole with room for a red root is under a black node. -/
theorem Opens.under_black (opens : Opens path .red n) :
    ∃ side v sibling rest c', path = .on side .black v sibling :: rest ∧
      sibling.Balanced c' n ∧ Opens rest .black (n + 1) := by
  cases path with
  | nil => cases opens
  | cons crumb rest =>
    obtain ⟨side, c, v, sibling, rfl⟩ := crumb.exists_on
    cases c with
    | red => exact absurd (opens_red.mp opens).1 (by decide)
    | black =>
      obtain ⟨⟨c', balanced⟩, opens'⟩ := opens_black.mp opens
      exact ⟨side, v, sibling, rest, c', rfl, balanced, opens'⟩

theorem Opens.of_red (c : RbColor) (opens : Opens path .red n) : Opens path c n := by
  obtain ⟨side, v, sibling, rest, c', rfl, balanced, opens'⟩ := opens.under_black
  exact opens_black.mpr ⟨⟨c', balanced⟩, opens'⟩

theorem Opens.to_black (opens : Opens path c n) : Opens path .black n := by
  cases c with
  | red => exact opens.of_red .black
  | black => exact opens

theorem Opens.plug (opens : Opens path c n) (balanced : t.Balanced c n) : (t.plug path).RedBlack := by
  induction path generalizing t c n with
  | nil =>
    cases opens
    exact ⟨n, balanced⟩
  | cons crumb path ih =>
    obtain ⟨side, pc, v, sibling, rfl⟩ := crumb.exists_on
    rw [plug_on]
    cases pc with
    | red =>
      obtain ⟨rfl, beside, opens'⟩ := opens_red.mp opens
      exact ih opens' (balanced_red.mpr ⟨rfl, balanced, beside⟩)
    | black =>
      obtain ⟨beside, opens'⟩ := opens_black.mp opens
      exact ih opens' (balanced_black.mpr ⟨rfl, n, rfl, ⟨c, balanced⟩, beside⟩)

/-- Taking a subtree out of a red-black tree leaves a hole for it. -/
theorem RedBlack.of_plug (whole : (t.plug path).RedBlack) :
    ∃ c n, t.Balanced c n ∧ Opens path c n := by
  induction path generalizing t with
  | nil =>
    obtain ⟨n, balanced⟩ := whole
    exact ⟨.black, n, balanced, rfl⟩
  | cons crumb path ih =>
    obtain ⟨side, pc, v, sibling, rfl⟩ := crumb.exists_on
    rw [plug_on] at whole
    obtain ⟨c, n, balanced, opens⟩ := ih whole
    cases pc with
    | red =>
      obtain ⟨rfl, here, beside⟩ := balanced_red.mp balanced
      exact ⟨.black, n, here, opens_red.mpr ⟨rfl, beside, opens⟩⟩
    | black =>
      obtain ⟨rfl, m, rfl, ⟨c', here⟩, beside⟩ := balanced_black.mp balanced
      exact ⟨c', m, here, opens_black.mpr ⟨beside, opens⟩⟩

/-! ### Insertion -/

/-- Where a red tree hangs: at the root, under a black node, or under a red node
that has a black parent. -/
inductive RedAt : List (RbCrumb α) → Nat → Prop where
  | root {n : Nat} : RedAt [] n
  | underBlack {side : Side} {v : α} {sibling : RbTree α} {path : List (RbCrumb α)} {n : Nat} :
      Opens (.on side .black v sibling :: path) .red n →
      RedAt (.on side .black v sibling :: path) n
  | underRed {side side' : Side} {pv gv : α} {sibling uncle : RbTree α} {c : RbColor}
      {path : List (RbCrumb α)} {n : Nat} :
      sibling.Balanced .black n → uncle.Balanced c n → Opens path .black (n + 1) →
      RedAt (.on side .red pv sibling :: .on side' .black gv uncle :: path) n

theorem Opens.redAt (opens : Opens path .black n) : RedAt path n := by
  cases path with
  | nil => exact .root
  | cons crumb path =>
    obtain ⟨side, pc, v, sibling, rfl⟩ := crumb.exists_on
    cases pc with
    | red =>
      obtain ⟨-, beside, opens'⟩ := opens_red.mp opens
      obtain ⟨side', gv, uncle, rest, c, rfl, balanced, rest'⟩ := opens'.under_black
      exact .underRed beside balanced rest'
    | black => exact .underBlack (opens_black.mpr (opens_black.mp opens))

section InsertCases

variable {uncle : RbTree α} {gv : α}

theorem rbInsertColor_black :
    rbInsertColor t (.on side .black v sibling :: path) =
      (t.plug (.on side .black v sibling :: path)).blacken := by
  cases path with
  | nil | cons => cases side <;> rfl

theorem rbInsertColor_redUncle (red : uncle.isRed = true) :
    rbInsertColor t (.on side .red pv sibling :: .on side' c gv uncle :: path) =
      rbInsertColor (branch side' .red (branch side .black t pv sibling) gv uncle.blacken) path := by
  cases side <;> cases side' <;> simp [RbCrumb.on, branch, rbInsertColor, red]

theorem rbInsertColor_outer (black : uncle.isRed = false) :
    rbInsertColor t (.on side .red pv sibling :: .on side c gv uncle :: path) =
      ((branch side .black t pv (branch side .red sibling gv uncle)).plug path).blacken := by
  cases side <;> simp [RbCrumb.on, branch, rbInsertColor, black]

theorem rbInsertColor_inner (black : uncle.isRed = false) :
    rbInsertColor (branch side c' near v far)
        (.on side.other .red pv sibling :: .on side c gv uncle :: path) =
      ((branch side .black (branch side .red sibling pv near) v
        (branch side .red far gv uncle)).plug path).blacken := by
  cases side <;> simp [RbCrumb.on, branch, rbInsertColor, black, Side.other]

end InsertCases

theorem RedBlack.blacken (redBlack : t.RedBlack) : t.blacken.RedBlack := by
  obtain ⟨n, balanced⟩ := redBlack
  exact ⟨n, by rwa [balanced.blacken_eq]⟩

/-- The parent moved up over the grandparent, with the node below it. -/
theorem balanced_rotated {side'' : Side} {uncle : RbTree α} {gv : α}
    (node : t.Balanced .black n) (sib : sibling.Balanced .black n)
    (inner : far.Balanced .black n) (outer : uncle.Balanced .black n) :
    (branch side .black (branch side' .red t v sibling) pv
      (branch side'' .red far gv uncle)).Balanced .black (n + 1) :=
  balanced_black.mpr ⟨rfl, n, rfl, ⟨.red, balanced_red.mpr ⟨rfl, node, sib⟩⟩,
    ⟨.red, balanced_red.mpr ⟨rfl, inner, outer⟩⟩⟩

/-- Rebalancing after an insertion makes a red-black tree of a red-black tree
whose hole is filled with a red tree. -/
theorem redBlack_rbInsertColor
    (red : t.Balanced .red n) (opens : Opens path .black n) : (rbInsertColor t path).RedBlack := by
  -- two crumbs go in a round
  induction length : path.length using Nat.strong_induction_on generalizing path t n with
  | _ k ih =>
    subst length
    cases opens.redAt with
    | root => exact ⟨n + 1, red.blacken_red⟩
    | underBlack opens' =>
      rw [rbInsertColor_black]
      exact (opens'.plug red).blacken
    | @underRed side side' pv gv sibling uncle c rest _ beside balanced rest' =>
      cases c with
      | red =>
        rw [rbInsertColor_redUncle (by simp [balanced.isRed_eq])]
        refine ih rest.length (by simp) ?_ rest' rfl
        exact balanced_red.mpr ⟨rfl,
          balanced_black.mpr ⟨rfl, n, rfl, ⟨.red, red⟩, ⟨.black, beside⟩⟩,
          balanced.blacken_red⟩
      | black =>
        have black : uncle.isRed = false := by simp [balanced.isRed_eq]
        rcases side'.eq_or_eq_other side with rfl | rfl
        · rw [rbInsertColor_outer black]
          obtain ⟨near, v, far, rfl⟩ := red.exists_red side
          obtain ⟨-, near', far'⟩ := balanced_red.mp red
          exact (rest'.plug (balanced_rotated near' far' beside balanced)).blacken
        · obtain ⟨near, v, far, rfl⟩ := red.exists_red side'
          obtain ⟨-, near', far'⟩ := balanced_red.mp red
          rw [rbInsertColor_inner black]
          exact (rest'.plug (balanced_rotated beside near' far' balanced)).blacken

/-! ### Erasure -/

/-- One round of `rbEraseColor` for a tree that is the child on `side`. -/
def eraseStep (side : Side) (t : RbTree α) (pc : RbColor) (pv : α) (other : RbTree α) :
    EraseStep α :=
  match side with
  | .left => eraseStepLeft t pc pv other
  | .right => eraseStepRight other pc pv t

section EraseCases

variable {nv : α}

theorem eraseStep_up (nearBlack : near.isRed = false) (farBlack : far.isRed = false) :
    eraseStep side t pc pv (branch side c near ov far) =
      .deficit (branch side pc t pv (branch side .red near ov far)) := by
  cases side <;> simp [eraseStep, branch, eraseStepLeft, eraseStepRight, nearBlack, farBlack]

theorem eraseStep_near {nn nf : RbTree α} (farBlack : far.isRed = false) :
    eraseStep side t pc pv (branch side c (branch side .red nn nv nf) ov far) =
      .settled (branch side pc (branch side .black t pv nn) nv (branch side .black nf ov far)) := by
  cases side <;> simp [eraseStep, branch, eraseStepLeft, eraseStepRight, farBlack]

theorem eraseStep_far (farRed : far.isRed = true) :
    eraseStep side t pc pv (branch side c near ov far) =
      .settled (branch side pc (branch side .black t pv near) ov far.blacken) := by
  cases side <;> simp [eraseStep, branch, eraseStepLeft, eraseStepRight, farRed]

theorem rbEraseColor_red (red : t.isRed = true) : rbEraseColor t path = t.blacken.plug path := by
  cases path with
  | nil => rfl
  | cons crumb path => cases crumb <;> simp [rbEraseColor, red]

theorem rbEraseColor_on (black : t.isRed = false) :
    rbEraseColor t (.on side pc pv (branch side .black near ov far) :: path) =
      match eraseStep side t pc pv (branch side .black near ov far) with
      | .settled u => (u.plug path).blacken
      | .deficit u => rbEraseColor u path := by
  have keeps : ¬t.isRed = true := by simp [black]
  -- A black sibling is not one that is rotated first.
  cases side with
  | left =>
    exact (rbEraseColor.eq_3 t pc pv (.node .black near ov far) path (by simp)).trans (if_neg keeps)
  | right =>
    exact (rbEraseColor.eq_5 t pc (.node .black far ov near) pv path (by simp)).trans (if_neg keeps)

/-- A red sibling is rotated over the parent, which turns red. What the round
then leaves is red, so the loop stops there. -/
theorem rbEraseColor_redSibling {nn nf : RbTree α} (black : t.isRed = false) :
    rbEraseColor t (.on side pc pv (branch side .red (branch side .black nn nv nf) ov far) :: path) =
      rbEraseColor t (.on side .red pv (branch side .black nn nv nf) ::
        .on side .black ov far :: path) := by
  cases side with
  | left =>
    simp only [RbCrumb.on, branch, rbEraseColor, black]
    fun_cases eraseStepLeft t .red pv (.node .black nn nv nf) <;> simp
  | right =>
    simp only [RbCrumb.on, branch, rbEraseColor, black]
    fun_cases eraseStepRight (.node .black nf nv nn) .red pv t <;> simp

end EraseCases

/-- The black height of a node over children of black height `n`. -/
def raise : RbColor → Nat → Nat
  | .red, n => n
  | .black, n => n + 1

/-- Where a tree hangs that is one black short of `n + 1`: at the root, or beside
a sibling, which is there because it has a black on the way down. -/
inductive ShortAt : List (RbCrumb α) → Nat → Prop where
  | root {n : Nat} : ShortAt [] n
  | blackSibling {side : Side} {pc c c' : RbColor} {pv ov : α} {near far : RbTree α}
      {path : List (RbCrumb α)} {n : Nat} :
      near.Balanced c n → far.Balanced c' n → Opens path pc (raise pc (n + 1)) →
      ShortAt (.on side pc pv (branch side .black near ov far) :: path) n
  | redSibling {side : Side} {c c' : RbColor} {pv ov nv : α} {nn nf far : RbTree α}
      {path : List (RbCrumb α)} {n : Nat} :
      nn.Balanced c n → nf.Balanced c' n → far.Balanced .black (n + 1) →
      Opens path .black (n + 2) →
      ShortAt (.on side .black pv (branch side .red (branch side .black nn nv nf) ov far) :: path) n

theorem Opens.shortAt (opens : Opens path .black (n + 1)) : ShortAt path n := by
  have blackSibling {side : Side} {pc : RbColor} {pv : α} {sibling : RbTree α}
      {path : List (RbCrumb α)} (beside : sibling.Balanced .black (n + 1))
      (opens : Opens path pc (raise pc (n + 1))) : ShortAt (.on side pc pv sibling :: path) n := by
    obtain ⟨near, ov, far, rfl⟩ := beside.exists_branch side
    obtain ⟨-, m, same, ⟨_, near'⟩, ⟨_, far'⟩⟩ := balanced_black.mp beside
    cases same
    exact .blackSibling near' far' opens
  cases path with
  | nil => exact .root
  | cons crumb path =>
    obtain ⟨side, pc, pv, sibling, rfl⟩ := crumb.exists_on
    cases pc with
    | red =>
      obtain ⟨-, beside, opens'⟩ := opens_red.mp opens
      exact blackSibling beside opens'
    | black =>
      obtain ⟨⟨c, beside⟩, opens'⟩ := opens_black.mp opens
      cases c with
      | black => exact blackSibling beside opens'
      | red =>
        obtain ⟨near, ov, far, rfl⟩ := beside.exists_branch side
        obtain ⟨-, near', far'⟩ := balanced_red.mp beside
        obtain ⟨nn, nv, nf, rfl⟩ := near'.exists_branch side
        obtain ⟨-, m, same, ⟨_, nn'⟩, ⟨_, nf'⟩⟩ := balanced_black.mp near'
        cases same
        exact .redSibling nn' nf' far' opens'

/-- A tree that is one black short of `n + 1`. A red root may have a red child:
it is about to turn black. -/
def Short (t : RbTree α) (n : Nat) : Prop :=
  t.Balanced .black n ∨ t.isRed = true ∧ t.blacken.Balanced .black (n + 1)

theorem Balanced.short (balanced : t.Balanced c n) : t.Short n := by
  cases c with
  | black => exact .inl balanced
  | red => exact .inr ⟨by simp [balanced.isRed_eq], balanced.blacken_red⟩

theorem balanced_settled {side'' : Side} {c₁ c₂ c₃ c₄ : RbColor}
    {a b d e : RbTree α} {v' v'' : α} (first : a.Balanced c₁ n)
    (second : b.Balanced c₂ n) (third : d.Balanced c₃ n) (fourth : e.Balanced c₄ n) :
    (branch side pc (branch side' .black a v b) v' (branch side'' .black d v'' e)).Balanced pc
      (raise pc (n + 1)) := by
  have near : (branch side' .black a v b).Balanced .black (n + 1) :=
    balanced_black.mpr ⟨rfl, n, rfl, ⟨c₁, first⟩, ⟨c₂, second⟩⟩
  have far : (branch side'' .black d v'' e).Balanced .black (n + 1) :=
    balanced_black.mpr ⟨rfl, n, rfl, ⟨c₃, third⟩, ⟨c₄, fourth⟩⟩
  cases pc with
  | red => exact balanced_red.mpr ⟨rfl, near, far⟩
  | black => exact balanced_black.mpr ⟨rfl, n + 1, rfl, ⟨.black, near⟩, ⟨.black, far⟩⟩

/-- The tree that a round with a black sibling hands upwards. -/
theorem short_up (short : t.Balanced .black n) (near' : near.Balanced .black n)
    (far' : far.Balanced .black n) (opens : Opens path pc (raise pc (n + 1))) :
    ∃ m, (branch side pc t pv (branch side' .red near ov far)).Short m ∧
      Opens path .black (m + 1) := by
  have sibling : (branch side' .red near ov far).Balanced .red n :=
    balanced_red.mpr ⟨rfl, near', far'⟩
  have black : (branch side .black t pv (branch side' .red near ov far)).Balanced .black (n + 1) :=
    balanced_black.mpr ⟨rfl, n, rfl, ⟨.black, short⟩, ⟨.red, sibling⟩⟩
  cases pc with
  | red => exact ⟨n, .inr ⟨by simp, by rwa [blacken_branch]⟩, opens.to_black⟩
  | black => exact ⟨n + 1, .inl black, opens⟩

theorem redBlack_rbEraseColor_red
    (red : t.isRed = true) (short : t.Short n) (opens : Opens path .black (n + 1)) :
    (rbEraseColor t path).RedBlack := by
  rw [rbEraseColor_red red]
  rcases short with balanced | ⟨-, balanced⟩
  · simp [balanced.isRed_eq] at red
  · exact opens.plug balanced

/-- A round beside a black sibling fills the hole, or hands on a tree that is one
black short. -/
theorem eraseStep_balanced (side : Side) (pv ov : α) (black : t.Balanced .black n)
    (near' : near.Balanced c n) (far' : far.Balanced c' n)
    (opens : Opens path pc (raise pc (n + 1))) :
    match eraseStep side t pc pv (branch side .black near ov far) with
    | .settled u => u.Balanced pc (raise pc (n + 1))
    | .deficit u => (pc = .red → u.isRed = true) ∧ ∃ m, u.Short m ∧ Opens path .black (m + 1) := by
  cases c' with
  | red =>
    rw [eraseStep_far (by simp [far'.isRed_eq])]
    obtain ⟨fn, fv, ff, rfl⟩ := far'.exists_red side
    obtain ⟨-, fn', ff'⟩ := balanced_red.mp far'
    rw [blacken_branch]
    exact balanced_settled black near' fn' ff'
  | black =>
    have farBlack : far.isRed = false := by simp [far'.isRed_eq]
    cases c with
    | red =>
      obtain ⟨nn, nv, nf, rfl⟩ := near'.exists_red side
      obtain ⟨-, nn', nf'⟩ := balanced_red.mp near'
      rw [eraseStep_near farBlack]
      exact balanced_settled black nn' nf' far'
    | black =>
      rw [eraseStep_up (by simp [near'.isRed_eq]) farBlack]
      exact ⟨fun red => by simp [red], short_up black near' far' opens⟩

/-- The round beside a black sibling, given what the rounds above it do. -/
theorem redBlack_blackSibling (black : t.Balanced .black n)
    (near' : near.Balanced c n) (far' : far.Balanced c' n)
    (opens : Opens path pc (raise pc (n + 1)))
    (above : ∀ (u : RbTree α) (m : Nat), (pc = .red → u.isRed = true) → u.Short m →
      Opens path .black (m + 1) → (rbEraseColor u path).RedBlack) :
    (rbEraseColor t (.on side pc pv (branch side .black near ov far) :: path)).RedBlack := by
  have notRed : t.isRed = false := by simp [black.isRed_eq]
  have round := eraseStep_balanced side pv ov black near' far' opens
  cases step : eraseStep side t pc pv (branch side .black near ov far) with
  | settled u =>
    rw [step] at round
    rw [rbEraseColor_on notRed, step]
    exact (opens.plug round).blacken
  | deficit u =>
    rw [step] at round
    obtain ⟨red, m, short, opens'⟩ := round
    rw [rbEraseColor_on notRed, step]
    exact above u m red short opens'

/-- Rebalancing after an erasure makes a red-black tree of a red-black tree whose
hole is filled with a tree that is one black short. -/
theorem redBlack_rbEraseColor
    (short : t.Short n) (opens : Opens path .black (n + 1)) : (rbEraseColor t path).RedBlack := by
  induction length : path.length generalizing path t n with
  | zero =>
    obtain rfl := List.length_eq_zero_iff.mp length
    rcases short with balanced | ⟨-, balanced⟩
    · exact ⟨n, by rwa [rbEraseColor, balanced.blacken_eq]⟩
    · exact ⟨n + 1, balanced⟩
  | succ k ih =>
    rcases short with black | red
    · cases opens.shortAt with
      | root => simp at length
      | blackSibling near' far' opens' =>
        refine redBlack_blackSibling black near' far' opens' fun u m _ short' opens'' => ?_
        exact ih short' opens'' (by simpa using length)
      | redSibling nn' nf' far' opens' =>
        rw [rbEraseColor_redSibling (by simp [black.isRed_eq])]
        refine redBlack_blackSibling black nn' nf' ?_ fun u m red short' opens'' => ?_
        · exact opens_black.mpr ⟨⟨.black, far'⟩, opens'⟩
        · exact redBlack_rbEraseColor_red (red rfl) short' opens''
    · exact redBlack_rbEraseColor_red red.1 (.inr red) opens

/-- Taking out a node that has at most one child. -/
theorem redBlack_splice (side : Side) (whole : ((branch side c .leaf v t).plug path).RedBlack) :
    (if c = .black then rbEraseColor t path else t.plug path).RedBlack := by
  obtain ⟨c', n, balanced, opens⟩ := whole.of_plug
  cases c with
  | red =>
    obtain ⟨rfl, -, child⟩ := balanced_red.mp balanced
    exact opens.to_black.plug child
  | black =>
    obtain ⟨rfl, m, rfl, -, ⟨_, child⟩⟩ := balanced_black.mp balanced
    exact redBlack_rbEraseColor child.short opens

theorem leftmost_plug :
    (node (leftmost c l v r path).1 .leaf (leftmost c l v r path).2.1
      (leftmost c l v r path).2.2.1).plug (leftmost c l v r path).2.2.2 =
        (node c l v r).plug path := by
  induction l generalizing c v r path with
  | leaf => rfl
  | node lc ll lv lr ihl _ => exact ihl

theorem leftmost_append (p q : List (RbCrumb α)) :
    leftmost c l v r (p ++ q) = ((leftmost c l v r p).1, (leftmost c l v r p).2.1,
      (leftmost c l v r p).2.2.1, (leftmost c l v r p).2.2.2 ++ q) := by
  induction l generalizing c v r p with
  | leaf => rfl
  | node lc ll lv lr ihl _ => exact ihl (.left c v r :: p)

/-- The way to the leftmost node goes through left children. -/
theorem leftmost_left {crumb : RbCrumb α} (mem : crumb ∈ (leftmost c l v r path).2.2.2) :
    crumb ∈ path ∨ ∃ c v r, crumb = .on .left c v r := by
  induction l generalizing c v r path with
  | leaf => exact .inl mem
  | node lc ll lv lr ihl _ =>
    rcases ihl mem with mem | left
    · rcases List.mem_cons.mp mem with rfl | mem
      · exact .inr ⟨c, v, r, rfl⟩
      · exact .inl mem
    · exact .inr left

/-- The balance of a tree does not depend on its values. -/
theorem Balanced.revalue (w : α)
    (balanced : (node c l v r).Balanced c' n) : (node c l w r).Balanced c' n := by
  cases balanced with
  | red l r => exact .red l r
  | black l r => exact .black l r

/-- The tree after the successor `y` has taken the place of `v`, still below it
too. -/
theorem redBlack_successor {sp : List (RbCrumb α)} {yr : RbTree α} {yc : RbColor}
    {y : α} (whole : ((node c l v r).plug path).RedBlack)
    (found : (node yc .leaf y yr).plug sp = r) :
    ((node yc .leaf y yr).plug (sp ++ .right c l y :: path)).RedBlack := by
  obtain ⟨c', n, balanced, opens⟩ := whole.of_plug
  rw [plug_append, found]
  exact opens.plug (balanced.revalue y)

/-- `unlink` for a node with two children, by the parts of its successor. -/
theorem unlink_successor (c rc : RbColor) (rl : RbTree α) (rv : α)
    (rr : RbTree α) (path : List (RbCrumb α)) (present : l ≠ .leaf) :
    ∃ yc y yr sp, leftmost rc rl rv rr [] = (yc, y, yr, sp) ∧
      (node yc .leaf y yr).plug sp = node rc rl rv rr ∧
      (∀ crumb ∈ sp, ∃ c v r, crumb = RbCrumb.on .left c v r) ∧
      unlink c l (node rc rl rv rr) path =
        if yc = .black then rbEraseColor yr (sp ++ .right c l y :: path)
        else yr.plug (sp ++ .right c l y :: path) := by
  refine ⟨_, _, _, _, rfl, leftmost_plug, ?_, ?_⟩
  · intro crumb mem
    rcases leftmost_left mem with absent | left
    · simp at absent
    · exact left
  · cases l with
    | leaf => exact absurd rfl present
    | node => rfl

theorem redBlack_unlink (whole : ((node c l v r).plug path).RedBlack) : (unlink c l r path).RedBlack := by
  cases l with
  | leaf => exact redBlack_splice .left whole
  | node lc ll lv lr =>
    cases r with
    | leaf => exact redBlack_splice .right whole
    | node rc rl rv rr =>
      obtain ⟨yc, y, yr, sp, -, found, -, unlinked⟩ :=
        unlink_successor (l := .node lc ll lv lr) c rc rl rv rr path (by simp)
      rw [unlinked]
      exact redBlack_splice .left (redBlack_successor whole found)

theorem redBlack_rbErase [DecidableEq α] {a : α} (redBlack : t.RedBlack) :
    (rbErase a t).RedBlack := by
  unfold rbErase
  split
  · rename_i c l r path found
    have whole := locate_plug found
    rw [plug_nil] at whole
    rw [whole] at redBlack
    exact redBlack_unlink redBlack
  · exact redBlack

/-! ### The three conditions -/

/-- No red node has a red child. -/
def NoRedRed : RbTree α → Prop
  | .leaf => True
  | .node c l _ r => (c = .red → l.isRed = false ∧ r.isRed = false) ∧ l.NoRedRed ∧ r.NoRedRed

/-- How many black nodes there are on the way to each leaf. -/
def blackCounts : RbTree α → List Nat
  | .leaf => [0]
  | .node c l _ r => (l.blackCounts ++ r.blackCounts).map (raise c)

theorem Balanced.conditions (balanced : t.Balanced c n) :
    t.NoRedRed ∧ ∀ k ∈ t.blackCounts, k = n := by
  induction balanced with
  | leaf => simp [NoRedRed, blackCounts]
  | red left right ihl ihr =>
    refine ⟨⟨fun _ => ⟨by simp [left.isRed_eq], by simp [right.isRed_eq]⟩, ihl.1, ihr.1⟩, ?_⟩
    simp only [blackCounts, mem_map, mem_append]
    rintro _ ⟨k, mem | mem, rfl⟩
    · exact ihl.2 k mem
    · exact ihr.2 k mem
  | black left right ihl ihr =>
    refine ⟨⟨fun red => absurd red (by decide), ihl.1, ihr.1⟩, ?_⟩
    simp only [blackCounts, mem_map, mem_append]
    rintro _ ⟨k, mem | mem, rfl⟩
    · exact congrArg (· + 1) (ihl.2 k mem)
    · exact congrArg (· + 1) (ihr.2 k mem)

/-- A red-black tree has a black root, no red node with a red child, and the same
number of black nodes on every way down. -/
theorem RedBlack.conditions (redBlack : t.RedBlack) :
    t.isRed = false ∧ t.NoRedRed ∧ ∃ n, ∀ k ∈ t.blackCounts, k = n := by
  obtain ⟨n, balanced⟩ := redBlack
  exact ⟨by simp [balanced.isRed_eq], balanced.conditions.1, n, balanced.conditions.2⟩

/-! ### Height -/

def height : RbTree α → Nat
  | .leaf => 0
  | .node _ l _ r => max l.height r.height + 1

theorem length_le_height (t : RbTree α) (path : List (RbCrumb α)) :
    path.length + t.height ≤ (t.plug path).height := by
  induction path generalizing t with
  | nil => simp
  | cons crumb path ih =>
    have up := ih (t.fill crumb)
    have here : t.height < (t.fill crumb).height := by
      cases crumb <;> simp only [fill, height] <;> omega
    rw [plug, length_cons]
    omega

/-- A balanced tree has all its blacks, and at most one red above each of them. -/
theorem Balanced.bounds (balanced : t.Balanced c n) :
    2 ^ n ≤ t.inorder.length + 1 ∧ t.height + (if c = .black then 1 else 0) ≤ 2 * n + 1 := by
  induction balanced with
  | leaf => simp [height]
  | red _ _ ihl ihr | black _ _ ihl ihr =>
    grind [inorder_node, length_append, length_cons, height]

/-- A red-black tree of fewer than `2 ^ k` elements is at most `2 * k` high. -/
theorem RedBlack.height_le {k : Nat} (redBlack : t.RedBlack)
    (small : t.inorder.length < 2 ^ k) : t.height ≤ 2 * k := by
  obtain ⟨n, balanced⟩ := redBlack
  obtain ⟨size, high⟩ := balanced.bounds
  have short : n ≤ k := by
    have : 2 ^ n ≤ 2 ^ k := by omega
    exact (Nat.pow_le_pow_iff_right (by decide)).mp this
  simp only [if_true] at high
  omega

end RbTree
end AndroidKernel.Lib
