import AndroidKernel.Lib.Refine
import AndroidKernel.Resources.Insert

/-!
Runs of calls on one resource tree.

The callers own the resources: they set the range of a resource that is not in the
tree, pass resources of the tree as parents, and put a resource into the tree once.
Then the tree is one of nested ranges in every state, as long as the range that
`adjust_resource` computes does not wrap; the function does not check that.
-/

namespace AndroidKernel.Resources

open Lib

inductive Call where
  | init (res : Ptr) (start stop : Size)
  | request (root new : Ptr)
  | release (old : Ptr)
  | allocate (root new : Ptr) (demand : Demand)
  | insert (parent new : Ptr)
  | insertExpandToFit (root new : Ptr)
  | adjust (res : Ptr) (start size : Size)

/-- A function that returns nothing. -/
def void (m : Prog Unit) : Prog Answer := do
  m
  return .ok

def Call.prog : Call → Prog Answer
  | .init res start stop => void (change res fun x => { x with start := start, stop := stop })
  | .request root new => requestResource root new
  | .release old => releaseResource old
  | .allocate root new demand => allocateResource root new demand
  | .insert parent new => insertResource parent new
  | .insertExpandToFit root new => void (insertResourceExpandToFit root new)
  | .adjust res start size => adjustResource res start size

def step (call : Call) (mem : Memory) : Answer × Memory :=
  match call.prog mem with
  | .ok (answer, mem') => (answer, mem')
  | .error fault => (.fault fault, mem)

/-! ### Resources of the tree -/

/-- Does the way up from the resource lead to `top`? -/
def climb (mem : Memory) (top : Ptr) : Nat → Ptr → Bool
  | 0, _ => false
  | rounds + 1, n => n = top || (n ≠ 0 && climb mem top rounds (mem n).parent)

def present (mem : Memory) (top n : Ptr) : Bool := climb mem top maxRounds n

section Present

variable {mem : Memory} {top n : Ptr} {kids : Ptr → List Ptr}

theorem climb_of_depth {k rounds : Nat} (nested : Nested mem top kids) (depth : Depth kids top k n)
    (enough : k < rounds) : climb mem top rounds n = true := by
  induction depth generalizing rounds with
  | root =>
    obtain ⟨rounds, rfl⟩ : ∃ m, rounds = m + 1 := ⟨rounds - 1, by omega⟩
    simp [climb]
  | @child k a c above member ih =>
    obtain ⟨rounds, rfl⟩ : ∃ m, rounds = m + 1 := ⟨rounds - 1, by omega⟩
    have inTree : InTree kids top a := ⟨k, above⟩
    have some := nested.ne_null (inTree.child member)
    rw [climb, nested.parent inTree member, ih (by omega), decide_eq_true some, Bool.and_true,
      Bool.or_true]

theorem inTree_of_climb {rounds : Nat} (held : Held mem top kids)
    (reached : climb mem top rounds n = true) : InTree kids top n := by
  induction rounds generalizing n with
  | zero => cases reached
  | succ rounds ih =>
    rw [climb, Bool.or_eq_true, Bool.and_eq_true, decide_eq_true_eq] at reached
    rcases reached with rfl | ⟨-, further⟩
    · exact .root
    · exact (ih further).child (held.owned.owned (ih further))

theorem Held.present_iff (held : Held mem top kids) : present mem top n = true ↔ InTree kids top n := by
  constructor
  · exact inTree_of_climb held
  · rintro ⟨k, depth⟩
    have := held.nested.depth_lt depth
    exact climb_of_depth held.nested depth (by omega)

end Present

/-! ### What callers keep to -/

/-- A resource that can be put into the tree. -/
def free (mem : Memory) (top new : Ptr) : Prop :=
  new ≠ 0 ∧ present mem top new = false ∧ (mem new).child = 0

/-- What each call asks of the state. Only `adjust` asks for more than a resource that
is in the tree or not: a range that does not wrap. -/
def Call.ok (top : Ptr) (mem : Memory) : Call → Prop
  | .init res _ _ => res ≠ 0 ∧ present mem top res = false
  | .request root new | .allocate root new _ | .insert root new =>
    present mem top root = true ∧ free mem top new
  | .insertExpandToFit root new =>
    present mem top root = true ∧ new ≠ 0 ∧ ((mem new).parent = 0 → free mem top new)
  | .release old => present mem top old = true ∧ old ≠ top
  | .adjust res start size => present mem top res = true ∧ res ≠ top ∧ start ≤ start + size - 1

instance decidableOk (top : Ptr) (mem : Memory) (call : Call) : Decidable (call.ok top mem) :=
  match call with
  | .init _ _ _ => inferInstanceAs (Decidable (_ ∧ _))
  | .request _ _ | .allocate _ _ _ | .insert _ _ => inferInstanceAs (Decidable (_ ∧ _ ∧ _ ∧ _))
  | .insertExpandToFit _ _ => inferInstanceAs (Decidable (_ ∧ _ ∧ (_ → _ ∧ _ ∧ _)))
  | .release _ => inferInstanceAs (Decidable (_ ∧ _))
  | .adjust _ _ _ => inferInstanceAs (Decidable (_ ∧ _ ∧ _))

/-- A root without children, and no links anywhere. -/
structure Initial (mem : Memory) (top : Ptr) : Prop where
  present : top ≠ 0
  ordered : (mem top).start ≤ (mem top).stop
  unlinked : ∀ n, (mem n).parent = 0 ∧ (mem n).child = 0

section Runs

variable {mem mem' : Memory} {top n : Ptr} {kids : Ptr → List Ptr} {call : Call}

theorem Initial.held (initial : Initial mem top) : Held mem top fun _ => [] := by
  have only : ∀ {n}, InTree (fun _ => []) top n → n = top := by
    rintro n ⟨k, depth⟩
    cases depth with
    | root => rfl
    | child _ member => cases member
  have nested : Nested mem top fun _ => [] := by
    constructor
    case present => exact initial.present
    case root => exact (initial.unlinked top).1
    case ordered =>
      intro n inTree
      rw [only inTree]
      exact initial.ordered
    case list => exact fun {n} _ => (initial.unlinked n).2
    case parent => exact fun _ member => absurd member List.not_mem_nil
    case inside => exact fun _ member => absurd member List.not_mem_nil
    case sorted => exact fun _ => .nil
  refine ⟨nested, ?_, ?_⟩
  · intro x there
    rw [(initial.unlinked x).1] at there
    exact absurd rfl (nested.ne_null there)
  · intro n x some _ own
    rw [(initial.unlinked x).1] at own
    exact some own.symm

theorem Held.fresh {new : Ptr} (held : Held mem top kids) (unused : free mem top new) :
    Fresh mem top kids new := by
  obtain ⟨some, absent, childless⟩ := unused
  refine ⟨some, fun there => ?_, childless⟩
  rw [held.present_iff.mpr there] at absent
  cases absent

/-- What a call leaves: a tree, the same one when it reports a conflict. -/
structure Keeps (mem : Memory) (top : Ptr) (kids : Ptr → List Ptr) (answer : Answer)
    (mem' : Memory) : Prop where
  returns : ∀ fault, answer ≠ .fault fault
  tree : ∃ kids', Held mem' top kids'
  busy : answer = .ebusy → ∀ n, InTree kids top n → mem' n = mem n

theorem Answered.keeps {answer : Answer} (answered : Answered mem top kids answer mem') :
    Keeps mem top kids answer mem' := by
  rcases answered with ⟨rfl, tree⟩ | ⟨rfl, held, same⟩
  · exact ⟨nofun, tree, nofun⟩
  · exact ⟨nofun, ⟨kids, held⟩, fun _ => same⟩

theorem void_keeps {m : Prog Unit} {never : Fault → Prop}
    (run : wp m (fun _ mem' => ∃ kids', Held mem' top kids') never mem) :
    wp (void m) (Keeps mem top kids) never mem := by
  rw [void, wp_bind]
  exact run.returns fun _ mem' tree => ⟨nofun, tree, nofun⟩

theorem Call.prog_spec {never : Fault → Prop} (held : Held mem top kids) (allowed : call.ok top mem) :
    wp call.prog (Keeps mem top kids) never mem := by
  cases call with
  | init res start stop =>
    obtain ⟨some, absent⟩ := allowed
    refine void_keeps ((wp_change some).mpr ⟨kids, ?_⟩)
    have ranged : Ranged mem
        (Function.update mem res { mem res with start := start, stop := stop }) res := by
      refine ⟨fun n other => Function.update_of_ne other .., ?_⟩
      rw [Function.update_self]
      exact ⟨rfl, rfl, rfl⟩
    refine ranged.held held fun there => ?_
    rw [held.present_iff.mpr there] at absent
    cases absent
  | request root new =>
    obtain ⟨there, unused⟩ := allowed
    exact (requestResource_spec held (held.present_iff.mp there) (held.fresh unused)).returns
      fun _ _ answered => answered.keeps
  | release old =>
    obtain ⟨there, other⟩ := allowed
    refine (releaseResource_spec held (held.present_iff.mp there) other).returns ?_
    rintro _ mem' ⟨rfl, tree⟩
    exact ⟨nofun, tree, nofun⟩
  | allocate root new demand =>
    obtain ⟨there, unused⟩ := allowed
    exact (allocateResource_spec held (held.present_iff.mp there) (held.fresh unused)).returns
      fun _ _ answered => answered.keeps
  | insert parent new =>
    obtain ⟨there, unused⟩ := allowed
    exact (insertResource_spec held (held.present_iff.mp there) (held.fresh unused)).returns
      fun _ _ answered => answered.keeps
  | insertExpandToFit root new =>
    obtain ⟨there, some, unused⟩ := allowed
    exact void_keeps (insertResourceExpandToFit_spec held (held.present_iff.mp there)
      (fun orphan => held.fresh (unused orphan)) some)
  | adjust res start size =>
    obtain ⟨there, other, range⟩ := allowed
    exact (adjustResource_spec held (held.present_iff.mp there) other range).returns
      fun _ _ answered => answered.keeps

theorem step_keeps (held : Held mem top kids) (allowed : call.ok top mem) :
    Keeps mem top kids (step call mem).1 (step call mem).2 := by
  obtain ⟨answer, mem', result, kept⟩ := (call.prog_spec held allowed).total
  unfold step
  rwa [result]

/-- Every call keeps the tree, as a simulation of the system that has no state but the
lists of children. -/
theorem step_implements :
    Implements step (fun _ _ answer _ => ∀ fault, answer ≠ .fault fault) (fun mem call => call.ok top mem)
      fun mem kids => Held mem top kids := by
  intro mem kids call held allowed
  have kept := step_keeps held allowed
  obtain ⟨kids', held'⟩ := kept.tree
  exact ⟨kids', kept.returns, held'⟩

/-- In every state that calls lead to, the tree is one of nested ranges, and the next
call returns, with the resources of the tree unchanged if it reports a conflict. -/
theorem resource_tree_nested (calls : List Call) (initial : Initial mem top)
    (allowed : Admits step (fun mem call => call.ok top mem) calls mem) :
    (∃ kids, Nested (answers step calls mem).2 top kids ∧
      ∀ n, present (answers step calls mem).2 top n = true ↔ InTree kids top n) ∧
    ∀ call : Call, call.ok top (answers step calls mem).2 →
      (∀ fault, (step call (answers step calls mem).2).1 ≠ .fault fault) ∧
      ((step call (answers step calls mem).2).1 = .ebusy →
        ∀ n, present (answers step calls mem).2 top n = true →
          (step call (answers step calls mem).2).2 n = (answers step calls mem).2 n) := by
  obtain ⟨kids, -, held⟩ := step_implements.run initial.held allowed
  refine ⟨⟨kids, held.nested, fun n => held.present_iff⟩, fun call ok => ?_⟩
  have kept := step_keeps held ok
  exact ⟨kept.returns, fun busy n there => kept.busy busy n (held.present_iff.mp there)⟩

end Runs

/-! ### A run -/

/-- A root from 0 to 100. -/
def smallRoot : Memory := fun n => if n = 1 then ⟨0, 100, 0, 0, 0⟩ else ⟨0, 0, 0, 0, 0⟩

/-- A resource with another one inside, and a third that is expanded over both. -/
def smallCalls : List Call :=
  [.init 2 10 20, .request 1 2, .init 3 12 15, .request 2 3, .init 4 18 30, .insertExpandToFit 1 4,
    .adjust 4 5 40]

theorem smallRoot_initial : Initial smallRoot 1 := by
  refine ⟨by decide, by decide, fun n => ?_⟩
  unfold smallRoot
  split <;> exact ⟨rfl, rfl⟩

/-- The third resource is around the first one, which cannot be moved out of it. -/
theorem resource_tree_nested_small :
    (answers step smallCalls smallRoot).1 = [.ok, .ok, .ok, .ok, .ok, .ok, .ok] ∧
    (∃ kids, Nested (answers step smallCalls smallRoot).2 1 kids ∧ InTree kids 1 3) ∧
    (step (.adjust 2 50 10) (answers step smallCalls smallRoot).2).1 = .ebusy ∧
    ∀ n, present (answers step smallCalls smallRoot).2 1 n = true →
      (step (.adjust 2 50 10) (answers step smallCalls smallRoot).2).2 n =
        (answers step smallCalls smallRoot).2 n := by
  obtain ⟨⟨kids, nested, inTree⟩, next⟩ :=
    resource_tree_nested smallCalls smallRoot_initial (by decide +kernel)
  have busy : (step (.adjust 2 50 10) (answers step smallCalls smallRoot).2).1 = .ebusy := by
    decide +kernel
  exact ⟨by decide +kernel, ⟨kids, nested, (inTree 3).mp (by decide +kernel)⟩, busy,
    (next (.adjust 2 50 10) (by decide +kernel)).2 busy⟩

/-- With the size 0, a range that ends before it starts is granted. -/
theorem adjust_not_nested :
    (answers step [.init 2 10 20, .request 1 2, .adjust 2 30 0] smallRoot).1 = [.ok, .ok, .ok] ∧
    ∀ kids, ¬Nested (answers step [.init 2 10 20, .request 1 2, .adjust 2 30 0] smallRoot).2 1 kids := by
  refine ⟨by decide +kernel, ?_⟩
  generalize eq : (answers step [.init 2 10 20, .request 1 2, .adjust 2 30 0] smallRoot).2 = mem
  have child : (mem 1).child = 2 ∧ (mem 2).stop < (mem 2).start := by
    rw [← eq]
    decide +kernel
  intro kids nested
  have list := nested.list .root
  rw [child.1] at list
  cases listed : kids 1 with
  | nil =>
    rw [listed] at list
    cases list
  | cons x rest =>
    rw [listed] at list
    obtain ⟨rfl, -⟩ := list
    have member : (2 : Ptr) ∈ kids 1 := by
      rw [listed]
      exact List.mem_cons_self
    have := nested.ordered (InTree.root.child member)
    bv_omega

end AndroidKernel.Resources
