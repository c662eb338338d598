import Mathlib

/-!
Nested synchronous calls between threads.

A call is made by a thread, waits in a queue, is worked on by a thread, and ends
when its result is sent back; a thread that works on a call may make further
ones. Each call lies on the stack of its caller and, while a thread works on it,
on the stack of that thread. A queue may belong to one thread, which then has to
be a thread that waits for a call from which the queued one descends: a call that
comes back.

`CallState.Inv` is the invariant of such a system and `push`, `take`, `leave`,
`finish` and `exit` are its transitions. The two facts that carry the rest are
that the descendants of a call form a path (`Inv.path`) and that a call without
a child is the top of its caller's stack (`Inv.top_of_childless`). A thread may
go away in the middle of a call, so a call may have lost its caller or whoever
worked on it.
-/

namespace AndroidKernel.Lib

open List Function

/-- Where a call is: in a queue, worked on by a thread, or neither. -/
inductive Place (τ η : Type) where
  | queued (q : η)
  | active (x : τ)
  | gone
deriving DecidableEq

/-- `parent t` is the call during which `t` was made. -/
structure CallState (τ κ η : Type) where
  alive : τ → Prop
  live : κ → Prop
  parent : κ → Option κ
  caller : κ → Option τ
  place : κ → Place τ η
  stack : τ → List κ

namespace CallState

variable {τ κ η : Type} {l : List κ}

def Child (A : CallState τ κ η) (p c : κ) : Prop := A.live c ∧ A.parent c = some p

/-- `b` is a proper ancestor of `t`. -/
def Ancestor (A : CallState τ κ η) : κ → κ → Prop := Relation.TransGen A.Child

/-- `t` may lie on the stack of `x` with `below` under it. A call that `x` made
lies on the one it works on, a call that `x` works on lies on one it waits for. -/
def Over (A : CallState τ κ η) (x : τ) (t : κ) (below : Option κ) : Prop :=
  (A.caller t = some x ∧ A.parent t = below ∧ ∀ u, below = some u → A.place u = .active x) ∨
    (A.place t = .active x ∧ ∀ u, below = some u → A.caller u = some x ∧ A.Ancestor u t)

def Linked (A : CallState τ κ η) (x : τ) : List κ → Prop
  | [] => True
  | t :: l => A.Over x t l.head? ∧ A.Linked x l

/-- The invariant. `owner` says which queues belong to a thread; the queue of
thread `dying` is exempt, because its calls are about to be dropped. -/
structure Inv [LinearOrder κ] (A : CallState τ κ η) (owner : η → Option τ) (dying : Option τ) :
    Prop where
  parent_live : ∀ t p, A.Child p t → A.live p ∧ p < t ∧ ∀ q, A.place p ≠ .queued q
  only_child : ∀ t t' p, A.Child p t → A.Child p t' → t = t'
  child_caller : ∀ t p, A.Child p t → (∀ x, A.caller t = some x → A.place p = .active x) ∧
    (A.caller t = none → A.place p = .gone)
  active_mem : ∀ t x, A.live t → A.place t = .active x → A.alive x ∧ t ∈ A.stack x
  caller_mem : ∀ t x, A.live t → A.caller t = some x → A.alive x ∧ t ∈ A.stack x
  caller_ne : ∀ t x, A.live t → A.caller t = some x →
    A.place t ≠ .active x ∧ ∀ q, A.place t = .queued q → owner q ≠ some x
  stack_live : ∀ x t, t ∈ A.stack x → A.live t
  stack_dead : ∀ x, ¬A.alive x → A.stack x = []
  linked : ∀ x, A.Linked x (A.stack x)
  queued_top : ∀ t q x, A.live t → A.place t = .queued q → owner q = some x → dying ≠ some x →
    A.alive x ∧ ∃ b, (A.stack x).head? = some b ∧ A.caller b = some x ∧ A.Ancestor b t

section Ancestors

variable {A : CallState τ κ η} {x : τ} {t u b : κ}

theorem Ancestor.has_child (ancestor : A.Ancestor b t) : ∃ c, A.Child b c := by
  induction ancestor with
  | single child => exact ⟨_, child⟩
  | tail _ _ ih => exact ih

/-- What lies below a call on a stack is an ancestor of it. -/
theorem Over.ancestor (live : A.live t) (lies : A.Over x t (some u)) : A.Ancestor u t := by
  rcases lies with ⟨_, parent, _⟩ | ⟨_, below⟩
  · exact .single ⟨live, parent⟩
  · exact (below u rfl).2

theorem Linked.ancestor (live : ∀ t ∈ l, A.live t) (linked : A.Linked x l) :
    l.Pairwise fun t u => A.Ancestor u t := by
  induction l with
  | nil => exact .nil
  | cons t l ih =>
    obtain ⟨lies, linked⟩ := linked
    have rest := ih (fun u mem => live u (mem_cons_of_mem _ mem)) linked
    refine pairwise_cons.mpr ⟨fun u mem => ?_, rest⟩
    cases l with
    | nil => cases mem
    | cons v l =>
      have first : A.Ancestor v t := lies.ancestor (live t mem_cons_self)
      rcases mem_cons.mp mem with rfl | mem
      · exact first
      · exact ((pairwise_cons.mp rest).1 u mem).trans first

theorem Linked.end_of_mem (linked : A.Linked x l) (mem : t ∈ l) :
    A.caller t = some x ∨ A.place t = .active x := by
  induction l with
  | nil => cases mem
  | cons v l ih =>
    obtain ⟨lies, linked⟩ := linked
    rcases mem_cons.mp mem with rfl | mem
    · exact lies.imp And.left And.left
    · exact ih linked mem

theorem Linked.over_split {pre rest : List κ} (linked : A.Linked x (pre ++ t :: rest)) :
    A.Over x t rest.head? := by
  induction pre with
  | nil => exact linked.1
  | cons v pre ih => exact ih linked.2

/-- A stack is still linked when its calls keep what they are on it. -/
theorem Linked.mono {A' : CallState τ κ η} (linked : A.Linked x l)
    (caller : ∀ t ∈ l, A.caller t = some x → A'.caller t = some x)
    (place : ∀ t ∈ l, A.place t = .active x → A'.place t = .active x)
    (parent : ∀ t ∈ l, A'.parent t = A.parent t)
    (ancestor : ∀ u t, t ∈ l → A.Ancestor u t → A'.Ancestor u t) : A'.Linked x l := by
  induction l with
  | nil => trivial
  | cons t l ih =>
    obtain ⟨lies, linked⟩ := linked
    refine ⟨?_, ih linked (fun t mem => caller t (mem_cons_of_mem _ mem))
      (fun t mem => place t (mem_cons_of_mem _ mem))
      (fun t mem => parent t (mem_cons_of_mem _ mem))
      (fun u t mem => ancestor u t (mem_cons_of_mem _ mem))⟩
    have below : ∀ u, l.head? = some u → u ∈ t :: l :=
      fun u top => mem_cons_of_mem _ (mem_of_head? top)
    rcases lies with ⟨isCaller, isParent, rest⟩ | ⟨isActive, rest⟩
    · exact .inl ⟨caller t mem_cons_self isCaller,
        (parent t mem_cons_self).trans isParent,
        fun u top => place u (below u top) (rest u top)⟩
    · exact .inr ⟨place t mem_cons_self isActive, fun u top =>
        ⟨caller u (below u top) (rest u top).1, ancestor u t mem_cons_self (rest u top).2⟩⟩

theorem Ancestor.mono {A' : CallState τ κ η} (child : ∀ p c, A.Child p c → A'.Child p c)
    (ancestor : A.Ancestor b t) : A'.Ancestor b t :=
  Relation.TransGen.mono child _ _ ancestor

end Ancestors

namespace Inv

variable [LinearOrder κ] {A : CallState τ κ η} {owner : η → Option τ} {dying : Option τ}
  {x y : τ} {t u b c : κ}

section

variable (inv : A.Inv owner dying)

include inv

theorem ancestor_lt (ancestor : A.Ancestor b t) : b < t := by
  induction ancestor with
  | single child => exact (inv.parent_live _ _ child).2.1
  | tail _ child ih => exact lt_trans ih (inv.parent_live _ _ child).2.1

/-- The descendants of a call form a path. -/
theorem path (first : Relation.ReflTransGen A.Child b t)
    (second : Relation.ReflTransGen A.Child b u) :
    Relation.ReflTransGen A.Child t u ∨ Relation.ReflTransGen A.Child u t :=
  Relation.ReflTransGen.total_of_right_unique
    (fun _ _ _ child child' => inv.only_child _ _ _ child child') first second

/-- If the path ends in `u`, every call on it leads to `u`. -/
theorem path_to_end (first : Relation.ReflTransGen A.Child b t)
    (second : Relation.ReflTransGen A.Child b u) (childless : ∀ c, ¬A.Child u c) :
    Relation.ReflTransGen A.Child t u := by
  rcases inv.path first second with up | down
  · exact up
  · rcases Relation.ReflTransGen.cases_head down with rfl | ⟨c, child, _⟩
    · exact .refl
    · exact absurd child (childless c)

theorem stack_ancestor (x : τ) : (A.stack x).Pairwise fun t u => A.Ancestor u t :=
  (inv.linked x).ancestor fun t mem => inv.stack_live x t mem

/-- The other calls on a stack are ancestors of its top. -/
theorem stack_nodup (x : τ) : (A.stack x).Nodup :=
  (inv.stack_ancestor x).imp fun ancestor => ne_of_gt (inv.ancestor_lt ancestor)

section

variable (top : (A.stack x).head? = some t)
include top

theorem top_descends (mem : u ∈ A.stack x) : Relation.ReflTransGen A.Child u t := by
  have pairwise := inv.stack_ancestor x
  obtain ⟨l, stack⟩ := head?_eq_some_iff.mp top
  rw [stack] at mem pairwise
  rcases mem_cons.mp mem with rfl | mem
  · exact .refl
  · exact ((pairwise_cons.mp pairwise).1 u mem).to_reflTransGen

omit top in
/-- A call without a child is the top of every stack it lies on. -/
theorem top_of_childless (mem : t ∈ A.stack x) (childless : ∀ c, ¬A.Child t c) :
    (A.stack x).head? = some t := by
  cases top : (A.stack x).head? with
  | none =>
    rw [head?_eq_none_iff.mp top] at mem
    cases mem
  | some v =>
    rcases Relation.ReflTransGen.cases_head (inv.top_descends top mem) with rfl | ⟨c, child, _⟩
    · rfl
    · exact absurd child (childless c)

theorem top_over : A.caller t = some x ∨ A.place t = .active x :=
  (inv.linked x).end_of_mem (mem_of_head? top)

/-- Under the last call a thread made lies the one it made it for. -/
theorem parent_of_top (caller : A.caller t = some x) : A.parent t = (A.stack x).tail.head? := by
  obtain ⟨rest, stack⟩ := head?_eq_some_iff.mp top
  have linked := inv.linked x
  have live := inv.stack_live x t (mem_of_head? top)
  rw [stack] at linked ⊢
  rcases linked.1 with ⟨_, parent, _⟩ | ⟨active, _⟩
  · exact parent
  · exact absurd active (inv.caller_ne t x live caller).1

/-- A call that the thread on top of whose stack it lies works on has no child. -/
theorem childless_of_top (active : A.place t = .active x) : ∀ c, ¬A.Child t c := by
  intro c child
  have above : t < c := (inv.parent_live c t child).2.1
  cases caller : A.caller c with
  | none =>
    rw [(inv.child_caller c t child).2 caller] at active
    cases active
  | some y =>
    have active' := (inv.child_caller c t child).1 y caller
    rw [active] at active'
    cases active'
    have mem := (inv.caller_mem c x child.1 caller).2
    rcases Relation.reflTransGen_iff_eq_or_transGen.mp (inv.top_descends top mem) with same | up
    · exact absurd same (ne_of_lt above)
    · exact absurd (inv.ancestor_lt up) (lt_asymm above)

end

/-- A call that comes back: while `x` works on `u`, another thread that made a
call from which `u` descends waits for such a call. -/
theorem route (top : (A.stack x).head? = some u)
    (active : A.place u = .active x) (descends : Relation.ReflTransGen A.Child b u)
    (live : A.live b) (caller : A.caller b = some y) (differs : y ≠ x) :
    A.alive y ∧ ∃ v, (A.stack y).head? = some v ∧ A.caller v = some y ∧
      Relation.ReflTransGen A.Child v u := by
  obtain ⟨alive, mem⟩ := inv.caller_mem b y live caller
  refine ⟨alive, ?_⟩
  cases topY : (A.stack y).head? with
  | none =>
    rw [head?_eq_none_iff.mp topY] at mem
    cases mem
  | some v =>
    have onPath : Relation.ReflTransGen A.Child v u :=
      inv.path_to_end (inv.top_descends topY mem) descends (inv.childless_of_top top active)
    refine ⟨v, rfl, ?_, onPath⟩
    rcases inv.top_over topY with caller | activeY
    · exact caller
    -- Then `v` has no child either, so it is `u`, on which `x` works.
    rcases Relation.ReflTransGen.cases_head onPath with rfl | ⟨c, child, _⟩
    · rw [active] at activeY
      cases activeY
      exact absurd rfl differs
    · exact absurd child (inv.childless_of_top topY activeY c)

end

/-- The queue of the thread that went away is empty. -/
theorem settle (inv : A.Inv owner (some x))
    (empty : ∀ t q, A.live t → A.place t = .queued q → owner q ≠ some x) : A.Inv owner none := by
  refine { inv with queued_top := fun t q y live place owned _ => ?_ }
  refine inv.queued_top t q y live place owned ?_
  rintro same
  cases same
  exact empty t q live place owned

end Inv

/-! ### Transitions -/

section Transitions

variable [DecidableEq τ] [LinearOrder κ] {A : CallState τ κ η} {owner : η → Option τ}
  {dying : Option τ} {x : τ} {t : κ} {q : η}

attribute [local grind →] Inv.active_mem Inv.caller_mem Inv.caller_ne Inv.stack_live Inv.stack_dead
attribute [local grind =] update_apply

/-- Thread `x` makes call `t`, which goes into queue `q`. -/
def push (A : CallState τ κ η) (x : τ) (t : κ) (q : η) : CallState τ κ η where
  alive := A.alive
  live := update A.live t True
  parent := update A.parent t (A.stack x).head?
  caller := update A.caller t (some x)
  place := update A.place t (.queued q)
  stack := update A.stack x (t :: A.stack x)

theorem Inv.push (inv : A.Inv owner dying) (alive : A.alive x) (fresh : ∀ c, A.live c → c < t)
    (top : ∀ u, (A.stack x).head? = some u → A.place u = .active x)
    (target : ∀ y, owner q = some y → A.alive y ∧ y ≠ x ∧ ∃ v u, (A.stack y).head? = some v ∧
      A.caller v = some y ∧ (A.stack x).head? = some u ∧ Relation.ReflTransGen A.Child v u) :
    (A.push x t q).Inv owner dying := by
  have differs : ∀ c, A.live c → c ≠ t := fun c live => ne_of_lt (fresh c live)
  have old : ∀ p c, A.Child p c → (A.push x t q).Child p c := fun p c child => by
    have ne := differs c child.1
    exact ⟨by simpa [CallState.push, ne] using child.1, by simpa [CallState.push, ne] using child.2⟩
  have child : ∀ p c, (A.push x t q).Child p c →
      A.Child p c ∨ (c = t ∧ (A.stack x).head? = some p) := by
    rintro p c ⟨live, parent⟩
    by_cases same : c = t
    · subst same
      exact .inr ⟨rfl, by simpa [CallState.push] using parent⟩
    · exact .inl ⟨by simpa [CallState.push, same] using live,
        by simpa [CallState.push, same] using parent⟩
  have topLive : ∀ u, (A.stack x).head? = some u → A.live u :=
    fun u isTop => inv.stack_live x u (mem_of_head? isTop)
  constructor
  case parent_live =>
    intro c p isChild
    rcases child p c isChild with before | ⟨rfl, isTop⟩
    · obtain ⟨live, lt, unqueued⟩ := inv.parent_live c p before
      have ne := differs p live
      exact ⟨by simpa [CallState.push, ne] using live, lt,
        by simpa [CallState.push, ne] using unqueued⟩
    · have ne := differs p (topLive p isTop)
      exact ⟨by simpa [CallState.push, ne] using topLive p isTop, fresh p (topLive p isTop),
        by simp [CallState.push, ne, top p isTop]⟩
  case only_child =>
    intro c c' p isChild isChild'
    rcases child p c isChild with before | ⟨rfl, isTop⟩ <;>
      rcases child p c' isChild' with before' | ⟨same, isTop'⟩
    · exact inv.only_child c c' p before before'
    · exact absurd before (inv.childless_of_top isTop' (top p isTop') c)
    · exact absurd before' (inv.childless_of_top isTop (top p isTop) c')
    · exact same.symm
  case child_caller =>
    intro c p isChild
    rcases child p c isChild with before | ⟨rfl, isTop⟩
    · have ne := differs p (inv.parent_live c p before).1
      simpa [CallState.push, ne, differs c before.1] using inv.child_caller c p before
    · have ne := differs p (topLive p isTop)
      simp [CallState.push, ne, top p isTop]
  case linked =>
    intro y
    have before : (A.push x t q).Linked y (A.stack y) := by
      have ne : ∀ c ∈ A.stack y, c ≠ t := fun c mem => differs c (inv.stack_live y c mem)
      refine (inv.linked y).mono (fun c mem => ?_) (fun c mem => ?_) (fun c mem => ?_)
        (fun u c _ => Ancestor.mono old) <;> simp [CallState.push, ne c mem]
    by_cases isX : y = x
    · subst isX
      have stack : (A.push y t q).stack y = t :: A.stack y := by simp [CallState.push]
      rw [stack]
      refine ⟨.inl ⟨by simp [CallState.push], by simp [CallState.push], fun u isTop => ?_⟩, before⟩
      simpa [CallState.push, differs u (topLive u isTop)] using top u isTop
    · have stack : (A.push x t q).stack y = A.stack y := by simp [CallState.push, isX]
      rwa [stack]
  case queued_top =>
    intro c q' y live place owned notDying
    by_cases same : c = t
    · subst same
      have isQ : q = q' := by simpa [CallState.push] using place
      subst isQ
      obtain ⟨aliveY, isX, v, u, topY, caller, isTop, descends⟩ := target y owned
      have ne := differs v (inv.stack_live y v (mem_of_head? topY))
      refine ⟨aliveY, v, by simpa [CallState.push, isX] using topY,
        by simpa [CallState.push, ne] using caller, ?_⟩
      have newest : (A.push x c q).Child u c := by simp [CallState.push, Child, isTop]
      exact Relation.TransGen.tail' (Relation.ReflTransGen.mono old _ _ descends) newest
    · simp only [CallState.push, update_of_ne same] at live place
      obtain ⟨aliveY, v, topY, caller, ancestor⟩ := inv.queued_top c q' y live place owned notDying
      have ne := differs v (inv.stack_live y v (mem_of_head? topY))
      refine ⟨aliveY, v, ?_, by simpa [CallState.push, ne] using caller, ancestor.mono old⟩
      -- A thread with a call in its queue waits for a call, so it makes none.
      have isX : y ≠ x := by
        rintro rfl
        have active := top v topY
        exact (inv.caller_ne v y (inv.stack_live y v (mem_of_head? topY)) caller).1 active
      simpa [CallState.push, isX] using topY
  all_goals
    simp only [CallState.push] at *
    grind

/-- Another place for the call `t`, and other stacks. -/
def move (A : CallState τ κ η) (t : κ) (p : Place τ η) (stack : τ → List κ) : CallState τ κ η :=
  { A with place := update A.place t p, stack := stack }

section Move

variable {p : Place τ η} {stack : τ → List κ}

omit [DecidableEq τ] in
theorem Linked.move (linked : A.Linked x l)
    (apart : ∀ c ∈ l, A.place c = .active x → c ≠ t) : (A.move t p stack).Linked x l := by
  refine linked.mono (fun _ _ => id) (fun c mem active => ?_) (fun _ _ => rfl) (fun _ _ _ => id)
  simpa [CallState.move, apart c mem active] using active

variable (inv : A.Inv owner dying)
include inv

omit [DecidableEq τ] in
/-- A call without a child may be moved to where it is in no queue. -/
theorem Inv.move (childless : ∀ c, ¬A.Child t c) (unqueued : ∀ q, p ≠ .queued q)
    (live : ∀ y c, c ∈ stack y → A.live c) (dead : ∀ y, ¬A.alive y → stack y = [])
    (kept : ∀ y c, c ∈ A.stack y → c ≠ t ∨ A.caller t = some y → c ∈ stack y)
    (active : ∀ y, p = .active y → A.alive y ∧ t ∈ stack y ∧ A.caller t ≠ some y)
    (linked : ∀ y, (A.move t p stack).Linked y (stack y))
    (top : ∀ y v c q, c ≠ t → A.place c = .queued q → (A.stack y).head? = some v →
      A.caller v = some y → A.Ancestor v c → (stack y).head? = some v) :
    (A.move t p stack).Inv owner dying := by
  have parentNe : ∀ c p, A.Child p c → p ≠ t := by
    rintro c p child rfl
    exact childless c child
  constructor
  case parent_live =>
    intro c p child
    obtain ⟨liveP, lt, unqueuedP⟩ := inv.parent_live c p child
    exact ⟨liveP, lt, by simpa [CallState.move, parentNe c p child] using unqueuedP⟩
  case only_child => exact inv.only_child
  case child_caller =>
    intro c p child
    simpa [CallState.move, parentNe c p child] using inv.child_caller c p child
  case linked => exact linked
  case queued_top =>
    intro c q y liveC place owned notDying
    have ne : c ≠ t := by
      rintro rfl
      exact unqueued q (by simpa [CallState.move] using place)
    have before : A.place c = .queued q := by simpa [CallState.move, ne] using place
    obtain ⟨alive, v, topY, caller, ancestor⟩ := inv.queued_top c q y liveC before owned notDying
    exact ⟨alive, v, top y v c q ne before topY caller ancestor, caller, ancestor⟩
  all_goals
    simp only [CallState.move] at *
    grind

end Move

/-- Thread `x` takes `t` out of its queue. -/
def take (A : CallState τ κ η) (x : τ) (t : κ) : CallState τ κ η :=
  { A with
    place := update A.place t (.active x)
    stack := update A.stack x (t :: A.stack x) }

theorem Inv.take (inv : A.Inv owner dying) (alive : A.alive x) (live : A.live t)
    (place : A.place t = .queued q)
    (target : (owner q = some x ∧ dying ≠ some x) ∨ (owner q = none ∧ A.stack x = [])) :
    (A.take x t).Inv owner dying := by
  have childless : ∀ c, ¬A.Child t c := fun c child => (inv.parent_live c t child).2.2 q place
  have below : ∀ u, (A.stack x).head? = some u → A.caller u = some x ∧ A.Ancestor u t := by
    intro u isTop
    rcases target with ⟨owned, notDying⟩ | ⟨_, empty⟩
    · obtain ⟨_, v, topX, caller, ancestor⟩ := inv.queued_top t q x live place owned notDying
      rw [isTop] at topX
      cases topX
      exact ⟨caller, ancestor⟩
    · rw [empty] at isTop
      cases isTop
  refine inv.move childless nofun (by grind) (by grind) (by grind) (by grind) (fun y => ?_)
    fun y v c q' ne queued topY caller ancestor => ?_
  · have before : (A.take x t).Linked y (A.stack y) := by
      refine (inv.linked y).move fun c _ active => ?_
      rintro rfl
      rw [place] at active
      cases active
    by_cases isX : y = x
    · subst isX
      rw [update_self]
      exact ⟨.inr ⟨by simp [CallState.move], below⟩, before⟩
    · rwa [update_of_ne isX]
  · have isX : y ≠ x := by
      -- Two calls that come back to one thread would both end the same path.
      rintro rfl
      have onPath := inv.path_to_end ancestor.to_reflTransGen (below v topY).2.to_reflTransGen
        childless
      rcases Relation.ReflTransGen.cases_head onPath with same | ⟨d, child, _⟩
      · exact ne same
      · exact (inv.parent_live d c child).2.2 q' queued
    rwa [update_of_ne isX]

/-- Thread `x` stops working on `t`, the top of its stack. -/
def leave (A : CallState τ κ η) (x : τ) (t : κ) : CallState τ κ η :=
  { A with
    place := update A.place t .gone
    stack := update A.stack x (A.stack x).tail }

theorem Inv.leave (inv : A.Inv owner dying) (top : (A.stack x).head? = some t)
    (active : A.place t = .active x) : (A.leave x t).Inv owner dying := by
  obtain ⟨rest, stack⟩ := head?_eq_some_iff.mp top
  have live : A.live t := inv.stack_live x t (mem_of_head? top)
  refine inv.move (inv.childless_of_top top active) nofun (by grind) (by grind) (by grind) nofun
    (fun y => ?_) fun y v c q' _ _ topY caller _ => ?_
  · by_cases isX : y = x
    · subst isX
      have linked := inv.linked y
      have nodup := inv.stack_nodup y
      rw [stack] at linked nodup
      rw [update_self, stack]
      refine linked.2.move fun c mem _ => ?_
      rintro rfl
      exact (nodup_cons.mp nodup).1 mem
    · rw [update_of_ne isX]
      refine (inv.linked y).move fun c mem activeC => ?_
      rintro rfl
      rw [active] at activeC
      cases activeC
      exact isX rfl
  · have isX : y ≠ x := by
      rintro rfl
      rw [top] at topY
      cases topY
      exact (inv.caller_ne t y live caller).1 active
    rwa [update_of_ne isX]

/-- Call `t` is taken out of its queue and given to nobody. -/
def drop (A : CallState τ κ η) (t : κ) : CallState τ κ η :=
  { A with place := update A.place t .gone }

omit [DecidableEq τ] in
theorem Inv.drop (inv : A.Inv owner dying) (place : A.place t = .queued q) :
    (A.drop t).Inv owner dying := by
  refine inv.move (fun c child => (inv.parent_live c t child).2.2 q place) nofun inv.stack_live
    inv.stack_dead (fun _ _ mem _ => mem) nofun (fun y => ?_) fun _ _ _ _ _ _ top _ _ => top
  refine (inv.linked y).move fun c _ active => ?_
  rintro rfl
  rw [place] at active
  cases active

/-- Call `t` ends: it leaves the stack of its caller, if it has one. -/
def finish (A : CallState τ κ η) (t : κ) : CallState τ κ η :=
  { A with
    live := update A.live t False
    stack := fun y => if A.caller t = some y then (A.stack y).tail else A.stack y }

theorem finish_other {y : τ} (other : A.caller t ≠ some y) : (A.finish t).stack y = A.stack y :=
  if_neg other

theorem live_finish {c : κ} (live : (A.finish t).live c) : A.live c ∧ c ≠ t := by
  by_cases same : c = t
  · simp [CallState.finish, same] at live
  · exact ⟨by simpa [CallState.finish, same] using live, same⟩

section Finish

variable (inv : A.Inv owner dying) (live : A.live t) (childless : ∀ c, ¬A.Child t c)
include inv live childless

/-- `t` lies on top of the stack of its caller. -/
theorem Inv.finish_top {y : τ} (caller : A.caller t = some y) :
    A.stack y = t :: (A.finish t).stack y := by
  have top := inv.top_of_childless (inv.caller_mem t y live caller).2 childless
  obtain ⟨rest, stack⟩ := head?_eq_some_iff.mp top
  simp [CallState.finish, caller, stack]

theorem Inv.mem_finish {y : τ} {c : κ} (mem : c ∈ (A.finish t).stack y) : c ∈ A.stack y := by
  by_cases caller : A.caller t = some y
  · rw [inv.finish_top live childless caller]
    exact mem_cons_of_mem _ mem
  · rwa [finish_other caller] at mem

theorem Inv.finish (idle : ∀ y, A.place t ≠ .active y) : (A.finish t).Inv owner dying := by
  have child : ∀ p c, (A.finish t).Child p c → A.Child p c ∧ c ≠ t := by
    rintro p c ⟨liveC, parent⟩
    obtain ⟨liveC, ne⟩ := live_finish liveC
    exact ⟨⟨liveC, parent⟩, ne⟩
  have ancestor : ∀ b c, c ≠ t → A.Ancestor b c → (A.finish t).Ancestor b c := by
    intro b c ne path
    induction path with
    | single isChild => exact .single ⟨by simpa [CallState.finish, ne] using isChild.1, isChild.2⟩
    | @tail m c _ isChild ih =>
      have inner : m ≠ t := by
        rintro rfl
        exact childless c isChild
      exact .tail (ih inner) ⟨by simpa [CallState.finish, ne] using isChild.1, isChild.2⟩
  have parentNe : ∀ c p, A.Child p c → p ≠ t := by
    rintro c p isChild rfl
    exact childless c isChild
  have top : ∀ y, A.caller t = some y → A.stack y = t :: (A.finish t).stack y :=
    fun y => inv.finish_top live childless
  -- `t` lies on the stack of its caller only.
  have restNe : ∀ y, ∀ c ∈ (A.finish t).stack y, c ≠ t := by
    rintro y c mem rfl
    by_cases caller : A.caller c = some y
    · have nodup := inv.stack_nodup y
      rw [top y caller] at nodup
      exact (nodup_cons.mp nodup).1 mem
    · rw [finish_other caller] at mem
      rcases (inv.linked y).end_of_mem mem with isCaller | active
      · exact caller isCaller
      · exact idle y active
  constructor
  case parent_live =>
    intro c p isChild
    obtain ⟨isChild, _⟩ := child p c isChild
    obtain ⟨liveP, lt, unqueued⟩ := inv.parent_live c p isChild
    exact ⟨by simpa [CallState.finish, parentNe c p isChild] using liveP, lt, unqueued⟩
  case only_child =>
    intro c c' p isChild isChild'
    exact inv.only_child c c' p (child p c isChild).1 (child p c' isChild').1
  case child_caller =>
    intro c p isChild
    exact inv.child_caller c p (child p c isChild).1
  case linked =>
    intro y
    have linked : A.Linked y ((A.finish t).stack y) := by
      by_cases caller : A.caller t = some y
      · have linked := inv.linked y
        rw [top y caller] at linked
        exact linked.2
      · rw [finish_other caller]
        exact inv.linked y
    exact linked.mono (fun _ _ => id) (fun _ _ => id) (fun _ _ => rfl)
      (fun u c mem => ancestor u c (restNe y c mem))
  case queued_top =>
    intro c q' y liveC place owned notDying
    obtain ⟨liveC, ne⟩ := live_finish liveC
    obtain ⟨alive, v, topY, caller, path⟩ := inv.queued_top c q' y liveC place owned notDying
    have notCaller : A.caller t ≠ some y := by
      intro isCaller
      rw [top y isCaller] at topY
      cases topY
      obtain ⟨d, isChild⟩ := path.has_child
      exact childless d isChild
    exact ⟨alive, v, by rw [finish_other notCaller]; exact topY, caller, ancestor v c ne path⟩
  all_goals
    simp only [CallState.finish] at *
    grind

end Finish

/-- Thread `x` goes away. -/
def exit [DecidableEq η] (A : CallState τ κ η) (x : τ) : CallState τ κ η :=
  { A with
    alive := update A.alive x False
    caller := fun t => if A.caller t = some x then none else A.caller t
    place := fun t => if A.place t = .active x then .gone else A.place t
    stack := update A.stack x [] }

section Exit

variable [DecidableEq η] {y : τ}

section

omit [LinearOrder κ]

theorem exit_caller : (A.exit x).caller t = some y ↔ A.caller t = some y ∧ y ≠ x := by
  by_cases gone : A.caller t = some x
  · simp [CallState.exit, gone, eq_comm]
  · simp only [CallState.exit, gone, if_false]
    exact ⟨fun caller => ⟨caller, fun same => gone (same ▸ caller)⟩, And.left⟩

theorem exit_active : (A.exit x).place t = .active y ↔ A.place t = .active y ∧ y ≠ x := by
  by_cases gone : A.place t = .active x
  · simp [CallState.exit, gone, eq_comm]
  · simp only [CallState.exit, gone, if_false]
    exact ⟨fun active => ⟨active, fun same => gone (same ▸ active)⟩, And.left⟩

theorem exit_queued : (A.exit x).place t = .queued q ↔ A.place t = .queued q := by
  by_cases gone : A.place t = .active x <;> simp [CallState.exit, gone]

theorem exit_stack (other : y ≠ x) : (A.exit x).stack y = A.stack y :=
  update_of_ne other ..

end

theorem Inv.exit (inv : A.Inv owner none) : (A.exit x).Inv owner (some x) := by
  constructor
  case parent_live =>
    intro c p child
    obtain ⟨live, lt, unqueued⟩ := inv.parent_live c p child
    exact ⟨live, lt, fun q place => unqueued q (exit_queued.mp place)⟩
  case only_child => exact inv.only_child
  case child_caller =>
    intro c p child
    refine ⟨fun y isCaller => ?_, fun isNone => ?_⟩
    · obtain ⟨isCaller, ne⟩ := exit_caller.mp isCaller
      exact exit_active.mpr ⟨(inv.child_caller c p child).1 y isCaller, ne⟩
    · by_cases gone : A.caller c = some x
      · have place := (inv.child_caller c p child).1 x gone
        simp [CallState.exit, place]
      · have place := (inv.child_caller c p child).2 (by simpa [CallState.exit, gone] using isNone)
        simp [CallState.exit, place]
  case linked =>
    intro y
    by_cases isX : y = x
    · simp [CallState.exit, isX, Linked]
    rw [exit_stack isX]
    exact (inv.linked y).mono (fun c _ isCaller => exit_caller.mpr ⟨isCaller, isX⟩)
      (fun c _ isActive => exit_active.mpr ⟨isActive, isX⟩) (fun _ _ => rfl) (fun _ _ _ => id)
  case queued_top =>
    intro c q' y live place owned notDying
    have isX : y ≠ x := by
      rintro rfl
      exact notDying rfl
    obtain ⟨alive, v, top, isCaller, path⟩ :=
      inv.queued_top c q' y live (exit_queued.mp place) owned (by simp)
    exact ⟨by simpa [CallState.exit, isX] using alive, v, by rw [exit_stack isX]; exact top,
      exit_caller.mpr ⟨isCaller, isX⟩, path⟩
  all_goals
    simp only [CallState.exit] at *
    grind

end Exit

/-- A new thread. -/
def enter (A : CallState τ κ η) (x : τ) : CallState τ κ η :=
  { A with alive := update A.alive x True }

theorem Inv.enter (inv : A.Inv owner dying) : (A.enter x).Inv owner dying := by
  have alive : ∀ y, A.alive y → (A.enter x).alive y := by
    intro y aliveY
    by_cases isX : y = x
    · simp [CallState.enter, isX]
    · simpa [CallState.enter, isX] using aliveY
  refine { inv with
    active_mem := ?_
    caller_mem := ?_
    stack_dead := ?_
    linked := ?_
    queued_top := ?_ }
  · intro c y live active
    exact (inv.active_mem c y live active).imp (alive y) id
  · intro c y live caller
    exact (inv.caller_mem c y live caller).imp (alive y) id
  · intro y deadY
    exact inv.stack_dead y fun aliveY => deadY (alive y aliveY)
  · intro y
    exact (inv.linked y).mono (fun _ _ => id) (fun _ _ => id) (fun _ _ => rfl) (fun _ _ _ => id)
  · intro c q y live place owned notDying
    exact (inv.queued_top c q y live place owned notDying).imp (alive y) id

end Transitions

end CallState

end AndroidKernel.Lib
