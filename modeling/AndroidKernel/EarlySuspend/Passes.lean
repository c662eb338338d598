import AndroidKernel.EarlySuspend.Worker

/-!
What the handlers see: suspend and resume in turn, in the order of their levels, and the main
wake lock released only behind the suspend callbacks.

`turns` counts for every handler the passes that came to it, its registration during a
suspend included. A handler that the pass in progress has still to come to is one turn behind
the others, and the number of turns is odd exactly when the handler is suspended (`Holds.parity`).
-/

namespace AndroidKernel.EarlySuspend

open Function List

/-! ### The log -/

/-- The callbacks of one handler, in order. -/
def Entry.calls (h : Handler) : Entry → Option Pass
  | .called _ pass g => if g = h then some pass else none
  | .returned .. => none

def calls (h : Handler) (log : List Entry) : List Pass := log.filterMap (Entry.calls h)

def Entry.about (h : Handler) : Entry → Bool
  | .called _ _ g | .returned _ g => g = h

/-- The last entry about a handler. -/
def last (h : Handler) (log : List Entry) : Option Entry := log.reverse.find? (Entry.about h)

/-- The first passes in turn. -/
def alternating (n : Nat) : List Pass :=
  (List.range n).map fun i => if i % 2 = 0 then .earlySuspend else .lateResume

/-- The handlers that a pass comes to one after the other. -/
def inOrder : Pass → Handler → Handler → Prop
  | .earlySuspend, h, g => h.level ≤ g.level
  | .lateResume, h, g => g.level ≤ h.level

/-- Two calls of one pass come in its order. -/
def Entry.inOrder : Entry → Entry → Prop
  | .called (some n) pass h, .called (some m) pass' g =>
    n = m → pass = pass' ∧ EarlySuspend.inOrder pass h g
  | _, _ => True

section Log

variable {h g : Handler} {pass : Pass} {number : Option Nat} {log : List Entry}

theorem calls_called :
    calls h (log ++ [.called number pass g]) = calls h log ++ if g = h then [pass] else [] := by
  rw [calls, filterMap_append, calls]
  by_cases same : g = h <;> simp [Entry.calls, same]

theorem calls_returned : calls h (log ++ [.returned pass g]) = calls h log := by
  rw [calls, filterMap_append, calls]
  simp [Entry.calls]

theorem last_append {e : Entry} :
    last h (log ++ [e]) = if e.about h then some e else last h log := by
  rw [last, reverse_append, reverse_singleton, singleton_append, List.find?_cons, last]
  cases e.about h <;> rfl

theorem inOrder_append {e : Entry} (ordered : log.Pairwise Entry.inOrder)
    (last : ∀ d ∈ log, d.inOrder e) : (log ++ [e]).Pairwise Entry.inOrder := by
  refine pairwise_append.mpr ⟨ordered, pairwise_singleton _ _, fun d old e' new => ?_⟩
  rw [mem_singleton.mp new]
  exact last d old

theorem alternating_succ {n : Nat} :
    alternating (n + 1) = alternating n ++ [if n % 2 = 0 then .earlySuspend else .lateResume] := by
  rw [alternating, range_succ, map_append, map_singleton, alternating]

end Log

/-! ### The list of handlers -/

section Handlers

variable {h : Handler} {handlers : List Handler}

theorem insertHandler_perm : (insertHandler h handlers).Perm (h :: handlers) := by
  induction handlers with
  | nil => exact .refl _
  | cons e rest ih =>
    rw [insertHandler]
    split
    · exact .refl _
    · exact (ih.cons e).trans (.swap h e rest)

theorem insertHandler_sorted (sorted : handlers.Pairwise (inOrder .earlySuspend)) :
    (insertHandler h handlers).Pairwise (inOrder .earlySuspend) := by
  induction handlers with
  | nil => exact pairwise_singleton _ _
  | cons e rest ih =>
    obtain ⟨first, later⟩ := pairwise_cons.mp sorted
    rw [insertHandler]
    split
    case isTrue higher =>
      refine pairwise_cons.mpr ⟨fun g member => ?_, sorted⟩
      rcases mem_cons.mp member with rfl | member
      · exact higher.le
      · exact higher.le.trans (first g member)
    case isFalse lower =>
      refine pairwise_cons.mpr ⟨fun g member => ?_, ih later⟩
      rcases mem_cons.mp (insertHandler_perm.mem_iff.mp member) with rfl | member
      · exact not_lt.mp lower
      · exact first g member

theorem order_sorted {pass : Pass} (sorted : handlers.Pairwise (inOrder .earlySuspend)) :
    (order pass handlers).Pairwise (inOrder pass) := by
  cases pass with
  | earlySuspend => exact sorted
  | lateResume => exact pairwise_reverse.mpr sorted

theorem order_nodup {pass : Pass} (nodup : handlers.Nodup) : (order pass handlers).Nodup := by
  cases pass with
  | earlySuspend => exact nodup
  | lateResume => exact nodup_reverse.mpr nodup

theorem mem_order {pass : Pass} : h ∈ order pass handlers ↔ h ∈ handlers := by
  cases pass with
  | earlySuspend => exact Iff.rfl
  | lateResume => exact mem_reverse

end Handlers

/-! ### The invariant -/

/-- The pass whose loop the worker is in. -/
def Worker.pass : Worker → Option Pass
  | .visiting pass _ _ | .calling pass _ _ _ => some pass
  | _ => none

/-- The handlers that the loop has still to come to. -/
def Worker.rest : Worker → List Handler
  | .visiting _ rest _ | .calling _ _ rest _ => rest
  | _ => []

/-- The handler whose callback the worker is in. -/
def Worker.current : Worker → Option Handler
  | .calling _ h _ _ => some h
  | _ => none

theorem Worker.of_unlocked {worker : Worker} (unlocked : worker.locked = false) :
    worker.pass = none ∧ worker.rest = [] ∧ worker.current = none := by
  cases worker <;> first | exact ⟨rfl, rfl, rfl⟩ | cases unlocked

structure Holds (s : State) (turns : Handler → Nat) : Prop where
  sorted : s.handlers.Pairwise (inOrder .earlySuspend)
  nodup : s.handlers.Nodup
  known : ∀ h ∈ s.handlers, h ∈ s.known
  fresh : ∀ h, h ∉ s.known → turns h = 0
  seen : ∀ h, calls h s.log = (alternating (turns h)).filter h.has
  parity : ∀ h ∈ s.handlers, turns h % 2 = 1 ↔ (s.suspended = true ↔ h ∉ s.worker.rest)
  mutex : s.worker.locked = true → s.registering = none
  bit : ∀ pass, s.worker.pass = some pass → (s.suspended = true ↔ pass = .earlySuspend)
  rest : ∀ pass, s.worker.pass = some pass → s.worker.rest.Sublist (order pass s.handlers)
  visited : ∀ h, s.worker.current = some h → h ∉ s.worker.rest
  /-- The calls that the pass has made come before those that it will make. -/
  before : ∀ pass, s.worker.pass = some pass → ∀ p h, .called (some s.number) p h ∈ s.log →
    p = pass ∧ ∀ g ∈ s.worker.rest, inOrder pass h g
  numbers : ∀ n p h, .called (some n) p h ∈ s.log → n ≤ s.number
  ordered : s.log.Pairwise Entry.inOrder
  /-- Of a suspended handler whose callback is not running, the callback has returned. -/
  ended : ∀ h ∈ s.handlers, h.suspend = true → turns h % 2 = 1 → s.worker.current ≠ some h →
    s.registering ≠ some h → last h s.log = some (.returned .earlySuspend h)

theorem holds_start : Holds .start fun _ => 0 where
  sorted := List.Pairwise.nil
  nodup := nodup_nil
  known _ member := absurd member not_mem_nil
  fresh _ _ := rfl
  seen _ := rfl
  parity _ member := absurd member not_mem_nil
  mutex _ := rfl
  bit _ inside := by cases inside
  rest _ inside := by cases inside
  visited _ inside := by cases inside
  before _ inside := by cases inside
  numbers _ _ _ member := absurd member not_mem_nil
  ordered := List.Pairwise.nil
  ended _ member := absurd member not_mem_nil

section Steps

attribute [local grind →] Holds.known Holds.fresh Holds.parity Holds.mutex Holds.bit Holds.rest
  Holds.visited Holds.before Holds.numbers
attribute [local grind =] Function.update_apply

variable {s s' : State} {turns : Handler → Nat} {h : Handler} {pass : Pass}
  {rest : List Handler} {completed : Bool}

/-- What the handlers see of a state. -/
def State.view (s : State) :=
  (s.handlers, s.known, s.suspended, s.number, s.log, s.registering)

section
variable (holds : Holds s turns) (view : s'.view = s.view)
include holds view

/-- Requests, completions and what the worker does outside its loops. -/
theorem Holds.frame (isPass : ∀ pass, s'.worker.pass = some pass → s.worker.pass = some pass)
    (isRest : s'.worker.rest = s.worker.rest) (current : s'.worker.current = s.worker.current)
    (mutex : s'.worker.locked = true → s.registering = none) : Holds s' turns := by
  simp only [State.view, Prod.mk.injEq] at view
  obtain ⟨handlers, known, suspended, number, log, registering⟩ := view
  constructor
  case sorted => exact handlers ▸ holds.sorted
  case nodup => exact handlers ▸ holds.nodup
  case seen => exact log ▸ holds.seen
  case ordered => exact log ▸ holds.ordered
  case ended =>
    rw [handlers, current, registering, log]
    exact holds.ended
  all_goals grind

theorem Holds.same (worker : s'.worker = s.worker) : Holds s' turns :=
  holds.frame view (fun _ => worker ▸ id) (worker ▸ rfl) (worker ▸ rfl) (worker ▸ holds.mutex)

/-- The worker leaves the loop, or goes on outside of it. -/
theorem Holds.leave (rest : s.worker.rest = []) (current : s.worker.current = none)
    (unlocked : s'.worker.locked = false) : Holds s' turns := by
  obtain ⟨isPass, isRest, isCurrent⟩ := Worker.of_unlocked unlocked
  exact holds.frame view (by simp [isPass]) (isRest.trans rest.symm)
    (isCurrent.trans current.symm) (by simp [unlocked])

end

/-- A pass comes to a handler. -/
theorem seen_turn {h : Handler} {n : Nat}
    (seen : calls h log = (alternating n).filter h.has) (turn : n % 2 = 0 ↔ pass = .earlySuspend) :
    calls h (log ++ if h.has pass then [.called number pass h] else []) =
      (alternating (n + 1)).filter h.has := by
  have next : (if n % 2 = 0 then Pass.earlySuspend else .lateResume) = pass := by
    cases pass with
    | earlySuspend => exact if_pos (turn.mpr rfl)
    | lateResume => exact if_neg fun even => absurd (turn.mp even) (by decide)
  rw [alternating_succ, next, List.filter_append, ← seen]
  by_cases has : h.has pass = true
  · rw [if_pos has, calls_called, if_pos rfl, List.filter_singleton, has]
    rfl
  · rw [if_neg has, List.append_nil, List.filter_singleton, Bool.eq_false_of_not_eq_true has]
    exact (List.append_nil _).symm

theorem calls_other {h g : Handler} (other : g ≠ h) :
    calls g (log ++ if h.has pass then [.called number pass h] else []) = calls g log := by
  by_cases has : h.has pass = true
  · rw [if_pos has, calls_called, if_neg other.symm, append_nil]
  · rw [if_neg has, append_nil]

/-- The entries that a pass adds when it comes to a handler. -/
theorem mem_turn {e : Entry}
    (member : e ∈ log ++ if h.has pass then [.called number pass h] else []) :
    e ∈ log ∨ e = .called number pass h := by
  rcases mem_append.mp member with old | new
  · exact .inl old
  · split at new
    · exact .inr (mem_singleton.mp new)
    · exact absurd new not_mem_nil

theorem last_other {g : Handler} (other : g ≠ h) :
    last g (log ++ if h.has pass then [.called number pass h] else []) = last g log := by
  split
  · rw [last_append]
    exact if_neg fun about => other (of_decide_eq_true about).symm
  · rw [append_nil]

section

variable (holds : Holds s turns)

include holds

/-- One round of the loop over the handlers. -/
theorem Holds.visit (inLoop : s.worker = .visiting pass (h :: rest) completed) {w : Worker}
    (isPass : w.pass = some pass) (isRest : w.rest = rest)
    (current : w.current = if h.has pass then some h else none) :
    Holds { s with
      worker := w
      log := s.log ++ if h.has pass then [.called (some s.number) pass h] else [] }
      (update turns h (turns h + 1)) := by
  have inPass : s.worker.pass = some pass := by rw [inLoop]; rfl
  have restEq : s.worker.rest = h :: rest := by rw [inLoop]; rfl
  have sublist := holds.rest pass inPass
  have before := holds.before pass inPass
  rw [restEq] at sublist before
  have distinct := nodup_cons.mp (sublist.nodup (order_nodup holds.nodup))
  have inOrders := pairwise_cons.mp ((order_sorted holds.sorted).sublist sublist)
  have member : h ∈ s.handlers := mem_order.mp (sublist.subset mem_cons_self)
  have bit := holds.bit pass inPass
  have turn : turns h % 2 = 0 ↔ pass = .earlySuspend := by grind
  constructor
  case sorted => exact holds.sorted
  case nodup => exact holds.nodup
  case seen =>
    intro g
    by_cases same : g = h
    · rw [same, update_self]
      exact seen_turn (holds.seen h) turn
    · rw [update_of_ne same, calls_other same]
      exact holds.seen g
  case parity =>
    intro g inside
    change update turns h (turns h + 1) g % 2 = 1 ↔ (s.suspended = true ↔ g ∉ w.rest)
    rw [isRest]
    by_cases same : g = h
    · rw [same, update_self, bit, ← turn]
      simp only [distinct.1, not_false_eq_true, iff_true]
      omega
    · rw [update_of_ne same, holds.parity g inside, restEq, mem_cons, or_iff_right same]
  case ordered =>
    change (s.log ++ _).Pairwise _
    split
    · refine inOrder_append holds.ordered fun e old => ?_
      cases e with
      | returned p g => trivial
      | called number p g =>
        cases number with
        | none => trivial
        | some n =>
          rintro rfl
          obtain ⟨rfl, first⟩ := before p g old
          exact ⟨rfl, first h mem_cons_self⟩
    · rw [append_nil]
      exact holds.ordered
  case ended =>
    intro g inside hasSuspend odd notCurrent notRegistering
    by_cases same : g = h
    · -- the handler is in its callback, or it has come to its resume turn
      rw [same] at hasSuspend odd notCurrent
      rw [update_self] at odd
      have early := turn.mp (by omega)
      rw [early] at current
      exact absurd (current.trans (if_pos hasSuspend)) notCurrent
    · rw [update_of_ne same] at odd
      have idle : s.worker.current ≠ some g := by
        rw [inLoop]
        exact (Option.some_ne_none g).symm
      change last g (s.log ++ _) = _
      rw [last_other same]
      exact holds.ended g inside hasSuspend odd idle notRegistering
  case rest =>
    grind [(sublist_cons_self h rest).trans sublist]
  case before => grind [mem_turn]
  case numbers => grind [mem_turn]
  all_goals grind [Worker.locked]

theorem Holds.visitHandler (inLoop : s.worker = .visiting pass (h :: rest) completed) :
    Holds (visitHandler pass h rest completed s) (update turns h (turns h + 1)) := by
  have completing : ∀ b : Bool, Holds (if b then complete s else s) turns ∧
      (if b then complete s else s).worker = s.worker := by
    intro b
    cases b with
    | false => exact ⟨holds, rfl⟩
    | true => exact ⟨holds.same rfl rfl, rfl⟩
  obtain ⟨holds', worker⟩ := completing (completesAt pass completed h)
  rw [EarlySuspend.visitHandler]
  generalize (if completesAt pass completed h = true then complete s else s) = s' at *
  by_cases has : h.has pass = true
  · have next := holds'.visit (worker.trans inLoop) (w := .calling pass h rest
      (completed || completesAt pass completed h)) rfl rfl (if_pos has).symm
    rw [if_pos has] at next
    simp only [if_pos has]
    exact next
  · have next := holds'.visit (worker.trans inLoop) (w := .visiting pass rest
      (completed || completesAt pass completed h)) rfl rfl (if_neg has).symm
    rw [if_neg has, append_nil] at next
    simp only [if_neg has]
    exact next

/-- A callback returns: that of a pass, or that of a registration. -/
theorem Holds.returned {w : Worker} {r : Option Handler}
    (isPass : w.pass = s.worker.pass) (isRest : w.rest = s.worker.rest)
    (locked : w.locked = true → r = none)
    (current : ∀ g, w.current = some g → s.worker.current = some g)
    (others : ∀ g, g ≠ h → s.worker.current = some g ∨ s.registering = some g →
      w.current = some g ∨ r = some g)
    (even : h ∈ s.handlers → pass = .lateResume → turns h % 2 = 0) :
    Holds { s with worker := w, registering := r, log := s.log ++ [.returned pass h] } turns := by
  constructor
  case sorted => exact holds.sorted
  case nodup => exact holds.nodup
  case seen =>
    intro g
    rw [calls_returned]
    exact holds.seen g
  case ordered => exact inOrder_append holds.ordered fun _ _ => by simp [Entry.inOrder]
  case ended =>
    intro g inside hasSuspend odd notCurrent notRegistering
    rw [last_append]
    by_cases same : g = h
    · rw [same] at inside odd ⊢
      cases pass with
      | earlySuspend => exact if_pos (decide_eq_true rfl)
      | lateResume => exact absurd odd (by rw [even inside rfl]; decide)
    · rw [if_neg fun about => same (of_decide_eq_true about).symm]
      have quiet := mt (others g same) (not_or.mpr ⟨notCurrent, notRegistering⟩)
      exact holds.ended g inside hasSuspend odd (not_or.mp quiet).1 (not_or.mp quiet).2
  all_goals grind

/-- A pass starts: every handler is still to come. -/
theorem Holds.begin (inside : s.worker = .deciding pass)
    (flips : s.suspended = true ↔ pass ≠ .earlySuspend) :
    Holds { s with
      suspended := decide (pass = .earlySuspend)
      number := s.number + 1
      worker := .visiting pass (order pass s.handlers) false } turns := by
  have rest : s.worker.rest = [] := by rw [inside]; rfl
  have current : s.worker.current = none := by rw [inside]; rfl
  have newNumber : ∀ p h, .called (some (s.number + 1)) p h ∉ s.log := fun p h call =>
    Nat.not_succ_le_self _ (holds.numbers _ p h call)
  refine ⟨holds.sorted, holds.nodup, holds.known, holds.fresh, holds.seen, ?_, ?_, ?_, ?_, ?_, ?_,
    ?_, holds.ordered, ?_⟩
  · intro h member
    have parity := holds.parity h member
    rw [rest, iff_true_right List.not_mem_nil, flips] at parity
    rw [parity]
    change _ ↔ (decide _ = true ↔ h ∉ order pass s.handlers)
    rw [decide_eq_true_iff, iff_false_right (not_not.mpr (mem_order.mpr member))]
  · intro _
    exact holds.mutex (by rw [inside]; rfl)
  · rintro p ⟨⟩
    exact decide_eq_true_iff
  · rintro p ⟨⟩
    exact List.Sublist.refl _
  · rintro h ⟨⟩
  · rintro p ⟨⟩ q h call
    exact absurd call (newNumber q h)
  · intro n p h call
    exact (holds.numbers n p h call).trans (Nat.le_succ _)
  · intro h member hasSuspend odd _ notRegistering
    exact holds.ended h member hasSuspend odd (by rw [current]; exact (Option.some_ne_none h).symm)
      notRegistering

theorem Holds.decidePass (inside : s.worker = .deciding pass) :
    Holds (decidePass pass s) turns := by
  have rest : s.worker.rest = [] := by rw [inside]; rfl
  have current : s.worker.current = none := by rw [inside]; rfl
  cases pass
  all_goals
    rw [EarlySuspend.decidePass]
    split
    case isTrue wanted => exact holds.begin inside (by rw [wanted.2]; decide)
    case isFalse => exact holds.leave rfl rest current rfl

theorem Holds.finishPass (inside : s.worker = .visiting pass [] completed) :
    Holds (finishPass pass completed s) turns := by
  have rest : s.worker.rest = [] := by rw [inside]; rfl
  have current : s.worker.current = none := by rw [inside]; rfl
  cases pass with
  | earlySuspend => exact holds.leave rfl rest current rfl
  | lateResume => cases completed <;> exact holds.leave rfl rest current rfl

theorem Holds.releaseMain (inside : s.worker = .syncing) : Holds (releaseMain s) turns := by
  have rest : s.worker.rest = [] := by rw [inside]; rfl
  have current : s.worker.current = none := by rw [inside]; rfl
  rw [EarlySuspend.releaseMain]
  split <;> exact holds.leave rfl rest current rfl

theorem Holds.work (can : canWork s s.worker) : ∃ turns', Holds (work s) turns' := by
  rw [EarlySuspend.work]
  cases inside : s.worker with
  | idle =>
    cases queue : s.queue with
    | nil => exact ⟨turns, holds⟩
    | cons pass later =>
      exact ⟨turns, holds.leave rfl (by rw [inside]; rfl) (by rw [inside]; rfl) rfl⟩
  | locking pass =>
    rw [inside] at can
    exact ⟨turns, holds.frame rfl (by rintro _ ⟨⟩) (by rw [inside]; rfl) (by rw [inside]; rfl)
      fun _ => can⟩
  | deciding pass => exact ⟨turns, holds.decidePass inside⟩
  | visiting pass rest completed =>
    cases rest with
    | nil => exact ⟨turns, holds.finishPass inside⟩
    | cons h rest => exact ⟨_, holds.visitHandler inside⟩
  | calling pass h rest completed =>
    have isPass : s.worker.pass = some pass := by rw [inside]; rfl
    have isCurrent : s.worker.current = some h := by rw [inside]; rfl
    have alone := holds.mutex (by rw [inside]; rfl)
    refine ⟨turns, (holds.returned (w := .visiting pass rest completed) (r := s.registering)
      isPass.symm (by rw [inside]; rfl) (fun _ => alone) (by rintro g ⟨⟩) ?_ ?_)⟩
    · rintro g other (same | same)
      · rw [isCurrent] at same
        exact absurd (Option.some.inj same).symm other
      · exact .inr same
    · rintro member rfl
      have parity := holds.parity h member
      rw [holds.bit _ isPass, iff_true_right (holds.visited h isCurrent)] at parity
      exact Nat.mod_two_ne_one.mp fun odd => absurd (parity.mp odd) (by decide)
  | syncing => exact ⟨turns, holds.releaseMain inside⟩

end

/-- While nobody has `early_suspend_lock`, there is no pass to say anything about. -/
theorem Holds.of_unlocked (unlocked : s.worker.locked = false)
    (sorted : s.handlers.Pairwise (inOrder .earlySuspend)) (nodup : s.handlers.Nodup)
    (known : ∀ h ∈ s.handlers, h ∈ s.known) (fresh : ∀ h, h ∉ s.known → turns h = 0)
    (seen : ∀ h, calls h s.log = (alternating (turns h)).filter h.has)
    (parity : ∀ h ∈ s.handlers, turns h % 2 = 1 ↔ s.suspended = true)
    (numbers : ∀ n p h, .called (some n) p h ∈ s.log → n ≤ s.number)
    (ordered : s.log.Pairwise Entry.inOrder)
    (ended : ∀ h ∈ s.handlers, h.suspend = true → turns h % 2 = 1 → s.registering ≠ some h →
      last h s.log = some (.returned .earlySuspend h)) : Holds s turns := by
  obtain ⟨isPass, isRest, isCurrent⟩ := Worker.of_unlocked unlocked
  refine ⟨sorted, nodup, known, fresh, seen, ?_, ?_, ?_, ?_, ?_, ?_, numbers, ordered, ?_⟩
  all_goals grind

section

variable (holds : Holds s turns)
include holds

theorem Holds.parity_unlocked (unlocked : s.worker.locked = false) (member : h ∈ s.handlers) :
    turns h % 2 = 1 ↔ s.suspended = true := by
  obtain ⟨_, isRest, _⟩ := Worker.of_unlocked unlocked
  have parity := holds.parity h member
  rwa [isRest, iff_true_right not_mem_nil] at parity

theorem Holds.ended_unlocked (unlocked : s.worker.locked = false) (member : h ∈ s.handlers)
    (hasSuspend : h.suspend = true) (odd : turns h % 2 = 1) (quiet : s.registering ≠ some h) :
    last h s.log = some (.returned .earlySuspend h) := by
  obtain ⟨_, _, isCurrent⟩ := Worker.of_unlocked unlocked
  exact holds.ended h member hasSuspend odd (by rw [isCurrent]; exact (Option.some_ne_none h).symm)
    quiet

/-- A handler that is registered during a suspend has its first turn at once. -/
theorem Holds.register (unlocked : s.unlocked) (new : h ∉ s.known) :
    ∃ turns', Holds (registerEarlySuspend h s) turns' := by
  have inserted : ∀ g, g ∈ insertHandler h s.handlers ↔ g = h ∨ g ∈ s.handlers := fun g =>
    insertHandler_perm.mem_iff.trans mem_cons
  have outside : h ∉ s.handlers := fun member => new (holds.known h member)
  have nodup : (insertHandler h s.handlers).Nodup :=
    insertHandler_perm.nodup_iff.mpr (nodup_cons.mpr ⟨outside, holds.nodup⟩)
  have known : ∀ g ∈ insertHandler h s.handlers, g ∈ h :: s.known := by grind
  have fresh : ∀ g, g ∉ h :: s.known → g ≠ h ∧ turns g = 0 := by grind
  have first := holds.fresh h new
  by_cases suspended : s.suspended = true
  · have called : registerEarlySuspend h s = { s with
        handlers := insertHandler h s.handlers
        known := h :: s.known
        registering := if h.suspend then some h else none
        log := s.log ++ if h.has .earlySuspend then [.called none .earlySuspend h] else [] } := by
      have callback : h.has .earlySuspend = h.suspend := rfl
      rw [callback, ← unlocked.2, registerEarlySuspend]
      simp only [suspended, Bool.true_and]
      cases h.suspend
      · simp
      · rfl
    rw [called]
    refine ⟨update turns h 1, .of_unlocked unlocked.1 (insertHandler_sorted holds.sorted)
      nodup known ?_ ?_ ?_ ?_ ?_ ?_⟩
    · intro g unknown
      rw [update_of_ne (fresh g unknown).1]
      exact (fresh g unknown).2
    · intro g
      by_cases same : g = h
      · have seen := holds.seen h
        rw [first] at seen
        rw [same, update_self]
        exact seen_turn seen (iff_of_true rfl rfl)
      · rw [update_of_ne same, calls_other same]
        exact holds.seen g
    · intro g member
      by_cases same : g = h
      · rw [same, update_self]
        exact iff_of_true rfl suspended
      · rw [update_of_ne same]
        exact holds.parity_unlocked unlocked.1 (((inserted g).mp member).resolve_left same)
    · grind
    · change (s.log ++ _).Pairwise _
      split
      · exact inOrder_append holds.ordered fun _ _ => by simp [Entry.inOrder]
      · rw [append_nil]
        exact holds.ordered
    intro g member hasSuspend odd quiet
    by_cases same : g = h
    · rw [same] at hasSuspend quiet
      exact absurd (if_pos hasSuspend) quiet
    rw [update_of_ne same] at odd
    rw [last_other same]
    refine holds.ended_unlocked unlocked.1 (((inserted g).mp member).resolve_left same)
      hasSuspend odd ?_
    rw [unlocked.2]
    exact (Option.some_ne_none g).symm
  · have called : registerEarlySuspend h s = { s with
        handlers := insertHandler h s.handlers
        known := h :: s.known } := by
      simp only [registerEarlySuspend, Bool.eq_false_of_not_eq_true suspended, Bool.false_and]
      rfl
    rw [called]
    refine ⟨turns, .of_unlocked unlocked.1 (insertHandler_sorted holds.sorted) nodup known
      (fun g unknown => (fresh g unknown).2) holds.seen ?_ holds.numbers holds.ordered ?_⟩
    · intro g member
      rcases (inserted g).mp member with rfl | member
      · rw [first]
        exact iff_of_false (by decide) suspended
      · exact holds.parity_unlocked unlocked.1 member
    · intro g member hasSuspend odd quiet
      rcases (inserted g).mp member with rfl | member
      · rw [first] at odd
        cases odd
      · exact holds.ended_unlocked unlocked.1 member hasSuspend odd quiet

theorem Holds.unregister (unlocked : s.unlocked) : Holds (unregisterEarlySuspend h s) turns := by
  have kept : ∀ g ∈ s.handlers.erase h, g ∈ s.handlers := fun _ => mem_of_mem_erase
  exact .of_unlocked unlocked.1 (holds.sorted.sublist erase_sublist)
    (holds.nodup.sublist erase_sublist) (fun g member => holds.known g (kept g member))
    holds.fresh holds.seen (fun g member => holds.parity_unlocked unlocked.1 (kept g member))
    holds.numbers holds.ordered
    (fun g member => holds.ended_unlocked unlocked.1 (kept g member))

/-- The callback that `register_early_suspend` made returns. -/
theorem Holds.registered (inside : s.registering = some h) :
    Holds { s with registering := none, log := s.log ++ [.returned .earlySuspend h] } turns := by
  refine holds.returned (w := s.worker) (r := none) rfl rfl (fun _ => rfl) (fun _ => id) ?_
    (by rintro _ ⟨⟩)
  rintro g other (same | same)
  · exact .inl same
  · rw [inside] at same
    exact absurd (Option.some.inj same).symm other

/-- What `request_suspend_state` changes is no concern of the handlers. -/
theorem Holds.request {t : Nat} {newState : SuspendState} :
    Holds (requestSuspendState exclusive t newState s) turns := by
  simp only [requestSuspendState, queueWork_eq]
  split_ifs <;> exact holds.same rfl rfl

theorem Holds.step {e : Event} (can : enabled s e) :
    ∃ turns', Holds (step exclusive e s) turns' := by
  cases e with
  | call t newState => exact ⟨turns, holds.same rfl rfl⟩
  | request t =>
    refine ⟨turns, ?_⟩
    rw [EarlySuspend.step]
    cases s.thread t with
    | outside => exact holds
    | entering newState => exact holds.request
    | waiting newState => exact holds.same rfl rfl
  | work => exact holds.work can
  | register h => exact holds.register can.1 can.2
  | registered =>
    refine ⟨turns, ?_⟩
    rw [EarlySuspend.step]
    cases inside : s.registering with
    | none => exact holds
    | some h => exact holds.registered inside
  | unregister h => exact ⟨turns, holds.unregister can.1⟩

end

/-! ### Releasing the main wake lock -/

theorem requestSuspendState_mainWakeLock {t : Nat} {newState : SuspendState}
    (held : s.mainWakeLock = true) :
    (requestSuspendState exclusive t newState s).mainWakeLock = true := by
  simp only [requestSuspendState, queueWork_eq]
  split_ifs <;> first | exact held | rfl

theorem decidePass_mainWakeLock : (decidePass pass s).mainWakeLock = s.mainWakeLock := by
  cases pass <;> rw [decidePass] <;> split <;> rfl

theorem visitHandler_mainWakeLock :
    (visitHandler pass h rest completed s).mainWakeLock = s.mainWakeLock := by
  simp only [visitHandler]
  split_ifs <;> rfl

theorem finishPass_mainWakeLock : (finishPass pass completed s).mainWakeLock = s.mainWakeLock := by
  cases pass with
  | earlySuspend => rfl
  | lateResume => cases completed <;> rfl

/-- Only the last section of `early_suspend` releases it. -/
theorem step_releases {e : Event} (held : s.mainWakeLock = true)
    (released : (step exclusive e s).mainWakeLock = false) :
    s.worker = .syncing ∧ s.requested = true ∧ s.suspended = true := by
  have kept : (step exclusive e s).mainWakeLock ≠ true := by
    rw [released]
    decide
  unfold step at kept
  cases e with
  | call | unregister => exact absurd held kept
  | request t =>
    dsimp only at kept
    cases call : s.thread t <;> rw [call] at kept
    · exact absurd held kept
    · exact absurd (requestSuspendState_mainWakeLock held) kept
    · exact absurd held kept
  | work =>
    dsimp only [work] at kept
    cases inside : s.worker with
    | idle =>
      rw [inside] at kept
      cases queue : s.queue <;> rw [queue] at kept <;> exact absurd held kept
    | locking | calling =>
      rw [inside] at kept
      exact absurd held kept
    | deciding pass =>
      rw [inside] at kept
      exact absurd (decidePass_mainWakeLock.trans held) kept
    | visiting pass rest completed =>
      rw [inside] at kept
      cases rest with
      | nil => exact absurd (finishPass_mainWakeLock.trans held) kept
      | cons h rest => exact absurd (visitHandler_mainWakeLock.trans held) kept
    | syncing =>
      rw [inside] at kept
      dsimp only [releaseMain] at kept
      split at kept
      case isTrue both => exact ⟨rfl, both⟩
      case isFalse => exact absurd held kept
  | register h =>
    dsimp only [registerEarlySuspend] at kept
    split at kept <;> exact absurd held kept
  | registered =>
    dsimp only at kept
    cases inside : s.registering <;> rw [inside] at kept <;> exact absurd held kept

end Steps

theorem holds_reach {s : State}
    (reach : (machine exclusive).Reach (fun _ _ => True) s) : ∃ turns, Holds s turns := by
  induction reach with
  | start first =>
    cases first
    exact ⟨_, holds_start⟩
  | step _ can _ run ih =>
    obtain ⟨turns, holds⟩ := ih
    cases run
    exact holds.step can

/-- What every handler sees is the alternation of suspend and resume, as far as it has the
callbacks; the calls of a pass come in its order; and the main wake lock is released only while
suspend is requested and the suspend callbacks of all handlers, but for one that is just being
registered, have returned. -/
theorem handlers_alternate (exclusive : Bool) (s : State)
    (reach : (machine exclusive).Reach (fun _ _ => True) s) :
    (∀ h, ∃ n, calls h s.log = (alternating n).filter h.has) ∧
      s.log.Pairwise Entry.inOrder ∧
      ∀ e, enabled s e → s.mainWakeLock = true → (step exclusive e s).mainWakeLock = false →
        s.requested = true ∧ s.suspended = true ∧
          ∀ h ∈ s.handlers, h.suspend = true → s.registering ≠ some h →
            last h s.log = some (.returned .earlySuspend h) := by
  obtain ⟨turns, holds⟩ := holds_reach reach
  refine ⟨fun h => ⟨turns h, holds.seen h⟩, holds.ordered, fun e _ held released => ?_⟩
  obtain ⟨inside, requested, suspended⟩ := step_releases held released
  have unlocked : s.worker.locked = false := by rw [inside]; rfl
  refine ⟨requested, suspended, fun h member hasSuspend quiet => ?_⟩
  exact holds.ended_unlocked unlocked member hasSuspend
    ((holds.parity_unlocked unlocked member).mpr suspended) quiet

/-- Two handlers are registered, the screen goes off and on again. -/
def screenOffOn : List Event :=
  List.flatten [
    [.register ⟨1, 150, true, true⟩, .register ⟨0, 50, true, true⟩, .call 0 3, .request 0],
    List.replicate 9 .work, [.call 0 PM_SUSPEND_ON, .request 0], List.replicate 8 .work,
    [.request 0]]

theorem handlers_alternate_screen :
    ((runs false screenOffOn .start).map fun s => calls ⟨0, 50, true, true⟩ s.log) =
        some [.earlySuspend, .lateResume] ∧
      ∃ s, runs false screenOffOn .start = some s ∧
        (∀ h, ∃ n, calls h s.log = (alternating n).filter h.has) ∧
        s.log.Pairwise Entry.inOrder := by
  refine ⟨by decide +kernel, ?_⟩
  obtain ⟨s, run⟩ := Option.isSome_iff_exists.mp
    (by decide +kernel : (runs false screenOffOn .start).isSome = true)
  have result := handlers_alternate false s (reach_runs run)
  exact ⟨s, run, result.1, result.2.1⟩

end AndroidKernel.EarlySuspend
