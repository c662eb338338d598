import AndroidKernel.Lib.Refine
import AndroidKernel.UserWakeLock.Search

/-!
The two files keep a map from names to locks.

`specStep` says what a write does to such a map: it changes the entry of its own name or none.
As long as the names have only bytes below 128, the tree has one lock for every entry of the map
(`Keyed`), and the writes return what they return for the map.
-/

namespace AndroidKernel.UserWakeLock

open Lib Rbtree Function List RbTree

/-- The locks by their names. -/
abbrev Locks := List Byte → Option LockCall

/-- What a write returns and does to the locks. -/
def specStep : Write → Locks → Option Int × Locks
  | .wakeLock buf memory, m =>
    match parse buf true with
    | none => (some (-EINVAL), m)
    | some (name, timeout) =>
      if (m name).isNone = true ∧ memory = none then (some (-ENOMEM), m)
      else (some buf.length, update m name (some (lockCall timeout)))
  | .wakeUnlock buf, m =>
    match parse buf false with
    | none => (some (-EINVAL), m)
    | some (name, _) =>
      if (m name).isNone = true then (some (-EINVAL), m)
      else (some buf.length, update m name (some .wakeUnlock))

structure Keyed (s : State) (m : Locks) (t : RbTree Ptr) : Prop where
  shape : Shape s.tree t
  redBlack : t.RedBlack
  used : ∀ p ∈ t.inorder, p ∈ s.used
  names : ∀ p ∈ t.inorder, Ascii (s.name p)
  sorted : t.inorder.Pairwise fun p q => key (s.name p) < key (s.name q)
  locks : ∀ x call, m x = some call ↔ ∃ p ∈ t.inorder, s.name p = x ∧ s.lock p = call

def Write.buf : Write → List Byte
  | .wakeLock buf _ | .wakeUnlock buf => buf

/-- The name that is written. -/
def Write.name (w : Write) : List Byte := nameOf w.buf

/-- The write is of a name with bytes below 128. -/
def Write.ascii (w : Write) : Prop := ∀ c ∈ w.name, c.toNat < 128

/-- `kzalloc` returns memory that is not in use. -/
def Write.fresh (s : State) : Write → Prop
  | .wakeLock _ (some p) => p ≠ null ∧ p ∉ s.used
  | _ => True

def Sound (s : State) (w : Write) : Prop := w.fresh s ∧ w.ascii

instance decidableFresh (s : State) : (w : Write) → Decidable (w.fresh s)
  | .wakeLock _ (some p) => inferInstanceAs (Decidable (p ≠ null ∧ p ∉ s.used))
  | .wakeLock _ none => inferInstanceAs (Decidable True)
  | .wakeUnlock _ => inferInstanceAs (Decidable True)

instance decidableSound (s : State) (w : Write) : Decidable (Sound s w) :=
  inferInstanceAs (Decidable (w.fresh s ∧ ∀ c ∈ w.name, c.toNat < 128))

section Steps

variable {s : State} {m : Locks} {t : RbTree Ptr} {p q : Ptr} {x buf : List Byte}
  {call : LockCall} {path : List (RbCrumb Ptr)}

/-- One lock for a name. -/
theorem Keyed.unique (keyed : Keyed s m t) (first : p ∈ t.inorder) (second : q ∈ t.inorder)
    (same : s.name p = s.name q) : p = q := by
  have nodup : (t.inorder.map fun p => key (s.name p)).Nodup :=
    (pairwise_map.mpr keyed.sorted).imp ne_of_lt
  exact inj_on_of_nodup_map nodup first second (congrArg key same)

theorem ascii_nameOf (ascii : ∀ c ∈ nameOf buf, c.toNat < 128) : Ascii (nameOf buf) := by
  intro c member
  have kept := mem_takeWhile_imp member
  rw [Bool.and_eq_true, decide_eq_true_eq] at kept
  exact ⟨kept.1, ascii c member⟩

theorem parse_name {timeoutptr : Bool} {timeout : BitVec 32}
    (parsed : parse buf timeoutptr = some (x, timeout)) : x = nameOf buf := by
  simp only [parse] at parsed
  split_ifs at parsed <;> exact (congrArg Prod.fst (Option.some.inj parsed)).symm

theorem Keyed.lookup (keyed : Keyed s m t) (ascii : Ascii (nameOf buf)) :
    (lookupLoop s buf (nameOf buf).length maxRounds s.tree.root .root).Correct s (nameOf buf) t := by
  have split : nameOf buf ++ buf.dropWhile (fun c => c ≠ 0 && !isspace c) = buf :=
    takeWhile_append_dropWhile
  have zip : Zip s.tree t [] := shape_plug.mp keyed.shape
  have result := @lookupLoop_spec s t [] (nameOf buf)
    (buf.dropWhile fun c => c ≠ 0 && !isspace c) .root maxRounds zip .root
    (height_lt_maxRounds keyed.redBlack keyed.shape.nodup) ascii keyed.names keyed.sorted
    ⟨by simp, by simp⟩
  rw [split, ← keyed.shape.root] at result
  exact result

/-- Of a name that the search misses there is no lock. -/
theorem Keyed.none_of_missing (keyed : Keyed s m t)
    (whole : t = RbTree.leaf.plug path) (between : Between s x path) : m x = none := by
  by_contra present
  obtain ⟨call, found⟩ := Option.ne_none_iff_exists'.mp present
  obtain ⟨p, member, rfl, _⟩ := (keyed.locks x call).mp found
  rw [whole, inorder_plug, inorder_leaf, append_nil, mem_append] at member
  rcases member with before | after
  · exact lt_irrefl _ (between.below p before)
  · exact lt_irrefl _ (between.above p after)

/-- The lock of a name is called. -/
theorem Keyed.setLock (keyed : Keyed s m t) (member : p ∈ t.inorder) :
    Keyed (setLock p call s) (update m (s.name p) (some call)) t where
  __ := keyed
  locks x call' := by
    by_cases own : x = s.name p
    · rw [own, update_self, Option.some_inj]
      constructor
      · intro same
        exact ⟨p, member, rfl, (update_self ..).trans same⟩
      · rintro ⟨q, member', same, called⟩
        rw [keyed.unique member' member same] at called
        exact (update_self ..).symm.trans called
    · rw [update_of_ne own, keyed.locks]
      have others : ∀ q, s.name q = x → (UserWakeLock.setLock p call s).lock q = s.lock q := by
        intro q named
        refine update_of_ne ?_ _ _
        rintro rfl
        exact own named.symm
      constructor
      · rintro ⟨q, member', named, called⟩
        exact ⟨q, member', named, (others q named).trans called⟩
      · rintro ⟨q, member', named, called⟩
        exact ⟨q, member', named, (others q named).symm.trans called⟩

/-- The place that the search has found is free. -/
theorem fits_of_leads {tree : RbState} {place : Place}
    (shape : Shape tree (RbTree.leaf.plug path)) (leads : Leads place path) (present : p ≠ null)
    (fresh : p ∉ (RbTree.leaf.plug path).inorder) : Fits tree p place := by
  cases leads with
  | root => exact ⟨present, shape.root⟩
  | @child side c v sibling path =>
    have zip := shape_plug.mp shape
    have cell := (hung_on.mp zip.hung).1
    have member : v ∈ (RbTree.leaf.plug (.on side c v sibling :: path)).inorder :=
      mem_plug.mpr (.inr (mem_around_on.mpr (.inl rfl)))
    exact ⟨present, mt shape.inTree_iff.mp fresh, shape.inTree_iff.mpr member, cell.near⟩

/-- A lock is made for a name that has none. -/
theorem Keyed.addLock (keyed : Keyed s m t) {place : Place}
    (whole : t = RbTree.leaf.plug path) (leads : Leads place path) (between : Between s x path)
    (ascii : Ascii x) (present : p ≠ null) (unused : p ∉ s.used) :
    ∃ s' t', addLock p place x s = some s' ∧ p ∈ t'.inorder ∧ s'.name p = x ∧
      Keyed s' (update m x (some (s'.lock p))) t' := by
  have fresh : p ∉ t.inorder := fun member => unused (keyed.used p member)
  have shape := keyed.shape
  have outside := fresh
  rw [whole] at shape outside
  obtain ⟨tree₁, t₁, tree₂, t₂, linked, _, sequence, ran, shape₂, sequence', redBlack₂⟩ :=
    insert_total keyed.shape keyed.redBlack (fits_of_leads shape leads present outside)
  have inorder : t₂.inorder = before path ++ p :: after path := by
    rw [sequence', sequence, whole, leads.insert p (shape_plug.mp shape).above]
  have before : t.inorder = before path ++ after path := by
    rw [whole, inorder_plug, inorder_leaf, append_nil]
  have members : ∀ q, q ∈ t₂.inorder ↔ q = p ∨ q ∈ t.inorder := by
    intro q
    rw [inorder, before, mem_append, mem_cons, mem_append]
    tauto
  have nameSelf : update s.name p x p = x := update_self ..
  have nameOther : ∀ q ∈ t.inorder, update s.name p x q = s.name q := by
    intro q member
    refine update_of_ne ?_ _ _
    rintro rfl
    exact fresh member
  refine ⟨{ s with tree := tree₂, name := update s.name p x, used := p :: s.used }, t₂,
    ?_, (members p).mpr (.inl rfl), nameSelf, shape₂, redBlack₂, ?_, ?_, ?_, ?_⟩
  · simp only [UserWakeLock.addLock, linked, ran]
  · grind [→ Keyed.used]
  · grind [→ Keyed.names]
  · -- the new lock stands between those before and those after its place
    have sorted : t.inorder.Pairwise fun q r =>
        key (update s.name p x q) < key (update s.name p x r) := by
      refine keyed.sorted.imp_of_mem fun first second less => ?_
      rw [nameOther _ first, nameOther _ second]
      exact less
    rw [before] at sorted
    obtain ⟨low, high, across⟩ := pairwise_append.mp sorted
    rw [inorder]
    refine pairwise_append.mpr ⟨low, pairwise_cons.mpr ⟨fun q after => ?_, high⟩,
      fun q first r second => ?_⟩
    · grind [→ Between.above]
    · grind [→ Between.below]
  · intro y call
    change _ ↔ ∃ q ∈ t₂.inorder, update s.name p x q = y ∧ s.lock q = call
    by_cases own : y = x
    · rw [own, update_self, Option.some_inj]
      constructor
      · intro same
        exact ⟨p, (members p).mpr (.inl rfl), nameSelf, same⟩
      rintro ⟨q, member, named, called⟩
      rcases (members q).mp member with rfl | old
      · exact called
      · rw [nameOther q old] at named
        have taken := (keyed.locks x call).mpr ⟨q, old, named, called⟩
        rw [keyed.none_of_missing whole between] at taken
        cases taken
    · rw [update_of_ne own, keyed.locks]
      constructor
      · rintro ⟨q, old, named, called⟩
        exact ⟨q, (members q).mpr (.inr old), (nameOther q old).trans named, called⟩
      · grind

/-! ### Writes -/

/-- What `lookup_wake_lock_name` returns, by what is at the name. -/
inductive Lookups (m : Locks) (s : State) (name : List Byte) (timeout : BitVec 32)
    (allocate : Bool) (memory : Option Ptr) :
    Option (Except Int (Ptr × BitVec 32) × State) → Prop where
  | notThere : m name = none → allocate = false →
      Lookups m s name timeout allocate memory (some (.error (-EINVAL), s))
  | noMemory : m name = none → allocate = true → memory = none →
      Lookups m s name timeout allocate memory (some (.error (-ENOMEM), s))
  /-- The lock is there now, whether or not it was before. -/
  | lock {p : Ptr} {s' : State} {t' : RbTree Ptr} : p ∈ t'.inorder → s'.name p = name →
      Keyed s' (update m name (some (s'.lock p))) t' →
      (m name = none → allocate = true ∧ memory = some p) →
      Lookups m s name timeout allocate memory (some (.ok (p, timeout), s'))

theorem Keyed.lookupWakeLockName (keyed : Keyed s m t) {allocate timeoutptr : Bool}
    {memory : Option Ptr} {name : List Byte} {timeout : BitVec 32}
    (fresh : ∀ p ∈ memory, p ≠ null ∧ p ∉ s.used) (ascii : ∀ c ∈ nameOf buf, c.toNat < 128)
    (parsed : parse buf timeoutptr = some (name, timeout)) :
    Lookups m s name timeout allocate memory
      (lookupWakeLockName buf allocate timeoutptr memory s) := by
  have asciiName := ascii_nameOf ascii
  have correct := keyed.lookup asciiName
  rw [← parse_name parsed] at correct asciiName
  rw [UserWakeLock.lookupWakeLockName]
  simp only [parsed]
  cases looked : lookupLoop s buf name.length maxRounds s.tree.root .root with
  | endless =>
    rw [looked] at correct
    exact correct.elim
  | found p =>
    rw [looked] at correct
    obtain ⟨member, named⟩ := correct
    have taken := (keyed.locks name (s.lock p)).mpr ⟨p, member, named, rfl⟩
    refine .lock member named ?_ fun free => ?_
    · rw [← taken, update_eq_self]
      exact keyed
    · rw [taken] at free
      cases free
  | missing place =>
    rw [looked] at correct
    obtain ⟨path, whole, leads, between⟩ := correct
    have free := keyed.none_of_missing whole between
    cases allocate with
    | false => exact .notThere free rfl
    | true =>
      cases memory with
      | none => exact .noMemory free rfl rfl
      | some p =>
        obtain ⟨present, unused⟩ := fresh p rfl
        obtain ⟨s', t', added, member, named, keyed'⟩ :=
          keyed.addLock whole leads between asciiName present unused
        simp only [added, Bool.true_eq_false, if_false, Option.map_some]
        exact .lock member named keyed' fun _ => ⟨rfl, rfl⟩

/-- The call that follows the lookup. -/
theorem Keyed.called {name : List Byte} {old : Option LockCall}
    (keyed : Keyed s (update m name old) t) (member : p ∈ t.inorder) (named : s.name p = name) :
    Keyed (UserWakeLock.setLock p call s) (update m name (some call)) t := by
  have called := @Keyed.setLock s _ t p call keyed member
  rw [named, update_idem] at called
  exact called

theorem Keyed.wakeLockStore (keyed : Keyed s m t) {memory : Option Ptr}
    (fresh : ∀ p ∈ memory, p ≠ null ∧ p ∉ s.used) (ascii : ∀ c ∈ nameOf buf, c.toNat < 128) :
    (wakeLockStore buf memory s).1 = (specStep (.wakeLock buf memory) m).1 ∧
      ∃ t', Keyed (wakeLockStore buf memory s).2 (specStep (.wakeLock buf memory) m).2 t' := by
  rw [UserWakeLock.wakeLockStore, specStep]
  cases parsed : parse buf true with
  | none =>
    simp only [UserWakeLock.lookupWakeLockName, parsed]
    exact ⟨trivial, t, keyed⟩
  | some arg =>
    obtain ⟨name, timeout⟩ := arg
    have looked := @Keyed.lookupWakeLockName s m t buf keyed true true memory name timeout fresh
      ascii parsed
    generalize UserWakeLock.lookupWakeLockName buf true true memory s = result at looked
    cases looked with
    | notThere _ allocate => cases allocate
    | noMemory free _ noMemory =>
      simp only [free, noMemory, Option.isNone_none, and_self, if_true]
      exact ⟨trivial, t, keyed⟩
    | lock member named keyed' made =>
      have room : ¬((m name).isNone ∧ memory = none) := by
        rintro ⟨free, noMemory⟩
        rw [(made (Option.isNone_iff_eq_none.mp free)).2] at noMemory
        cases noMemory
      simp only [if_neg room]
      exact ⟨trivial, _, keyed'.called member named⟩

theorem Keyed.wakeUnlockStore (keyed : Keyed s m t) (ascii : ∀ c ∈ nameOf buf, c.toNat < 128) :
    (wakeUnlockStore buf s).1 = (specStep (.wakeUnlock buf) m).1 ∧
      ∃ t', Keyed (wakeUnlockStore buf s).2 (specStep (.wakeUnlock buf) m).2 t' := by
  rw [UserWakeLock.wakeUnlockStore, specStep]
  cases parsed : parse buf false with
  | none =>
    simp only [UserWakeLock.lookupWakeLockName, parsed]
    exact ⟨trivial, t, keyed⟩
  | some arg =>
    obtain ⟨name, timeout⟩ := arg
    have looked := @Keyed.lookupWakeLockName s m t buf keyed false false none name timeout
      (by rintro p ⟨⟩) ascii parsed
    generalize UserWakeLock.lookupWakeLockName buf false false none s = result at looked
    cases looked with
    | notThere free =>
      simp only [free, Option.isNone_none, if_true]
      exact ⟨trivial, t, keyed⟩
    | noMemory _ allocate => cases allocate
    | lock member named keyed' made =>
      have there : ¬(m name).isNone := fun free =>
        absurd (made (Option.isNone_iff_eq_none.mp free)).1 (by decide)
      simp only [if_neg there]
      exact ⟨trivial, _, keyed'.called member named⟩

theorem Keyed.write {w : Write} (keyed : Keyed s m t) (sound : Sound s w) :
    (step w s).1 = (specStep w m).1 ∧ ∃ t', Keyed (step w s).2 (specStep w m).2 t' := by
  obtain ⟨fresh, ascii⟩ := sound
  cases w with
  | wakeLock buf memory =>
    refine keyed.wakeLockStore ?_ ascii
    rintro p given
    rw [Option.mem_def.mp given] at fresh
    exact fresh
  | wakeUnlock buf => exact keyed.wakeUnlockStore ascii

theorem Keyed.run (keyed : Keyed s m t) {writes : List Write} (sound : Admits step Sound writes s) :
    (answers step writes s).1 = (answers specStep writes m).1 ∧
      ∃ t', Keyed (answers step writes s).2 (answers specStep writes m).2 t' := by
  induction writes generalizing s m t with
  | nil => exact ⟨rfl, t, keyed⟩
  | cons w rest ih =>
    obtain ⟨here, later⟩ := sound
    obtain ⟨answer, t', keyed'⟩ := keyed.write here
    obtain ⟨answers', last⟩ := ih keyed' later
    rw [answers, answers, answer, answers']
    exact ⟨rfl, last⟩

end Steps

theorem keyed_start (tree : RbState) (name : Ptr → List Byte) (lock : Ptr → LockCall) :
    Keyed (.start tree name lock) (fun _ => none) .leaf where
  shape := ⟨rfl, trivial, nodup_nil⟩
  redBlack := ⟨0, .leaf⟩
  used _ member := absurd member not_mem_nil
  names _ member := absurd member not_mem_nil
  sorted := List.Pairwise.nil
  locks x call := by
    constructor
    · intro found
      cases found
    · rintro ⟨p, member, _⟩
      exact absurd member not_mem_nil

/-! ### Names -/

/-- There is a lock with the name, and this was the last call for it. -/
def Has (s : State) (x : List Byte) (call : LockCall) : Prop :=
  ∃ p, InTree s.tree p ∧ s.name p = x ∧ s.lock p = call

section Names

variable {s : State} {m : Locks} {t : RbTree Ptr} {x buf : List Byte} {call : LockCall} {w : Write}

theorem Keyed.has_iff (keyed : Keyed s m t) : Has s x call ↔ m x = some call := by
  rw [keyed.locks, Has]
  simp only [keyed.shape.inTree_iff]

/-- A write is refused, or sets the entry of its name. -/
theorem specStep_cases (w : Write) (m : Locks) :
    (∃ e < 0, specStep w m = (some e, m)) ∨
      ∃ call, specStep w m = (some (w.buf.length : Int), update m w.name (some call)) := by
  cases w with
  | wakeLock buf memory =>
    rw [specStep]
    cases parsed : parse buf true with
    | none => exact .inl ⟨-EINVAL, by decide, rfl⟩
    | some arg =>
      dsimp only
      split_ifs
      · exact .inl ⟨-ENOMEM, by decide, rfl⟩
      · rw [parse_name parsed]
        exact .inr ⟨_, rfl⟩
  | wakeUnlock buf =>
    rw [specStep]
    cases parsed : parse buf false with
    | none => exact .inl ⟨-EINVAL, by decide, rfl⟩
    | some arg =>
      dsimp only
      split_ifs
      · exact .inl ⟨-EINVAL, by decide, rfl⟩
      · rw [parse_name parsed]
        exact .inr ⟨_, rfl⟩

theorem specStep_other (other : x ≠ w.name) : (specStep w m).2 x = m x := by
  rcases specStep_cases w m with ⟨e, _, refused⟩ | ⟨call, done⟩
  · rw [refused]
  · rw [done]
    exact update_of_ne other _ _

theorem specStep_keeps (there : m x ≠ none) : (specStep w m).2 x ≠ none := by
  by_cases own : x = w.name
  · rcases specStep_cases w m with ⟨e, _, refused⟩ | ⟨call, done⟩
    · rw [refused]
      exact there
    · simp only [done, own, update_self]
      exact Option.some_ne_none _
  · rw [specStep_other own]
    exact there

theorem specRun_keeps {writes : List Write} (there : m x ≠ none) :
    (answers specStep writes m).2 x ≠ none := by
  induction writes generalizing m with
  | nil => exact there
  | cons w rest ih => exact ih (specStep_keeps there)

/-- Writes that succeed leave a lock behind. -/
theorem specStep_succeeds (success : (specStep w m).1 = some (w.buf.length : Int)) :
    (specStep w m).2 w.name ≠ none := by
  rcases specStep_cases w m with ⟨e, negative, refused⟩ | ⟨call, done⟩
  · rw [refused] at success
    have length := Option.some.inj success
    omega
  · simp only [done, update_self]
    exact Option.some_ne_none _

theorem specStep_unlock (there : m (nameOf buf) ≠ none) (wellFormed : parse buf false ≠ none) :
    specStep (.wakeUnlock buf) m =
      (some (buf.length : Int), update m (nameOf buf) (some .wakeUnlock)) := by
  obtain ⟨arg, parsed⟩ := Option.ne_none_iff_exists'.mp wellFormed
  have found : ¬(m (nameOf buf)).isNone := fun missing =>
    there (Option.isNone_iff_eq_none.mp missing)
  simp only [specStep, parsed, parse_name parsed, if_neg found]

end Names

section Files

variable (tree : RbState) (name : Ptr → List Byte) (lock : Ptr → LockCall)

/-- The locks after a sequence of writes. -/
def written (writes : List Write) : State := (answers step writes (.start tree name lock)).2

/-- As long as the names have only bytes below 128: there is one lock to a name, an unlock after
a successful lock of the same name finds it and releases it, and a write leaves the locks of all
other names as they are. -/
theorem user_locks_keyed (writes : List Write)
    (sound : Admits step Sound writes (.start tree name lock)) :
    (∀ p q, InTree (written tree name lock writes).tree p →
      InTree (written tree name lock writes).tree q →
      (written tree name lock writes).name p = (written tree name lock writes).name q → p = q) ∧
    (∀ before after buf memory buf', writes = before ++ .wakeLock buf memory :: after →
      (step (.wakeLock buf memory) (written tree name lock before)).1 = some (buf.length : Int) →
      nameOf buf' = nameOf buf → parse buf' false ≠ none →
      (step (.wakeUnlock buf') (written tree name lock writes)).1 = some (buf'.length : Int) ∧
        Has (step (.wakeUnlock buf') (written tree name lock writes)).2 (nameOf buf) .wakeUnlock) ∧
    ∀ w, Sound (written tree name lock writes) w → ∀ x call, x ≠ w.name →
      (Has (step w (written tree name lock writes)).2 x call ↔
        Has (written tree name lock writes) x call) := by
  have start := keyed_start tree name lock
  obtain ⟨_, t, keyed⟩ := start.run sound
  refine ⟨fun p q first second => ?_, ?_, fun w sound' x call other => ?_⟩
  · exact keyed.unique (keyed.shape.inTree_iff.mp first) (keyed.shape.inTree_iff.mp second)
  · rintro before after buf memory buf' rfl success sameName wellFormed
    obtain ⟨early, here, _⟩ := admits_append.mp sound
    obtain ⟨_, t₀, keyed₀⟩ := start.run early
    have locked := specStep_succeeds ((keyed₀.write here).1.symm.trans success)
    -- the lock is in the map from then on
    have there := @specRun_keeps _ _ after locked
    have whole := congrArg Prod.snd
      (answers_append specStep before (.wakeLock buf memory :: after) fun _ => none)
    rw [answers] at whole
    rw [← whole, Write.name, Write.buf, ← sameName] at there
    have ascii : (Write.wakeUnlock buf').ascii := by
      rw [Write.ascii, Write.name, Write.buf, sameName]
      exact here.2
    obtain ⟨answer, t', keyed'⟩ := @Keyed.write _ _ _ (.wakeUnlock buf') keyed ⟨trivial, ascii⟩
    rw [specStep_unlock there wellFormed] at answer keyed'
    rw [written, ← sameName, keyed'.has_iff]
    exact ⟨answer, update_self _ _ _⟩
  · obtain ⟨_, t', keyed'⟩ := keyed.write sound'
    rw [written, keyed.has_iff, keyed'.has_iff, specStep_other other]

end Files

/-- A tree that nothing has been put into. -/
def blank : RbState := ⟨fun _ => ⟨0, null, null⟩, null⟩

/-- "a", "ab" with a timeout and "b" are locked, and "a " is unlocked. -/
theorem user_locks_keyed_letters :
    (step (.wakeUnlock [0x61, 0x20]) (written blank (fun _ => []) (fun _ => .wakeUnlock)
      [.wakeLock [0x61] (some ⟨4, rfl⟩), .wakeLock [0x61, 0x62, 0x20, 0x39] (some ⟨8, rfl⟩),
        .wakeLock [0x62] (some ⟨12, rfl⟩)])).1 = some 2 :=
  ((user_locks_keyed blank (fun _ => []) (fun _ => .wakeUnlock)
    [.wakeLock [0x61] (some ⟨4, rfl⟩), .wakeLock [0x61, 0x62, 0x20, 0x39] (some ⟨8, rfl⟩),
      .wakeLock [0x62] (some ⟨12, rfl⟩)] (by decide +kernel)).2.1 [] _ [0x61] (some ⟨4, rfl⟩)
    [0x61, 0x20] rfl (by decide +kernel) (by decide +kernel) (by decide +kernel)).1

/-- The names are 'a' 0x80, 'a', 'A' and once more 'a' 0x80. -/
def wrapped : List Write :=
  [.wakeLock [0x61, 0x80] (some ⟨4, rfl⟩), .wakeLock [0x61] (some ⟨8, rfl⟩),
    .wakeLock [0x41] (some ⟨12, rfl⟩), .wakeUnlock [0x61, 0x80],
    .wakeLock [0x61, 0x80] (some ⟨16, rfl⟩)]

/-- The difference of a byte and the end of a name wraps at 128, so 'a' 0x80 comes both before 'a'
and after it: the search misses the lock, does not release it, and makes a second one. -/
theorem name_with_two_locks :
    (answers step wrapped (.start blank (fun _ => []) fun _ => .wakeUnlock)).1 =
        [some 2, some 1, some 1, some (-EINVAL), some 2] ∧
      ∃ p q, InTree (written blank (fun _ => []) (fun _ => .wakeUnlock) wrapped).tree p ∧
        InTree (written blank (fun _ => []) (fun _ => .wakeUnlock) wrapped).tree q ∧ p ≠ q ∧
        (written blank (fun _ => []) (fun _ => .wakeUnlock) wrapped).name p = [0x61, 0x80] ∧
        (written blank (fun _ => []) (fun _ => .wakeUnlock) wrapped).name q = [0x61, 0x80] := by
  refine ⟨by decide +kernel, _, _, @InTree.child _ _ .right (.root ?_) ?_,
    @InTree.child _ _ .right (@InTree.child _ _ .left (.root ?_) ?_) ?_, ?_⟩
  all_goals decide +kernel

end AndroidKernel.UserWakeLock
