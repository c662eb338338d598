import AndroidKernel.Buddy.Zone
import AndroidKernel.Lib.Dyadic

/-!
Free lists and the set of free blocks.

`Listed s z f` says that the lists, the flags and the recorded orders of the pages are
those of a set of blocks `f`; `Tallied z d` that the counters are those of the lists,
with `d` pages more in `NR_FREE_PAGES` than on the lists. A block is put on a list
(`Zone.put`) or taken off (`Zone.take`), and moved to the list of another type.
-/

namespace AndroidKernel.Buddy

open Lib Function Finset

/-- The page is in the zone. -/
def Span.Has (s : Span) (p : Nat) : Prop :=
  s.zoneStartPfn ≤ p ∧ p < s.zoneStartPfn + s.spannedPages

structure Listed (s : Span) (z : Zone) (f : Nat → Option Nat) : Prop where
  mem : ∀ {p o}, (∃ t, p ∈ z.freeList o t) ↔ f p = some o
  type : ∀ {p o t t'}, p ∈ z.freeList o t → p ∈ z.freeList o t' → t = t'
  nodup : ∀ o t, (z.freeList o t).Nodup
  flag : ∀ {p}, s.zoneId p = s.zoneId s.zoneStartPfn → (z.pageBuddy p = true ↔ f p ≠ none)
  order : ∀ {p o}, f p = some o → z.pagePrivate p = o

theorem Listed.congr {s : Span} {z z' : Zone} {f : Nat → Option Nat} (listed : Listed s z f)
    (lists : z'.freeList = z.freeList) (flags : z'.pageBuddy = z.pageBuddy)
    (orders : z'.pagePrivate = z.pagePrivate) : Listed s z' f := by
  refine ⟨?_, ?_, ?_, ?_, ?_⟩
  · exact lists ▸ listed.mem
  · exact lists ▸ listed.type
  · exact lists ▸ listed.nodup
  · exact flags ▸ listed.flag
  · exact orders ▸ listed.order

/-- The number of blocks of an order on all lists. -/
def blockCount (freeList : Nat → MigrateType → List Nat) (o : Nat) : Int :=
  ∑ t, ((freeList o t).length : Int)

/-- The number of pages in blocks, by the counters. -/
def pageCount (nrFree : Nat → Int) : Int := ∑ o ∈ range maxOrder, 2 ^ o * nrFree o

structure Tallied (z : Zone) (d : Int) : Prop where
  blocks : ∀ o, z.nrFree o = blockCount z.freeList o
  pages : z.nrFreePages = pageCount z.nrFree + d

theorem pageCount_update (nrFree : Nat → Int) {o : Nat} (small : o < maxOrder) (d : Int) :
    pageCount (update nrFree o (nrFree o + d)) = pageCount nrFree + 2 ^ o * d := by
  have split : ∀ o', (2 : Int) ^ o' * update nrFree o (nrFree o + d) o' =
      2 ^ o' * nrFree o' + if o' = o then 2 ^ o * d else 0 := by
    intro o'
    by_cases same : o' = o
    · rw [same, update_self, if_pos rfl, mul_add]
    · rw [update_of_ne same, if_neg same, add_zero]
  unfold pageCount
  simp only [split]
  rw [sum_add_distrib, sum_ite_eq', if_pos (Finset.mem_range.mpr small)]

/-! ### Taking a block off its list -/

theorem Tallied.move {z z' : Zone} {d δ : Int} {o : Nat} (tallied : Tallied z d)
    (small : o < maxOrder) (pages : z'.nrFreePages = z.nrFreePages)
    (nrFree : z'.nrFree = update z.nrFree o (z.nrFree o + δ))
    (lists : ∀ o', blockCount z'.freeList o' = blockCount z.freeList o' + if o' = o then δ else 0) :
    Tallied z' (d - 2 ^ o * δ) := by
  constructor
  case blocks =>
    intro o'
    rw [nrFree, lists]
    by_cases same : o' = o
    · rw [same, update_self, tallied.blocks, if_pos rfl]
    · rw [update_of_ne same, tallied.blocks, if_neg same, add_zero]
  case pages =>
    rw [pages, nrFree, pageCount_update _ small, tallied.pages]
    ring

def Zone.erased (z : Zone) (p : Nat) : Nat → MigrateType → List Nat :=
  fun o t => (z.freeList o t).erase p

/-- The block of order `o` at `p` is on no list any more. -/
def Zone.take (z : Zone) (p o : Nat) : Zone :=
  { z with
    freeList := z.erased p
    nrFree := update z.nrFree o (z.nrFree o + -1)
    pageBuddy := update z.pageBuddy p false
    pagePrivate := update z.pagePrivate p 0 }

section Take

variable {s : Span} {z : Zone} {f : Nat → Option Nat} {p o : Nat} {d : Int}

theorem Listed.mem_erased (listed : Listed s z f) {q o : Nat} {t : MigrateType} :
    q ∈ z.erased p o t ↔ q ∈ z.freeList o t ∧ q ≠ p := by
  unfold Zone.erased
  rw [(listed.nodup o t).mem_erase_iff, and_comm]

theorem Listed.take (listed : Listed s z f) : Listed s (z.take p o) (update f p none) := by
  constructor
  case mem =>
    intro q o'
    have erased : (∃ t, q ∈ (z.take p o).freeList o' t) ↔ (∃ t, q ∈ z.freeList o' t) ∧ q ≠ p := by
      simp only [Zone.take, listed.mem_erased]
      rw [exists_and_right]
    rw [erased, listed.mem]
    by_cases same : q = p
    · rw [same, update_self]
      exact iff_of_false (fun both => both.2 rfl) nofun
    · rw [update_of_ne same]
      exact and_iff_left same
  case type =>
    intro q o' t t' first second
    exact listed.type (listed.mem_erased.mp first).1 (listed.mem_erased.mp second).1
  case nodup => exact fun o' t => (listed.nodup o' t).erase p
  case flag =>
    intro q own
    change update z.pageBuddy p false q = true ↔ _
    by_cases same : q = p
    · rw [same, update_self, update_self]
      exact iff_of_false Bool.false_ne_true fun none => none rfl
    · rw [update_of_ne same, update_of_ne same]
      exact listed.flag own
  case order =>
    intro q o' there
    obtain ⟨other, there⟩ := update_none there
    exact (update_of_ne other ..).trans (listed.order there)

theorem Listed.blockCount_erased (listed : Listed s z f) (there : f p = some o) (o' : Nat) :
    blockCount (z.erased p) o' = blockCount z.freeList o' + if o' = o then -1 else 0 := by
  unfold blockCount Zone.erased
  by_cases same : o' = o
  · subst same
    obtain ⟨t, member⟩ := listed.mem.mpr there
    rw [if_pos rfl]
    have each : ∀ t', (((z.freeList o' t').erase p).length : Int) =
        (z.freeList o' t').length + if t' = t then -1 else 0 := by
      grind [→ Listed.type]
    simp only [each]
    rw [sum_add_distrib, sum_ite_eq', if_pos (mem_univ t)]
  · rw [if_neg same, add_zero]
    refine sum_congr rfl fun t _ => ?_
    rw [List.erase_of_not_mem fun other => same ?_]
    have other := listed.mem.mp ⟨t, other⟩
    rw [there, Option.some.injEq] at other
    exact other.symm

theorem Tallied.take (tallied : Tallied z d) (listed : Listed s z f) (there : f p = some o)
    (small : o < maxOrder) : Tallied (z.take p o) (d + 2 ^ o) := by
  simpa using @Tallied.move z (z.take p o) d _ o tallied small rfl rfl (listed.blockCount_erased there)

end Take

/-! ### Putting a block on a list -/

def Zone.added (z : Zone) (p o : Nat) (t : MigrateType) : Nat → MigrateType → List Nat :=
  update z.freeList o (update (z.freeList o) t (p :: z.freeList o t))

def Zone.put (z : Zone) (p o : Nat) (t : MigrateType) : Zone :=
  { z with
    freeList := z.added p o t
    nrFree := update z.nrFree o (z.nrFree o + 1)
    pageBuddy := update z.pageBuddy p true
    pagePrivate := update z.pagePrivate p o }

section Put

variable {s : Span} {z : Zone} {f : Nat → Option Nat} {p o : Nat} {t : MigrateType} {d : Int}

theorem Zone.added_eq (z : Zone) (p o : Nat) (t : MigrateType) (o' : Nat) (t' : MigrateType) :
    z.added p o t o' t' =
      if o' = o ∧ t' = t then p :: z.freeList o t else z.freeList o' t' := by
  unfold Zone.added
  by_cases order : o' = o
  · subst order
    rw [update_self]
    by_cases type : t' = t
    · rw [type, update_self, if_pos ⟨rfl, rfl⟩]
    · rw [update_of_ne type, if_neg fun both => type both.2]
  · rw [update_of_ne order, if_neg fun both => order both.1]

theorem Zone.mem_added {z : Zone} {q o' : Nat} {t' : MigrateType} :
    q ∈ z.added p o t o' t' ↔ q = p ∧ o' = o ∧ t' = t ∨ q ∈ z.freeList o' t' := by
  rw [z.added_eq]
  by_cases own : o' = o ∧ t' = t
  · obtain ⟨rfl, rfl⟩ := own
    simp
  · rw [if_neg own]
    exact ⟨.inr, Or.rec (fun both => absurd both.2 own) id⟩

theorem Listed.put (listed : Listed s z f) (fresh : f p = none) :
    Listed s (z.put p o t) (update f p (some o)) := by
  have absent : ∀ o' t', p ∉ z.freeList o' t' := by
    intro o' t' member
    rw [listed.mem.mp ⟨t', member⟩] at fresh
    cases fresh
  constructor
  case mem =>
    intro q o'
    have added : (∃ t', q ∈ (z.put p o t).freeList o' t') ↔
        q = p ∧ o' = o ∨ ∃ t', q ∈ z.freeList o' t' := by
      simp only [Zone.put, Zone.mem_added]
      constructor
      · rintro ⟨t', ⟨isNew, order, -⟩ | old⟩
        · exact .inl ⟨isNew, order⟩
        · exact .inr ⟨t', old⟩
      · rintro (⟨isNew, order⟩ | ⟨t', old⟩)
        · exact ⟨t, .inl ⟨isNew, order, rfl⟩⟩
        · exact ⟨t', .inr old⟩
    rw [added, listed.mem]
    by_cases same : q = p
    · grind
    · rw [update_of_ne same]
      exact or_iff_right fun both => same both.1
  case type =>
    intro q o' t₁ t₂ first second
    rcases Zone.mem_added.mp first with ⟨rfl, rfl, rfl⟩ | old₁
    · rcases Zone.mem_added.mp second with ⟨-, -, rfl⟩ | old₂
      · rfl
      · exact absurd old₂ (absent _ _)
    · rcases Zone.mem_added.mp second with ⟨rfl, rfl, rfl⟩ | old₂
      · exact absurd old₁ (absent _ _)
      · exact listed.type old₁ old₂
  case nodup =>
    intro o' t'
    change (z.added p o t o' t').Nodup
    rw [z.added_eq]
    split
    · exact List.nodup_cons.mpr ⟨absent o t, listed.nodup o t⟩
    · exact listed.nodup o' t'
  case flag =>
    intro q own
    change update z.pageBuddy p true q = true ↔ _
    by_cases same : q = p
    · rw [same, update_self, update_self]
      exact iff_of_true rfl nofun
    · rw [update_of_ne same, update_of_ne same]
      exact listed.flag own
  case order =>
    intro q o' there
    rcases update_some there with ⟨rfl, rfl⟩ | ⟨other, there⟩
    · exact update_self ..
    · exact (update_of_ne other ..).trans (listed.order there)

theorem blockCount_added (z : Zone) (p o : Nat) (t : MigrateType) (o' : Nat) :
    blockCount (z.added p o t) o' = blockCount z.freeList o' + if o' = o then 1 else 0 := by
  unfold blockCount
  by_cases same : o' = o
  · subst same
    rw [if_pos rfl]
    have each : ∀ t', ((z.added p o' t o' t').length : Int) =
        (z.freeList o' t').length + if t' = t then 1 else 0 := by
      grind [Zone.added_eq]
    simp only [each]
    rw [sum_add_distrib, sum_ite_eq', if_pos (mem_univ t)]
  · rw [if_neg same, add_zero]
    refine sum_congr rfl fun t' _ => ?_
    rw [z.added_eq, if_neg fun both => same both.1]

theorem Tallied.put (tallied : Tallied z d) (small : o < maxOrder) :
    Tallied (z.put p o t) (d - 2 ^ o) := by
  simpa using @Tallied.move z (z.put p o t) d _ o tallied small rfl rfl (blockCount_added z p o t)

end Put

end AndroidKernel.Buddy
