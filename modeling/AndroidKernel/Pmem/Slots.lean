import AndroidKernel.Lib.Tiling
import AndroidKernel.Pmem.Bitmap

/-!
The slots of the bitmap tile the region.

`Tiled info slot held` says that the slots that `slot` gives tile the region, that the entries
at their starts have their orders, and that the allocated ones are those of `held`. The buddy
of a slot is the start of a slot whenever it lies in the region, so `pmem_free` never looks at
an entry with a stale order. The two loops that change the slots start or end with a slot that
may stand beside a free buddy of its own order; `Joined` says that there is no other.
-/

namespace AndroidKernel.Pmem

open Lib

section Entries

variable {info : PmemInfo} {p q o : Nat} {b : Bool}

@[simp] theorem numEntries_setOrder : (info.setOrder p o).numEntries = info.numEntries := rfl

theorem order_setOrder_self (inside : p < info.numEntries) : (info.setOrder p o).order p = o := by
  simp [PmemInfo.order, PmemInfo.entry, PmemInfo.setOrder, inside]

theorem order_setOrder_of_ne (other : q ≠ p) : (info.setOrder p o).order q = info.order q := by
  simp [PmemInfo.order, PmemInfo.entry, PmemInfo.setOrder, other]

@[simp] theorem isFree_setOrder : (info.setOrder p o).isFree q ↔ info.isFree q := by
  by_cases same : q = p
  · simp [PmemInfo.isFree, PmemInfo.entry, PmemInfo.setOrder, same, apply_ite]
  · simp [PmemInfo.isFree, PmemInfo.entry, PmemInfo.setOrder, same]

@[simp] theorem order_setAllocated : (info.setAllocated p b).order q = info.order q := by
  by_cases same : q = p
  · simp only [PmemInfo.order, PmemInfo.entry, PmemInfo.setAllocated, same]
    split_ifs
    · rw [Function.update_self]
    · rfl
  · simp [PmemInfo.order, PmemInfo.entry, PmemInfo.setAllocated, same]

theorem isFree_setAllocated_self (inside : p < info.numEntries) :
    (info.setAllocated p b).isFree p ↔ b = false := by
  simp [PmemInfo.isFree, PmemInfo.entry, PmemInfo.setAllocated, inside]

theorem isFree_setAllocated_of_ne (other : q ≠ p) :
    (info.setAllocated p b).isFree q ↔ info.isFree q := by
  simp [PmemInfo.isFree, PmemInfo.entry, PmemInfo.setAllocated, other]

theorem not_isFree_outside (outside : ¬p < info.numEntries) : ¬info.isFree p := by
  simp [PmemInfo.isFree, PmemInfo.entry, outside]

end Entries

structure Tiled (info : PmemInfo) (slot held : Nat → Option Nat) : Prop where
  tiling : Tiling info.numEntries slot
  order : ∀ {p o}, slot p = some o → info.order p = o
  heldSlot : ∀ {p o}, held p = some o → slot p = some o
  isFree : ∀ {p}, p < info.numEntries → (info.isFree p ↔ held p = none)

/-- A free slot. -/
def FreeSlot (slot held : Nat → Option Nat) (p o : Nat) : Prop := slot p = some o ∧ held p = none

/-- Two free slots that could be put together: one of them is excepted. -/
def Joined (slot held : Nat → Option Nat) (except : Set Nat) : Prop :=
  ∀ {p o}, FreeSlot slot held p o → FreeSlot slot held (buddy p o) o →
    p ∈ except ∨ buddy p o ∈ except

section Slots

variable {info : PmemInfo} {slot held : Nat → Option Nat} {p o order : Nat}

section

variable (tiled : Tiled info slot held)

include tiled

section

variable (there : slot p = some o)
include there

theorem Tiled.isFree_slot : info.isFree p ↔ held p = none := tiled.isFree (tiled.tiling.lt there)

theorem Tiled.nextIndex : info.nextIndex p = p + 2 ^ o := by
  rw [PmemInfo.nextIndex, tiled.order there]

theorem Tiled.buddyIndex : info.buddyIndex p = buddy p o := by
  rw [PmemInfo.buddyIndex, tiled.order there, buddy]

/-- A walk stands at the start of a slot or at the end. -/
def AtSlot (info : PmemInfo) (slot : Nat → Option Nat) (curr : Nat) : Prop :=
  curr = info.numEntries ∨ ∃ o, slot curr = some o

theorem Tiled.atSlot_next : AtSlot info slot (p + 2 ^ o) := by
  rcases (tiled.tiling.le there).eq_or_lt with last | more
  · exact .inl last
  · exact .inr (tiled.tiling.next there more)

omit there in
theorem Tiled.atSlot_zero : AtSlot info slot 0 := by
  rcases Nat.eq_zero_or_pos info.numEntries with empty | some
  · exact .inl empty.symm
  · exact .inr (tiled.tiling.zero some)

/-- Between the start of a slot and the next one no slot starts. -/
theorem Tiled.before_next {q k : Nat} (other : slot q = some k) (low : q < p + 2 ^ o)
    (differs : q ≠ p) : q < p := by
  by_contra behind
  have := tiled.tiling.same there other (x := q) ⟨by omega, low⟩
    ⟨Nat.le_refl q, Nat.lt_add_of_pos_right (Nat.two_pow_pos k)⟩
  exact differs this.1.symm

/-! ### The search -/

/-- What a search that stands at `curr` knows about its best fit. -/
def BestFit (slot held : Nat → Option Nat) (order curr : Nat) : Option Nat → Prop
  | none => ∀ p o, p < curr → FreeSlot slot held p o → o < order
  | some best => ∃ o, FreeSlot slot held best o ∧ order ≤ o

theorem BestFit.next {bestFit : Option Nat} (fit : BestFit slot held order p bestFit)
    (small : bestFit = none → held p = none → o < order) :
    BestFit slot held order (p + 2 ^ o) bestFit := by
  cases bestFit with
  | some best => exact fit
  | none =>
    intro q k low free
    by_cases same : q = p
    · obtain ⟨found, unheld⟩ := free
      rw [same] at found unheld
      rw [there, Option.some.injEq] at found
      exact found ▸ small rfl unheld
    · exact fit q k (tiled.before_next there free.1 low same) free

end

theorem searchLoop_spec {rounds curr : Nat} {bestFit : Option Nat}
    (enough : info.numEntries < curr + rounds) (atSlot : AtSlot info slot curr)
    (fit : BestFit slot held order curr bestFit) :
    ∃ result, searchLoop info order rounds curr bestFit = some result ∧
      BestFit slot held order info.numEntries result := by
  induction rounds generalizing curr bestFit with
  | zero =>
    rcases atSlot with rfl | ⟨o, there⟩
    · exact absurd enough (Nat.lt_irrefl _)
    · exact absurd (tiled.tiling.lt there) (by omega)
  | succ rounds ih =>
    rw [searchLoop]
    rcases atSlot with rfl | ⟨o, there⟩
    · rw [if_neg (Nat.lt_irrefl _)]
      exact ⟨bestFit, rfl, fit⟩
    have size := Nat.two_pow_pos o
    rw [if_pos (tiled.tiling.lt there)]
    simp only [tiled.isFree_slot there, tiled.order there, tiled.nextIndex there]
    split_ifs with unheld exact larger
    · exact ⟨some curr, rfl, o, ⟨there, unheld⟩, exact.ge⟩
    · exact ih (by omega) (tiled.atSlot_next there) ⟨o, ⟨there, unheld⟩, larger.1.le⟩
    · refine ih (by omega) (tiled.atSlot_next there) (fit.next tiled there fun none _ => ?_)
      subst none
      by_contra notSmall
      exact larger ⟨by omega, fun best member => absurd member (Option.not_mem_none best)⟩
    · exact ih (by omega) (tiled.atSlot_next there)
        (fit.next tiled there fun _ free => absurd free unheld)

end

/-! ### Halving the best fit -/

/-- The lower half of a slot and its upper half are buddies. -/
theorem buddy_of_aligned (aligned : 2 ^ (o + 1) ∣ p) : buddy p o = p + 2 ^ o := by
  rcases buddy_cases (dvd_of_succ aligned) with ⟨-, same⟩ | ⟨same, -⟩
  · exact same
  · have size := Nat.two_pow_pos o
    rw [base_of_dvd aligned] at same
    omega

section

variable (tiled : Tiled info slot held)
include tiled

/-- A free slot of order `k + 1` becomes two of order `k`. -/
theorem Tiled.split {b k : Nat} (free : FreeSlot slot held b (k + 1))
    (joined : Joined slot held {b}) :
    Tiled ((info.setOrder b k).setOrder (b + 2 ^ k) k) (halved slot b k) held ∧
      Joined (halved slot b k) held {b} := by
  obtain ⟨there, unheld⟩ := free
  have size := Nat.two_pow_pos k
  have inside := tiled.tiling.le there
  have halves := buddy_of_aligned (tiled.tiling.aligned there)
  refine ⟨⟨tiled.tiling.split there, fun found => ?_, fun {q r} keeps => ?_, fun {q} low => ?_⟩,
    fun {q r} free free' => ?_⟩
  · rw [Nat.pow_succ] at inside
    rcases halved_cases found with ⟨rfl | rfl, rfl⟩ | ⟨other, other', old⟩
    · rw [order_setOrder_of_ne (by omega), order_setOrder_self (by omega)]
    · rw [order_setOrder_self (by simp only [numEntries_setOrder]; omega)]
    · rw [order_setOrder_of_ne other', order_setOrder_of_ne other, tiled.order old]
  · have old := tiled.heldSlot keeps
    rw [halved_of_ne]
    · exact old
    · rintro rfl
      rw [unheld] at keeps
      cases keeps
    · rintro rfl
      rw [tiled.tiling.upper_eq_none there] at old
      cases old
  · rw [isFree_setOrder, isFree_setOrder]
    exact tiled.isFree low
  rcases halved_cases free.1 with ⟨rfl | rfl, rfl⟩ | ⟨-, -, old⟩
  · exact .inl rfl
  · refine .inr ?_
    rw [← halves, buddy_buddy]
    rfl
  · rcases halved_cases free'.1 with ⟨same | same, rfl⟩ | ⟨-, -, old'⟩
    · exact .inr same
    · refine .inl ?_
      rw [← halves] at same
      rw [← @buddy_buddy q, same, buddy_buddy]
      rfl
    · exact joined ⟨old, free.2⟩ ⟨old', free'.2⟩

theorem splitLoop_spec {b rounds : Nat} (free : FreeSlot slot held b o) (large : order ≤ o)
    (enough : o < order + rounds) (joined : Joined slot held {b}) :
    ∃ info' slot', splitLoop order b rounds info = some info' ∧ Tiled info' slot' held ∧
      slot' b = some order ∧ Joined slot' held {b} ∧ info'.numEntries = info.numEntries ∧
      info'.noAllocator = info.noAllocator := by
  induction rounds generalizing info slot o with
  | zero => omega
  | succ rounds ih =>
    rw [splitLoop, tiled.order free.1]
    rcases large.eq_or_lt with rfl | more
    · rw [if_neg (Nat.lt_irrefl _)]
      exact ⟨info, slot, rfl, tiled, free.1, joined, rfl, rfl⟩
    obtain ⟨k, rfl⟩ : ∃ k, o = k + 1 := ⟨o - 1, by omega⟩
    have halves := buddy_of_aligned (tiled.tiling.aligned free.1)
    have self : (info.setOrder b k).order b = k :=
      order_setOrder_self (tiled.tiling.lt free.1)
    rw [if_pos more]
    simp only [Nat.add_sub_cancel, PmemInfo.buddyIndex, self]
    rw [show b ^^^ 2 ^ k = b + 2 ^ k from halves]
    obtain ⟨tiled', joined'⟩ := tiled.split free joined
    exact ih tiled' ⟨halved_lower, free.2⟩ (by omega) (by omega) joined'

/-! ### Putting buddies together -/

/-- Two free slots of order `o` become one; the entries at their starts have the new order. -/
theorem Tiled.merge {info' : PmemInfo} {m c : Nat} (aligned : 2 ^ (o + 1) ∣ m)
    (lower : FreeSlot slot held m o) (upper : FreeSlot slot held (m + 2 ^ o) o)
    (either : c = m ∨ c = m + 2 ^ o) (joined : Joined slot held {c})
    (same : info'.numEntries = info.numEntries) (free : ∀ {q}, info'.isFree q ↔ info.isFree q)
    (raised : info'.order m = o + 1)
    (others : ∀ {q}, q ≠ m → q ≠ m + 2 ^ o → info'.order q = info.order q) :
    Tiled info' (doubled slot m o) held ∧ Joined (doubled slot m o) held {m} := by
  refine ⟨⟨?_, fun found => ?_, fun {q r} keeps => ?_, fun {q} low => ?_⟩, fun {q r} here there => ?_⟩
  · rw [same]
    exact tiled.tiling.merge aligned lower.1 upper.1
  · rcases doubled_cases found with ⟨rfl, rfl⟩ | ⟨other, other', old⟩
    · exact raised
    · rw [others other other', tiled.order old]
  · rw [doubled_of_ne]
    · exact tiled.heldSlot keeps
    · rintro rfl
      rw [lower.2] at keeps
      cases keeps
    · rintro rfl
      rw [upper.2] at keeps
      cases keeps
  · rw [free]
    exact tiled.isFree (same ▸ low)
  rcases doubled_cases here.1 with ⟨rfl, -⟩ | ⟨-, notUpper, old⟩
  · exact .inl rfl
  rcases doubled_cases there.1 with ⟨again, -⟩ | ⟨-, notUpper', old'⟩
  · exact .inr again
  -- the excepted slot is one of the two that were put together
  have one : q = c ∨ buddy q r = c := joined ⟨old, here.2⟩ ⟨old', there.2⟩
  rcases either with rfl | rfl
  · exact one
  · exact (one.elim notUpper notUpper').elim

/-- One round of `freeLoop`. -/
theorem Tiled.merge_buddies {c : Nat} (free : FreeSlot slot held c o)
    (other : FreeSlot slot held (buddy c o) o) (joined : Joined slot held {c}) :
    Tiled ((info.setOrder (buddy c o) (o + 1)).setOrder c (o + 1))
        (doubled slot (base c (o + 1)) o) held ∧
      Joined (doubled slot (base c (o + 1)) o) held {base c (o + 1)} ∧
      min (buddy c o) c = base c (o + 1) := by
  have size := Nat.two_pow_pos o
  have inside := tiled.tiling.lt free.1
  have inside' := tiled.tiling.lt other.1
  have differs : buddy c o ≠ c := buddy_ne
  generalize raised : (info.setOrder (buddy c o) (o + 1)).setOrder c (o + 1) = info'
  have entries : info'.numEntries = info.numEntries := by rw [← raised]; rfl
  have self : info'.order c = o + 1 := by
    rw [← raised]
    exact order_setOrder_self inside
  have self' : info'.order (buddy c o) = o + 1 := by
    rw [← raised, order_setOrder_of_ne differs, order_setOrder_self inside']
  have others : ∀ {q}, q ≠ c → q ≠ buddy c o → info'.order q = info.order q := by
    intro q notSelf notBuddy
    rw [← raised, order_setOrder_of_ne notSelf, order_setOrder_of_ne notBuddy]
  have isFree : ∀ {q}, info'.isFree q ↔ info.isFree q := by
    intro q
    rw [← raised, isFree_setOrder, isFree_setOrder]
  rcases buddy_cases (tiled.tiling.aligned free.1) with ⟨lower, upper⟩ | ⟨upper, lower⟩
  · have aligned : 2 ^ (o + 1) ∣ c := lower ▸ dvd_base
    rw [upper] at other self' others ⊢
    rw [lower]
    obtain ⟨tiled', joined'⟩ := tiled.merge aligned free other (.inl rfl) joined entries isFree
      self others
    exact ⟨tiled', joined', Nat.min_eq_right (Nat.le_add_right _ _)⟩
  · have aligned : 2 ^ (o + 1) ∣ buddy c o := lower ▸ dvd_base
    rw [← lower] at upper ⊢
    rw [upper] at free
    obtain ⟨tiled', joined'⟩ := tiled.merge aligned other free (.inr upper) joined entries isFree
      self' fun notBuddy notSelf => others (upper ▸ notSelf) notBuddy
    exact ⟨tiled', joined', Nat.min_eq_left (by omega)⟩

theorem freeLoop_spec {c rounds : Nat} (small : info.numEntries < 2 ^ 20)
    (free : FreeSlot slot held c o) (enough : 20 ≤ o + rounds) (joined : Joined slot held {c}) :
    ∃ info' slot', freeLoop rounds c info = some info' ∧ Tiled info' slot' held ∧
      Joined slot' held ∅ ∧ info'.numEntries = info.numEntries ∧
      info'.noAllocator = info.noAllocator := by
  induction rounds generalizing info slot c o with
  | zero =>
    have inside := tiled.tiling.le free.1
    have := Nat.pow_le_pow_right (n := 2) (by omega) (show 20 ≤ o by omega)
    omega
  | succ rounds ih =>
    have aligned := tiled.tiling.aligned free.1
    have inside := tiled.tiling.le free.1
    have size := Nat.two_pow_pos o
    rw [freeLoop]
    simp only [tiled.buddyIndex free.1, tiled.order free.1]
    split_ifs with pair low
    · obtain ⟨isFree, sameOrder⟩ := pair
      have there : buddy c o < info.numEntries := by
        by_contra outside
        exact not_isFree_outside outside isFree
      obtain ⟨o', -, found⟩ := tiled.tiling.beside free.1 there
      obtain rfl : o' = o := (tiled.order found).symm.trans sameOrder
      have other : FreeSlot slot held (buddy c o') o' := ⟨found, (tiled.isFree there).mp isFree⟩
      obtain ⟨tiled', joined', least⟩ := tiled.merge_buddies free other joined
      rw [sameOrder, order_setOrder_of_ne buddy_ne.symm, tiled.order free.1, least]
      refine ih tiled' small ⟨doubled_self, ?_⟩ (by omega) joined'
      rcases buddy_cases aligned with ⟨lower, -⟩ | ⟨-, lower⟩
      · rw [lower]
        exact free.2
      · rw [← lower]
        exact other.2
    · exact absurd ((Nat.min_le_right _ _).trans_lt (tiled.tiling.lt free.1)) low
    refine ⟨info, slot, rfl, tiled, fun {p r} here there => ?_, rfl, rfl⟩
    refine absurd ?_ pair
    have one : ∀ q, FreeSlot slot held q o → info.isFree q ∧ info.order q = o := fun q free =>
      ⟨(tiled.isFree_slot free.1).mpr free.2, tiled.order free.1⟩
    rcases joined here there with same | same
    · obtain rfl : p = c := same
      obtain rfl : r = o := Option.some.inj (here.1.symm.trans free.1)
      exact one _ there
    · have same : buddy p r = c := same
      rw [same] at there
      obtain rfl : r = o := Option.some.inj (there.1.symm.trans free.1)
      rw [← same, buddy_buddy]
      exact one _ here

end

end Slots

end AndroidKernel.Pmem
