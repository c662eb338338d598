import AndroidKernel.Lib.Dyadic

/-!
Tilings of the numbers below `n` by blocks of a power of two.

A tiling gives the order of the block that starts at a number. Blocks can be added at the
end, cut into halves (`Tiling.split`) and put together with their buddies (`Tiling.merge`).
There is exactly one tiling in which no block stands beside a buddy of the same order
(`Tiling.ext_of_single`).
-/

namespace AndroidKernel.Lib

open Function

structure Tiling (n : Nat) (f : Nat → Option Nat) : Prop where
  aligned : ∀ {p o}, f p = some o → 2 ^ o ∣ p
  unique : ∀ {x o o'}, f (base x o) = some o → f (base x o') = some o' → o = o'
  covers : ∀ {x}, Covered f x ↔ x < n

section Tiling

variable {n p q o o' x : Nat} {f g : Nat → Option Nat}

theorem Tiling.empty : Tiling 0 fun _ => none :=
  ⟨fun found => (Option.some_ne_none _ found.symm).elim,
    fun found => (Option.some_ne_none _ found.symm).elim,
    ⟨fun covered => (not_covered_empty covered).elim, fun low => (Nat.not_lt_zero _ low).elim⟩⟩

section

variable (tiling : Tiling n f)

include tiling

/-- Two blocks that share a number are one. -/
theorem Tiling.same (first : f p = some o) (second : f q = some o')
    (inFirst : p ≤ x ∧ x < p + 2 ^ o) (inSecond : q ≤ x ∧ x < q + 2 ^ o') : p = q ∧ o = o' := by
  have here := (base_eq_iff (tiling.aligned first)).mpr inFirst
  have there := (base_eq_iff (tiling.aligned second)).mpr inSecond
  obtain rfl := tiling.unique (here.symm ▸ first) (there.symm ▸ second)
  exact ⟨here.symm.trans there, rfl⟩

theorem Tiling.le (there : f p = some o) : p + 2 ^ o ≤ n := by
  have size := Nat.two_pow_pos o
  have last : base (p + 2 ^ o - 1) o = p :=
    (base_eq_iff (tiling.aligned there)).mpr ⟨by omega, by omega⟩
  have low := tiling.covers.mp (covered_of_mem there last)
  omega

theorem Tiling.lt (there : f p = some o) : p < n :=
  (Nat.lt_add_of_pos_right (Nat.two_pow_pos o)).trans_le (tiling.le there)

/-- The block around a number. -/
theorem Tiling.around (low : x < n) : ∃ p o, f p = some o ∧ p ≤ x ∧ x < p + 2 ^ o := by
  obtain ⟨o, there⟩ := tiling.covers.mpr low
  exact ⟨base x o, o, there, base_le, lt_base_add⟩

theorem Tiling.zero (some : 0 < n) : ∃ o, f 0 = .some o := by
  obtain ⟨o, there⟩ := tiling.covers.mpr some
  refine ⟨o, ?_⟩
  rwa [base_of_dvd (Nat.dvd_zero _)] at there

/-- Where a block ends the next one starts. -/
theorem Tiling.next (there : f p = some o) (more : p + 2 ^ o < n) :
    ∃ o', f (p + 2 ^ o) = some o' := by
  obtain ⟨q, o', found, low, high⟩ := tiling.around more
  have size := Nat.two_pow_pos o
  rcases Nat.lt_or_ge q (p + 2 ^ o) with before | after
  · obtain ⟨rfl, rfl⟩ := @Tiling.same n p q o o' (p + 2 ^ o - 1) f tiling there found
      ⟨by omega, by omega⟩ ⟨by omega, by omega⟩
    omega
  · obtain rfl := Nat.le_antisymm low after
    exact ⟨o', found⟩

/-- The buddy of a block is the start of a block that is not larger. -/
theorem Tiling.beside (there : f p = some o) (low : buddy p o < n) :
    ∃ o' ≤ o, f (buddy p o) = some o' := by
  have aligned := tiling.aligned there
  obtain ⟨o', found⟩ := tiling.covers.mpr low
  rcases le_or_gt o' o with small | large
  · refine ⟨o', small, ?_⟩
    rwa [base_of_dvd ((Nat.pow_dvd_pow 2 small).trans (dvd_buddy aligned))] at found
  -- a larger block around the buddy is around the block too
  have up : base (buddy p o) (o + 1) = base p (o + 1) :=
    (base_succ_eq_base_iff aligned).mpr (.inr (base_of_dvd (dvd_buddy aligned)))
  have whole : base (buddy p o) o' = base p o' := by
    rw [← base_base large, up, base_base large]
  rw [whole] at found
  have := tiling.unique found ((base_of_dvd aligned).symm ▸ there)
  omega

/-- A block at the end. -/
theorem Tiling.append (aligned : 2 ^ o ∣ n) : Tiling (n + 2 ^ o) (update f n (some o)) := by
  have absent : f n = none := by
    cases there : f n with
    | none => rfl
    | some o' => exact absurd (tiling.lt there) (Nat.lt_irrefl n)
  have cases : ∀ {q o'}, update f n (some o) q = some o' →
      q = n ∧ o' = o ∨ f q = some o' := by grind
  have apart : ∀ {x o'}, base x o = n → f (base x o') = some o' → False := by
    intro x o' last found
    have low := tiling.covers.mp ⟨o', found⟩
    have high := ((base_eq_iff aligned).mp last).1
    omega
  refine ⟨fun found => ?_, fun first second => ?_, fun {x} => ⟨fun covered => ?_, fun low => ?_⟩⟩
  · rcases cases found with ⟨rfl, rfl⟩ | old
    · exact aligned
    · exact tiling.aligned old
  · grind [→ Tiling.unique]
  · obtain ⟨o', found⟩ := covered
    rcases cases found with ⟨last, rfl⟩ | old
    · exact ((base_eq_iff aligned).mp last).2
    · exact (tiling.covers.mp ⟨o', old⟩).trans_le (Nat.le_add_right n _)
  rcases Nat.lt_or_ge x n with inside | outside
  · obtain ⟨o', found⟩ := tiling.covers.mpr inside
    refine ⟨o', ?_⟩
    rwa [update_of_ne]
    intro same
    rw [same, absent] at found
    cases found
  · refine ⟨o, ?_⟩
    rw [(base_eq_iff aligned).mpr ⟨outside, low⟩, update_self]

end

/-- The block at `p` is replaced by two of order `o`. -/
def halved (f : Nat → Option Nat) (p o : Nat) : Nat → Option Nat :=
  update (update f (p + 2 ^ o) (some o)) p (some o)

theorem halved_cases (found : halved f p o q = some o') :
    (q = p ∨ q = p + 2 ^ o) ∧ o' = o ∨ q ≠ p ∧ q ≠ p + 2 ^ o ∧ f q = some o' := by
  rcases update_some found with ⟨same, own⟩ | ⟨other, found⟩
  · exact .inl ⟨.inl same, own⟩
  rcases update_some found with ⟨same, own⟩ | ⟨other', old⟩
  · exact .inl ⟨.inr same, own⟩
  · exact .inr ⟨other, other', old⟩

theorem halved_lower : halved f p o p = some o := update_self ..

theorem halved_of_ne (notLower : q ≠ p) (notUpper : q ≠ p + 2 ^ o) : halved f p o q = f q := by
  rw [halved, update_of_ne notLower, update_of_ne notUpper]

/-- The upper half of a block is the start of none. -/
theorem Tiling.upper_eq_none (tiling : Tiling n f) (there : f p = some (o + 1)) :
    f (p + 2 ^ o) = none := by
  have size := Nat.two_pow_pos o
  cases found : f (p + 2 ^ o) with
  | none => rfl
  | some o' =>
    have := tiling.same found there (x := p + 2 ^ o)
      ⟨Nat.le_refl _, Nat.lt_add_of_pos_right (Nat.two_pow_pos _)⟩
      ⟨by omega, by rw [Nat.pow_succ]; omega⟩
    omega

/-- A block is cut into halves. -/
theorem Tiling.split (tiling : Tiling n f) (there : f p = some (o + 1)) :
    Tiling n (halved f p o) := by
  have aligned := tiling.aligned there
  have half := dvd_of_succ aligned
  have upper : 2 ^ o ∣ p + 2 ^ o := Nat.dvd_add half dvd_rfl
  have whole : ∀ {x}, base x o = p ∨ base x o = p + 2 ^ o → f (base x (o + 1)) = some (o + 1) := by
    intro x halves
    rwa [(base_succ_eq_iff aligned).mpr halves]
  have apart : ∀ {x o'}, base x o = p ∨ base x o = p + 2 ^ o → base x o' ≠ p →
      f (base x o') = some o' → False := by
    intro x o' halves other found
    obtain rfl := tiling.unique (whole halves) found
    exact other ((base_succ_eq_iff aligned).mpr halves)
  refine ⟨fun found => ?_, fun first second => ?_, fun {x} => ⟨fun covered => ?_, fun low => ?_⟩⟩
  · rcases halved_cases found with ⟨rfl | rfl, rfl⟩ | ⟨-, -, old⟩
    · exact half
    · exact upper
    · exact tiling.aligned old
  · grind [halved_cases, → Tiling.unique]
  · obtain ⟨o', found⟩ := covered
    rcases halved_cases found with ⟨halves, rfl⟩ | ⟨-, -, old⟩
    · exact tiling.covers.mp ⟨o' + 1, whole halves⟩
    · exact tiling.covers.mp ⟨o', old⟩
  obtain ⟨o', found⟩ := tiling.covers.mpr low
  by_cases inside : base x (o + 1) = p
  · refine ⟨o, ?_⟩
    rcases (base_succ_eq_iff aligned).mp inside with lower | upper
    · rw [lower, halved_lower]
    · rw [upper, halved, update_of_ne (by omega), update_self]
  refine ⟨o', ?_⟩
  rw [halved_of_ne]
  · exact found
  · intro same
    rw [same, there, Option.some.injEq] at found
    exact inside (found ▸ same)
  · intro same
    rw [same, tiling.upper_eq_none there] at found
    cases found

/-- The blocks of order `o` at `p` and behind it are replaced by one. -/
def doubled (f : Nat → Option Nat) (p o : Nat) : Nat → Option Nat :=
  update (update f (p + 2 ^ o) none) p (some (o + 1))

theorem doubled_cases (found : doubled f p o q = some o') :
    q = p ∧ o' = o + 1 ∨ q ≠ p ∧ q ≠ p + 2 ^ o ∧ f q = some o' := by
  rcases update_some found with own | ⟨other, found⟩
  · exact .inl own
  · exact .inr ⟨other, update_none found⟩

theorem doubled_self : doubled f p o p = some (o + 1) := update_self ..

theorem doubled_of_ne (notLower : q ≠ p) (notUpper : q ≠ p + 2 ^ o) : doubled f p o q = f q := by
  rw [doubled, update_of_ne notLower, update_of_ne notUpper]

/-- Two halves are put together. -/
theorem Tiling.merge (tiling : Tiling n f) (aligned : 2 ^ (o + 1) ∣ p) (lower : f p = some o)
    (upper : f (p + 2 ^ o) = some o) :
    Tiling n (doubled f p o) := by
  have half : ∀ {x}, base x (o + 1) = p → f (base x o) = some o := by
    intro x inside
    rcases (base_succ_eq_iff aligned).mp inside with same | same
    · rwa [same]
    · rwa [same]
  have apart : ∀ {x o'}, base x (o + 1) = p → base x o' ≠ p → base x o' ≠ p + 2 ^ o →
      f (base x o') = some o' → False := by
    grind [base_succ_eq_iff, → Tiling.unique]
  refine ⟨fun found => ?_, fun first second => ?_, fun {x} => ⟨fun covered => ?_, fun low => ?_⟩⟩
  · rcases doubled_cases found with ⟨rfl, rfl⟩ | ⟨-, -, old⟩
    · exact aligned
    · exact tiling.aligned old
  · grind [doubled_cases, → Tiling.unique]
  · obtain ⟨o', found⟩ := covered
    rcases doubled_cases found with ⟨inside, rfl⟩ | ⟨-, -, old⟩
    · exact tiling.covers.mp ⟨o, half inside⟩
    · exact tiling.covers.mp ⟨o', old⟩
  by_cases inside : base x (o + 1) = p
  · exact ⟨o + 1, by rw [inside, doubled_self]⟩
  obtain ⟨o', found⟩ := tiling.covers.mpr low
  refine ⟨o', ?_⟩
  rw [doubled_of_ne]
  · exact found
  · grind [same, base_succ_eq_iff]
  · intro same
    rw [same, upper, Option.some.injEq] at found
    exact inside ((base_succ_eq_iff aligned).mpr (.inr (found ▸ same)))

/-! ### The tiling without buddies -/

/-- No two blocks could be put together. -/
def Single (f : Nat → Option Nat) : Prop := ∀ {p o}, f p = some o → f (buddy p o) ≠ some o

/-- Without buddies no block is smaller than a block of the numbers that it lies in: the
smallest blocks in there would be buddies. -/
theorem Tiling.largest (tiling : Tiling n f) (single : Single f) (there : f p = some o)
    (room : base p o' + 2 ^ o' ≤ n) : o' ≤ o := by
  induction o using Nat.strong_induction_on generalizing p with
  | h o smaller =>
    by_contra large
    have aligned := tiling.aligned there
    have up : base (buddy p o) (o + 1) = base p (o + 1) :=
      (base_succ_eq_base_iff aligned).mpr (.inr (base_of_dvd (dvd_buddy aligned)))
    have inside : base (buddy p o) o' = base p o' := by
      rw [← base_base (by omega : o + 1 ≤ o'), up, base_base (by omega)]
    have low : buddy p o < n := by
      have := @lt_base_add (buddy p o) o'
      omega
    obtain ⟨o₁, small, found⟩ := tiling.beside there low
    rcases small.lt_or_eq with less | rfl
    · have := smaller o₁ less found (inside ▸ room)
      omega
    · exact single there found

/-- Two tilings without buddies are the same. -/
theorem Tiling.ext_of_single (tiling : Tiling n f) (single : Single f) (other : Tiling n g)
    (single' : Single g) : f = g := by
  have sub : ∀ {f g : Nat → Option Nat}, Tiling n f → Single f → Tiling n g → Single g →
      ∀ p o, f p = some o → g p = some o := by
    intro f g tiling single other single' p o there
    obtain ⟨q, o', found, low, high⟩ := other.around (tiling.lt there)
    have here := (base_eq_iff (other.aligned found)).mpr ⟨low, high⟩
    have up : o' ≤ o := tiling.largest single there (here ▸ other.le found)
    have whole : base q o = p := by
      rw [← here, base_base up, base_of_dvd (tiling.aligned there)]
    have down : o ≤ o' := other.largest single' found (whole ▸ tiling.le there)
    obtain rfl := Nat.le_antisymm up down
    rwa [← here, base_of_dvd (tiling.aligned there)] at found
  funext p
  cases there : f p with
  | some o => exact (sub tiling single other single' p o there).symm
  | none =>
    cases there' : g p with
    | none => rfl
    | some o =>
      rw [sub other single' tiling single p o there'] at there
      cases there

end Tiling

end AndroidKernel.Lib
