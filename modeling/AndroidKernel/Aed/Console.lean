import Mathlib

/-!
The console of the last panic in `/proc`: `aed_proc_current_ke_console` of `drivers/misc/aee/aed.c`,
called by `proc_file_read` of `fs/proc/generic.c`.

A chunk that would end behind the console is not shortened but refused. So a read that reaches
behind the console gets the whole blocks that are left of it, and a process that reads until a read
returns 0 has the whole console exactly when none of its reads comes back empty before the end
(`received_console`).
-/

namespace AndroidKernel.Aed

open List

def PAGE_SIZE : Nat := 4096

def PROC_BLOCK_SIZE : Nat := PAGE_SIZE - 1024

def MAX_NON_LFS : Nat := 2 ^ 31 - 1

/-- The part of `struct ipanic_oops` that is read here; its `console_len` is an `int`. -/
structure IpanicOops where
  console : List UInt8
  fits : console.length ≤ MAX_NON_LFS

/-- What a `read_proc` function hands back. It has left `start` alone, or put a number there that is
below the address of the page. -/
structure Chunk where
  page : List UInt8
  start : Option Nat
  n : Nat
  eof : Bool

def noConsole : List UInt8 :=
  "No current kernel exception console\n".toList.map fun c => UInt8.ofNat c.toNat

def aedProcCurrentKeConsole (lastlog : Option IpanicOops) (off count : Nat) : Chunk :=
  match lastlog with
  | some oops =>
    let consoleLen := oops.console.length
    if consoleLen < off + count then ⟨[], none, 0, false⟩
    else
      let len := min count (consoleLen - off)
      ⟨(oops.console.drop off).take len, some len, len, off + len = consoleLen⟩
  | none => ⟨noConsole, none, noConsole.length, true⟩

variable (readProc : Nat → Nat → Chunk)

/-- The loop of `proc_file_read`: the bytes for the reader, and the new position. -/
def procFileLoop : Nat → Nat → Nat → List UInt8 × Nat
  | 0, _, pos => ([], pos)
  | rounds + 1, nbytes, pos =>
    let count := min PROC_BLOCK_SIZE nbytes
    let chunk := readProc pos count
    let n := match chunk.start with
      | none => min (min chunk.n PAGE_SIZE - pos) count
      | some _ => min chunk.n PAGE_SIZE
    if nbytes = 0 ∨ n = 0 then ([], pos)
    else
      let bytes := (chunk.page.drop (if chunk.start = none then pos else 0)).take n
      let next := pos + chunk.start.getD n
      if chunk.eof then (bytes, next)
      else
        let later := procFileLoop rounds (nbytes - n) next
        (bytes ++ later.1, later.2)

/-- Each round but the last takes a byte, so `nbytes` of them are enough. -/
def procFileRead (nbytes pos : Nat) : List UInt8 × Nat :=
  if MAX_NON_LFS < pos then ([], pos)
  else
    let nbytes := min nbytes (MAX_NON_LFS - pos)
    procFileLoop readProc nbytes nbytes pos

/-- What a process has received as soon as one of its reads returns 0. -/
def received : List Nat → Nat → Option (List UInt8)
  | [], _ => none
  | size :: sizes, pos =>
    let (bytes, next) := procFileRead readProc size pos
    if bytes = [] then some [] else (received sizes next).map (bytes ++ ·)

/-- How much a read of so many bytes gets when `left` bytes are left: all of it, or the blocks of
`proc_file_read` that end inside the console. -/
def share (left nbytes : Nat) : Nat :=
  if nbytes ≤ left then nbytes else left / PROC_BLOCK_SIZE * PROC_BLOCK_SIZE

variable (oops : IpanicOops)

/-- No read before the end of the console comes back empty. -/
def Complete : List Nat → Nat → Prop
  | [], _ => True
  | size :: sizes, pos =>
    let got := share (oops.console.length - pos) (min size (MAX_NON_LFS - pos))
    pos = oops.console.length ∨ 0 < got ∧ Complete sizes (pos + got)

variable {oops} {rounds nbytes pos count left : Nat}

theorem aedProc_inside (inside : pos + count ≤ oops.console.length) :
    aedProcCurrentKeConsole oops pos count = ⟨(oops.console.drop pos).take count, some count, count,
      pos + count = oops.console.length⟩ := by
  simp only [aedProcCurrentKeConsole]
  rw [if_neg (Nat.not_lt.mpr inside), Nat.min_eq_left (by omega)]

theorem share_le : share left nbytes ≤ left := by
  unfold share
  split
  case isTrue inside => exact inside
  case isFalse => exact Nat.div_mul_le_self ..

/-- The first block is inside the console. -/
theorem share_block (inside : count ≤ left) (block : min PROC_BLOCK_SIZE nbytes = count) :
    share left nbytes = count + share (left - count) (nbytes - count) := by
  unfold share PROC_BLOCK_SIZE PAGE_SIZE at *
  split_ifs <;> omega

/-- A block that ends behind the console is refused, all the others are handed over. -/
theorem procFileLoop_share (inside : pos ≤ oops.console.length) (enough : nbytes ≤ rounds) :
    procFileLoop (aedProcCurrentKeConsole oops) rounds nbytes pos =
      ((oops.console.drop pos).take (share (oops.console.length - pos) nbytes),
        pos + share (oops.console.length - pos) nbytes) := by
  have block : PROC_BLOCK_SIZE = 3072 := rfl
  induction rounds generalizing nbytes pos with
  | zero =>
    obtain rfl := Nat.le_zero.mp enough
    rfl
  | succ rounds ih =>
    rw [procFileLoop]
    rcases Nat.eq_zero_or_pos nbytes with rfl | some
    · exact if_pos (.inl rfl)
    generalize isCount : min PROC_BLOCK_SIZE nbytes = count
    by_cases within : pos + count ≤ oops.console.length
    · have page : min count PAGE_SIZE = count := Nat.min_eq_left (by unfold PAGE_SIZE; omega)
      have later := @ih (nbytes - count) (pos + count) within (by omega)
      rw [share_block (by omega) isCount, Nat.sub_sub, take_add, drop_drop]
      simp only [aedProc_inside within, page, Option.getD_some, reduceCtorEq, if_false, drop_zero,
        take_take, Nat.min_self, later, decide_eq_true_eq]
      rw [if_neg (by omega)]
      split
      case isTrue last =>
        have done : share (oops.console.length - (pos + count)) (nbytes - count) = 0 :=
          Nat.le_zero.mp (share_le.trans (by omega))
        rw [done, take_zero, append_nil, Nat.add_zero]
      case isFalse => rw [Nat.add_assoc]
    · -- the loop ends with the block that is refused
      have nothing : share (oops.console.length - pos) nbytes = 0 := by
        rw [share, if_neg (by omega), Nat.div_eq_of_lt (by omega), Nat.zero_mul]
      have refused : aedProcCurrentKeConsole oops pos count = ⟨[], none, 0, false⟩ :=
        if_pos (Nat.not_le.mp within)
      simp [refused, nothing]

theorem procFileRead_share (inside : pos ≤ oops.console.length) :
    procFileRead (aedProcCurrentKeConsole oops) nbytes pos =
      let got := share (oops.console.length - pos) (min nbytes (MAX_NON_LFS - pos))
      ((oops.console.drop pos).take got, pos + got) := by
  have fits := oops.fits
  rw [procFileRead, if_neg (by omega)]
  exact procFileLoop_share inside le_rfl

/-- What a process receives is the rest of the console, exactly when no read before its end comes
back empty. -/
theorem received_from {sizes : List Nat} (inside : pos ≤ oops.console.length) :
    (∀ bytes, received (aedProcCurrentKeConsole oops) sizes pos = some bytes →
      bytes = oops.console.drop pos) ↔ Complete oops sizes pos := by
  induction sizes generalizing pos with
  | nil => simp [received, Complete]
  | cons size sizes ih =>
    have fits := oops.fits
    rw [received, Complete]
    simp only [procFileRead_share inside]
    have within : share (oops.console.length - pos) (min size (MAX_NON_LFS - pos)) ≤ _ := share_le
    generalize share (oops.console.length - pos) (min size (MAX_NON_LFS - pos)) = got at within ⊢
    rcases Nat.eq_zero_or_pos got with rfl | some
    · have : [] = oops.console.drop pos ↔ pos = oops.console.length := by
        rw [eq_comm, drop_eq_nil_iff]
        omega
      simp [this]
    · have nonempty : (oops.console.drop pos).take got ≠ [] := by
        rw [← length_pos_iff, length_take, length_drop]
        omega
      have rest (bytes : List UInt8) : (oops.console.drop pos).take got ++ bytes =
          oops.console.drop pos ↔ bytes = oops.console.drop (pos + got) := by
        conv_lhs => rhs; rw [← take_append_drop got (oops.console.drop pos), drop_drop]
        exact append_cancel_left_eq .. |>.to_iff
      have more : pos ≠ oops.console.length := by omega
      simp only [if_neg nonempty, ← ih (Nat.add_le_of_le_sub' inside within), more, some,
        Option.map_eq_some_iff, forall_exists_index, and_imp, forall_apply_eq_imp_iff₂, rest,
        false_or, true_and]

/-- Every read but the last takes a byte. -/
theorem received_isSome {sizes : List Nat} (inside : pos ≤ oops.console.length)
    (enough : oops.console.length < pos + sizes.length) :
    (received (aedProcCurrentKeConsole oops) sizes pos).isSome := by
  induction sizes generalizing pos with
  | nil => exact absurd enough inside.not_gt
  | cons size sizes ih =>
    rw [received]
    simp only [procFileRead_share inside]
    have within : share (oops.console.length - pos) (min size (MAX_NON_LFS - pos)) ≤ _ := share_le
    generalize share (oops.console.length - pos) (min size (MAX_NON_LFS - pos)) = got at within ⊢
    split
    case isTrue => rfl
    case isFalse some =>
      have : got ≠ 0 := by
        rintro rfl
        exact some take_zero
      rw [Option.isSome_map]
      exact ih (by omega) (by rw [length_cons] at enough; omega)

/-- **The console is read completely**: what a process has received when a read returns 0 is the
console, each byte once and in order, exactly when no read before its end comes back empty. One of
so many reads as the console has bytes, and one more, returns 0. -/
theorem received_console (oops : IpanicOops) (sizes : List Nat) :
    ((∀ bytes, received (aedProcCurrentKeConsole oops) sizes 0 = some bytes →
      bytes = oops.console) ↔ Complete oops sizes 0) ∧
    (oops.console.length < sizes.length →
      (received (aedProcCurrentKeConsole oops) sizes 0).isSome) :=
  ⟨received_from (Nat.zero_le _), fun enough =>
    received_isSome (Nat.zero_le _) (enough.trans_eq (Nat.zero_add _).symm)⟩

/-- A read of two bytes gets nothing of a console of one. -/
theorem received_nothing :
    received (aedProcCurrentKeConsole (some ⟨[1], by decide⟩)) [2] 0 = some [] := by
  decide

end AndroidKernel.Aed
