import Mathlib

/-!
The range of a lock request: `flock_to_posix_lock` and `flock64_to_posix_lock` of `fs/locks.c`.

The base of a request, its start and its length are added in the type of its fields, `off_t` of
32 bits or `loff_t` of 64. A sum that wraps is negative, or ends before it starts, and is refused.
But the base is cut down to that type without a test: for a request of 32 bits the file position
`2 ^ 32` is 0 (`flockToPosixLock_truncates`). The main result is `posixLock_covers`.
-/

namespace AndroidKernel.Locks

open BitVec

inductive Errno where
  | EINVAL | EOVERFLOW
deriving DecidableEq

inductive Whence where
  | SEEK_SET | SEEK_CUR | SEEK_END | other
deriving DecidableEq

inductive LockType where
  | F_RDLCK | F_WRLCK | F_UNLCK | other
deriving DecidableEq

/-- An open file with its position and its size, neither of them negative. -/
structure File where
  fPos : Fin (2 ^ 63)
  iSize : Fin (2 ^ 63)

def File.base (filp : File) : Whence → Nat
  | .SEEK_CUR => filp.fPos
  | .SEEK_END => filp.iSize
  | .SEEK_SET | .other => 0

/-- `struct flock`, with offsets of `w` bits. -/
structure Flock (w : Nat) where
  lType : LockType
  lWhence : Whence
  lStart : BitVec w
  lLen : BitVec w

structure FileLock where
  flStart : BitVec 64
  flEnd : BitVec 64
  flType : LockType
deriving DecidableEq

def OFFSET_MAX : BitVec 64 := 2 ^ 63 - 1

variable {w : Nat}

/-- The functions from the assignment to `fl_start` on, with `assign_type`. -/
def record (start : BitVec w) (flEnd : BitVec 64) (lType : LockType) : Except Errno FileLock :=
  if flEnd.slt (start.signExtend 64) then .error .EOVERFLOW
  else if lType = .other then .error .EINVAL
  else .ok ⟨start.signExtend 64, flEnd, lType⟩

/-- Both functions, for offsets of `w` bits. -/
def toPosixLock (filp : File) (l : Flock w) : Except Errno FileLock :=
  let start := .ofNat w (filp.base l.lWhence) + l.lStart
  if l.lWhence = .other ∨ start.slt 0#w then .error .EINVAL
  else if (0#w).slt l.lLen then record start ((start + l.lLen - 1).signExtend 64) l.lType
  else if l.lLen.slt 0#w then
    if (start + l.lLen).slt 0#w then .error .EINVAL
    else record (start + l.lLen) ((start - 1).signExtend 64) l.lType
  else record start OFFSET_MAX l.lType

def flockToPosixLock : File → Flock 32 → Except Errno FileLock := toPosixLock

def flock64ToPosixLock : File → Flock 64 → Except Errno FileLock := toPosixLock

/-- The lock covers the bytes of a request for `len` bytes from `start` on. -/
structure FileLock.Covers (r : FileLock) (start len : Int) : Prop where
  first : r.flStart.toInt = start + min len 0
  last : r.flEnd.toInt = if len = 0 then OFFSET_MAX.toInt else start + max len 0 - 1

/-- The byte that a request starts from. -/
def Flock.start (filp : File) (l : Flock w) : Int := filp.base l.lWhence + l.lStart.toInt

/-- The request lies within the offsets of `w` bits once its start is cut down to these. -/
structure Flock.Accepted (filp : File) (l : Flock w) : Prop where
  whence : l.lWhence ≠ .other
  type : l.lType ≠ .other
  start : 0 ≤ (l.start filp).bmod (2 ^ w)
  low : 0 ≤ (l.start filp).bmod (2 ^ w) + l.lLen.toInt
  high : (l.start filp).bmod (2 ^ w) + l.lLen.toInt ≤ 2 ^ (w - 1)

variable {filp : File} {l : Flock w} {r : FileLock} {x start len : BitVec w} {v : Int}

/-- A sum that wraps is negative. -/
theorem toInt_of_nonneg (width : w = 32 ∨ w = 64) (sum : x.toInt = v.bmod (2 ^ w))
    (low : -2 ^ (w - 1) ≤ v) (high : v < 2 * 2 ^ (w - 1))
    (sign : 0 ≤ x.toInt ∨ v < 2 ^ (w - 1)) : x.toInt = v := by
  rw [Int.bmod_def] at sum
  rcases width with rfl | rfl <;> omega

section Ends

variable (width : w = 32 ∨ w = 64) (nonneg : 0 ≤ start.toInt)
include width nonneg

theorem toInt_pred : (start - 1).toInt = start.toInt - 1 := by
  have := start.toInt_lt
  exact toInt_of_nonneg width (by simp [toInt_sub, toInt_ofNat']) (by omega) (by omega) (by omega)

theorem toInt_before (less : len.toInt < 0) : (start + len).toInt = start.toInt + len.toInt := by
  have := start.toInt_lt
  have := len.le_toInt
  exact toInt_of_nonneg width (toInt_add ..) (by omega) (by omega) (by omega)

theorem toInt_last (more : 0 < len.toInt)
    (fits : 0 ≤ (start + len - 1).toInt ∨ start.toInt + len.toInt ≤ 2 ^ (w - 1)) :
    (start + len - 1).toInt = start.toInt + len.toInt - 1 := by
  have := start.toInt_lt
  have := len.toInt_lt
  exact toInt_of_nonneg width (by simp [toInt_sub, toInt_add, toInt_ofNat']) (by omega) (by omega)
    (fits.imp_right (by omega))

end Ends

theorem record_ok_iff {flEnd : BitVec 64} {lType : LockType} (wide : w ≤ 64) :
    record start flEnd lType = .ok r ↔ start.toInt ≤ flEnd.toInt ∧ lType ≠ .other ∧
      r = ⟨start.signExtend 64, flEnd, lType⟩ := by
  simp only [record, slt_iff_toInt_lt, toInt_signExtend_of_le wide]
  split_ifs <;> grind

theorem toInt_start : (.ofNat w (filp.base l.lWhence) + l.lStart).toInt =
    (l.start filp).bmod (2 ^ w) := by
  simp [Flock.start, toInt_add, toInt_ofNat']

/-- The functions record the range that they are left with. -/
theorem toPosixLock_ok (width : w = 32 ∨ w = 64) (ok : toPosixLock filp l = .ok r) :
    l.Accepted filp ∧ r.Covers ((l.start filp).bmod (2 ^ w)) l.lLen.toInt := by
  have wide : w ≤ 64 := by omega
  have sign {x : BitVec w} : (x.signExtend 64).toInt = x.toInt := toInt_signExtend_of_le wide
  have cut := @toInt_start w filp l
  unfold toPosixLock at ok
  generalize BitVec.ofNat w (filp.base l.lWhence) + l.lStart = start at ok cut
  have high := start.toInt_lt
  simp only [slt_iff_toInt_lt, toInt_zero] at ok
  split_ifs at ok with refused more less low
  all_goals
    obtain ⟨whence, nonneg⟩ := not_or.mp refused
    rw [not_lt] at nonneg
    obtain ⟨ordered, type, rfl⟩ := (record_ok_iff wide).mp ok
  · -- from `start` to `start + l_len - 1`
    rw [sign] at ordered
    have stop := toInt_last width nonneg more (.inl (by omega))
    have := (start + l.lLen - 1).toInt_lt
    refine ⟨⟨whence, type, by omega, by omega, by omega⟩, ⟨?_, ?_⟩⟩
    · rw [sign]
      omega
    · rw [sign, stop, if_neg (by omega)]
      omega
  · -- the bytes before `start`
    have moved := toInt_before width nonneg less
    refine ⟨⟨whence, type, by omega, by omega, by omega⟩, ⟨?_, ?_⟩⟩
    · rw [sign, moved]
      omega
    · rw [sign, toInt_pred width nonneg, if_neg (by omega)]
      omega
  · refine ⟨⟨whence, type, by omega, by omega, by omega⟩, ⟨?_, ?_⟩⟩
    · rw [sign]
      omega
    · rw [if_pos (by omega)]

theorem toPosixLock_accepts (width : w = 32 ∨ w = 64) (accepted : l.Accepted filp) :
    ∃ r, toPosixLock filp l = .ok r := by
  have wide : w ≤ 64 := by omega
  have sign {x : BitVec w} : (x.signExtend 64).toInt = x.toInt := toInt_signExtend_of_le wide
  obtain ⟨whence, type, nonneg, low, high⟩ := accepted
  rw [← toInt_start] at nonneg low high
  unfold toPosixLock
  generalize BitVec.ofNat w (filp.base l.lWhence) + l.lStart = start at nonneg low high ⊢
  have := start.toInt_lt
  simp only [slt_iff_toInt_lt, toInt_zero]
  rw [if_neg (not_or.mpr ⟨whence, not_lt.mpr nonneg⟩)]
  split_ifs with more less before
  · have stop := toInt_last width nonneg more (.inr high)
    exact ⟨_, (record_ok_iff wide).mpr ⟨by rw [sign]; omega, type, rfl⟩⟩
  · rw [toInt_before width nonneg less] at before
    omega
  · have moved := toInt_before width nonneg less
    have stop := toInt_pred width nonneg
    exact ⟨_, (record_ok_iff wide).mpr ⟨by rw [sign]; omega, type, rfl⟩⟩
  · have greatest : OFFSET_MAX.toInt = 2 ^ 63 - 1 := by decide +kernel
    exact ⟨_, (record_ok_iff wide).mpr ⟨by rcases width with rfl | rfl <;> omega, type, rfl⟩⟩

theorem Flock.start_bounds (filp : File) (l : Flock w) :
    -2 ^ (w - 1) ≤ l.start filp ∧ l.start filp < 2 ^ 63 + 2 ^ (w - 1) := by
  have below : filp.base l.lWhence < 2 ^ 63 := by
    cases l.lWhence
    exacts [Nat.two_pow_pos 63, filp.fPos.isLt, filp.iSize.isLt, Nat.two_pow_pos 63]
  have := l.lStart.le_toInt
  have := l.lStart.toInt_lt
  unfold Flock.start
  omega

/-- **A lock covers the range of its request**: with fields of 64 bits always, and with fields of
32 bits exactly when the request starts at an offset that fits into `off_t`, or is refused. -/
theorem posixLock_covers (filp : File) (l : Flock 32) (l64 : Flock 64) :
    ((∀ r, flockToPosixLock filp l = .ok r → r.Covers (l.start filp) l.lLen.toInt) ↔
      (l.Accepted filp → l.start filp < 2 ^ 31)) ∧
    ∀ r, flock64ToPosixLock filp l64 = .ok r → r.Covers (l64.start filp) l64.lLen.toInt := by
  refine ⟨⟨fun covers accepted => ?_, fun fits r ok => ?_⟩, fun r ok => ?_⟩
  · obtain ⟨r, ok⟩ := toPosixLock_accepts (.inl rfl) accepted
    obtain ⟨-, cut⟩ := toPosixLock_ok (.inl rfl) ok
    have same := cut.first.symm.trans (covers r ok).first
    have := Int.bmod_lt (x := l.start filp) (m := 2 ^ 32) (by decide)
    omega
  · obtain ⟨accepted, cut⟩ := toPosixLock_ok (.inl rfl) ok
    have := fits accepted
    obtain ⟨low, -⟩ := l.start_bounds filp
    rwa [Int.bmod_eq_of_le (by omega) (by omega)] at cut
  · obtain ⟨accepted, cut⟩ := toPosixLock_ok (.inr rfl) ok
    have := accepted.start
    obtain ⟨low, high⟩ := l64.start_bounds filp
    -- a sum from `2 ^ 63` on is negative and refused
    have same : (l64.start filp).bmod (2 ^ 64) = l64.start filp := by
      rw [Int.bmod_def] at this ⊢
      omega
    rwa [same] at cut

/-- One byte at the position `2 ^ 32`: the lock is on the first byte of the file. -/
theorem flockToPosixLock_truncates :
    flockToPosixLock ⟨2 ^ 32, 0⟩ ⟨.F_RDLCK, .SEEK_CUR, 0, 1⟩ = .ok ⟨0, 0, .F_RDLCK⟩ ∧
      File.base ⟨2 ^ 32, 0⟩ .SEEK_CUR = 2 ^ 32 := by
  decide

end AndroidKernel.Locks
