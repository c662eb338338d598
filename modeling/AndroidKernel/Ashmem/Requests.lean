import AndroidKernel.Ashmem.Area
import AndroidKernel.Lib.RoundUp

/-!
Which pages the requests of `ashmem_pin_unpin` are about.

A request without a length stands for everything from its offset on. At the aligned end of the
area that is nothing: the request passes all tests, and the last page of its interval is the
one before the first. Every other request that passes is about pages of the area
(`request_in_area`).
-/

namespace AndroidKernel.Ashmem

open Lib

/-- The commands that `ashmem_ioctl` hands to `ashmem_pin_unpin`. -/
inductive PinCmd where
  | pin | unpin | getPinStatus
  deriving DecidableEq, Repr

inductive Errno where
  | einval | efault
  deriving DecidableEq, Repr

/-- `struct ashmem_pin`. -/
structure PinRequest where
  offset : BitVec 32
  len : BitVec 32

/-- `ashmem_pin_unpin` up to the call it makes with the mutex held; `pin` is `none` when the
request cannot be copied from the user. -/
def ashmemPinUnpin (asma : Nat) (file : Bool) (size : BitVec 32) (cmd : PinCmd)
    (pin : Option PinRequest) (allocated : Bool) : Except Errno Call :=
  if !file then .error .einval
  else
    match pin with
    | none => .error .efault
    | some pin =>
      match requestPages size pin.offset pin.len, cmd with
      | none, _ => .error .einval
      | some (pgstart, pgend), .pin => .ok (.pin asma pgstart pgend allocated)
      | some (pgstart, pgend), .unpin => .ok (.unpin asma pgstart pgend allocated)
      | some (pgstart, pgend), .getPinStatus => .ok (.getPinStatus asma pgstart pgend)

/-- The interval that a call is made with. -/
def Call.pages : Call → Option (Nat × Nat)
  | .pin _ pgstart pgend _ | .unpin _ pgstart pgend _ | .getPinStatus _ pgstart pgend =>
    some (pgstart, pgend)
  | .shrink .. => none

section Requests

variable {size offset len : BitVec 32} {pgstart pgend : Nat}

theorem pageAlign_mod : (pageAlign size).toNat % 4096 = 0 := by
  rw [pageAlign, @toNat_and_not_mask 32 12 _ _ rfl]
  omega

theorem and_mask_eq_zero {word : BitVec 32} : word &&& 4095 = 0 ↔ word.toNat % 4096 = 0 := by
  have low : (word &&& 4095).toNat = word.toNat % 2 ^ 12 := by
    exact Nat.and_two_pow_sub_one_eq_mod word.toNat 12
  rw [← BitVec.toNat_inj, low]
  rfl

/-- The tests leave requests that end within the area, and do not wrap. -/
theorem requestPages_inside (request : requestPages size offset len = some (pgstart, pgend))
    (some : len ≠ 0 ∨ offset ≠ pageAlign size) :
    pgstart ≤ pgend ∧ pgend < (pageAlign size).toNat / 4096 := by
  simp only [requestPages] at request
  have pages : (if len = 0 then pageAlign size - offset else len) ≠ 0 := by
    split
    case isTrue empty =>
      have apart := some.resolve_left (not_not.mpr empty)
      bv_omega
    case isFalse given => exact given
  generalize (if len = 0 then pageAlign size - offset else len) = len' at request pages
  rw [Option.ite_none_left_eq_some, Option.ite_none_left_eq_some,
    Option.ite_none_left_eq_some, not_not] at request
  obtain ⟨aligned, noWrap, inside, request⟩ := request
  rw [BitVec.and_or_distrib_right] at aligned
  obtain ⟨first, last⟩ := BitVec.or_eq_zero_iff.mp aligned
  have last := and_mask_eq_zero.mp last
  obtain ⟨rfl, rfl⟩ := Prod.mk.inj (Option.some.inj request)
  have whole := @pageAlign_mod size
  have noWrap : offset.toNat + len'.toNat < 2 ^ 32 := by
    rw [BitVec.lt_def, BitVec.toNat_sub, BitVec.toNat_allOnes] at noWrap
    omega
  -- the length is at least one page, so the end is not before the start
  have positive : 4096 ≤ len'.toNat := by
    have : len'.toNat ≠ 0 := fun zero => pages (BitVec.eq_of_toNat_eq zero)
    omega
  have ends : offset.toNat + len'.toNat ≤ (pageAlign size).toNat := by
    rw [BitVec.lt_def, BitVec.toNat_add, Nat.mod_eq_of_lt noWrap] at inside
    omega
  simp only [BitVec.toNat_sub, BitVec.toNat_add, BitVec.toNat_udiv, BitVec.ofNat_eq_ofNat,
    BitVec.reduceToNat]
  omega

/-- Without a length at the aligned end of the area, the interval ends before it starts. -/
theorem requestPages_empty : requestPages size (pageAlign size) 0 =
    some ((pageAlign size / 4096).toNat, (pageAlign size / 4096 - 1).toNat) := by
  have aligned : pageAlign size &&& 4095 = 0 := and_mask_eq_zero.mpr pageAlign_mod
  simp only [BitVec.ofNat_eq_ofNat] at aligned ⊢
  simp [requestPages, aligned]

/-- What passes the tests are pages of the area, unless it is the empty request at its end. -/
theorem requestPages_inside_iff : (∀ pgstart pgend,
    requestPages size offset len = some (pgstart, pgend) →
      pgstart ≤ pgend ∧ pgend < (pageAlign size).toNat / 4096) ↔
    len ≠ 0 ∨ offset ≠ pageAlign size := by
  refine ⟨fun inside => ?_, fun some pgstart pgend request => requestPages_inside request some⟩
  by_contra empty
  rw [not_or, not_not, not_not] at empty
  obtain ⟨rfl, rfl⟩ := empty
  have := inside _ _ requestPages_empty
  simp only [BitVec.toNat_sub, BitVec.toNat_udiv, BitVec.ofNat_eq_ofNat, BitVec.reduceToNat] at this
  omega

end Requests

/-- What a request reaches are pages of the area, exactly when it is not the empty one at its
end. -/
theorem request_in_area (asma : Nat) (size : BitVec 32) (cmd : PinCmd) (pin : PinRequest)
    (allocated : Bool) :
    (∀ call, ashmemPinUnpin asma true size cmd (some pin) allocated = .ok call →
      ∃ pgstart pgend, call.pages = some (pgstart, pgend) ∧ pgstart ≤ pgend ∧
        pgend < (pageAlign size).toNat / 4096) ↔
    pin.len ≠ 0 ∨ pin.offset ≠ pageAlign size := by
  rw [← requestPages_inside_iff]
  simp only [ashmemPinUnpin, Bool.not_true, Bool.false_eq_true, if_false]
  cases requestPages size pin.offset pin.len with
  | none => simp
  | some pages =>
    obtain ⟨pgstart, pgend⟩ := pages
    cases cmd <;> simp [Call.pages]

/-- Everything after the last page: the interval ends before it starts, and `ashmem_unpin` puts
it on the list of the area. -/
theorem empty_request_listed :
    ashmemPinUnpin 0 true 4096 .unpin (some ⟨4096, 0⟩) true = .ok (.unpin 0 1 0 true) ∧
      ((Call.unpin 0 1 0 true).step ashmemInit).2.unpinned 0 = [⟨0, 1, 0, false⟩] :=
  ⟨rfl, by decide⟩

end AndroidKernel.Ashmem
