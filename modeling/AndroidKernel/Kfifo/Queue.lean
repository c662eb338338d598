import AndroidKernel.Lib.Refine
import AndroidKernel.Lib.Ring

/-!
The byte queue of kernel/kfifo.c.

The counters `in` and `out` run freely modulo `2 ^ 32`: their difference is the number of
bytes in the queue, and their low bits are places in the buffer. Both stay right when a
counter wraps, because the size of the buffer divides `2 ^ 32`.
-/

namespace AndroidKernel.Kfifo

open Lib

/-- `struct kfifo`. The buffer is a function of the index. -/
structure Fifo where
  buffer : Nat → UInt8
  size : BitVec 32
  fifoIn : BitVec 32
  fifoOut : BitVec 32

def kfifoInit (buffer : Nat → UInt8) (size : BitVec 32) : Fifo := ⟨buffer, size, 0, 0⟩

def minWord (x y : BitVec 32) : BitVec 32 := if x < y then x else y

/-- `__kfifo_put`: the number of bytes taken from `buffer`. -/
def kfifoPut (fifo : Fifo) (buffer : Nat → UInt8) (len : BitVec 32) : BitVec 32 × Fifo :=
  let len := minWord len (fifo.size - fifo.fifoIn + fifo.fifoOut)
  let off := fifo.fifoIn &&& (fifo.size - 1)
  let l := minWord len (fifo.size - off)
  -- first up to the end of the buffer, then the rest at its beginning
  let first := blit fifo.buffer off.toNat buffer l.toNat
  let second := blit first 0 (fun i => buffer (l.toNat + i)) (len - l).toNat
  (len, { fifo with buffer := second, fifoIn := fifo.fifoIn + len })

/-- `__kfifo_get`: the number of bytes put into `buffer`, and what it holds then. -/
def kfifoGet (fifo : Fifo) (buffer : Nat → UInt8) (len : BitVec 32) :
    BitVec 32 × (Nat → UInt8) × Fifo :=
  let len := minWord len (fifo.fifoIn - fifo.fifoOut)
  let off := fifo.fifoOut &&& (fifo.size - 1)
  let l := minWord len (fifo.size - off)
  let first := blit buffer 0 (fun i => fifo.buffer (off.toNat + i)) l.toNat
  let second := blit first l.toNat fifo.buffer (len - l).toNat
  (len, second, { fifo with fifoOut := fifo.fifoOut + len })

inductive Call where
  | put (buffer : Nat → UInt8) (len : BitVec 32)
  | get (buffer : Nat → UInt8) (len : BitVec 32)

/-- The value returned, and the caller's buffer after the call. -/
abbrev Answer := BitVec 32 × (Nat → UInt8)

def step : Call → Fifo → Answer × Fifo
  | .put buffer len, fifo => (((kfifoPut fifo buffer len).1, buffer), (kfifoPut fifo buffer len).2)
  | .get buffer len, fifo =>
    (((kfifoGet fifo buffer len).1, (kfifoGet fifo buffer len).2.1), (kfifoGet fifo buffer len).2.2)

/-! ### The queue -/

/-- A queue of at most `size` bytes. -/
def queueSpec (size : Nat) (queue : List UInt8) : Call → Answer → List UInt8 → Prop
  | .put buffer len, (taken, buffer'), queue' =>
    taken.toNat = min len.toNat (size - queue.length) ∧ buffer' = buffer ∧
      queue' = queue ++ (List.range taken.toNat).map buffer
  | .get buffer len, (given, buffer'), queue' =>
    given.toNat = min len.toNat queue.length ∧ queue' = queue.drop given.toNat ∧
      ∀ i, buffer' i = (queue.take given.toNat)[i]?.getD (buffer i)

/-- The queue that a fifo of `2 ^ k` bytes holds. -/
structure Holds (k : Fin 32) (fifo : Fifo) (queue : List UInt8) : Prop where
  size : fifo.size = BitVec.ofNat 32 (2 ^ k.val)
  short : queue.length ≤ 2 ^ k.val
  count : fifo.fifoIn = fifo.fifoOut + BitVec.ofNat 32 queue.length
  bytes : RingHolds (2 ^ k.val) fifo.buffer (fifo.fifoOut.toNat % 2 ^ k.val) queue

section Steps

variable {k : Fin 32} {fifo : Fifo} {queue : List UInt8}

theorem size_lt (k : Fin 32) : 2 ^ k.val < 2 ^ 32 := Nat.pow_lt_pow_right (by decide) k.isLt

theorem toNat_minWord (x y : BitVec 32) : (minWord x y).toNat = min x.toNat y.toNat := by
  unfold minWord
  split <;> bv_omega

/-- The place of a counter in the buffer. -/
theorem toNat_place (x : BitVec 32) :
    (x &&& (BitVec.ofNat 32 (2 ^ k.val) - 1)).toNat = x.toNat % 2 ^ k.val := by
  have mask : (BitVec.ofNat 32 (2 ^ k.val) - 1).toNat = 2 ^ k.val - 1 := by
    have := size_lt k
    have := Nat.two_pow_pos k.val
    bv_omega
  rw [BitVec.toNat_and, mask, Nat.and_two_pow_sub_one_eq_mod]

/-- A counter that wraps stays at its place. -/
theorem add_place (x len : BitVec 32) :
    (x + len).toNat % 2 ^ k.val = (x.toNat % 2 ^ k.val + len.toNat) % 2 ^ k.val := by
  rw [BitVec.toNat_add, Nat.mod_mod_of_dvd _ (Nat.pow_dvd_pow 2 k.isLt.le), Nat.mod_add_mod]

/-- The two parts of a copy of `len` bytes at a place in the buffer. -/
theorem toNat_parts {off : BitVec 32} (len : BitVec 32) (inside : off.toNat < 2 ^ k.val) :
    (minWord len (BitVec.ofNat 32 (2 ^ k.val) - off)).toNat = min len.toNat (2 ^ k.val - off.toNat) ∧
      (len - minWord len (BitVec.ofNat 32 (2 ^ k.val) - off)).toNat =
        len.toNat - min len.toNat (2 ^ k.val - off.toNat) := by
  have first : (minWord len (BitVec.ofNat 32 (2 ^ k.val) - off)).toNat =
      min len.toNat (2 ^ k.val - off.toNat) := by
    rw [toNat_minWord]
    have := size_lt k
    bv_omega
  exact ⟨first, by bv_omega⟩

theorem Holds.put (holds : Holds k fifo queue) (buffer : Nat → UInt8) (len : BitVec 32) :
    (kfifoPut fifo buffer len).1.toNat = min len.toNat (2 ^ k.val - queue.length) ∧
      Holds k (kfifoPut fifo buffer len).2
        (queue ++ (List.range (kfifoPut fifo buffer len).1.toNat).map buffer) := by
  obtain ⟨size, short, count, bytes⟩ := holds
  have := size_lt k
  unfold kfifoPut
  dsimp only
  have free : (fifo.size - fifo.fifoIn + fifo.fifoOut).toNat = 2 ^ k.val - queue.length := by
    rw [size, count]
    bv_omega
  have takes := toNat_minWord len (fifo.size - fifo.fifoIn + fifo.fifoOut)
  rw [free] at takes
  generalize minWord len _ = taken at takes ⊢
  have place : (fifo.fifoIn &&& (fifo.size - 1)).toNat =
      (fifo.fifoOut.toNat % 2 ^ k.val + queue.length) % 2 ^ k.val := by
    rw [size, toNat_place, count, add_place, BitVec.toNat_ofNat,
      Nat.mod_eq_of_lt (show queue.length < 2 ^ 32 by omega)]
  have inside : (fifo.fifoIn &&& (fifo.size - 1)).toNat < 2 ^ k.val := by
    rw [place]
    exact Nat.mod_lt _ (Nat.two_pow_pos _)
  generalize fifo.fifoIn &&& (fifo.size - 1) = off at *
  obtain ⟨first, second⟩ := toNat_parts taken inside
  rw [← size] at first second
  refine ⟨takes, size, by simp; omega, ?_, ?_⟩
  · rw [count]
    simp
    bv_omega
  rw [first, second]
  change RingHolds _ (ringBlit _ _ _ buffer taken.toNat) _ _
  dsimp only
  generalize fifo.fifoOut.toNat % 2 ^ k.val = out at *
  refine RingHolds.append.mpr ⟨bytes.congr fun i early => ?_, fun i copied => ?_⟩
  · -- the bytes in the queue are behind those that are written
    have behind : (out + i) % 2 ^ k.val =
        (off.toNat + (2 ^ k.val - queue.length + i)) % 2 ^ k.val := by
      rw [place, Nat.mod_add_mod, ← Nat.add_mod_right (out + i)]
      congr 1
      omega
    rw [behind]
    exact ringBlit_outside inside (by omega) (by omega)
  · rw [List.length_map, List.length_range] at copied
    rw [← place, ringBlit_inside inside (by omega) copied]
    simp

theorem Holds.get (holds : Holds k fifo queue) (buffer : Nat → UInt8) (len : BitVec 32) :
    (kfifoGet fifo buffer len).1.toNat = min len.toNat queue.length ∧
      Holds k (kfifoGet fifo buffer len).2.2 (queue.drop (kfifoGet fifo buffer len).1.toNat) ∧
      ∀ i, (kfifoGet fifo buffer len).2.1 i =
        (queue.take (kfifoGet fifo buffer len).1.toNat)[i]?.getD (buffer i) := by
  obtain ⟨size, short, count, bytes⟩ := holds
  have := size_lt k
  unfold kfifoGet
  dsimp only
  have stored : (fifo.fifoIn - fifo.fifoOut).toNat = queue.length := by
    rw [count]
    bv_omega
  have gives := toNat_minWord len (fifo.fifoIn - fifo.fifoOut)
  rw [stored] at gives
  generalize minWord len _ = given at gives ⊢
  have place : (fifo.fifoOut &&& (fifo.size - 1)).toNat = fifo.fifoOut.toNat % 2 ^ k.val := by
    rw [size, toNat_place]
  have inside : (fifo.fifoOut &&& (fifo.size - 1)).toNat < 2 ^ k.val := by
    rw [place]
    exact Nat.mod_lt _ (Nat.two_pow_pos _)
  rw [← place] at bytes
  generalize fifo.fifoOut &&& (fifo.size - 1) = off at *
  obtain ⟨first, second⟩ := toNat_parts given inside
  rw [← size] at first second
  refine ⟨gives, ⟨size, by simp; omega, ?_, ?_⟩, fun i => ?_⟩
  · rw [count]
    simp
    bv_omega
  · rw [add_place, ← place]
    rw [← List.take_append_drop given.toNat queue, RingHolds.append] at bytes
    rw [List.length_take, Nat.min_eq_left (by omega)] at bytes
    exact bytes.2
  rw [first, second]
  unfold blit
  have wrap := @mod_eq_wrap (2 ^ k.val) off.toNat i inside
  by_cases read : i < given.toNat
  · have byte := bytes i (by omega)
    rw [wrap (by omega)] at byte
    rw [List.getElem?_take_of_lt read, List.getElem?_eq_getElem (by omega), Option.getD_some]
    grind
  · rw [List.getElem?_eq_none (by simp; omega), Option.getD_none, if_neg (by omega),
      if_neg (by omega)]

theorem step_implements (k : Fin 32) :
    Implements step (queueSpec (2 ^ k.val)) (fun _ _ => True) (Holds k) := by
  rintro fifo queue call holds -
  cases call with
  | put buffer len =>
    obtain ⟨taken, holds'⟩ := holds.put buffer len
    exact ⟨_, ⟨taken, rfl, rfl⟩, holds'⟩
  | get buffer len =>
    obtain ⟨given, holds', copied⟩ := holds.get buffer len
    exact ⟨_, ⟨given, rfl, copied⟩, holds'⟩

end Steps

/-- Every run from an empty fifo answers as a queue of at most `2 ^ k` bytes does, and the
difference of the counters is the length of that queue. -/
theorem kfifo_is_queue (k : Fin 32) (buffer : Nat → UInt8) (calls : List Call) :
    ∃ queue, SpecRun (queueSpec (2 ^ k.val)) [] calls
        (answers step calls (kfifoInit buffer (BitVec.ofNat 32 (2 ^ k.val)))).1 queue ∧
      ((answers step calls (kfifoInit buffer (BitVec.ofNat 32 (2 ^ k.val)))).2.fifoIn -
        (answers step calls (kfifoInit buffer (BitVec.ofNat 32 (2 ^ k.val)))).2.fifoOut).toNat =
          queue.length ∧ queue.length ≤ 2 ^ k.val := by
  have start : Holds k (kfifoInit buffer (BitVec.ofNat 32 (2 ^ k.val))) [] :=
    ⟨rfl, Nat.zero_le _, rfl, .nil⟩
  obtain ⟨queue, run, -, short, count, -⟩ := (step_implements k).run start admits_true
  refine ⟨queue, run, ?_, short⟩
  have := size_lt k
  rw [count]
  bv_omega

end AndroidKernel.Kfifo
