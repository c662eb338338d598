import AndroidKernel.Logger.Spec

/-!
Offsets into a log and the entries that follow them.

`Points` says of an offset where the entries of a place lie and that they end
at `w_off`; with it a change of the buffer is a matter of positions. It is the
same as `AtPlace` (`atPlace_iff`), which follows the entries one by one.
-/

namespace AndroidKernel.Logger

open Lib List

variable {log : LoggerLog} {stored : List LogEntry} {off i len : Nat}

theorem LogSize.bytes_pos (size : LogSize) : 0 < size.bytes := Nat.two_pow_pos _

theorem LogSize.big_bytes (size : LogSize) : 2 ^ 14 ≤ size.bytes :=
  Nat.pow_le_pow_right Nat.two_pos size.big

theorem loggerOffset_eq (log : LoggerLog) (n : Nat) : loggerOffset log n = n % log.size.bytes :=
  Nat.and_two_pow_sub_one_eq_mod n log.size.bits

theorem loggerOffset_lt (log : LoggerLog) (n : Nat) : loggerOffset log n < log.size.bytes := by
  rw [loggerOffset_eq]
  exact Nat.mod_lt _ log.size.bytes_pos

/-! ### Unread bytes -/

theorem bytesFrom_eq_cons (h : i < stored.length) :
    bytesFrom stored i = (stored.get ⟨i, h⟩).bytes ++ bytesFrom stored (i + 1) := by
  unfold bytesFrom
  rw [drop_eq_getElem_cons h, flatMap_cons, get_eq_getElem]

theorem unread_eq_add (h : i < stored.length) :
    unread stored i = (stored.get ⟨i, h⟩).bytes.length + unread stored (i + 1) := by
  unfold unread
  rw [bytesFrom_eq_cons h, length_append]

theorem bytesFrom_length : bytesFrom stored stored.length = [] := by
  simp [bytesFrom]

theorem unread_length : unread stored stored.length = 0 := by
  simp [unread, bytesFrom_length]

theorem unread_pos (h : i < stored.length) : 0 < unread stored i := by
  have := (stored.get ⟨i, h⟩).pos
  rw [unread_eq_add h]
  omega

theorem unread_anti {j : Nat} (le : i ≤ j) : unread stored j ≤ unread stored i := by
  unfold unread bytesFrom
  exact ((drop_sublist_drop_left stored le).flatMap _).length_le

theorem bytesFrom_append_singleton (h : i ≤ stored.length) (entry : LogEntry) :
    bytesFrom (stored ++ [entry]) i = bytesFrom stored i ++ entry.bytes := by
  unfold bytesFrom
  rw [drop_append_of_le_length h]
  simp

theorem unread_append_singleton (h : i ≤ stored.length) (entry : LogEntry) :
    unread (stored ++ [entry]) i = unread stored i + entry.bytes.length := by
  unfold unread
  rw [bytesFrom_append_singleton h, length_append]

/-! ### Offsets and places -/

structure Points (log : LoggerLog) (stored : List LogEntry) (off i : Nat) : Prop where
  le : i ≤ stored.length
  off_lt : off < log.size.bytes
  room : unread stored i < log.size.bytes
  ends : (off + unread stored i) % log.size.bytes = log.wOff
  holds : RingHolds log.size.bytes log.buffer off (bytesFrom stored i)

/-- The length field of an entry that the buffer holds. -/
theorem getEntryLen_of_holds {entry : LogEntry} (inside : off < log.size.bytes)
    (holds : RingHolds log.size.bytes log.buffer off entry.bytes) :
    getEntryLen log off = entry.bytes.length := by
  obtain ⟨lo, hi, rest, bytes, length⟩ := entry.length_eq
  have big := log.size.big_bytes
  rw [bytes] at holds
  have first := holds 0 (by simp)
  have second := holds 1 (by simp)
  rw [Nat.add_zero, Nat.mod_eq_of_lt inside] at first
  rw [mod_eq_wrap inside (by omega)] at second
  simp only [get_eq_getElem, getElem_cons_zero, getElem_cons_succ] at first second
  unfold getEntryLen
  rw [length, first]
  -- The second byte of the field is at the start of the buffer when the first
  -- is its last byte.
  split
  · rename_i last
    rw [if_neg (by omega), show off + 1 - log.size.bytes = 0 by omega] at second
    rw [second]
  · rename_i more
    rw [if_pos (by omega)] at second
    rw [second]

section

variable (points : Points log stored off i)
include points

variable (h : i < stored.length)

theorem Points.next_entry :
    RingHolds log.size.bytes log.buffer off (stored.get ⟨i, h⟩).bytes ∧
      getEntryLen log off = (stored.get ⟨i, h⟩).bytes.length := by
  have holds := points.holds
  rw [bytesFrom_eq_cons h] at holds
  have entry := (RingHolds.append.mp holds).1
  exact ⟨entry, getEntryLen_of_holds points.off_lt entry⟩

/-- One entry on. -/
theorem Points.next :
    Points log stored (loggerOffset log (off + (stored.get ⟨i, h⟩).bytes.length)) (i + 1) := by
  have holds := points.holds
  have ends := points.ends
  have room := points.room
  rw [bytesFrom_eq_cons h] at holds
  rw [unread_eq_add h] at ends room
  refine ⟨h, loggerOffset_lt _ _, by omega, ?_, ?_⟩
  · rw [loggerOffset_eq, Nat.mod_add_mod, Nat.add_assoc]
    exact ends
  · rw [loggerOffset_eq]
    exact (RingHolds.append.mp holds).2

theorem Points.eq_wOff_iff : log.wOff = off ↔ i = stored.length := by
  have ends := points.ends
  constructor
  · intro same
    by_contra differs
    have pending := unread_pos (Nat.lt_of_le_of_ne points.le differs)
    have room := points.room
    have inside := points.off_lt
    rw [mod_eq_wrap inside (by omega)] at ends
    split at ends <;> omega
  · rintro rfl
    rw [unread_length, Nat.add_zero, Nat.mod_eq_of_lt points.off_lt] at ends
    exact ends.symm

theorem Points.follows : Follows log off (stored.drop i) := by
  -- The induction is on the number of entries that are left.
  induction left : stored.length - i generalizing off i with
  | zero =>
    have done : i = stored.length := by
      have := points.le
      omega
    rw [done, drop_length]
    exact (points.eq_wOff_iff.mpr done).symm
  | succ n ih =>
    have h : i < stored.length := by omega
    rw [drop_eq_getElem_cons h]
    obtain ⟨holds, length⟩ := points.next_entry h
    exact ⟨length, holds, ih (points.next h) (by omega)⟩

omit points in
theorem ends_of_follows (wOff_lt : log.wOff < log.size.bytes) (off_lt : off < log.size.bytes)
    {entries : List LogEntry} (follows : Follows log off entries) :
    (off + (entries.flatMap LogEntry.bytes).length) % log.size.bytes = log.wOff ∧
      RingHolds log.size.bytes log.buffer off (entries.flatMap LogEntry.bytes) := by
  induction entries generalizing off with
  | nil =>
    have same : off = log.wOff := follows
    subst same
    simp only [flatMap_nil, length_nil, Nat.add_zero]
    exact ⟨Nat.mod_eq_of_lt wOff_lt, RingHolds.nil⟩
  | cons entry entries ih =>
    obtain ⟨-, holds, rest⟩ := follows
    obtain ⟨ends, later⟩ := ih (loggerOffset_lt _ _) rest
    rw [loggerOffset_eq] at ends later
    rw [Nat.mod_add_mod, Nat.add_assoc] at ends
    rw [flatMap_cons, length_append]
    exact ⟨ends, RingHolds.append.mpr ⟨holds, later⟩⟩

omit points in
theorem atPlace_iff (wOff_lt : log.wOff < log.size.bytes) :
    AtPlace log stored off i ↔ Points log stored off i := by
  constructor
  · intro place
    obtain ⟨ends, holds⟩ := ends_of_follows wOff_lt place.off_lt place.follows
    exact ⟨place.le, place.off_lt, place.room, ends, holds⟩
  · intro points
    exact ⟨points.le, points.off_lt, points.room, points.follows⟩

/-! ### Pulling offsets forward -/

/-- The loop of `get_next_entry` goes over whole entries until it has gone over `len` bytes. -/
theorem Points.nextEntryLoop {fuel count : Nat} (started : count < len)
    (enough : len ≤ count + unread stored i) (fuelled : len < count + fuel) :
    Points log stored (getNextEntryLoop log len fuel off count)
        (i + passed (len - count) (stored.drop i)) ∧
      unread stored (i + passed (len - count) (stored.drop i)) + len ≤ count + unread stored i := by
  induction fuel generalizing off i count with
  | zero => omega
  | succ fuel ih =>
    have h : i < stored.length := by
      rcases Nat.lt_or_eq_of_le points.le with less | same
      · exact less
      · rw [same, unread_length] at enough
        omega
    have step := unread_eq_add h
    have next := points.next h
    have long := (stored.get ⟨i, h⟩).pos
    have first : stored.drop i = stored.get ⟨i, h⟩ :: stored.drop (i + 1) := drop_eq_getElem_cons h
    rw [getNextEntryLoop, (points.next_entry h).2, first, passed]
    by_cases more : count + (stored.get ⟨i, h⟩).bytes.length < len
    · rw [if_pos more, if_pos (by omega), Nat.sub_sub, Nat.add_comm _ 1, ← Nat.add_assoc]
      obtain ⟨there, skipped⟩ := ih next more (by omega) (by omega)
      exact ⟨there, by omega⟩
    · rw [if_neg more, if_neg (by omega)]
      exact ⟨next, by omega⟩

/-- A write of `len` bytes crosses the offsets that its bytes and the unread
bytes do not both fit beside. -/
theorem Points.clockInterval_iff (some_len : 0 < len) (len_lt : len < log.size.bytes) :
    clockInterval log.wOff (loggerOffset log (log.wOff + len)) off = true ↔
      log.size.bytes ≤ unread stored i + len := by
  have inside := points.off_lt
  have room := points.room
  have ends := points.ends
  have wOff_lt : log.wOff < log.size.bytes := by
    rw [← ends]
    exact Nat.mod_lt _ log.size.bytes_pos
  rw [loggerOffset_eq, mod_eq_wrap wOff_lt len_lt.le]
  rw [mod_eq_wrap inside (by omega)] at ends
  unfold clockInterval
  simp only [Bool.ite_eq_true_distrib, Bool.or_eq_true, Bool.and_eq_true, decide_eq_true_eq]
  split at ends <;> split <;> split <;> omega

/-- `fix_up_readers` on an offset at a place. -/
theorem Points.fixUp (some_len : 0 < len) (short : 2 * len ≤ log.size.bytes) :
    Points log stored (fixUp log len off) (pull log.size.bytes len stored i) ∧
      unread stored (pull log.size.bytes len stored i) + len < log.size.bytes := by
  have crosses := points.clockInterval_iff some_len (by omega)
  have room := points.room
  unfold Logger.fixUp pull
  by_cases near : unread stored i + len < log.size.bytes
  · rw [if_pos near, if_neg (mt crosses.mp (by omega))]
    exact ⟨points, near⟩
  obtain ⟨there, skipped⟩ : Points log stored (getNextEntry log off len) _ ∧ _ :=
    points.nextEntryLoop some_len (by omega) (by omega)
  rw [Nat.sub_zero] at there skipped
  rw [if_neg near, if_pos (crosses.mpr (by omega))]
  exact ⟨there, by omega⟩

end

end AndroidKernel.Logger
