import AndroidKernel.Idr.Chunks
import AndroidKernel.Idr.Runs

/-!
Runs of calls on an ida, and the set they implement.

An id is in the set when its bit is set in the chunk of its slot. `ida_get_new_above`
looks for a slot that is not full and then for a clear bit in its chunk; when the
slot is the one of the starting id but the clear bits of its chunk are all below
the starting id, it looks once more, from the next slot on.
-/

namespace AndroidKernel.Idr

open Lib Function List

variable {s : IdaState} {k offset leaf rounds c start n : Nat} {σ : Slots} {fault : Fault → Prop}
  {pa : Nat → Nat}

section Allocation

variable {t u : IdaState} {σ' : Slots} {h x i : Nat} {pos : Nat → Nat → Nat} {never : Fault → Prop}

/-- The state `u` stands for `σ'`, which holds the bits of `σ` in `s` and those in `more`. -/
structure Reached (s u : IdaState) (σ σ' : Slots) (more : Nat → Nat → Prop) : Prop where
  holds : Holds u.idr σ'
  chunks : Chunks u σ'
  bits : ∀ y j, u.bit σ' y j ↔ s.bit σ y j ∨ more y j

/-- A slot that is not full has a clear bit. -/
theorem Chunks.clear_bit (chunks : Chunks s σ) (room : σ.full x = false) :
    ∃ k < 992, ¬s.bit σ x k := by
  by_contra none
  push Not at none
  have busy := (none 0 (by decide)).1
  have full := (chunks.full busy).mpr fun k slot => (none k slot).2
  rw [room] at full
  cases full

/-- One round of `ida_get_new_above`. -/
theorem idaLoop_round {good : Nat → Nat → Prop} {idrId : Nat}
    {post : Except Errno Nat → IdaState → Prop} (chunks : Chunks s σ) (start : offset < 992)
    (search : wp (idrGetEmptySlot idrId pa) (Landed σ good) fault s.idr)
    (failed : ∀ e u σ', Reached s u σ σ' (fun _ _ => False) →
      (∀ y, σ'.used y = true → σ.used y = true ∨
        ∃ h i, good h i ∧ y = i % 32 ^ (h + 1) ∧ i * 992 % 2 ^ 32 < maxIdBit) → post (.error e) u)
    (restart : ∀ u h pos pa', Standing u.idr h pos σ → Chunks u σ →
      (∀ y j, u.bit σ y j ↔ s.bit σ y j) → good h idrId → σ.full (idrId % 32 ^ (h + 1)) = false →
      idrId + 1 < maxIdBit → offset ≠ 0 →
      (∀ k, offset ≤ k → k < 992 → s.bit σ (idrId % 32 ^ (h + 1)) k) →
      wp (idaLoop rounds (idrId + 1) 0 pa') post fault u)
    (found : ∀ u σ' h i k first, good h i → k < 992 → i * 992 % 2 ^ 32 < maxIdBit →
      (i * 992 + k) % 2 ^ 32 < maxIdBit → first = (if i = idrId then offset else 0) → first ≤ k →
      ¬s.bit σ (i % 32 ^ (h + 1)) k → (∀ j, first ≤ j → j < k → s.bit σ (i % 32 ^ (h + 1)) j) →
      Reached s u σ σ' (fun y j => y = i % 32 ^ (h + 1) ∧ j = k) →
      (∀ y, σ'.used y = true → σ.used y = true ∨ y = i % 32 ^ (h + 1)) →
      post (.ok ((i * 992 + k) % 2 ^ 32)) u) :
    wp (idaLoop (rounds + 1) idrId offset pa) post fault s := by
  have noMore : ∀ {u}, Holds u.idr σ → Chunks u σ → (∀ y j, u.bit σ y j ↔ s.bit σ y j) →
      ∀ e, post (.error e) u := by
    intro u holds chunks bits e
    exact failed e u σ ⟨holds, chunks, fun y j => by rw [bits, or_false]⟩ fun y used => .inl used
  rw [idaLoop, wp_bind, wp_onIdr]
  refine search.returns fun r t landed => ?_
  cases r with
  | noMemory | noMoreSpace =>
    exact noMore (show Holds t σ from landed) (chunks.onIdr t) (fun _ _ => .rfl) _
  | slot i pa =>
    obtain ⟨h, pos, standing, room, bound, path, fits⟩ := landed
    simp only [wp_ite, wp_pure, show idaBitmapBits = 992 from rfl]
    refine ⟨fun _ => noMore standing.holds (chunks.onIdr t) (fun _ _ => .rfl) _, fun below => ?_⟩
    rw [not_le] at below
    obtain ⟨x, own⟩ : ∃ x, x = i % 32 ^ (h + 1) := ⟨_, rfl⟩
    obtain ⟨first, firstEq⟩ : ∃ first, first = if i = idrId then offset else 0 := ⟨_, rfl⟩
    rw [← firstEq, wp_bind]
    refine (chunkOf_spec own (s := { s with idr := t }) standing (chunks.onIdr t) path).returns
      fun b u result => ?_
    simp only [wp_ite, wp_pure]
    rcases result with ⟨none, standing', chunks', bits⟩ | chunk
    · exact ⟨fun _ => noMore standing'.holds chunks' bits _, fun some => absurd none some⟩
    obtain ⟨some, σ₁, standing₁, chunks₁, bits₁, busy, ptr, used₁, known, room₁⟩ :
        b ≠ 0 ∧ ∃ σ₁, Standing u.idr h pos σ₁ ∧ Chunks u σ₁ ∧
          (∀ y j, u.bit σ₁ y j ↔ s.bit σ y j) ∧ σ₁.used x = true ∧ σ₁.ptr x = b ∧
          (∀ y, σ₁.used y = true → σ.used y = true ∨ y = x) ∧ (σ.used x = true → σ₁ = σ) ∧
          σ₁.full x = false := by
      rcases chunk with ⟨some, busy, rfl, rfl⟩ | ⟨some, unused, standing', chunks', bits⟩
      · exact ⟨some, σ, standing, chunks.onIdr t, fun _ _ => .rfl, busy, rfl,
          fun _ used => .inl used, fun _ => rfl, own ▸ room⟩
      refine ⟨some, _, standing', chunks', bits, by simp [Slots.occupy],
        by simp [Slots.occupy], fun y used => ?_, fun busy => ?_, own ▸ room⟩
      · by_cases here : y = x
        · exact .inr here
        · exact .inl (by simpa [Slots.occupy, here] using used)
      · rw [unused] at busy
        cases busy
    subst ptr
    refine ⟨fun none => absurd none some, fun _ => ?_⟩
    have inside : first ≤ 992 := by
      rw [firstEq]
      split <;> omega
    simp only [wp_bind, loadChunk, wp_ite, wp_throw, wp_get, wp_pure]
    refine ⟨fun none => absurd none some, fun _ => ?_⟩
    obtain ⟨low, high, before, stop⟩ :=
      nextZero_spec (p := (u.chunks (σ₁.ptr x)).bitmap.getLsbD) inside
    generalize nextZero (u.chunks (σ₁.ptr x)).bitmap.getLsbD 992 first = k at *
    have set : ∀ j, first ≤ j → j < k → s.bit σ x j := by
      intro j from' to'
      exact (bits₁ x j).mp ⟨busy, before j from' to'⟩
    refine ⟨fun none => ?_, fun more => ?_⟩
    · -- a slot that is not full has a clear bit, so it was not looked at from its first bit on
      subst none
      obtain ⟨j, slot, clear⟩ := chunks₁.clear_bit room₁
      have late : first ≠ 0 := by
        intro zero
        exact clear ((bits₁ x j).mpr (set j (by omega) slot))
      have same : i = idrId := by
        by_contra other
        rw [if_neg other] at firstEq
        exact late firstEq
      rw [if_pos same] at firstEq
      subst same firstEq own
      obtain rfl := known (set first le_rfl start).1
      refine restart u h pos pa standing₁ chunks₁ bits₁ fits room ?_ late set
      have word : maxIdBit = 2 ^ 31 := rfl
      omega
    · have slot : k < 992 := by omega
      have clear : ¬s.bit σ x k := by
        intro bit
        have := ((bits₁ x k).mpr bit).2
        rw [stop slot] at this
        cases this
      refine ⟨fun _ => ?_, fun small => ?_⟩
      · refine failed _ u σ₁ ⟨standing₁.holds, chunks₁, fun y j => by rw [bits₁, or_false]⟩
          fun y used => ?_
        rcases used₁ y used with used | rfl
        · exact .inl used
        · exact .inr ⟨h, i, fits, own, below⟩
      rw [not_le] at small
      refine (takeBit_spec own standing₁ chunks₁ path busy slot fun bit =>
        clear ((bits₁ x k).mp bit)).returns ?_
      rintro - v ⟨σ₂, holds, chunks₂, used₂, bits₂⟩
      subst own
      refine found v σ₂ h i k first fits slot below small firstEq low clear set
        ⟨holds, chunks₂, fun y j => by rw [bits₂, bits₁]⟩ fun y used => ?_
      rw [used₂] at used
      exact used₁ y used

/-! ### The set of ids -/

theorem isLeast_id {P : Nat → Nat → Prop} {i : Nat} (start : offset < 992)
    (slot : k < 992) (free : ¬P i k) (after : c < i ∨ c = i ∧ offset ≤ k)
    (before : ∀ y j, j < 992 → c < y ∨ c = y ∧ offset ≤ j → y < i ∨ y = i ∧ j < k → P y j) :
    IsLeast { id | c * 992 + offset ≤ id ∧ ¬P (id / 992) (id % 992) } (i * 992 + k) := by
  refine ⟨⟨by omega, ?_⟩, ?_⟩
  · rwa [show (i * 992 + k) / 992 = i by omega, show (i * 992 + k) % 992 = k by omega]
  · rintro id ⟨low, clear⟩
    by_contra less
    exact clear (before _ _ (Nat.mod_lt _ (by decide)) (by omega) (by omega))

/-- For every starting id: some bit that was clear is set, or none. -/
theorem idaGetNewAbove_any (bound : start < 2 ^ 31) (holds : Holds s.idr σ) (chunks : Chunks s σ) :
    wp (idaGetNewAbove start pa) (fun _ u => ∃ σ', Holds u.idr σ' ∧ Chunks u σ') (· = .endless) s := by
  have offset : start % 992 < 992 := Nat.mod_lt _ (by decide)
  have word : maxIdBit = 2 ^ 31 := rfl
  have chunk : start / idaBitmapBits < maxIdBit := by
    rw [show idaBitmapBits = 992 from rfl]
    omega
  obtain ⟨pos, laid⟩ := holds
  refine idaLoop_round chunks offset (emptySlotLoop_any laid (.inl chunk))
    (fun e u σ' reached _ => ⟨σ', reached.holds, reached.chunks⟩) ?_
    (fun u σ' h i k first _ _ _ _ _ _ _ _ reached _ => ⟨σ', reached.holds, reached.chunks⟩)
  intro u h pos' pa' standing chunks' _ _ _ small _ _
  refine idaLoop_round chunks' (by decide) (emptySlotLoop_any standing.laid (.inl small))
    (fun e v σ' reached _ => ⟨σ', reached.holds, reached.chunks⟩) ?_
    (fun v σ' h i k first _ _ _ _ _ _ _ _ reached _ => ⟨σ', reached.holds, reached.chunks⟩)
  intros
  contradiction

/-- There is no chunk for ids from `2 ^ 31` on. -/
def Slots.Small (σ : Slots) : Prop := ∀ y, σ.used y = true → y * 992 < 2 ^ 31

/-- The first clear bit in the first slot that is not full, from `c` on, is that of
the least free id: `c` is the chunk of the starting id, or the next one when that
has no clear bit after the starting id. -/
theorem first_bit {c₀ offset₀ first : Nat}
    (full : ∀ {y}, σ.full y = true → ∀ k < 992, s.bit σ y k) (start : offset₀ < 992) (slot : k < 992) (found : σ.First c i)
    (order : c = c₀ ∧ offset = offset₀ ∨ c = c₀ + 1 ∧ offset = 0 ∧
      ∀ j, offset₀ ≤ j → j < 992 → s.bit σ c₀ j)
    (firstEq : first = if i = c then offset else 0) (low : first ≤ k) (clear : ¬s.bit σ i k)
    (before : ∀ j, first ≤ j → j < k → s.bit σ i j) :
    IsLeast { id | c₀ * 992 + offset₀ ≤ id ∧ ¬s.bit σ (id / 992) (id % 992) } (i * 992 + k) := by
  have high : c ≤ i := found.1.1
  refine isLeast_id start slot clear ?_ fun y j inside after until' => ?_
  · rcases order with ⟨rfl, rfl⟩ | ⟨rfl, -⟩
    · split at firstEq <;> omega
    · omega
  by_cases own : y = i
  · subst own
    refine before j ?_ (by omega)
    rcases order with ⟨rfl, rfl⟩ | ⟨rfl, rfl, -⟩ <;> split at firstEq <;> omega
  by_cases early : y < c
  · grind
  -- the slots in between are full
  refine full ?_ j inside
  by_contra room
  have := found.2 ⟨not_lt.mp early, by simpa using room⟩
  omega

/-- What `ida_get_new_above` does when no search wraps: it takes the least id that
was free, or none. -/
def TakesLeast (s : IdaState) (σ : Slots) (start : Nat) (r : Except Errno Nat) (u : IdaState) : Prop :=
  ∃ σ', σ'.Small ∧ match r with
    | .ok id => IsLeast { j | start ≤ j ∧ ¬s.bit σ (j / 992) (j % 992) } id ∧
        Reached s u σ σ' fun y j => y = id / 992 ∧ j = id % 992
    | .error _ => Reached s u σ σ' fun _ _ => False

/-- One round that does not wrap, from the chunk `c` on; `s` is the state at the start
of the call, with the same bits. -/
theorem idaLoop_first {c₀ offset₀ : Nat} (laid : Laid u.idr pos σ)
    (chunks : Chunks u σ) (bits : ∀ y j, u.bit σ y j ↔ s.bit σ y j) (small : σ.Small)
    (close : c ≤ 2164803) (start₀ : offset₀ < 992) (start : offset < 992)
    (order : c = c₀ ∧ offset = offset₀ ∨ c = c₀ + 1 ∧ offset = 0 ∧
      ∀ j, offset₀ ≤ j → j < 992 → s.bit σ c₀ j)
    (straight : ¬σ.Wraps u.idr.layers c)
    (restart : ∀ v h pos pa', Standing v.idr h pos σ → Chunks v σ →
      (∀ y j, v.bit σ y j ↔ s.bit σ y j) → u.idr.layers = h + 1 → offset ≠ 0 →
      σ.full c = false → (∀ k, offset ≤ k → k < 992 → s.bit σ c k) →
      wp (idaLoop rounds (c + 1) 0 pa') (TakesLeast s σ (c₀ * 992 + offset₀)) never v) :
    wp (idaLoop (rounds + 1) c offset pa) (TakesLeast s σ (c₀ * 992 + offset₀)) never u := by
  have word : maxIdBit = 2 ^ 31 := rfl
  -- a slot that is found is one for ids below `2 ^ 32`
  have near : ∀ {i}, σ.First c i → i ≤ 2164803 := by
    intro i first
    by_contra high
    have full : σ.full 2164803 = true := by
      by_contra room
      have := first.2 ⟨close, by simpa using room⟩
      omega
    have := small _ (σ.full_used _ full)
    omega
  refine idaLoop_round chunks start (idrGetEmptySlot_first laid ?_ straight) ?_ ?_ ?_
  · rw [show 32 ^ 6 = 2 ^ 30 from rfl]
    omega
  · rintro e v σ' reached used
    refine ⟨σ', fun y busy => ?_, reached.holds, reached.chunks, fun y j => by rw [reached.bits, bits]⟩
    rcases used y busy with old | ⟨h, i, ⟨inside, first, -⟩, rfl, below⟩
    · exact small y old
    · have := near first
      rw [Nat.mod_eq_of_lt inside]
      omega
  · rintro v h pos' pa' standing chunks' bits' ⟨inside, -, known⟩ room - late set
    rw [Nat.mod_eq_of_lt inside] at room set
    have busy : σ.used c = true := (set offset le_rfl start).1
    exact restart v h pos' pa' standing chunks' (fun y j => (bits' y j).trans (bits y j)) (known busy)
      late room fun k low high => (bits c k).mp (set k low high)
  rintro v σ' h i k first ⟨inside, found, -⟩ slot below - firstEq low clear before reached used
  rw [Nat.mod_eq_of_lt inside] at clear before reached used
  have := near found
  rw [Nat.mod_eq_of_lt (by omega : i * 992 + k < 2 ^ 32)]
  refine ⟨σ', fun y busy => ?_, ?_, reached.holds, reached.chunks, fun y j => ?_⟩
  · rcases used y busy with old | rfl
    · exact small y old
    · omega
  · simp only [bits] at clear before
    have chunks₀ : ∀ {y}, σ.full y = true → ∀ k < 992, s.bit σ y k := by
      intro y full k slot
      have busy := σ.full_used y full
      exact (bits y k).mp ⟨busy, (chunks.full busy).mp full k slot⟩
    exact first_bit chunks₀ start₀ slot found order firstEq low clear before
  · rw [reached.bits, bits, show (i * 992 + k) / 992 = i by omega,
      show (i * 992 + k) % 992 = k by omega]

theorem idaGetNewAbove_first (bound : start < 2 ^ 31) (holds : Holds s.idr σ)
    (chunks : Chunks s σ) (small : σ.Small) (straight : ¬σ.Wraps s.idr.layers (start / 992))
    (straight' : σ.full (start / 992) = false →
      (∀ k, start % 992 ≤ k → k < 992 → s.bit σ (start / 992) k) →
      ¬σ.Wraps s.idr.layers (start / 992 + 1)) :
    wp (idaGetNewAbove start pa) (TakesLeast s σ start) never s := by
  have offset : start % 992 < 992 := Nat.mod_lt _ (by decide)
  have whole : start / 992 * 992 + start % 992 = start := by omega
  obtain ⟨pos, laid⟩ := holds
  have run : wp (idaLoop idaRounds (start / 992) (start % 992) pa)
      (TakesLeast s σ (start / 992 * 992 + start % 992)) never s := by
    refine idaLoop_first laid chunks (fun _ _ => .rfl) small (by omega) offset offset
      (.inl ⟨rfl, rfl⟩) straight ?_
    intro v h pos' pa' standing chunks' bits layers _ room set
    have again := straight' room set
    rw [layers, ← standing.layers] at again
    refine idaLoop_first standing.laid chunks' bits small (by omega) offset (by decide)
      (.inr ⟨rfl, rfl, set⟩) again ?_
    intros
    contradiction
  rwa [whole] at run

end Allocation

/-! ### Calls and answers -/

inductive IdaCall where
  | preGet (room : Nat) (garbage : Option IdaBitmap)
  | getNewAbove (start : Fin (2 ^ 31)) (stack : Nat → Nat)
  | remove (id : BitVec 32)

inductive IdaAnswer where
  | ready (enough : Bool)
  | allocated (id : Nat)
  | failed (errno : Errno)
  | done
  | fault (fault : Fault)
deriving DecidableEq, Repr

/-- After a fault there is no next state; it is left as it was. -/
def runIda {α : Type} (p : IdaProg α) (answer : α → IdaAnswer) (s : IdaState) : IdaAnswer × IdaState :=
  match p s with
  | .ok (a, t) => (answer a, t)
  | .error f => (.fault f, s)

def idaAnswer : Except Errno Nat → IdaAnswer
  | .ok id => .allocated id
  | .error e => .failed e

def idaStep : IdaCall → IdaState → IdaAnswer × IdaState
  | .preGet room garbage => runIda (idaPreGet room garbage) .ready
  | .getNewAbove start stack => runIda (idaGetNewAbove start stack) idaAnswer
  | .remove id => runIda (idaRemove id) fun _ => .done

theorem runIda_of_wp {α : Type} {p : IdaProg α} (answer : α → IdaAnswer)
    {post : α → IdaState → Prop} (run : wp p post fault s) :
    (∃ a t, post a t ∧ runIda p answer s = (answer a, t)) ∨
      ∃ f, fault f ∧ runIda p answer s = (.fault f, s) := by
  unfold runIda
  cases result : p s with
  | ok r => exact .inl ⟨r.1, r.2, run.of_ok result, rfl⟩
  | error f => exact .inr ⟨f, run.of_error result, rfl⟩

theorem idaPreGet_spec {never : Fault → Prop} (room : Nat)
    (garbage : Option IdaBitmap) (holds : Holds s.idr σ) (chunks : Chunks s σ) :
    wp (idaPreGet room garbage) (fun _ u => Reached s u σ σ fun _ _ => False) never s := by
  obtain ⟨pos, laid⟩ := holds
  obtain ⟨free, pool⟩ := laid.pool
  unfold idaPreGet
  rw [wp_bind, wp_onIdr]
  refine (idrPreGet_spec room pool).returns fun ready t kept => ?_
  have holds' : Holds t σ := ⟨pos, laid.kept kept.1 kept.2⟩
  have kept : Reached s { s with idr := t } σ σ fun _ _ => False :=
    ⟨holds', chunks.onIdr t, fun y j => by rw [or_false]; rfl⟩
  simp only [wp_ite, wp_pure, wp_bind, wp_get]
  refine ⟨fun _ => ⟨fun _ => ?_, fun _ => kept⟩, fun _ => kept⟩
  cases garbage with
  | none => exact kept
  | some garbage =>
    simp only [kmallocBitmap, wp_bind, wp_get, wp_set, wp_pure]
    -- the new chunk is none of the old ones
    have fresh : ∀ {y}, σ.used y = true →
        update s.chunks s.brk garbage (σ.ptr y) = s.chunks (σ.ptr y) := by
      intro y busy
      exact update_of_ne (chunks.old busy).ne _ _
    have grown : Chunks { s with
        idr := t
        chunks := update s.chunks s.brk garbage
        brk := s.brk + 1 } σ := by
      refine ⟨chunks.present, fun busy => Nat.lt_succ_of_lt (chunks.old busy), chunks.apart,
        Nat.lt_succ_of_lt chunks.kept, chunks.free, fun busy => ?_, fun busy => ?_⟩
      · simpa only [fresh busy] using chunks.busy busy
      · simpa only [fresh busy] using chunks.full busy
    refine (freeBitmap_spec grown (Nat.lt_succ_self _) fun y busy => ?_).returns ?_
    · exact (chunks.old busy).ne
    rintro - u ⟨idr, mem, chunks'⟩
    refine ⟨idr ▸ holds', chunks', fun y j => ?_⟩
    rw [or_false]
    refine and_congr_right fun busy => ?_
    simp only [mem, fresh busy]

/-- Whatever is called, the state stands for some slots and their chunks. -/
theorem idaStep_holds (call : IdaCall) (holds : ∃ σ, Holds s.idr σ ∧ Chunks s σ) :
    ∃ σ, Holds (idaStep call s).2.idr σ ∧ Chunks (idaStep call s).2 σ := by
  have keep : ∀ {α : Type} {p : IdaProg α} {answer : α → IdaAnswer} {fault : Fault → Prop},
      wp p (fun _ t => ∃ σ, Holds t.idr σ ∧ Chunks t σ) fault s →
      ∃ σ, Holds (runIda p answer s).2.idr σ ∧ Chunks (runIda p answer s).2 σ := by
    intro α p answer fault run
    rcases runIda_of_wp answer run with ⟨a, t, next, eq⟩ | ⟨f, -, eq⟩
    · rwa [eq]
    · rwa [eq]
  obtain ⟨σ, holds, chunks⟩ := holds
  cases call with
  | preGet room garbage =>
    have run : wp _ _ (fun _ => False) s := idaPreGet_spec room garbage holds chunks
    exact keep (run.returns fun _ t reached => ⟨σ, reached.holds, reached.chunks⟩)
  | getNewAbove start stack => exact keep (idaGetNewAbove_any start.2 holds chunks)
  | remove id =>
    refine keep ((idaRemove_spec rfl holds chunks).returns ?_)
    rintro - t ⟨-, σ', removed⟩
    exact ⟨σ', removed.holds, removed.chunks⟩

theorem ida_holds (calls : List IdaCall) :
    ∃ σ, Holds (answers idaStep calls idaInit).2.idr σ ∧ Chunks (answers idaStep calls idaInit).2 σ :=
  admits_true.kept (I := fun s => ∃ σ, Holds s.idr σ ∧ Chunks s σ)
    ⟨.empty, holds_init, chunks_init⟩ fun _ call holds _ => idaStep_holds call holds

/-! ### The set -/

/-- What a call may answer, and the set of ids after it. Which error a failing call
reports is left open. -/
def idaSpec (ids : Set Nat) : IdaCall → IdaAnswer → Set Nat → Prop
  | .preGet _ _, .ready _, ids' => ids' = ids
  | .getNewAbove start _, .allocated id, ids' =>
    IsLeast { j | start.val ≤ j ∧ j ∉ ids } id ∧ ids' = insert id ids
  | .getNewAbove _ _, .failed _, ids' => ids' = ids
  | .remove id, .done, ids' => ids' = ids \ {id.toNat}
  | _, _, _ => False

/-- The chunk in the slot `x`, or null. -/
def IdaState.chunk (s : IdaState) (x : Nat) : Nat :=
  if x < 32 ^ s.idr.layers ∧ s.idr.leaf x ≠ 0 then (s.idr.mem (s.idr.leaf x)).ary (x % 32) else 0

/-- The id is allocated. -/
def IdaState.has (s : IdaState) (id : Nat) : Bool :=
  decide (s.chunk (id / 992) ≠ 0) && (s.chunks (s.chunk (id / 992))).bitmap.getLsbD (id % 992)

/-- The search of a chunk from that of `start` on wraps, or it ends in that of `start`
and the one from the next chunk on wraps. -/
def IdaState.Wraps (s : IdaState) (start : Nat) : Prop :=
  s.idr.Wraps (start / 992) ∨ s.idr.allocated (start / 992) = false ∧
    (∀ k < 992, start % 992 ≤ k → s.has (start / 992 * 992 + k) = true) ∧
    s.idr.Wraps (start / 992 + 1)

instance decidableIdaWraps (s : IdaState) (start : Nat) : Decidable (s.Wraps start) :=
  inferInstanceAs (Decidable (_ ∨ _))

/-- The calls that cannot reach another id than they are asked for, and remove only
allocated ids. -/
def IdaState.straight (s : IdaState) : IdaCall → Prop
  | .preGet _ _ => True
  | .getNewAbove start _ => ¬s.Wraps start
  | .remove id => s.has id.toNat = true

instance decidableIdaStraight (s : IdaState) (call : IdaCall) : Decidable (s.straight call) :=
  match call with
  | .preGet _ _ => inferInstanceAs (Decidable True)
  | .getNewAbove _ _ => inferInstanceAs (Decidable (¬_))
  | .remove _ => inferInstanceAs (Decidable (_ = _))

theorem Chunks.chunk_eq (holds : Holds s.idr σ) (x : Nat) : s.chunk x = σ.ptr x := by
  obtain ⟨pos, laid⟩ := holds
  unfold IdaState.chunk
  rcases laid.tree with ⟨top, layers, -, unused⟩ | ⟨h, layers, tree⟩
  · have leaf : s.idr.leaf x = 0 := by
      rw [IdrState.leaf, layers, top]
      rfl
    rw [if_neg (fun both => both.2 leaf), σ.unused_ptr x (unused x)]
  have standing : Standing s.idr h pos σ := ⟨laid.pool, layers, tree⟩
  rw [layers]
  split
  · rename_i both
    obtain ⟨inside, present⟩ := both
    rw [standing.leaf_eq inside] at present ⊢
    have own : x = x % 32 ^ (h + 1) := (Nat.mod_eq_of_lt inside).symm
    rw [← leaf_digit own]
    exact standing.leaf_ptr own present
  · rename_i neither
    refine (σ.unused_ptr x (Bool.eq_false_iff.mpr fun busy => neither ?_)).symm
    have inside := tree.used_lt busy
    rw [standing.leaf_eq inside]
    exact ⟨inside, tree.used busy⟩

theorem Chunks.has_iff (chunks : Chunks s σ) (holds : Holds s.idr σ)
    (id : Nat) : s.has id = true ↔ s.bit σ (id / 992) (id % 992) := by
  unfold IdaState.has IdaState.bit
  rw [Chunks.chunk_eq holds, Bool.and_eq_true, decide_eq_true_eq]
  exact and_congr_left fun _ => ⟨Slots.used_of_ptr, chunks.present⟩

/-- The state stands for the set of ids whose bits are set. -/
def Ids (s : IdaState) (ids : Set Nat) : Prop :=
  ∃ σ, Holds s.idr σ ∧ Chunks s σ ∧ σ.Small ∧ ∀ id, id ∈ ids ↔ s.bit σ (id / 992) (id % 992)

theorem ids_init : Ids idaInit ∅ := by
  refine ⟨.empty, holds_init, chunks_init, fun y busy => ?_, fun id => ?_⟩
  · exact absurd busy Bool.false_ne_true
  · exact iff_of_false (Set.notMem_empty id) fun bit => absurd bit.1 Bool.false_ne_true

/-- A call whose program cannot fault. -/
theorem runIda_total {α : Type} {p : IdaProg α} (answer : α → IdaAnswer)
    {post : α → IdaState → Prop} (run : wp p post (fun _ => False) s) :
    ∃ a t, post a t ∧ runIda p answer s = (answer a, t) :=
  (runIda_of_wp answer run).resolve_right fun fault => fault.elim fun _ both => both.1

theorem Chunks.wraps (chunks : Chunks s σ) (holds : Holds s.idr σ) (straight : ¬s.Wraps start) :
    ¬σ.Wraps s.idr.layers (start / 992) ∧ (σ.full (start / 992) = false →
      (∀ k, start % 992 ≤ k → k < 992 → s.bit σ (start / 992) k) →
      ¬σ.Wraps s.idr.layers (start / 992 + 1)) := by
  unfold IdaState.Wraps at straight
  rw [not_or] at straight
  obtain ⟨first, second⟩ := straight
  rw [holds.wraps_iff] at first
  refine ⟨first, fun room set wraps => second ⟨?_, fun k slot low => ?_, ?_⟩⟩
  · rwa [holds.allocated_eq]
  · rw [chunks.has_iff holds, show (start / 992 * 992 + k) / 992 = start / 992 by omega,
      show (start / 992 * 992 + k) % 992 = k by omega]
    exact set k low slot
  · rwa [holds.wraps_iff]

/-- Pairs of a chunk and a bit are ids. -/
theorem id_eq_iff (id id' : Nat) : id / 992 = id' / 992 ∧ id % 992 = id' % 992 ↔ id = id' := by
  omega

theorem ida_implements : Implements idaStep idaSpec IdaState.straight Ids := by
  rintro s ids call ⟨σ, holds, chunks, small, member⟩ straight
  cases call with
  | preGet room garbage =>
    obtain ⟨a, t, reached, eq⟩ := runIda_total .ready (idaPreGet_spec room garbage holds chunks)
    rw [idaStep, eq]
    refine ⟨ids, rfl, σ, reached.holds, reached.chunks, small, fun id => ?_⟩
    rw [member, reached.bits, or_false]
  | getNewAbove start stack =>
    obtain ⟨first, second⟩ := chunks.wraps holds straight
    have run : wp (idaGetNewAbove start stack) (TakesLeast s σ start) (fun _ => False) s :=
      idaGetNewAbove_first start.2 holds chunks small first second
    obtain ⟨r, t, ⟨σ', small', result⟩, eq⟩ := runIda_total idaAnswer run
    rw [idaStep, eq]
    cases r with
    | ok id =>
      obtain ⟨least, reached⟩ := result
      simp only [← member] at least
      refine ⟨insert id ids, ⟨least, rfl⟩, σ', reached.holds, reached.chunks, small', fun j => ?_⟩
      rw [Set.mem_insert_iff, member, reached.bits, id_eq_iff, or_comm]
    | error e =>
      refine ⟨ids, rfl, σ', result.holds, result.chunks, small', fun j => ?_⟩
      rw [member, result.bits, or_false]
  | remove id =>
    have set := (chunks.has_iff holds _).mp straight
    -- the chunk of an allocated id is in its own slot
    have own : id.toNat / 992 = id.toNat / 992 % 32 ^ s.idr.layers := by
      obtain ⟨h, pos, -, layers, tree⟩ := holds.standing set.1
      rw [layers, Nat.mod_eq_of_lt (tree.used_lt set.1)]
    have run : wp (idaRemove id) (fun _ u => ∃ σ', Removed s u σ σ' (id.toNat / 992)
        (id.toNat % 992)) (fun _ => False) s := by
      refine (idaRemove_spec own holds chunks).mono (fun _ _ post => post.2) ?_
      rintro f ⟨-, unused, -⟩
      rw [set.1] at unused
      cases unused
    obtain ⟨a, t, ⟨σ', removed⟩, eq⟩ := runIda_total (fun _ => .done) run
    rw [idaStep, eq]
    refine ⟨ids \ {id.toNat}, rfl, σ', removed.holds, removed.chunks,
      fun y busy => small y (removed.used y busy), fun j => ?_⟩
    rw [Set.mem_sdiff, Set.mem_singleton_iff, member, removed.bits, id_eq_iff]

/-- The count of every chunk is that of its set bits, and its full-bit is set when
all bits are. -/
def IdaState.Consistent (s : IdaState) : Prop :=
  ∀ x, s.chunk x ≠ 0 →
    (s.chunks (s.chunk x)).nrBusy = tally 992 (s.chunks (s.chunk x)).bitmap.getLsbD ∧
    (s.idr.allocated x = true ↔ ∀ k < 992, (s.chunks (s.chunk x)).bitmap.getLsbD k = true)

theorem Chunks.consistent (chunks : Chunks s σ) (holds : Holds s.idr σ) : s.Consistent := by
  intro x some
  rw [Chunks.chunk_eq holds] at some ⊢
  have busy := Slots.used_of_ptr some
  rw [holds.allocated_eq]
  exact ⟨chunks.busy busy, chunks.full busy⟩

/-- The counts and full-bits are right after any calls. -/
theorem ida_consistent (calls : List IdaCall) : (answers idaStep calls idaInit).2.Consistent := by
  obtain ⟨_, holds, chunks⟩ := ida_holds calls
  exact chunks.consistent holds

/-- In every run of calls whose searches do not wrap and that remove allocated ids only,
the answers are those of a set of ids, the bits in the state reached are those of
that set, and the counts and full-bits are right. -/
theorem ida_refines_set (calls : List IdaCall)
    (straight : Admits idaStep IdaState.straight calls idaInit) :
    ∃ ids, SpecRun idaSpec ∅ calls (answers idaStep calls idaInit).1 ids ∧
      (∀ id, id ∈ ids ↔ (answers idaStep calls idaInit).2.has id = true) ∧
      (answers idaStep calls idaInit).2.Consistent := by
  obtain ⟨ids, run, σ, holds, chunks, -, member⟩ := ida_implements.run ids_init straight
  refine ⟨ids, run, fun id => ?_, chunks.consistent holds⟩
  rw [member, chunks.has_iff holds]

/-- A run with an id that is removed and given out again. -/
theorem ida_refines_set_reuse :
    Admits idaStep IdaState.straight
      [.preGet 14 (some ⟨5, 5⟩), .getNewAbove 0 fun _ => 0, .getNewAbove 3 fun _ => 0, .remove 0,
        .getNewAbove 0 fun _ => 0] idaInit ∧
    ∃ ids, SpecRun idaSpec ∅
      [.preGet 14 (some ⟨5, 5⟩), .getNewAbove 0 fun _ => 0, .getNewAbove 3 fun _ => 0, .remove 0,
        .getNewAbove 0 fun _ => 0] [.ready true, .allocated 0, .allocated 3, .done, .allocated 0] ids := by
  refine (and_iff_left_of_imp fun straight => ?_).mpr (by decide +kernel)
  obtain ⟨ids, run, -⟩ := ida_refines_set _ straight
  refine ⟨ids, ?_⟩
  convert run
  decide +kernel

/-! ### A search that wraps -/

/-- A round of the search in a layer with room in the slot of the id. -/
theorem subAllocLoop_here {s : IdrState} {id l p : Nat}
    {post : SubAlloc → IdrState → Prop} (present : p ≠ 0) (inside : n < 32)
    (digit : (id >>> (idrBits * l)) &&& idrMask = n)
    (room : nextZero (s.mem p).bitmap.getLsbD 32 n = n) :
    wp (subAllocLoop (rounds + 1) id l p pa) post fault s ↔
      wp (goDown (subAllocLoop rounds) id l p n pa) post fault s := by
  simp only [subAllocLoop, wp_bind, wp_load present, digit, show idrSize = 32 from rfl, room,
    inside.ne, if_false, if_true]

theorem goDown_here {s : IdrState} {again : Nat → Nat → Nat → (Nat → Nat) → Prog SubAlloc}
    {id l p m : Nat} {post : SubAlloc → IdrState → Prop}
    (present : p ≠ 0) (small : id < maxIdBit) (filled : (s.mem p).ary m ≠ 0) :
    wp (goDown again id (l + 1) p m pa) post fault s ↔
      wp (again id l ((s.mem p).ary m) (update pa (l + 1) p)) post fault s := by
  have slot : wp (fillSlot p (l + 1) m) (fun r t => r = true ∧ t = s) (fun _ => False) s := by
    rw [fillSlot, wp_bind, wp_load present, if_neg filled, wp_pure]
    exact ⟨rfl, rfl⟩
  obtain ⟨r, t, run, rfl, rfl⟩ := slot.total
  rw [goDown, if_neg (not_le.mpr small), if_neg (Nat.succ_ne_zero l), wp_bind, wp_of_eq run, if_pos rfl,
    wp_bind, wp_load present, Nat.add_sub_cancel]

/-- A tree of two layers with room in its last slot, which has the chunk 1, and no
layers to spare. -/
structure Filling (s : IdrState) (leaf : Nat) : Prop where
  top : s.top ≠ 0
  layers : s.layers = 2
  link : (s.mem s.top).ary 31 = leaf
  present : leaf ≠ 0
  room : nextZero (s.mem s.top).bitmap.getLsbD 32 31 = 31
  roomBelow : nextZero (s.mem leaf).bitmap.getLsbD 32 31 = 31
  chunk : (s.mem leaf).ary 31 = 1
  spent : s.idFreeCnt = 0

/-- The last slot is found and nothing changes. -/
theorem Filling.search {s : IdrState} (filling : Filling s leaf) :
    wp (idrGetEmptySlot 1023 pa) (fun r t => t = s ∧ ∃ pa', r = .slot 1023 pa' ∧ pa' 0 = leaf)
      (fun _ => False) s := by
  have same : { s with top := s.top, layers := 2 } = s := by rw [← filling.layers]
  have fits : ¬(2 < maxLevel - 1 ∧ 1 <<< (2 * idrBits) ≤ 1023 ∧ 1023 < maxIdBit) := by decide
  have small : 1023 < maxIdBit := by decide
  have rounds : subAllocRounds = 62 + 1 + 1 := rfl
  unfold idrGetEmptySlot
  simp only [emptySlotLoop, firstLayer, wp_bind, wp_get, wp_ite, wp_pure]
  refine ⟨fun none => absurd none filling.top, fun _ => ?_⟩
  rw [filling.layers, show maxLevel = 6 + 1 from rfl, growLoop, if_neg fits]
  simp only [wp_bind, wp_pure, wp_modify, same, subAlloc, wp_get]
  rw [rounds, subAllocLoop_here filling.top (by decide) (by decide) filling.room]
  rw [goDown_here filling.top small (by rw [filling.link]; exact filling.present), filling.link,
    subAllocLoop_here filling.present (by decide) (by decide) filling.roomBelow, goDown,
    if_neg (not_le.mpr small), if_pos rfl, wp_pure, wp_pure]
  exact ⟨rfl, _, rfl, update_self ..⟩

def lastChunk : IdaCall := .getNewAbove 1014816 fun _ => 0

theorem nextZero_low (slot : k < 992) :
    nextZero (BitVec.ofNat 992 (2 ^ k - 1)).getLsbD 992 0 = k := by
  obtain ⟨-, high, before, stop⟩ :=
    nextZero_spec (p := (BitVec.ofNat 992 (2 ^ k - 1)).getLsbD) (Nat.zero_le 992)
  have bit : ∀ j, j < 992 → (BitVec.ofNat 992 (2 ^ k - 1)).getLsbD j = decide (j < k) := by
    intro j inside
    rw [BitVec.getLsbD_ofNat, Nat.testBit_two_pow_sub_one]
    simp [inside]
  generalize nextZero (BitVec.ofNat 992 (2 ^ k - 1)).getLsbD 992 0 = m at *
  rcases lt_trichotomy m k with less | rfl | more
  · have := stop (by omega)
    rw [bit m (by omega)] at this
    simp at this
    omega
  · rfl
  · have := before k (Nat.zero_le k) more
    rw [bit k slot] at this
    simp at this

/-- A chunk with its first `k` bits set. -/
def IdaBitmap.low (k : Nat) : IdaBitmap := ⟨k, BitVec.ofNat 992 (2 ^ k - 1)⟩

theorem IdaBitmap.low_succ (slot : k < 992) :
    (⟨(low k).nrBusy + 1, (low k).bitmap ||| BitVec.twoPow 992 k⟩ : IdaBitmap) = low (k + 1) := by
  unfold low
  congr 1
  apply BitVec.eq_of_getLsbD_eq
  intro j inside
  rw [getLsbD_take _ slot, BitVec.getLsbD_ofNat, BitVec.getLsbD_ofNat, Nat.testBit_two_pow_sub_one,
    Nat.testBit_two_pow_sub_one]
  simp [inside, Nat.le_iff_lt_or_eq, Bool.decide_or]

theorem Filling.step (filling : Filling s.idr leaf)
    (spent : s.freeBitmap = 0) (slot : k < 991) (filled : s.chunks 1 = .low k) :
    (idaStep lastChunk s).2 = { s with chunks := update s.chunks 1 (.low (k + 1)) } := by
  have run : wp (idaGetNewAbove 1014816 fun _ => 0) (fun _ u =>
      u = { s with chunks := update s.chunks 1 (.low (k + 1)) }) (fun _ => False) s := by
    have chunk : 1014816 / idaBitmapBits = 1023 := by decide
    have offset : 1014816 % idaBitmapBits = 0 := by decide
    rw [idaGetNewAbove, chunk, offset, show idaRounds = 2 + 1 from rfl, idaLoop, wp_bind, wp_onIdr]
    refine filling.search.returns ?_
    rintro r t ⟨rfl, pa, rfl, first⟩
    have big : ¬maxIdBit ≤ 1023 * idaBitmapBits % 2 ^ 32 := by decide
    have existing : wp (chunkOf 1023 pa) (fun b u => b = 1 ∧ u = s) (fun _ => False) s := by
      have own : (s.idr.mem leaf).ary (1023 &&& idrMask) = 1 := filling.chunk
      rw [chunkOf, wp_bind, wp_onIdr, first, wp_load filling.present, own, if_neg Nat.one_ne_zero,
        wp_pure]
      exact ⟨rfl, rfl⟩
    obtain ⟨b, u, run, rfl, rfl⟩ := existing.total
    have busy : ¬(IdaBitmap.low k).nrBusy + 1 = (idaBitmapBits : Int) := by
      have size : (idaBitmapBits : Int) = 992 := rfl
      rw [IdaBitmap.low, size]
      dsimp only
      omega
    have free : ¬(u.idr.idFreeCnt ≠ 0 ∨ u.freeBitmap ≠ 0) := by
      rw [filling.spent, spent]
      decide
    simp only [wp_ite, wp_pure]
    refine ⟨fun no => absurd no big, fun _ => ?_⟩
    rw [wp_bind, wp_of_eq run, if_neg Nat.one_ne_zero, wp_bind, loadChunk, if_neg Nat.one_ne_zero,
      wp_bind, wp_get, wp_pure, filled, if_pos trivial]
    have bit : nextZero (IdaBitmap.low k).bitmap.getLsbD idaBitmapBits 0 = k := nextZero_low (by omega)
    have inside : ¬k = idaBitmapBits := by
      rw [show idaBitmapBits = 992 from rfl]
      omega
    have range : ¬maxIdBit ≤ (1023 * idaBitmapBits + k) % 2 ^ 32 := by
      rw [show maxIdBit = 2 ^ 31 from rfl, show idaBitmapBits = 992 from rfl]
      omega
    rw [bit, if_neg inside, if_neg range, wp_bind, takeBit, wp_bind, loadChunk, if_neg Nat.one_ne_zero,
      wp_bind, wp_get, wp_pure, filled, IdaBitmap.low_succ (by omega), wp_bind, storeChunk,
      if_neg Nat.one_ne_zero, wp_modify, wp_bind, wp_ifThen]
    refine ⟨fun full => absurd full busy, fun _ => ?_⟩
    rw [wp_bind, wp_get, wp_ifThen]
    exact ⟨fun some => absurd some free, fun _ => rfl⟩
  obtain ⟨a, t, rfl, eq⟩ := runIda_total idaAnswer run
  have : idaStep lastChunk s = runIda (idaGetNewAbove 1014816 fun _ => 0) idaAnswer s := rfl
  rw [this, eq]

/-- The ida with the first `k` ids of the chunk 1. -/
def IdaState.fill (s : IdaState) (k : Nat) : IdaState :=
  { s with chunks := Function.update s.chunks 1 (.low k) }

theorem Filling.fill_step (filling : Filling s.idr leaf)
    (spent : s.freeBitmap = 0) (slot : k < 991) :
    (idaStep lastChunk (s.fill k)).2 = s.fill (k + 1) := by
  have filled : (s.fill k).chunks 1 = .low k := by simp [IdaState.fill]
  rw [Filling.step (s := s.fill k) filling spent slot filled]
  simp only [IdaState.fill, update_idem]

theorem Filling.fill_run (filling : Filling s.idr leaf)
    (spent : s.freeBitmap = 0) (slots : k + n ≤ 991) :
    (answers idaStep (replicate n lastChunk) (s.fill k)).2 = s.fill (k + n) := by
  induction n generalizing k with
  | zero => rfl
  | succ n ih =>
    rw [replicate_succ, answers, filling.fill_step spent (by omega), ih (by omega),
      show k + 1 + n = k + (n + 1) by omega]

/-- The ida after the last chunk of a tree of two layers got its first ids and the
free layers are used up. -/
def spentState : IdaState :=
  (answers idaStep (.preGet 14 (some ⟨0, 0⟩) :: replicate 13 lastChunk) idaInit).2

theorem filling_spentState :
    Filling spentState.idr ((spentState.idr.mem spentState.idr.top).ary 31) := by
  constructor <;> decide +kernel

theorem spentState_eq : spentState = spentState.fill 13 := by
  have chunk : spentState.chunks 1 = .low 13 := by decide +kernel
  rw [IdaState.fill, ← chunk, update_eq_self]

/-- The calls that fill the last chunk and ask for one more id after it. -/
def wrappingCalls : List IdaCall :=
  .preGet 14 (some ⟨0, 0⟩) :: replicate 13 lastChunk ++ (replicate 978 lastChunk ++
    [lastChunk, .preGet 14 (some ⟨0, 0⟩), lastChunk])

theorem wrappingCalls_state : (answers idaStep wrappingCalls idaInit).2 =
    (answers idaStep [lastChunk, .preGet 14 (some ⟨0, 0⟩), lastChunk] (spentState.fill 991)).2 := by
  have spent : spentState.freeBitmap = 0 := by decide +kernel
  have filled : (answers idaStep (replicate 978 lastChunk) spentState).2 =
      spentState.fill 991 := by
    have run := filling_spentState.fill_run (n := 978) (k := 13) spent (by decide)
    rwa [← spentState_eq] at run
  rw [wrappingCalls, answers_append, ← spentState, answers_append, filled]

/-- Ids from a starting id on are all a run adds to the set. -/
theorem specRun_above {ids ids' : Set Nat} {calls : List IdaCall} {as : List IdaAnswer}
    (run : SpecRun idaSpec ids calls as ids')
    (high : ∀ call ∈ calls, (∃ room garbage, call = .preGet room garbage) ∨
      ∃ start stack, call = .getNewAbove start stack ∧ n ≤ start.val)
    (above : ∀ id ∈ ids, n ≤ id) : ∀ id ∈ ids', n ≤ id := by
  induction run with
  | nil => exact above
  | @cons ids next _ call a calls as step _ ih =>
    refine ih (fun call member => high call (mem_cons_of_mem _ member)) ?_
    rcases high _ mem_cons_self with ⟨room, garbage, rfl⟩ | ⟨start, stack, rfl, after⟩
    · cases a with
      | ready enough =>
        obtain rfl : next = ids := step
        exact above
      | allocated _ | failed _ | done | fault _ => exact step.elim
    cases a with
    | allocated id =>
      obtain ⟨least, rfl⟩ := step
      rintro j (rfl | old)
      · exact after.trans least.1.1
      · exact above j old
    | failed e =>
      obtain rfl : next = ids := step
      exact above
    | ready _ | done | fault _ => exact step.elim

/-- A search that ends in the last slot of the tree goes on at the slot 0: the id
1015808 is returned but the bit of the id 0 is set, so that 0 is not given out. -/
theorem ida_not_refines_set : ¬∃ ids, SpecRun idaSpec ∅ (wrappingCalls ++ [.getNewAbove 0 fun _ => 0])
    (answers idaStep (wrappingCalls ++ [.getNewAbove 0 fun _ => 0]) idaInit).1 ids := by
  rintro ⟨ids, run⟩
  obtain ⟨as, a, before, eq, earlier, last⟩ := run.last
  have high := specRun_above (n := 1) earlier ?_ fun id none => absurd none (Set.notMem_empty id)
  · -- the answer to the last call
    have answer : a = .allocated 1 := by
      have step : (idaStep (.getNewAbove 0 fun _ => 0) (answers idaStep
          [lastChunk, .preGet 14 (some ⟨0, 0⟩), lastChunk] (spentState.fill 991)).2).1 =
          .allocated 1 := by decide +kernel
      rw [answers_last, wrappingCalls_state, step] at eq
      exact (List.singleton_inj.mp (append_inj' eq rfl).2).symm
    subst answer
    obtain ⟨least, -⟩ := last
    have zero : 0 ∈ before := by
      by_contra out
      have := least.2 ⟨Nat.zero_le 0, out⟩
      omega
    have := high 0 zero
    omega
  · intro call member
    simp only [wrappingCalls, mem_append, mem_cons, mem_replicate, not_mem_nil,
      or_false] at member
    rcases member with (rfl | ⟨-, rfl⟩) | ⟨-, rfl⟩ | rfl | rfl | rfl
    · exact .inl ⟨_, _, rfl⟩
    · exact .inr ⟨_, _, rfl, by decide⟩
    · exact .inr ⟨_, _, rfl, by decide⟩
    · exact .inr ⟨_, _, rfl, by decide⟩
    · exact .inl ⟨_, _, rfl⟩
    · exact .inr ⟨_, _, rfl, by decide⟩

end AndroidKernel.Idr
