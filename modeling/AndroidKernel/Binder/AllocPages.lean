import AndroidKernel.Binder.AllocLayout

/-!
Which pages of the area are backed.

A page is needed when it holds a byte of a header or of the requested data of an
allocated buffer; both together are the first `used` bytes of a buffer.
`PagesExact` says that the backed pages are exactly the needed ones. The three
ways the code changes the set (data of a new buffer, data of a freed buffer,
header of a merged buffer) are the lemmas `needed_take`, `needed_release` and
`needed_merge`, on a list cut at the buffer concerned.
-/

namespace AndroidKernel.Binder

open Function List

variable {s e i buffer x : Nat} {pages : Nat → Bool} {hdr : Nat → BinderBuffer} {l : List Nat}

/-! ### The two page loops -/

/-- `pages` with the indices of `[s, e)` set to `v`. -/
def setRange (s e : Nat) (v : Bool) (pages : Nat → Bool) : Nat → Bool :=
  fun i => if s ≤ i ∧ i < e then v else pages i

theorem setRange_empty (v : Bool) (pages : Nat → Bool) (empty : e ≤ s) :
    setRange s e v pages = pages := by
  funext i
  exact if_neg (by omega)

theorem setRange_succ (s n : Nat) (v : Bool) (pages : Nat → Bool) :
    update (setRange s (s + n) v pages) (s + n) v = setRange s (s + (n + 1)) v pages := by
  funext i
  by_cases last : i = s + n
  · subst last
    simp [setRange]
  · rw [update_of_ne last]
    have : (s ≤ i ∧ i < s + n) ↔ (s ≤ i ∧ i < s + (n + 1)) := by omega
    simp [setRange, this]

theorem setRange_true_iff :
    setRange s e true pages i = true ↔ (s ≤ i ∧ i < e) ∨ pages i = true := by
  unfold setRange
  split <;> simp [*]

theorem setRange_false_iff :
    setRange s e false pages i = true ↔ ¬(s ≤ i ∧ i < e) ∧ pages i = true := by
  unfold setRange
  split <;> simp_all

theorem pageIndex (buffer s k : Nat) :
    (buffer + s * pageSize + k * pageSize - buffer) / pageSize = s + k := by
  unfold pageSize
  omega

theorem freePages_eq (buffer s : Nat) {n : Nat}
    (present : ∀ i, s ≤ i → i < s + n → pages i = true) :
    freePages buffer (buffer + s * pageSize) n pages = .ok (setRange s (s + n) false pages) := by
  induction n generalizing pages with
  | zero => simp [freePages, setRange_empty]
  | succ n ih =>
    have last : pages (s + n) = true := present _ (by omega) (by omega)
    have rest : ∀ i, s ≤ i → i < s + n → update pages (s + n) false i = true := by
      intro i low high
      rw [update_of_ne (by omega)]
      exact present i low (by omega)
    simp only [freePages, pageIndex, last, if_true, ih rest]
    congr 1
    funext i
    by_cases same : i = s + n
    · simp [setRange, same]
    · have : (s ≤ i ∧ i < s + n) ↔ (s ≤ i ∧ i < s + (n + 1)) := by omega
      simp [setRange, this, update_of_ne same]

variable (a : BinderAlloc) (env : PageEnv) (vma : Bool)

/-- The allocation loop backs the whole range or, after a failure at any page,
leaves the pages as they were. -/
theorem allocPages_eq (buffer s n k : Nat) (pages : Nat → Bool)
    (absent : ∀ i, s ≤ i → i < s + (k + n) → pages i = false) :
    allocPages env buffer (buffer + s * pageSize) n k (setRange s (s + k) true pages) =
        .ok (true, setRange s (s + (k + n)) true pages) ∨
      allocPages env buffer (buffer + s * pageSize) n k (setRange s (s + k) true pages) =
        .ok (false, pages) := by
  -- Freeing what has been set gives the pages at the start back.
  have undo : ∀ m, m ≤ k + n → setRange s (s + m) false (setRange s (s + m) true pages) = pages := by
    intro m le
    funext i
    by_cases within : s ≤ i ∧ i < s + m
    · simp [setRange, within, absent i within.1 (by omega)]
    · simp [setRange, within]
  have backed : ∀ m i, s ≤ i → i < s + m → setRange s (s + m) true pages i = true :=
    fun m i low high => if_pos ⟨low, high⟩
  induction n generalizing k with
  | zero => exact .inl rfl
  | succ n ih =>
    have here : setRange s (s + k) true pages (s + k) = false := by
      rw [setRange, if_neg (by omega)]
      exact absent _ (by omega) (by omega)
    simp only [allocPages, pageIndex, here, Bool.false_eq_true, if_false]
    cases env.fails (s + k) with
    | none =>
      simp only [setRange_succ]
      have shift : k + (n + 1) = k + 1 + n := by omega
      rw [shift] at absent undo ⊢
      exact ih (k + 1) absent undo
    | some failure =>
      right
      cases failure with
      | allocPage =>
        simp [freePages_eq buffer s (backed k), undo k (by omega), pure, Except.pure,
          bind, Except.bind]
      | mapKernel | vmInsertPage =>
        simp [setRange_succ, freePages_eq buffer s (backed (k + 1)),
          undo (k + 1) (by omega), pure, Except.pure, bind, Except.bind]

/-- `binder_update_page_range` when it frees: all pages of the range are there
before and none after. -/
theorem updatePageRange_free (present : ∀ i, s ≤ i → i < e → a.pages i = true) :
    ∃ done, binderUpdatePageRange a env false (a.buffer + s * pageSize) (a.buffer + e * pageSize)
      vma = .ok (done, { a with pages := setRange s e false a.pages }) := by
  unfold binderUpdatePageRange
  by_cases empty : e ≤ s
  · refine ⟨true, ?_⟩
    rw [if_pos (by unfold pageSize; omega), setRange_empty false a.pages empty]
  refine ⟨false, ?_⟩
  have count : (a.buffer + e * pageSize - (a.buffer + s * pageSize)) / pageSize = e - s := by
    unfold pageSize; omega
  have stop : s + (e - s) = e := by omega
  rw [if_neg (by unfold pageSize; omega), count,
    freePages_eq a.buffer s (fun i low high => present i low (by omega)), stop]
  rfl

/-- `binder_update_page_range` when it allocates: success backs the range, and
every failure leaves the pages as they were. -/
theorem updatePageRange_alloc (absent : ∀ i, s ≤ i → i < e → a.pages i = false) :
    binderUpdatePageRange a env true (a.buffer + s * pageSize) (a.buffer + e * pageSize) vma =
        .ok (true, { a with pages := setRange s e true a.pages }) ∨
      binderUpdatePageRange a env true (a.buffer + s * pageSize) (a.buffer + e * pageSize) vma =
        .ok (false, a) := by
  unfold binderUpdatePageRange
  by_cases empty : e ≤ s
  · left
    rw [if_pos (by unfold pageSize; omega), setRange_empty true a.pages empty]
  rw [if_neg (by unfold pageSize; omega)]
  have count : (a.buffer + e * pageSize - (a.buffer + s * pageSize) + (pageSize - 1)) / pageSize =
      e - s := by
    unfold pageSize; omega
  have stop : s + (0 + (e - s)) = e := by omega
  have loop := allocPages_eq env a.buffer s (e - s) 0 a.pages
    fun i low high => absent i low (by omega)
  rw [Nat.add_zero, setRange_empty true a.pages (Nat.le_refl s), stop] at loop
  simp only [Bool.not_true, Bool.false_eq_true, if_false, count]
  split
  · exact .inr rfl
  · rcases loop with done | failed
    · left; rw [done]; rfl
    · right; rw [failed]; rfl

/-! ### Needed pages -/

/-- The bytes of a buffer that must be backed: its header and, while it is
allocated, the data asked for. -/
def used (h : BinderBuffer) : Nat :=
  headerSize + if h.free then 0 else requestSize h.dataSize h.offsetsSize

/-- Page `i` of the area holds one of the `n` bytes from `b` on. -/
def Meets (buffer b n i : Nat) : Prop :=
  b / pageSize ≤ buffer / pageSize + i ∧ buffer / pageSize + i ≤ (b + n - 1) / pageSize

def Needed (buffer : Nat) (hdr : Nat → BinderBuffer) (l : List Nat) (i : Nat) : Prop :=
  ∃ b ∈ l, Meets buffer b (used (hdr b)) i

/-- The backed pages are exactly the needed ones. -/
def PagesExact (a : BinderAlloc) : Prop :=
  ∀ i, a.pages i = true ↔ Needed a.buffer a.hdr a.buffers i

theorem needed_append {m : List Nat} :
    Needed buffer hdr (l ++ m) i ↔ Needed buffer hdr l i ∨ Needed buffer hdr m i := by
  simp only [Needed, mem_append, or_and_right, exists_or]

theorem needed_cons {b : Nat} :
    Needed buffer hdr (b :: l) i ↔ Meets buffer b (used (hdr b)) i ∨ Needed buffer hdr l i := by
  simp only [Needed, mem_cons, exists_eq_or_imp]

theorem needed_congr {hdr' : Nat → BinderBuffer} (same : ∀ b ∈ l, used (hdr' b) = used (hdr b)) :
    Needed buffer hdr' l i ↔ Needed buffer hdr l i := by
  constructor <;> rintro ⟨b, mem, meets⟩ <;> refine ⟨b, mem, ?_⟩
  · rwa [same b mem] at meets
  · rwa [same b mem]

section Cut

variable {top b : Nat} {pre post : List Nat}

theorem used_pos (h : BinderBuffer) : headerSize ≤ used h := by
  unfold used; omega

/-- What lies before `b` meets pages up to the one of the byte before `b`. -/
theorem Needed.before (bound : ∀ x ∈ pre, x + used (hdr x) ≤ b)
    (needed : Needed buffer hdr pre i) : buffer / pageSize + i ≤ (b - 1) / pageSize := by
  obtain ⟨x, mem, -, high⟩ := needed
  have := bound x mem
  have := used_pos (hdr x)
  unfold pageSize headerSize at *
  omega

/-- What lies after `b` meets pages from the one of the next header on. -/
theorem Needed.after (layout : Layout top post) (needed : Needed buffer hdr post i) :
    post.headD top / pageSize ≤ buffer / pageSize + i := by
  obtain ⟨y, mem, low, -⟩ := needed
  exact Nat.le_trans (Nat.div_le_div_right (layout.head_le mem)) low

/-- The page of the next header is needed. -/
theorem needed_head (top : Nat) (nonempty : post ≠ [])
    (here : buffer / pageSize + i = post.headD top / pageSize) : Needed buffer hdr post i := by
  cases post with
  | nil => exact absurd rfl nonempty
  | cons y post =>
    have := used_pos (hdr y)
    refine ⟨y, mem_cons_self, ?_, ?_⟩
    · exact Nat.le_of_eq here.symm
    rw [here]
    refine Nat.div_le_div_right ?_
    unfold headerSize at this
    simp only [headD_cons]
    omega

/-- The index of the first page that starts in the data of `b`. -/
def dataPage (buffer b : Nat) : Nat := (pageAlign (dataOf b) - buffer) / pageSize

/-- The index of the page of address `x`. -/
def pageOf (buffer x : Nat) : Nat := (pageFloor x - buffer) / pageSize

section

variable (aligned : buffer % pageSize = 0)

include aligned

theorem pageAlign_index (le : buffer ≤ x) :
    pageAlign x = buffer + (pageAlign x - buffer) / pageSize * pageSize := by
  unfold pageAlign pageSize at *
  omega

theorem pageFloor_index (le : buffer ≤ x) :
    pageFloor x = buffer + (pageFloor x - buffer) / pageSize * pageSize := by
  unfold pageFloor pageSize at *
  omega

theorem dataPage_index (le : buffer ≤ b) :
    pageAlign (dataOf b) = buffer + dataPage buffer b * pageSize := by
  unfold dataPage
  exact pageAlign_index aligned (Nat.le_trans le (Nat.le_add_right _ _))

theorem pageOf_index (le : buffer ≤ x) : pageFloor x = buffer + pageOf buffer x * pageSize := by
  unfold pageOf
  exact pageFloor_index aligned le

/-- The index behind the pages that `binder_alloc_buf` allocates for a buffer
that takes `taken` bytes of the data between `b` and `next`. -/
def takeStop (buffer b taken next : Nat) : Nat :=
  (min (pageAlign (dataOf b + taken)) (pageFloor next) - buffer) / pageSize

theorem takeStop_index (le : buffer ≤ b) (taken : Nat) {next : Nat} (behind : buffer ≤ next) :
    min (pageAlign (dataOf b + taken)) (pageFloor next) =
      buffer + takeStop buffer b taken next * pageSize := by
  have first := pageAlign_index aligned (x := dataOf b + taken) (by unfold dataOf; omega)
  have second := pageFloor_index aligned behind
  unfold takeStop
  rcases Nat.le_total (pageAlign (dataOf b + taken)) (pageFloor next) with le | le
  · simp only [Nat.min_eq_left le]
    exact first
  · simp only [Nat.min_eq_right le]
    exact second

/-- The pages `binder_alloc_buf` allocates lie inside the free data of `b`. -/
theorem take_absent (le : buffer ≤ b)
    (bound : ∀ x ∈ pre, x + used (hdr x) ≤ b) (layout : Layout top post) {taken : Nat}
    (low : dataPage buffer b ≤ i) (high : i < takeStop buffer b taken (post.headD top)) :
    ¬(Needed buffer hdr pre i ∨ Meets buffer b headerSize i ∨ Needed buffer hdr post i) := by
  simp only [dataPage, takeStop, pageAlign, pageFloor, dataOf] at low high
  rintro (before | ⟨-, header⟩ | after)
  · have := before.before bound
    unfold pageSize headerSize at *
    omega
  · unfold pageSize headerSize at *
    omega
  · have := after.after layout
    unfold pageSize headerSize at *
    omega

end

/-- With the allocated pages the needed ones reach to the end of what is taken;
the page of the next header, where the range stops, is there already. -/
theorem needed_take (hdr : Nat → BinderBuffer) (pre : List Nat) (aligned : buffer % pageSize = 0) (topAligned : top % pageSize = 0)
    (le : buffer ≤ b) (layout : Layout top post) {taken : Nat}
    (fits : dataOf b + taken ≤ post.headD top) :
    ((dataPage buffer b ≤ i ∧ i < takeStop buffer b taken (post.headD top)) ∨
        Needed buffer hdr pre i ∨ Meets buffer b headerSize i ∨ Needed buffer hdr post i) ↔
      Needed buffer hdr pre i ∨ Meets buffer b (headerSize + taken) i ∨
        Needed buffer hdr post i := by
  constructor
  · rintro (⟨low, high⟩ | before | ⟨low, high⟩ | after)
    · refine .inr (.inl ?_)
      simp only [dataPage, takeStop, pageAlign, pageFloor, dataOf] at low high
      unfold Meets pageSize headerSize at *
      omega
    · exact .inl before
    · refine .inr (.inl ⟨low, Nat.le_trans high (Nat.div_le_div_right ?_)⟩)
      omega
    · exact .inr (.inr after)
  · rintro (before | ⟨low, high⟩ | after)
    · exact .inr (.inl before)
    · by_cases header : buffer / pageSize + i ≤ (b + headerSize - 1) / pageSize
      · exact .inr (.inr (.inl ⟨low, header⟩))
      by_cases shared : buffer / pageSize + i = post.headD top / pageSize
      · refine .inr (.inr (.inr (needed_head top ?_ shared)))
        rintro rfl
        unfold dataOf at fits
        simp only [headD_nil] at shared fits
        unfold pageSize headerSize at *
        omega
      · left
        unfold dataPage takeStop pageAlign pageFloor dataOf at *
        unfold pageSize headerSize at *
        omega
    · exact .inr (.inr (.inr after))

/-- The slack of an allocated buffer is smaller than a page, so every page that
`binder_free_buf` frees holds requested data. -/
theorem release_present (aligned : buffer % pageSize = 0) (le : buffer ≤ b) (req : Nat) {next : Nat}
    (slack : next ≤ dataOf b + req + 44) (low : dataPage buffer b ≤ i)
    (high : i < pageOf buffer next) : Meets buffer b (headerSize + req) i := by
  unfold dataPage pageOf pageAlign pageFloor dataOf at *
  unfold Meets pageSize headerSize at *
  omega

/-- After `binder_free_buf` has freed the data pages of `b`, only its header is
needed. -/
theorem needed_release (aligned : buffer % pageSize = 0) (topAligned : top % pageSize = 0)
    (le : buffer ≤ b) (bound : ∀ x ∈ pre, x + used (hdr x) ≤ b) (layout : Layout top post)
    {req : Nat} (fits : dataOf b + req ≤ post.headD top) :
    (¬(dataPage buffer b ≤ i ∧ i < pageOf buffer (post.headD top)) ∧
        (Needed buffer hdr pre i ∨ Meets buffer b (headerSize + req) i ∨
          Needed buffer hdr post i)) ↔
      Needed buffer hdr pre i ∨ Meets buffer b headerSize i ∨ Needed buffer hdr post i := by
  constructor
  · rintro ⟨outside, before | ⟨low, high⟩ | after⟩
    · exact .inl before
    · by_cases header : buffer / pageSize + i ≤ (b + headerSize - 1) / pageSize
      · exact .inr (.inl ⟨low, header⟩)
      refine .inr (.inr (needed_head top ?_ ?_))
      · rintro rfl
        unfold dataPage pageOf pageAlign pageFloor dataOf at *
        simp only [headD_nil] at *
        unfold pageSize headerSize at *
        omega
      · unfold dataPage pageOf pageAlign pageFloor dataOf at *
        unfold pageSize headerSize at *
        omega
    · exact .inr (.inr after)
  · intro needed
    refine ⟨?_, ?_⟩
    · rintro ⟨low, high⟩
      unfold dataPage pageOf pageAlign pageFloor dataOf at *
      rcases needed with before | ⟨-, header⟩ | after
      · have := before.before bound
        unfold pageSize headerSize at *
        omega
      · unfold pageSize headerSize at *
        omega
      · have := after.after layout
        unfold pageSize headerSize at *
        omega
    · rcases needed with before | ⟨low, high⟩ | after
      · exact .inl before
      · refine .inr (.inl ⟨low, Nat.le_trans high (Nat.div_le_div_right ?_)⟩)
        omega
      · exact .inr (.inr after)

end Cut

/-! ### Deleting a header -/

section Merge

variable {top prev b : Nat} {pre post : List Nat}

theorem freePageStart_iff (prev b : Nat) (next : Option Nat) :
    freePageStart prev b next = true ↔
      (prev + 39) / 4096 ≠ b / 4096 ∧
        ∀ n ∈ next, ¬(n / 4096 = (b + 39) / 4096 ∧ n / 4096 = b / 4096) := by
  cases next <;> simp [freePageStart] <;>
    simp only [bufferEndPage, bufferStartPage, pageFloor, pageSize, headerSize] <;> omega

theorem freePageEnd_iff (prev b : Nat) (next : Option Nat) :
    freePageEnd prev b next = true ↔
      ¬((prev + 39) / 4096 = b / 4096 ∧ (prev + 39) / 4096 = (b + 39) / 4096) ∧
        ∀ n ∈ next, n / 4096 ≠ (b + 39) / 4096 := by
  cases next <;> simp [freePageEnd] <;>
    simp only [bufferEndPage, bufferStartPage, pageFloor, pageSize, headerSize] <;> omega

/-- The index of the first page `binder_delete_free_buffer` frees. -/
def mergeStart (buffer b : Nat) (first : Bool) : Nat :=
  ((if first then bufferStartPage b else bufferEndPage b) - buffer) / pageSize

/-- The index behind the last page `binder_delete_free_buffer` frees. -/
def mergeStop (buffer b : Nat) (last : Bool) : Nat :=
  ((if last then bufferEndPage b else bufferStartPage b) + pageSize - buffer) / pageSize

section

variable (aligned : buffer % pageSize = 0)
include aligned

theorem mergeStart_index (le : buffer ≤ b) (first : Bool) :
    (if first then bufferStartPage b else bufferEndPage b) =
      buffer + mergeStart buffer b first * pageSize := by
  unfold mergeStart bufferStartPage bufferEndPage
  cases first
  · exact pageFloor_index aligned (by unfold headerSize; omega)
  · exact pageFloor_index aligned le

theorem mergeStop_index (le : buffer ≤ b) (last : Bool) :
    (if last then bufferEndPage b else bufferStartPage b) + pageSize =
      buffer + mergeStop buffer b last * pageSize := by
  unfold mergeStop bufferStartPage bufferEndPage pageFloor
  unfold pageSize headerSize at *
  cases last <;> simp only [Bool.false_eq_true, if_true, if_false] <;> omega

/-- Page `i` is freed together with the header of `b`. -/
def MergeFrees (buffer prev b : Nat) (next : Option Nat) (i : Nat) : Prop :=
  (freePageStart prev b next = true ∨ freePageEnd prev b next = true) ∧
    mergeStart buffer b (freePageStart prev b next) ≤ i ∧
    i < mergeStop buffer b (freePageEnd prev b next)

/-- The freed pages are pages of the deleted header that hold no byte of the
header before it or of the header after it. -/
theorem mergeFrees_iff (le : buffer ≤ prev) (gap : dataOf prev ≤ b) {next : Option Nat}
    (behind : ∀ n ∈ next, dataOf b ≤ n) :
    MergeFrees buffer prev b next i ↔
      Meets buffer b headerSize i ∧ buffer / pageSize + i ≠ (prev + 39) / pageSize ∧
        ∀ n ∈ next, buffer / pageSize + i ≠ n / pageSize := by
  have start := freePageStart_iff prev b next
  have stop := freePageEnd_iff prev b next
  unfold MergeFrees Meets mergeStart mergeStop bufferStartPage bufferEndPage pageFloor
  unfold pageSize headerSize dataOf at *
  cases next with
  | none =>
    simp only [Option.not_mem_none, false_implies, implies_true, and_true] at *
    cases hs : freePageStart prev b none <;> cases he : freePageEnd prev b none <;>
      simp only [hs, he, Bool.false_eq_true, if_true, if_false, false_iff, true_iff,
        or_false, or_true, or_self, true_and, false_and, headerSize] at * <;> omega
  | some n =>
    simp only [Option.mem_def, Option.some.injEq, forall_eq'] at *
    cases hs : freePageStart prev b (some n) <;> cases he : freePageEnd prev b (some n) <;>
      simp only [hs, he, Bool.false_eq_true, if_true, if_false, false_iff, true_iff,
        or_false, or_true, or_self, true_and, false_and, headerSize] at * <;> omega

/-- Without the header of `b` exactly the freed pages are no longer needed. -/
theorem needed_merge (le : buffer ≤ prev) (gap : dataOf prev ≤ b)
    (behind : dataOf b ≤ post.headD top) (layout : Layout top post)
    (bound : ∀ x ∈ pre, x + used (hdr x) ≤ prev) :
    (¬MergeFrees buffer prev b post.head? i ∧
        (Needed buffer hdr pre i ∨ Meets buffer prev headerSize i ∨
          Meets buffer b headerSize i ∨ Needed buffer hdr post i)) ↔
      Needed buffer hdr pre i ∨ Meets buffer prev headerSize i ∨ Needed buffer hdr post i := by
  have head : ∀ n ∈ post.head?, dataOf b ≤ n ∧ post.headD top = n := by
    intro n mem
    cases post with
    | nil => simp at mem
    | cons y post =>
      simp only [head?_cons, Option.mem_def, Option.some.injEq] at mem
      subst mem
      exact ⟨behind, rfl⟩
  rw [mergeFrees_iff aligned le gap fun n mem => (head n mem).1]
  constructor
  · rintro ⟨kept, before | own | header | after⟩
    · exact .inl before
    · exact .inr (.inl own)
    · -- A page of the deleted header that stays is shared with a neighbour.
      by_cases withPrev : buffer / pageSize + i = (prev + 39) / pageSize
      · refine .inr (.inl ⟨?_, ?_⟩)
        · rw [withPrev]
          exact Nat.div_le_div_right (by omega)
        · rw [withPrev]
          exact Nat.div_le_div_right (by unfold headerSize; omega)
      · refine .inr (.inr ?_)
        by_contra notPost
        refine kept ⟨header, withPrev, fun n mem same => notPost ?_⟩
        refine needed_head top ?_ (by rw [(head n mem).2]; exact same)
        rintro rfl
        simp at mem
    · exact .inr (.inr after)
  · intro needed
    refine ⟨?_, ?_⟩
    · rintro ⟨⟨low, high⟩, notPrev, notNext⟩
      rcases needed with before | ⟨-, header⟩ | after
      · have := before.before bound
        unfold dataOf pageSize headerSize at *
        omega
      · unfold dataOf pageSize headerSize at *
        omega
      · have := after.after layout
        cases post with
        | nil => obtain ⟨y, mem, -⟩ := after; simp at mem
        | cons n post =>
          have := notNext n rfl
          simp only [headD_cons] at *
          unfold dataOf pageSize headerSize at *
          omega
    · rcases needed with before | own | after
      · exact .inl before
      · exact .inr (.inl own)
      · exact .inr (.inr (.inr after))

end

end Merge
end AndroidKernel.Binder
