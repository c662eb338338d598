import AndroidKernel.Lib.Hoare

/-!
The buddy allocator of `mm/page_alloc.c`.

Pages are given by their frame numbers. The `lru` links of free pages are modelled as
lists of pages; `list_del` takes a page off the list it is on. Compound pages, page
counts and the checks of `CONFIG_DEBUG_VM` are left out.
-/

namespace AndroidKernel.Buddy

open Lib Function

/-- `MAX_ORDER` -/
def maxOrder : Nat := 11

/-- Without huge pages, pages are grouped by the largest order. -/
def pageblockOrder : Nat := maxOrder - 1

inductive MigrateType where
  | unmovable
  | reclaimable
  | movable
  | reserve
  | isolate
deriving DecidableEq, Repr

instance migrateTypes : Fintype MigrateType :=
  ⟨{.unmovable, .reclaimable, .movable, .reserve, .isolate}, by intro t; cases t <;> decide⟩

/-- The rows of `fallbacks` have four entries, of which the source gives three; the
others are 0. -/
def fallbacks : MigrateType → List MigrateType
  | .unmovable => [.reclaimable, .movable, .reserve, .unmovable]
  | .reclaimable => [.unmovable, .movable, .reserve, .unmovable]
  | .movable => [.reclaimable, .unmovable, .reserve, .unmovable]
  | .reserve => [.reserve, .reserve, .reserve, .unmovable]
  | .isolate => [.unmovable, .unmovable, .unmovable, .unmovable]

/-- What does not change: where the zone is, the zone of every page, and whether pages
are grouped by mobility. -/
structure Span where
  zoneStartPfn : Nat
  spannedPages : Nat
  zoneId : Nat → Nat
  mobilityDisabled : Bool
  own : ∀ p, zoneStartPfn ≤ p → p < zoneStartPfn + spannedPages → zoneId p = zoneId zoneStartPfn

structure Zone where
  freeList : Nat → MigrateType → List Nat
  nrFree : Nat → Int
  /-- `NR_FREE_PAGES` -/
  nrFreePages : Int
  pageBuddy : Nat → Bool
  pagePrivate : Nat → Nat
  pageblockFlags : Nat → MigrateType

inductive Fault where
  /-- `list_del` of a page that is on no list -/
  | notListed
  /-- the `BUG_ON` of `move_freepages` -/
  | otherZone
deriving DecidableEq, Repr

abbrev Prog := StateT Zone (Except Fault)

/-! ### Lists and flags -/

def listDel (page : Nat) : Prog Unit := do
  let z ← get
  if ∃ order < maxOrder, ∃ migratetype, page ∈ z.freeList order migratetype then
    set { z with freeList := fun order migratetype => (z.freeList order migratetype).erase page }
  else throw .notListed

def listAdd (page order : Nat) (migratetype : MigrateType) : Prog Unit :=
  modify fun z => { z with
    freeList := update z.freeList order
      (update (z.freeList order) migratetype (page :: z.freeList order migratetype)) }

def addNrFree (order : Nat) (delta : Int) : Prog Unit :=
  modify fun z => { z with nrFree := update z.nrFree order (z.nrFree order + delta) }

/-- `__mod_zone_page_state` for `NR_FREE_PAGES` -/
def modFreePages (delta : Int) : Prog Unit :=
  modify fun z => { z with nrFreePages := z.nrFreePages + delta }

def setPageOrder (page order : Nat) : Prog Unit :=
  modify fun z => { z with
    pagePrivate := update z.pagePrivate page order
    pageBuddy := update z.pageBuddy page true }

def rmvPageOrder (page : Nat) : Prog Unit :=
  modify fun z => { z with
    pageBuddy := update z.pageBuddy page false
    pagePrivate := update z.pagePrivate page 0 }

def pageblockIndex (s : Span) (page : Nat) : Nat := (page - s.zoneStartPfn) >>> pageblockOrder

def getPageblockMigratetype (s : Span) (page : Nat) : Prog MigrateType := do
  if s.mobilityDisabled then return .unmovable
  else return (← get).pageblockFlags (pageblockIndex s page)

def setPageblockMigratetype (s : Span) (page : Nat) (migratetype : MigrateType) : Prog Unit :=
  modify fun z => { z with
    pageblockFlags := update z.pageblockFlags (pageblockIndex s page) migratetype }

/-! ### Freeing -/

/-- `__page_find_buddy` -/
def pageFindBuddy (page pageIdx order : Nat) : Nat := page + (pageIdx ^^^ 1 <<< order) - pageIdx

/-- `__find_combined_index`: one bit is cleared. -/
def findCombinedIndex (pageIdx order : Nat) : Nat := pageIdx - (pageIdx &&& 1 <<< order)

def pageIsBuddy (s : Span) (page buddy order : Nat) : Prog Bool := do
  let z ← get
  if s.zoneId page ≠ s.zoneId buddy then return false
  else return z.pageBuddy buddy && z.pagePrivate buddy == order

/-- The loop of `__free_one_page` up to the largest order: the page and the order of
the block that the freed one ends up in. -/
def mergeLoop (s : Span) : Nat → Nat → Nat → Nat → Prog (Nat × Nat)
  | 0, page, _, order => return (page, order)
  | rounds + 1, page, pageIdx, order => do
    let buddy := pageFindBuddy page pageIdx order
    if ← pageIsBuddy s page buddy order then
      -- our buddy is free, merge with it and move up one order
      listDel buddy
      addNrFree order (-1)
      rmvPageOrder buddy
      let combinedIdx := findCombinedIndex pageIdx order
      mergeLoop s rounds (page + combinedIdx - pageIdx) combinedIdx (order + 1)
    else return (page, order)

/-- `__free_one_page` -/
def freeOnePage (s : Span) (page order : Nat) : Prog Unit := do
  let migratetype ← getPageblockMigratetype s page
  let pageIdx := page &&& (1 <<< maxOrder - 1)
  modFreePages (1 <<< order : Nat)
  let (page, order) ← mergeLoop s (maxOrder - 1 - order) page pageIdx order
  setPageOrder page order
  listAdd page order migratetype
  addNrFree order 1

/-! ### Allocation -/

/-- The loop of `expand`, which gives back the upper halves. -/
def expandLoop (page : Nat) (migratetype : MigrateType) : Nat → Nat → Prog Unit
  | 0, _ => return
  | rounds + 1, high => do
    let high := high - 1
    let size := 1 <<< high
    listAdd (page + size) high migratetype
    addNrFree high 1
    setPageOrder (page + size) high
    expandLoop page migratetype rounds high

def expand (page low high : Nat) (migratetype : MigrateType) : Prog Unit :=
  expandLoop page migratetype (high - low) high

def smallestLoop (order : Nat) (migratetype : MigrateType) : Nat → Nat → Prog (Option Nat)
  | 0, _ => return none
  | rounds + 1, currentOrder => do
    match (← get).freeList currentOrder migratetype with
    | [] => smallestLoop order migratetype rounds (currentOrder + 1)
    | page :: _ =>
      listDel page
      rmvPageOrder page
      addNrFree currentOrder (-1)
      modFreePages (-(1 <<< order : Nat))
      expand page order currentOrder migratetype
      return some page

/-- `__rmqueue_smallest` -/
def rmqueueSmallest (order : Nat) (migratetype : MigrateType) : Prog (Option Nat) :=
  smallestLoop order migratetype (maxOrder - order) order

/-- The loop of `move_freepages`. Each round goes on by a page or more, so there are no more
rounds than pages. -/
def moveLoop (endPage : Nat) (migratetype : MigrateType) : Nat → Nat → Prog Nat
  | 0, _ => return 0
  | rounds + 1, page => do
    if endPage < page then return 0
    else
      let z ← get
      if z.pageBuddy page = false then moveLoop endPage migratetype rounds (page + 1)
      else
        let order := z.pagePrivate page
        listDel page
        listAdd page order migratetype
        let moved ← moveLoop endPage migratetype rounds (page + 1 <<< order)
        return 1 <<< order + moved

def moveFreepages (s : Span) (startPage endPage : Nat) (migratetype : MigrateType) : Prog Nat := do
  if s.zoneId startPage ≠ s.zoneId endPage then throw .otherZone
  else moveLoop endPage migratetype (endPage + 1 - startPage) startPage

def moveFreepagesBlock (s : Span) (page : Nat) (migratetype : MigrateType) : Prog Nat := do
  let startPfn := page - (page &&& (1 <<< pageblockOrder - 1))
  let endPfn := startPfn + 1 <<< pageblockOrder - 1
  -- do not cross zone boundaries
  let startPage := if startPfn < s.zoneStartPfn then page else startPfn
  if s.zoneStartPfn + s.spannedPages ≤ endPfn then return 0
  else moveFreepages s startPage endPfn migratetype

/-- When a large block is broken, its whole pageblock changes its type. -/
def claimBlock (s : Span) (page currentOrder : Nat) (startMigratetype migratetype : MigrateType) :
    Prog MigrateType := do
  if pageblockOrder >>> 1 ≤ currentOrder ∨ startMigratetype = .reclaimable then
    let pages ← moveFreepagesBlock s page startMigratetype
    ifThen (1 <<< (pageblockOrder - 1) ≤ pages) (setPageblockMigratetype s page startMigratetype)
    return startMigratetype
  else return migratetype

/-- The page that a fallback list offers is taken. -/
def steal (s : Span) (page order currentOrder : Nat) (startMigratetype migratetype : MigrateType) :
    Prog Unit := do
  addNrFree currentOrder (-1)
  let migratetype ← claimBlock s page currentOrder startMigratetype migratetype
  listDel page
  rmvPageOrder page
  modFreePages (-(1 <<< order : Nat))
  ifThen (currentOrder = pageblockOrder) (setPageblockMigratetype s page startMigratetype)
  expand page order currentOrder migratetype

def fallbackTypes (s : Span) (order currentOrder : Nat) (startMigratetype : MigrateType) :
    List MigrateType → Prog (Option Nat)
  | [] => return none
  | migratetype :: rest => do
    if migratetype = .reserve then fallbackTypes s order currentOrder startMigratetype rest
    else
      match (← get).freeList currentOrder migratetype with
      | [] => fallbackTypes s order currentOrder startMigratetype rest
      | page :: _ =>
        steal s page order currentOrder startMigratetype migratetype
        return some page

/-- The loop over orders, from the largest down to `order`. -/
def fallbackLoop (s : Span) (order : Nat) (startMigratetype : MigrateType) : Nat → Prog (Option Nat)
  | 0 => return none
  | rounds + 1 => do
    match ← fallbackTypes s order (order + rounds) startMigratetype (fallbacks startMigratetype) with
    | some page => return some page
    | none => fallbackLoop s order startMigratetype rounds

/-- `__rmqueue_fallback` -/
def rmqueueFallback (s : Span) (order : Nat) (startMigratetype : MigrateType) : Prog (Option Nat) := do
  match ← fallbackLoop s order startMigratetype (maxOrder - order) with
  | some page => return some page
  | none => rmqueueSmallest order .reserve

/-- `__rmqueue` -/
def rmqueue (s : Span) (order : Nat) (migratetype : MigrateType) : Prog (Option Nat) := do
  match ← rmqueueSmallest order migratetype with
  | some page => return some page
  | none => rmqueueFallback s order migratetype

end AndroidKernel.Buddy
