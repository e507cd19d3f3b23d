import LinuxNote.Lib.DyadicBlocks
import Mathlib.Algebra.BigOperators.Group.Finset.Basic

/-! The buddy allocator of `mm/page_alloc.c`, for one zone. Pages are named by their frame numbers, and a
    free list is a list of heads. The node of a page is on at most one list, so `list_del` removes it
    from whichever list holds it. -/

namespace LinuxNote.PageAlloc

/-- `enum migratetype`. -/
inductive Migratetype
  | unmovable
  | movable
  | reclaimable
  | highatomic
  | cma
  | isolate
deriving DecidableEq

instance : Fintype Migratetype where
  elems := {.unmovable, .movable, .reclaimable, .highatomic, .cma, .isolate}
  complete := by
    intro t
    cases t <;> decide

/-- The types below `MIGRATE_PCPTYPES`. -/
def Migratetype.isPcp : Migratetype → Bool
  | .unmovable | .movable | .reclaimable => true
  | .highatomic | .cma | .isolate => false

/-- The build of the kernel, and the place of the zone in it. -/
class Config where
  maxOrder : ℕ
  two_le_maxOrder : 2 ≤ maxOrder
  pageblockOrder : ℕ
  pageblockOrder_pos : 0 < pageblockOrder
  pfnValidWithin : ℕ → Bool
  pageZoneId : ℕ → ℕ
  zoneId : ℕ
  zoneStartPfn : ℕ
  spannedPages : ℕ
  /-- The pages that the allocator of the zone manages. -/
  managed : Set ℕ
  managed_valid : ∀ p ∈ managed, pfnValidWithin p = true
  managed_zone : ∀ p ∈ managed, pageZoneId p = zoneId
  managed_span : ∀ p ∈ managed, zoneStartPfn ≤ p ∧ p < zoneStartPfn + spannedPages
  /-- No page that the zone spans is a page of another zone, as `move_freepages` asserts. -/
  span_zone : ∀ p, zoneStartPfn ≤ p → p < zoneStartPfn + spannedPages → pfnValidWithin p = true →
    pageZoneId p = zoneId

/-- What a call finds in the rest of the system. -/
structure Env where
  /-- `page_group_by_mobility_disabled`. -/
  groupByMobilityDisabled : Bool
  /-- `PageLRU(page) || __PageMovable(page)`. -/
  pageMovable : ℕ → Bool
  /-- The pages that `check_new_page`, `check_pcp_refill` or `bulkfree_pcp_prepare` rejects. -/
  bad : ℕ → Bool

/-- The bits of `alloc_flags` that are read here. -/
structure AllocFlags where
  noFragment : Bool
  harder : Bool

/-- `struct zone`, with the fields of `struct page` that belong to the allocator. -/
structure Zone where
  freeList : ℕ → Migratetype → List ℕ
  nrFree : ℕ → ℕ
  pageBuddy : ℕ → Bool
  pagePrivate : ℕ → ℕ
  /-- `page->index`, as `get_pcppage_migratetype` reads it. -/
  pcppageMigratetype : ℕ → Migratetype
  /-- The type of a pageblock, by the number of the block. -/
  blockType : ℕ → Migratetype
  nrFreePages : ℤ
  nrFreeCmaPages : ℤ
  nrIsolatePageblock : ℕ

/-- A `VM_BUG_ON` or a list head taken for a page; a loop that does not end. -/
inductive Fault
  | bug
  | endless
deriving DecidableEq

variable [Config]

open Config Function

/-! ### Pages and lists -/

/-- `__find_buddy_pfn`. -/
def findBuddyPfn (pfn order : ℕ) : ℕ := pfn ^^^ 2 ^ order

/-- `zone_spans_pfn`. -/
def zoneSpansPfn (pfn : ℕ) : Bool := zoneStartPfn ≤ pfn && pfn < zoneStartPfn + spannedPages

/-- `pageblock_nr_pages`. -/
def pageblockNrPages : ℕ := 2 ^ pageblockOrder

namespace Zone

variable (z : Zone)

/-- `set_page_order`. -/
def setPageOrder (page order : ℕ) : Zone :=
  { z with pagePrivate := update z.pagePrivate page order
           pageBuddy := update z.pageBuddy page true }

/-- `rmv_page_order`. -/
def rmvPageOrder (page : ℕ) : Zone :=
  { z with pageBuddy := update z.pageBuddy page false
           pagePrivate := update z.pagePrivate page 0 }

/-- `list_del` of `page->lru`. -/
def listDel (page : ℕ) : Zone :=
  { z with freeList := fun o t => (z.freeList o t).erase page }

/-- `list_add` to the list of an order and a type. -/
def listAdd (page order : ℕ) (mt : Migratetype) : Zone :=
  { z with freeList := fun o t =>
      if o = order ∧ t = mt then page :: z.freeList o t else z.freeList o t }

/-- `list_add_tail` to the list of an order and a type. -/
def listAddTail (page order : ℕ) (mt : Migratetype) : Zone :=
  { z with freeList := fun o t =>
      if o = order ∧ t = mt then z.freeList o t ++ [page] else z.freeList o t }

/-- `list_move`. -/
def listMove (page order : ℕ) (mt : Migratetype) : Zone :=
  (z.listDel page).listAdd page order mt

/-- `nr_free++`. -/
def incNrFree (order : ℕ) : Zone :=
  { z with nrFree := update z.nrFree order (z.nrFree order + 1) }

/-- `nr_free--`. -/
def decNrFree (order : ℕ) : Zone :=
  { z with nrFree := update z.nrFree order (z.nrFree order - 1) }

/-- `set_pcppage_migratetype`. -/
def setPcppageMigratetype (page : ℕ) (mt : Migratetype) : Zone :=
  { z with pcppageMigratetype := update z.pcppageMigratetype page mt }

/-- `get_pageblock_migratetype`. -/
def getPageblockMigratetype (page : ℕ) : Migratetype :=
  z.blockType (page / pageblockNrPages)

/-- `set_pageblock_migratetype`. -/
def setPageblockMigratetype (env : Env) (z : Zone) (page : ℕ) (mt : Migratetype) : Zone :=
  let mt := if env.groupByMobilityDisabled && mt.isPcp then .unmovable else mt
  { z with blockType := update z.blockType (page / pageblockNrPages) mt }

/-- `__mod_zone_freepage_state`. -/
def modFreepageState (nrPages : ℤ) (mt : Migratetype) : Zone :=
  { z with nrFreePages := z.nrFreePages + nrPages
           nrFreeCmaPages := if mt = .cma then z.nrFreeCmaPages + nrPages else z.nrFreeCmaPages }

/-- `has_isolate_pageblock`. -/
def hasIsolatePageblock : Bool := z.nrIsolatePageblock != 0

/-- `page_is_buddy`. -/
def pageIsBuddy (page buddy order : ℕ) : Bool :=
  z.pageBuddy buddy && z.pagePrivate buddy == order && pageZoneId page == pageZoneId buddy

/-- The number of free blocks, and of free pages, as `nr_free` counts them. -/
def nrBlocks : ℕ := ∑ o ∈ Finset.range maxOrder, z.nrFree o

@[inherit_doc nrBlocks]
def freePages : ℕ := ∑ o ∈ Finset.range maxOrder, z.nrFree o * 2 ^ o

end Zone

/-! ### Freeing -/

/-- A block on its way back, after the merges made so far; `atBound` when they went up to `max_order`. -/
structure Merged where
  zone : Zone
  pfn : ℕ
  order : ℕ
  atBound : Bool

/-- The loop at `continue_merging`, which has at most `max_order - 1 - order` rounds. -/
def mergeLoop : ℕ → Zone → ℕ → ℕ → Merged
  | 0, z, pfn, order => ⟨z, pfn, order, true⟩
  | n + 1, z, pfn, order =>
    let buddyPfn := findBuddyPfn pfn order
    if pfnValidWithin buddyPfn && z.pageIsBuddy pfn buddyPfn order then
      let z := ((z.listDel buddyPfn).decNrFree order).rmvPageOrder buddyPfn
      mergeLoop n z (buddyPfn &&& pfn) (order + 1)
    else ⟨z, pfn, order, false⟩

/-- A block of an isolated pageblock is not merged with one of another type. -/
def isolateBoundary (z : Zone) (pfn order : ℕ) (mt : Migratetype) : Bool :=
  let buddyMt := z.getPageblockMigratetype (findBuddyPfn pfn order)
  mt != buddyMt && (mt == .isolate || buddyMt == .isolate)

/-- The merges of `__free_one_page`: `max_order` is raised until it is `MAX_ORDER`, in the number of
    rounds that is given. -/
def mergeRounds (mt : Migratetype) : ℕ → Zone → ℕ → ℕ → ℕ → Merged
  | 0, z, pfn, order, maxOrd => mergeLoop (maxOrd - 1 - order) z pfn order
  | n + 1, z, pfn, order, maxOrd =>
    let r := mergeLoop (maxOrd - 1 - order) z pfn order
    if !r.atBound || (r.zone.hasIsolatePageblock && isolateBoundary r.zone r.pfn r.order mt) then r
    else mergeRounds mt n r.zone r.pfn r.order (maxOrd + 1)

/-- `__free_one_page` from `done_merging` on. Below the last two orders every way to it has just computed
    the buddy of the block. -/
def doneMerging (z : Zone) (pfn order : ℕ) (mt : Migratetype) : Zone :=
  let z := z.setPageOrder pfn order
  let buddyPfn := findBuddyPfn pfn order
  let combinedPfn := buddyPfn &&& pfn
  let higherBuddy := findBuddyPfn combinedPfn (order + 1)
  if order + 2 < maxOrder && pfnValidWithin buddyPfn && pfnValidWithin higherBuddy &&
      z.pageIsBuddy combinedPfn higherBuddy (order + 1) then
    (z.listAddTail pfn order mt).incNrFree order
  else (z.listAdd pfn order mt).incNrFree order

/-- `__free_one_page`, with `zone->lock` held. -/
def freeOnePageLocked (z : Zone) (pfn order : ℕ) (mt : Migratetype) : Zone :=
  let maxOrd := min maxOrder (pageblockOrder + 1)
  let z := if mt = .isolate then z else z.modFreepageState (2 ^ order : ℕ) mt
  let r := mergeRounds mt (maxOrder - maxOrd) z pfn order maxOrd
  doneMerging r.zone r.pfn r.order mt

/-! ### Taking a block of one type -/

/-- `expand`, with `high = low + n`. -/
def expand (page low : ℕ) (mt : Migratetype) : ℕ → Zone → Zone
  | 0, z => z
  | n + 1, z =>
    let high := low + n
    let size := 2 ^ high
    expand page low mt n
      (((z.listAdd (page + size) high mt).incNrFree high).setPageOrder (page + size) high)

/-- The loop of `__rmqueue_smallest` over the orders. -/
def rmqueueSmallestLoop (order : ℕ) (mt : Migratetype) (z : Zone) : ℕ → ℕ → Option (ℕ × Zone)
  | 0, _ => none
  | n + 1, currentOrder =>
    match z.freeList currentOrder mt with
    | [] => rmqueueSmallestLoop order mt z n (currentOrder + 1)
    | page :: _ =>
      let z := ((z.listDel page).rmvPageOrder page).decNrFree currentOrder
      some (page, (expand page order mt (currentOrder - order) z).setPcppageMigratetype page mt)

/-- `__rmqueue_smallest`. -/
def rmqueueSmallest (z : Zone) (order : ℕ) (mt : Migratetype) : Option (ℕ × Zone) :=
  rmqueueSmallestLoop order mt z (maxOrder - order) order

/-! ### Taking a block of another type -/

/-- `fallbacks`. -/
def fallbacks : Migratetype → List Migratetype
  | .unmovable => [.reclaimable, .movable]
  | .movable => [.reclaimable, .unmovable]
  | .reclaimable => [.unmovable, .movable]
  | .highatomic | .cma | .isolate => []

variable (env : Env)

/-- The loop of `move_freepages` from `page` up to `last`: the pages moved, and those counted as
    movable. -/
def moveFreepages (mt : Migratetype) (last : ℕ) : ℕ → Zone → ℕ → Zone × ℕ × ℕ
  | 0, z, _ => (z, 0, 0)
  | n + 1, z, page =>
    if last < page then (z, 0, 0)
    else if !pfnValidWithin page then moveFreepages mt last n z (page + 1)
    else if !z.pageBuddy page then
      let r := moveFreepages mt last n z (page + 1)
      (r.1, r.2.1, if env.pageMovable page then r.2.2 + 1 else r.2.2)
    else
      let order := z.pagePrivate page
      let r := moveFreepages mt last n (z.listMove page order mt) (page + 2 ^ order)
      (r.1, r.2.1 + 2 ^ order, r.2.2)

variable (z : Zone)

/-- `move_freepages_block`. -/
def moveFreepagesBlock (page : ℕ) (mt : Migratetype) : Zone × ℕ × ℕ :=
  let startPfn := page / pageblockNrPages * pageblockNrPages
  let endPfn := startPfn + pageblockNrPages - 1
  let startPage := if zoneSpansPfn startPfn then startPfn else page
  if !zoneSpansPfn endPfn then (z, 0, 0)
  else moveFreepages env mt endPfn (endPfn + 1 - startPage) z startPage

/-- The loop of `change_pageblock_range`. -/
def changePageblockRange (mt : Migratetype) : ℕ → Zone → ℕ → Zone
  | 0, z, _ => z
  | n + 1, z, page => changePageblockRange mt n (z.setPageblockMigratetype env page mt)
      (page + pageblockNrPages)

/-- `can_steal_fallback`. -/
def canStealFallback (order : ℕ) (startMt : Migratetype) : Bool :=
  pageblockOrder ≤ order || pageblockOrder / 2 ≤ order || startMt == .reclaimable || startMt ==
    .unmovable || env.groupByMobilityDisabled

/-- The pages of a pageblock of type `oldBlockType` that suit a request of type `startType`. -/
def alikePages (oldBlockType startType : Migratetype) (freePages movablePages : ℕ) : ℤ :=
  if startType = .movable then movablePages
  else if oldBlockType = .movable then (pageblockNrPages : ℤ) - (freePages + movablePages)
  else 0

/-- `steal_suitable_fallback`. -/
def stealSuitableFallback (page : ℕ) (startType : Migratetype) (wholeBlock : Bool) : Zone :=
  let currentOrder := z.pagePrivate page
  let oldBlockType := z.getPageblockMigratetype page
  if oldBlockType = .highatomic then z.listMove page currentOrder startType
  else if pageblockOrder ≤ currentOrder then
    (changePageblockRange env startType (2 ^ (currentOrder - pageblockOrder)) z page).listMove page
      currentOrder startType
  else if !wholeBlock then z.listMove page currentOrder startType
  else
    let r := moveFreepagesBlock env z page startType
    if r.2.1 = 0 then r.1.listMove page currentOrder startType
    else if ((2 ^ (pageblockOrder - 1) : ℕ) : ℤ) ≤ r.2.1 +
      alikePages oldBlockType startType r.2.1 r.2.2 || env.groupByMobilityDisabled then
      r.1.setPageblockMigratetype env page startType
    else r.1

/-- `find_suitable_fallback`: the type, and `can_steal`. -/
def findSuitableFallback (order : ℕ) (mt : Migratetype) (onlyStealable : Bool) :
    Option (Migratetype × Bool) :=
  if z.nrFree order = 0 then none
  else
    let canSteal := canStealFallback env order mt
    ((fallbacks mt).find? fun t => !(z.freeList order t).isEmpty && (!onlyStealable || canSteal)).map
      (·, canSteal)

/-- The first loop of `__rmqueue_fallback`, over the orders below `n` down to `minOrder`. -/
def largestFallback (mt : Migratetype) (minOrder : ℕ) : ℕ → Option (ℕ × Migratetype × Bool)
  | 0 => none
  | n + 1 =>
    if n < minOrder then none
    else match findSuitableFallback env z n mt false with
      | some r => some (n, r)
      | none => largestFallback mt minOrder n

/-- The loop at `find_smallest`, over `n` orders from `order` on. -/
def smallestFallback (mt : Migratetype) : ℕ → ℕ → Option (ℕ × Migratetype × Bool)
  | 0, _ => none
  | n + 1, order =>
    match findSuitableFallback env z order mt false with
    | some r => some (order, r)
    | none => smallestFallback mt n (order + 1)

/-- `__rmqueue_fallback` at `do_steal`, with what the search has found. -/
def doSteal (startMt : Migratetype) : Option (ℕ × Migratetype × Bool) → Except Fault Zone
  | none => .error .bug
  | some (currentOrder, fallbackMt, canSteal) =>
    match z.freeList currentOrder fallbackMt with
    | [] => .error .bug
    | page :: _ => .ok (stealSuitableFallback env z page startMt canSteal)

/-- `__rmqueue_fallback`; `none` when it returns false. -/
def rmqueueFallback (order : ℕ) (startMt : Migratetype) (flags : AllocFlags) :
    Except Fault (Option Zone) :=
  let minOrder := if flags.noFragment then pageblockOrder else order
  match largestFallback env z startMt minOrder maxOrder with
  | none => .ok none
  | some (currentOrder, fallbackMt, canSteal) =>
    if !canSteal && startMt == .movable && order < currentOrder then
      (doSteal env z startMt (smallestFallback env z startMt (maxOrder - order) order)).map some
    else (doSteal env z startMt (some (currentOrder, fallbackMt, canSteal))).map some

/-- The loop of `__rmqueue` at `retry`. -/
def rmqueueRetry (order : ℕ) (mt : Migratetype) (flags : AllocFlags) :
    ℕ → Zone → Except Fault (Zone × Option ℕ)
  | 0, _ => .error .endless
  | n + 1, z =>
    match rmqueueSmallest z order mt with
    | some (page, z') => .ok (z', some page)
    | none =>
      match if mt = .movable then rmqueueSmallest z order .cma else none with
      | some (page, z') => .ok (z', some page)
      | none =>
        match rmqueueFallback env z order mt flags with
        | .error e => .error e
        | .ok none => .ok (z, none)
        | .ok (some z') => rmqueueRetry order mt flags n z'

/-- `__rmqueue`, with `zone->lock` held. A retry has one more block of the type that is asked for, which
    bounds their number. -/
def rmqueueLocked (order : ℕ) (mt : Migratetype) (flags : AllocFlags) : Except Fault (Zone × Option ℕ) :=
  rmqueueRetry env order mt flags (z.nrBlocks + 1) z

/-! ### The callers -/

/-- `check_new_pages`. -/
def checkNewPages (page order : ℕ) : Bool :=
  (List.range (2 ^ order)).any fun i => env.bad (page + i)

/-- One round of the loop of `rmqueue`, up to the check. -/
def rmqueueCandidate (order : ℕ) (mt : Migratetype) (flags : AllocFlags) :
    Except Fault (Zone × Option ℕ) :=
  match if flags.harder then rmqueueSmallest z order .highatomic else none with
  | some (page, z') => .ok (z', some page)
  | none => rmqueueLocked env z order mt flags

/-- The loop of `rmqueue`; a block that the check rejects is not put back. -/
def rmqueueLoop (order : ℕ) (mt : Migratetype) (flags : AllocFlags) :
    ℕ → Zone → Except Fault (Zone × Option ℕ)
  | 0, _ => .error .endless
  | n + 1, z =>
    match rmqueueCandidate env z order mt flags with
    | .error e => .error e
    | .ok (z', none) => .ok (z', none)
    | .ok (z', some page) =>
      if checkNewPages env page order then rmqueueLoop order mt flags n z' else .ok (z', some page)

/-- `rmqueue` of a positive order. -/
def rmqueue (order : ℕ) (mt : Migratetype) (flags : AllocFlags) : Except Fault (Zone × Option ℕ) :=
  match rmqueueLoop env order mt flags (z.freePages + 1) z with
  | .error e => .error e
  | .ok (z', none) => .ok (z', none)
  | .ok (z', some page) =>
    .ok (z'.modFreepageState (-(2 ^ order : ℕ)) (z'.pcppageMigratetype page), some page)

/-- The state of the loop of `rmqueue_bulk`. -/
structure Bulk where
  zone : Zone
  i : ℕ
  alloced : ℕ
  list : List ℕ

/-- The loop of `rmqueue_bulk`, with the rounds that are left. -/
def rmqueueBulkLoop (order : ℕ) (mt : Migratetype) (flags : AllocFlags) : ℕ → Bulk → Except Fault Bulk
  | 0, b => .ok b
  | n + 1, b =>
    match rmqueueLocked env b.zone order mt flags with
    | .error e => .error e
    | .ok (z, none) => .ok { b with zone := z }
    | .ok (z, some page) =>
      if env.bad page then rmqueueBulkLoop order mt flags n { b with zone := z, i := b.i + 1 }
      else
        let cma := if z.pcppageMigratetype page =
          .cma then z.nrFreeCmaPages - (2 ^ order : ℕ) else z.nrFreeCmaPages
        rmqueueBulkLoop order mt flags n
          ⟨{ z with nrFreeCmaPages := cma }, b.i + 1, b.alloced + 1, b.list ++ [page]⟩

/-- `rmqueue_bulk`, with the list that the pages are put on and the number of them. -/
def rmqueueBulk (order count : ℕ) (list : List ℕ) (mt : Migratetype)
    (flags : AllocFlags) : Except Fault (Zone × List ℕ × ℕ) :=
  match rmqueueBulkLoop env order mt flags count ⟨z, 0, 0, list⟩ with
  | .error e => .error e
  | .ok b =>
    .ok ({ b.zone with nrFreePages := b.zone.nrFreePages - (b.i * 2 ^ order : ℕ) }, b.list, b.alloced)

/-- `free_one_page`. -/
def freeOnePage (pfn order : ℕ) (mt : Migratetype) : Zone :=
  if z.hasIsolatePageblock || mt == .isolate then freeOnePageLocked z pfn order
    (z.getPageblockMigratetype pfn)
  else freeOnePageLocked z pfn order mt

/-- `struct per_cpu_pages`. -/
structure PerCpuPages where
  count : ℕ
  lists : Migratetype → List ℕ

/-- `if (++migratetype == MIGRATE_PCPTYPES) migratetype = 0`. -/
def Migratetype.nextPcp : Migratetype → Migratetype
  | .unmovable => .movable
  | .movable => .reclaimable
  | .reclaimable | .highatomic | .cma | .isolate => .unmovable

/-- The first inner loop of `free_pcppages_bulk`, which goes round until a list is not empty. -/
def pcpNextList (pcp : PerCpuPages) : ℕ → Migratetype → ℕ → Except Fault (Migratetype × ℕ)
  | 0, _, _ => .error .endless
  | n + 1, mt, batchFree =>
    if (pcp.lists mt.nextPcp).isEmpty then pcpNextList pcp n mt.nextPcp (batchFree + 1)
    else .ok (mt.nextPcp, batchFree + 1)

/-- The state of the loops of `free_pcppages_bulk`. -/
structure Drain where
  pcp : PerCpuPages
  count : ℕ
  batchFree : ℕ
  head : List ℕ

/-- The body of the second inner loop of `free_pcppages_bulk`, which takes the last page of a list, and
    `--count`. -/
def Drain.takeLast (mt : Migratetype) (page : ℕ) (d : Drain) : Drain where
  pcp := ⟨d.pcp.count - 1, update d.pcp.lists mt (d.pcp.lists mt).dropLast⟩
  count := d.count - 1
  batchFree := d.batchFree
  head := if env.bad page then d.head else d.head ++ [page]

/-- `--batch_free`. -/
def Drain.decBatchFree (d : Drain) : Drain := { d with batchFree := d.batchFree - 1 }

/-- The second inner loop of `free_pcppages_bulk`, with at most `n` more rounds after this one. -/
def pcpDrainList (mt : Migratetype) : ℕ → Drain → Except Fault Drain
  | n, d =>
    match (d.pcp.lists mt).getLast? with
    | none => .error .bug
    | some page =>
      let d := d.takeLast env mt page
      if d.count = 0 then .ok d
      else
        let d := d.decBatchFree
        if d.batchFree = 0 || (d.pcp.lists mt).isEmpty then .ok d
        else
          match n with
          | 0 => .error .endless
          | n + 1 => pcpDrainList mt n d

/-- `MIGRATE_PCPTYPES`. -/
def migratePcptypes : ℕ := 3

/-- The loop `while (count)` of `free_pcppages_bulk`. -/
def pcpCollect : ℕ → Migratetype → Drain → Except Fault Drain
  | n, mt, d =>
    if d.count = 0 then .ok d
    else
      match n with
      | 0 => .error .endless
      | n + 1 =>
        match pcpNextList d.pcp migratePcptypes mt d.batchFree with
        | .error e => .error e
        | .ok (mt, batchFree) =>
          let batchFree := if batchFree = migratePcptypes then d.count else batchFree
          match pcpDrainList env mt d.count { d with batchFree := batchFree } with
          | .error e => .error e
          | .ok d' => pcpCollect n mt d'

/-- The last loop of `free_pcppages_bulk`. -/
def pcpFreeAll (isolatedPageblocks : Bool) : List ℕ → Zone → Except Fault Zone
  | [], z => .ok z
  | page :: rest, z =>
    if z.pcppageMigratetype page = .isolate then .error .bug
    else
      let mt := if isolatedPageblocks then z.getPageblockMigratetype page else z.pcppageMigratetype page
      pcpFreeAll isolatedPageblocks rest (freeOnePageLocked z page 0 mt)

/-- `free_pcppages_bulk`. -/
def freePcppagesBulk (count : ℕ) (pcp : PerCpuPages) : Except Fault (Zone × PerCpuPages) :=
  match pcpCollect env count .unmovable ⟨pcp, count, 0, []⟩ with
  | .error e => .error e
  | .ok d =>
    match pcpFreeAll z.hasIsolatePageblock d.head z with
    | .error e => .error e
    | .ok z' => .ok (z', d.pcp)

end LinuxNote.PageAlloc
