import Mathlib.Algebra.Group.Nat.Defs
import Mathlib.Logic.Function.Basic

/-! The page fragments of `mm/page_alloc.c`. A cache carves fragments from the end of a block of pages
    towards its start. The block is a large one, or a single page when there is no large one to be had.
    Each fragment owns one reference to the head page of its block, and the cache owns `pagecnt_bias` of
    them. `size` is the size of the block, and `none` while the block is with the page allocator. -/

namespace LinuxNote.PageFrag
open Function

/-- The page size of the build. -/
class Config where
  pageShift : ℕ
  pageShift_le : pageShift ≤ 30

/-- `struct page_frag_cache`. -/
structure Cache where
  va : Option ℤ
  offset : ℕ
  size : ℕ
  pagecntBias : ℕ

/-- The cache and what the pages say of their blocks. -/
structure State where
  cache : Cache
  /-- `virt_to_head_page`. -/
  head : ℤ → ℤ
  size : ℤ → Option ℕ
  /-- `page->_refcount`. -/
  count : ℤ → ℤ

/-- What the page allocator returns for a large block and for a single page. -/
structure Refill where
  large : Option ℤ
  small : Option ℤ

/-- A reference to a page that is with the page allocator; a call that refills again and again. -/
inductive Fault
  | freed
  | endless
deriving DecidableEq

/-- The number of values of an `unsigned int`. -/
def uintSize : ℕ := 2 ^ 32

namespace State

/-- A new block from the page allocator, with one reference. -/
def allocPages (s : State) (va : ℤ) (n : ℕ) : State :=
  { s with head := fun a => if va ≤ a ∧ a < va + n then va else s.head a
           size := update s.size va (some n)
           count := update s.count va 1 }

/-- `page_ref_sub_and_test`. -/
def pageRefSubAndTest (s : State) (page : ℤ) (nr : ℕ) : Except Fault (Bool × State) :=
  if s.size page = none then .error .freed
  else .ok (s.count page - nr == 0, { s with count := update s.count page (s.count page - nr) })

/-- `page_ref_add` and `set_page_count`. -/
def setPageCount (s : State) (page : ℤ) (v : ℤ) : State :=
  { s with count := update s.count page v }

/-- `free_the_page`. -/
def freeThePage (s : State) (page : ℤ) : State :=
  { s with size := update s.size page none }

end State

/-- References to a page are dropped, and a page without references is freed. -/
def dropRefs (s : State) (page : ℤ) (nr : ℕ) : Except Fault State :=
  match s.pageRefSubAndTest page nr with
  | .error e => .error e
  | .ok (true, s') => .ok (s'.freeThePage page)
  | .ok (false, s') => .ok s'

/-- `page_frag_free`. -/
def pageFragFree (addr : ℤ) (s : State) : Except Fault State := dropRefs s (s.head addr) 1

/-- `__page_frag_cache_drain`. -/
def pageFragCacheDrain (page : ℤ) (count : ℕ) (s : State) : Except Fault State := dropRefs s page count

variable [Config]

/-- `PAGE_SIZE`. -/
def pageSize : ℕ := 2 ^ Config.pageShift

/-- `PAGE_FRAG_CACHE_MAX_SIZE`. -/
def maxSize : ℕ := (32768 + (pageSize - 1)) / pageSize * pageSize

/-- `PAGE_SIZE < PAGE_FRAG_CACHE_MAX_SIZE`: the size of the block can vary. -/
def varies : Bool := pageSize < maxSize

/-- The number of values of `nc->offset`. -/
def offsetMod : ℕ := if varies then 2 ^ 16 else 2 ^ 32

/-- `size` in `page_frag_alloc`, once a block is there. -/
def State.blockSize (s : State) : ℕ := if varies then s.cache.size else pageSize

/-- The block that `__page_frag_cache_refill` gets. -/
def Refill.block (r : Refill) : Option (ℤ × ℕ) :=
  match if varies then r.large else none with
  | some va => some (va, maxSize)
  | none => r.small.map (·, pageSize)

/-- `__page_frag_cache_refill`, and the reset of the cache that follows it in `page_frag_alloc`. -/
def State.refill (s : State) (r : Refill) : State :=
  let size := if varies then (if r.large.isSome then maxSize else pageSize) else s.cache.size
  match r.block with
  | none => { s with cache := { s.cache with va := none, size := size } }
  | some (va, n) =>
    let s := s.allocPages va n
    let s := s.setPageCount va (s.count va + maxSize)
    { s with cache := ⟨some va, (if varies then size else pageSize) % offsetMod, size, maxSize + 1⟩ }

/-- The end of `page_frag_alloc`. -/
def State.finish (s : State) (va offset : ℤ) : State × ℤ :=
  ({ s with cache := { s.cache with pagecntBias := (s.cache.pagecntBias + uintSize - 1) % uintSize
                                    offset := (offset % offsetMod).toNat } }, va + offset)

/-- `page_frag_alloc` after the label `refill`: a fragment, or another refill. -/
inductive Carved
  | done (s : State) (ptr : ℤ)
  | refill (s : State)

/-- `page_frag_alloc` from `offset = nc->offset - fragsz` on. -/
def State.carve (s : State) (va : ℤ) (fragsz : ℕ) : Except Fault Carved :=
  let offset : ℤ := s.cache.offset - fragsz
  if offset < 0 then
    match s.pageRefSubAndTest va s.cache.pagecntBias with
    | .error e => .error e
    | .ok (false, s') => .ok (.refill s')
    | .ok (true, s') =>
      let s' := s'.setPageCount va (maxSize + 1 : ℕ)
      let s' := { s' with cache := { s'.cache with pagecntBias := maxSize + 1 } }
      let r := s'.finish va (s'.blockSize - fragsz)
      .ok (.done r.1 r.2)
  else
    let r := s.finish va offset
    .ok (.done r.1 r.2)

/-- `page_frag_alloc` from the label `refill` on; it comes back to it at most `n` times. -/
def refillLoop (r : Refill) (fragsz : ℕ) : ℕ → State → Except Fault (State × Option ℤ)
  | n, s =>
    let s := s.refill r
    match s.cache.va with
    | none => .ok (s, none)
    | some va =>
      match s.carve va fragsz with
      | .error e => .error e
      | .ok (.done s ptr) => .ok (s, some ptr)
      | .ok (.refill s) =>
        match n with
        | 0 => .error .endless
        | n + 1 => refillLoop r fragsz n s

/-- `page_frag_alloc`. -/
def pageFragAlloc (r : Refill) (fragsz : ℕ) (s : State) : Except Fault (State × Option ℤ) :=
  match s.cache.va with
  | none => refillLoop r fragsz 0 s
  | some va =>
    match s.carve va fragsz with
    | .error e => .error e
    | .ok (.done s ptr) => .ok (s, some ptr)
    | .ok (.refill s) => refillLoop r fragsz 0 s

end LinuxNote.PageFrag
