import Mathlib.Algebra.Group.Nat.Defs
import Mathlib.Logic.Function.Basic

/-! The per-cpu allocator of `mm/vmalloc.c`. A `vmap_block` is a range of `VMAP_BBMAP_BITS` pages.
    `vb_alloc` hands its pages out from the front, `vb_free` only counts them as dirty, and the range
    is given back when all pages are dirty, by the last `vb_free` or by `purge_fragmented_blocks`.
    What a thread does under one lock is one step; between the steps any other thread may run. -/

namespace LinuxNote.VmapBlock
open Function

/-- `PAGE_SIZE`, `VMAP_BBMAP_BITS` and `VMALLOC_START`. -/
class Config where
  pageSize : ℕ
  bbmapBits : ℕ
  vmallocStart : ℕ
  pageSize_pos : 0 < pageSize
  bbmapBits_ge : 128 ≤ bbmapBits

export Config (pageSize bbmapBits vmallocStart pageSize_pos bbmapBits_ge)

/-- `VMAP_MAX_ALLOC`, with 64-bit longs. -/
def maxAlloc : ℕ := 64

/-- `get_order`, of a number of pages. -/
def getOrder (pages : ℕ) : ℕ := if pages - 1 = 0 then 0 else Nat.log2 (pages - 1) + 1

/-- `1UL << get_order(size)`. -/
def rounded (pages : ℕ) : ℕ := 2 ^ getOrder pages

/-- `struct vmap_block`; `home` is the cpu on whose queue it was put. -/
structure Block (C : Type) where
  vaStart : ℕ
  free : ℕ
  dirty : ℕ
  dirtyMin : ℕ
  dirtyMax : ℕ
  home : Option C

/-- What `vb_alloc` returned: an address and the number of pages. The block is not known to the
    caller, who has to pass the two to `vb_free`. -/
structure Alloc (B : Type) where
  block : B
  addr : ℕ
  pages : ℕ
deriving DecidableEq

/-- The `BUG_ON`s. -/
inductive Bug
  | vaddr
  | noRoom
  | inserted
  | notFound
  | stillFree
  | otherBlock
deriving DecidableEq

/-- Where a thread is. -/
inductive Pc (C B : Type) where
  | idle
  /-- `vb_alloc` walks the queue of its cpu. -/
  | walk (cpu : C) (pages : ℕ)
  /-- `new_vmap_block` has filled in a block. -/
  | insert (a : Alloc B)
  /-- The block is in the tree. -/
  | enqueue (a : Alloc B)
  /-- `vb_free` has found the block of an address. -/
  | freeing (b : B) (a : Alloc B)
  /-- `purge_fragmented_blocks` walks the queue of a cpu and collects blocks. -/
  | purging (cpu : C) (purge : List B)
  /-- `free_vmap_block` is to be called for these blocks. -/
  | draining (purge : List B)
  /-- `free_vmap_block` has removed the first block from the tree. -/
  | releasing (b : B) (purge : List B)

/-- The blocks, `vmap_block_tree`, the queues, and the ranges that `alloc_vmap_area` handed out. The
    history records the allocations not yet freed and the blocks whose range was given back. -/
structure State (T C B : Type) where
  blocks : B → Option (Block C)
  tree : ℕ → Option B
  queue : C → List B
  inUse : ℕ → Bool
  live : List (Alloc B)
  released : List B
  pc : T → Pc C B

/-- Nothing has happened yet. -/
def State.init (T C B : Type) : State T C B :=
  ⟨fun _ => none, fun _ => none, fun _ => [], fun _ => false, [], [], fun _ => .idle⟩

section
variable [Config]

/-- `VMAP_BLOCK_SIZE`. -/
def blockSize : ℕ := bbmapBits * pageSize

/-- `addr_to_vb_idx`. -/
def addrToVbIdx (addr : ℕ) : ℕ := (addr - vmallocStart / blockSize * blockSize) / blockSize

/-- `vmap_block_vaddr`. -/
def vmapBlockVaddr (vaStart pagesOff : ℕ) : Except Bug ℕ :=
  let addr := vaStart + pagesOff * pageSize
  if addrToVbIdx addr ≠ addrToVbIdx vaStart then .error .vaddr else .ok addr

/-- The page of its block at which an address is, as `vb_free` computes it. -/
def offset (addr : ℕ) : ℕ := addr % blockSize / pageSize

end

/-! ### What is done under one lock -/

section
variable {T C B : Type} [DecidableEq T] [DecidableEq C] [DecidableEq B] (s : State T C B)

/-- Only the thread moves on. -/
def State.goto (t : T) (p : Pc C B) : State T C B :=
  { s with pc := update s.pc t p }

/-- `list_del_rcu`. -/
def listDel (queue : C → List B) (cpu : C) (b : B) : C → List B :=
  update queue cpu ((queue cpu).erase b)

variable [Config]

/-- `vb_alloc` looks at a block under its lock. -/
def tryBlock (t : T) (cpu : C) (pages : ℕ) (b : B) (vb : Block C) : Except Bug (State T C B) :=
  if vb.free < rounded pages then .ok s
  else
    match vmapBlockVaddr vb.vaStart (bbmapBits - vb.free) with
    | .error e => .error e
    | .ok addr =>
      let free := vb.free - rounded pages
      .ok { s with
        blocks := update s.blocks b (some { vb with free := free })
        queue := if free = 0 then listDel s.queue cpu b else s.queue
        live := ⟨b, addr, pages⟩ :: s.live
        pc := update s.pc t .idle }

/-- `new_vmap_block` fills in a block; the first pages are taken at once. -/
def newVmapBlock (t : T) (pages : ℕ) (b : B) (va : ℕ) : Except Bug (State T C B) :=
  match vmapBlockVaddr va 0 with
  | .error e => .error e
  | .ok addr =>
    if bbmapBits ≤ rounded pages then .error .noRoom
    else .ok { s with
      blocks := update s.blocks b (some ⟨va, bbmapBits - rounded pages, 0, bbmapBits, 0, none⟩)
      inUse := update s.inUse va true
      live := ⟨b, addr, pages⟩ :: s.live
      pc := update s.pc t (.insert ⟨b, addr, pages⟩) }

/-- `new_vmap_block` puts the block into the tree. -/
def insertBlock (t : T) (a : Alloc B) (vb : Block C) : Except Bug (State T C B) :=
  match s.tree (addrToVbIdx vb.vaStart) with
  | some _ => .error .inserted
  | none => .ok { s with
      tree := update s.tree (addrToVbIdx vb.vaStart) (some a.block)
      pc := update s.pc t (.enqueue a) }

/-- `new_vmap_block` puts the block on the queue of the cpu it runs on. -/
def enqueueBlock (t : T) (cpu : C) (a : Alloc B) (vb : Block C) : State T C B :=
  { s with
    blocks := update s.blocks a.block (some { vb with home := some cpu })
    queue := update s.queue cpu (s.queue cpu ++ [a.block])
    pc := update s.pc t .idle }

/-- `vb_free` looks for the block of the address. -/
def lookup (t : T) (a : Alloc B) : Except Bug (State T C B) :=
  match s.tree (addrToVbIdx a.addr) with
  | none => .error .notFound
  | some b => .ok (s.goto t (.freeing b a))

/-- The block after `vb_free` has counted the pages as dirty. -/
def Block.count (vb : Block C) (a : Alloc B) : Block C :=
  { vb with
    dirtyMin := min vb.dirtyMin (offset a.addr)
    dirtyMax := max vb.dirtyMax (offset a.addr + rounded a.pages)
    dirty := vb.dirty + rounded a.pages }

/-- `vb_free` counts the pages as dirty under the lock of the block. -/
def freePages (t : T) (b : B) (a : Alloc B) (vb : Block C) : Except Bug (State T C B) :=
  let s' := { s with
    blocks := update s.blocks b (some (vb.count a))
    live := s.live.erase a }
  if (vb.count a).dirty = bbmapBits then
    if vb.free ≠ 0 then .error .stillFree else .ok (s'.goto t (.draining [b]))
  else .ok (s'.goto t .idle)

/-- `purge_fragmented_blocks` looks at a block under its lock. -/
def tryPurge (t : T) (cpu : C) (purge : List B) (b : B) (vb : Block C) : State T C B :=
  if vb.free + vb.dirty = bbmapBits ∧ vb.dirty ≠ bbmapBits then
    { s with
      blocks := update s.blocks b <| some { vb with
        free := 0
        dirty := bbmapBits
        dirtyMin := 0
        dirtyMax := bbmapBits }
      queue := listDel s.queue cpu b
      pc := update s.pc t (.purging cpu (purge ++ [b])) }
  else s

/-- `free_vmap_block` removes a block from the tree. -/
def unlinkBlock (t : T) (b : B) (purge : List B) (vb : Block C) : Except Bug (State T C B) :=
  if s.tree (addrToVbIdx vb.vaStart) ≠ some b then .error .otherBlock
  else .ok { s with
    tree := update s.tree (addrToVbIdx vb.vaStart) none
    pc := update s.pc t (.releasing b purge) }

/-- `free_vmap_block` gives the range back. -/
def releaseBlock (t : T) (b : B) (purge : List B) (vb : Block C) : State T C B :=
  { s with
    inUse := update s.inUse vb.vaStart false
    released := b :: s.released
    pc := update s.pc t (.draining purge) }

/-! ### Interleavings -/

/-- The allocation that a thread works on. -/
def Pc.allocs : Pc C B → List (Alloc B)
  | .insert a | .enqueue a | .freeing _ a => [a]
  | _ => []

/-- The blocks that a thread is going to release. -/
def Pc.duties : Pc C B → List B
  | .purging _ l | .draining l => l
  | .releasing b l => b :: l
  | _ => []

/-- The steps of a thread. A thread that walks a queue may see any block that was ever put on it, and
    may stop looking at any time. What `alloc_vmap_area` returns is aligned, in the vmalloc range and
    not in use. An allocation is passed to `vb_free` once, after it was returned. -/
inductive Step (s : State T C B) (t : T) : Except Bug (State T C B) → Prop
  | alloc {pages : ℕ} (cpu : C) : s.pc t = .idle → 0 < pages → pages ≤ maxAlloc →
  Step s t (.ok (s.goto t (.walk cpu pages)))
  | look {cpu : C} {pages : ℕ} {b : B} {vb : Block C} : s.pc t = .walk cpu pages →
      s.blocks b = some vb → vb.home = some cpu → Step s t (tryBlock s t cpu pages b vb)
  | create {cpu : C} {pages va : ℕ} {b : B} : s.pc t = .walk cpu pages → s.blocks b = none →
      blockSize ∣ va → vmallocStart ≤ va → s.inUse va = false → Step s t (newVmapBlock s t pages b va)
  | noMemory {cpu : C} {pages : ℕ} : s.pc t = .walk cpu pages → Step s t (.ok (s.goto t .idle))
  | insert {a : Alloc B} {vb : Block C} : s.pc t = .insert a → s.blocks a.block = some vb →
      Step s t (insertBlock s t a vb)
  | enqueue {a : Alloc B} {vb : Block C} (cpu : C) : s.pc t = .enqueue a →
      s.blocks a.block = some vb → Step s t (.ok (enqueueBlock s t cpu a vb))
  | free {a : Alloc B} : s.pc t = .idle → a ∈ s.live → (∀ t', a ∉ (s.pc t').allocs) →
      Step s t (lookup s t a)
  | count {b : B} {a : Alloc B} {vb : Block C} : s.pc t = .freeing b a → s.blocks b = some vb →
      Step s t (freePages s t b a vb)
  | purge (cpu : C) : s.pc t = .idle → Step s t (.ok (s.goto t (.purging cpu [])))
  | collect {cpu : C} {l : List B} {b : B} {vb : Block C} : s.pc t = .purging cpu l →
      s.blocks b = some vb → vb.home = some cpu → Step s t (.ok (tryPurge s t cpu l b vb))
  | drain {cpu : C} {l : List B} : s.pc t = .purging cpu l → Step s t (.ok (s.goto t (.draining l)))
  | unlink {b : B} {l : List B} {vb : Block C} : s.pc t = .draining (b :: l) →
      s.blocks b = some vb → Step s t (unlinkBlock s t b l vb)
  | release {b : B} {l : List B} {vb : Block C} : s.pc t = .releasing b l → s.blocks b = some vb →
      Step s t (.ok (releaseBlock s t b l vb))
  | done : s.pc t = .draining [] → Step s t (.ok (s.goto t .idle))

/-- The states that interleavings reach. -/
inductive Reachable : State T C B → Prop
  | init : Reachable (.init T C B)
  | step {s s' : State T C B} {t : T} : Reachable s → Step s t (.ok s') → Reachable s'

end

end LinuxNote.VmapBlock
