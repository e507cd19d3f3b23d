import LinuxNote.Lib.SearchTree
import Mathlib.Algebra.Group.Nat.Defs

/-! Kernel virtual areas of `mm/vmalloc.c`: `alloc_vmap_area` looks for a hole among the areas in use,
    from the area it remembers or from the start of the range, and `__free_vmap_area` takes an area out
    again. The areas in use are in a red-black tree and, in address order, in a list. -/

namespace LinuxNote.Vmalloc
open SearchTree

/-- `struct vmap_area`, `[va_start, va_end)`. -/
structure Area where
  vaStart : ℕ
  vaEnd : ℕ
deriving DecidableEq

/-- The size of a page, and the functions of the red-black tree library that change the shape of the
    tree. They keep the in-order sequence. -/
class Config where
  pageSize : ℕ
  rbInsertColor : BinTree Area → BinTree Area
  rbErase : Area → BinTree Area → BinTree Area
  insertColor_toList : ∀ t, (rbInsertColor t).toList = t.toList
  erase_toList : ∀ a t, (rbErase a t).toList = t.toList.erase a

export Config (pageSize rbInsertColor rbErase insertColor_toList erase_toList)

/-- `vmap_area_root`, `vmap_area_list`, `free_vmap_cache` and the values that are kept with it. -/
structure Space where
  root : BinTree Area
  list : List Area
  freeVmapCache : Option Area
  cachedHoleSize : ℕ
  cachedVstart : ℕ
  cachedAlign : ℕ

/-- The `BUG`s, in the order of the source. -/
inductive Bug
  | overlap
  | noSize
  | partialPage
  | notPowerOf2
  | unaligned
  | belowVstart
  | aboveVend
  | emptyNode
deriving DecidableEq

/-- The arguments of `alloc_vmap_area` that say which area is wanted. -/
structure Request where
  size : ℕ
  align : ℕ
  vstart : ℕ
  vend : ℕ
deriving DecidableEq

/-- What `alloc_vmap_area` returns: an area, `-ENOMEM` or `-EBUSY`. -/
inductive Result
  | area (va : Area)
  | nomem
  | busy
deriving DecidableEq

/-- Before the first call. -/
def Space.empty : Space := ⟨.nil, [], none, 0, 0, 0⟩

/-! ### Machine words -/

/-- A sum of two `unsigned long`s. -/
def add (a b : ℕ) : ℕ := (a + b) % 2 ^ 64

/-- A difference of two `unsigned long`s. -/
def sub (a b : ℕ) : ℕ := (2 ^ 64 + a - b) % 2 ^ 64

/-- `ALIGN`, for an `a` that is a power of two. -/
def alignUp (x a : ℕ) : ℕ := add x (a - 1) / a * a

/-- `is_power_of_2`. -/
def isPowerOf2 (n : ℕ) : Bool := n != 0 && n &&& (n - 1) == 0

/-! ### The tree and the list -/

/-- `rb_prev`: the node before `va` in the in-order sequence. -/
def rbPrev (t : BinTree Area) (va : Area) : Option Area := (t.toList.takeWhile (· ≠ va)).getLast?

/-- `list_add` behind `prev`. -/
def listAdd (va prev : Area) : List Area → List Area
  | [] => []
  | a :: l => if a = prev then a :: va :: l else a :: listAdd va prev l

/-- The way from a node to the place of `va`; none where the areas meet. -/
def insertDir (va tmp : Area) : Option Side :=
  if va.vaStart < tmp.vaEnd then some .left
  else if va.vaEnd > tmp.vaStart then some .right
  else none

/-- The nodes that `alloc_vmap_area` looks at when it starts from the root. -/
def findFirst (t : BinTree Area) (addr : ℕ) : Option Area :=
  t.lowerBound (fun tmp => tmp.vaEnd ≥ addr) (fun tmp => tmp.vaStart ≤ addr) none

section
variable [Config]

/-- `__insert_vmap_area`. -/
def insertVmapArea (s : Space) (va : Area) : Except Bug Space :=
  match s.root.link (insertDir va) va with
  | none => .error .overlap
  | some t =>
    let root := rbInsertColor t
    -- the list is kept in address order
    match rbPrev root va with
    | some prev => .ok { s with root := root, list := listAdd va prev s.list }
    | none => .ok { s with root := root, list := va :: s.list }

/-- `__free_vmap_area`. -/
def freeVmapArea (s : Space) (va : Area) : Except Bug Space :=
  if va ∈ s.list then
    let cache :=
      match s.freeVmapCache with
      | none => none
      | some cache =>
        if va.vaEnd < s.cachedVstart then none
        else if va.vaStart ≤ cache.vaStart then rbPrev s.root va
        else some cache
    .ok { s with root := rbErase va s.root, list := s.list.erase va, freeVmapCache := cache }
  else .error .emptyNode

/-- Several areas, one after the other. -/
def freeAreas : Space → List Area → Except Bug Space
  | s, [] => .ok s
  | s, va :: l =>
    match freeVmapArea s va with
    | .error e => .error e
    | .ok s' => freeAreas s' l

end

/-! ### The search -/

/-- Where a search got to, and the largest hole it noticed below. -/
structure Place where
  addr : ℕ
  holeSize : ℕ

/-- `cached_hole_size`, when there is a larger hole before `first`. -/
def noteHole (first : Area) (p : Place) : ℕ :=
  if add p.addr p.holeSize < first.vaStart then sub first.vaStart p.addr else p.holeSize

/-- Walk the areas from `first` until a suitable hole is found; none when an address overflows. The
    largest hole is kept in both cases. -/
def walk (req : Request) : List Area → Place → Option ℕ × ℕ
  | [], p => (some p.addr, p.holeSize)
  | first :: rest, p =>
    if add p.addr req.size > first.vaStart ∧ add p.addr req.size ≤ req.vend then
      let addr := alignUp first.vaEnd req.align
      if add addr req.size < addr then (none, noteHole first p)
      else walk req rest ⟨addr, noteHole first p⟩
    else (some p.addr, p.holeSize)

/-- The areas from `first` on. -/
def fromFirst (l : List Area) (first : Area) : List Area := l.dropWhile (· ≠ first)

/-- The search from `vstart`. -/
def scan (s : Space) (req : Request) : Option ℕ × ℕ :=
  let addr := alignUp req.vstart req.align
  if add addr req.size < addr then (none, s.cachedHoleSize)
  else
    match findFirst s.root addr with
    | none => (some addr, s.cachedHoleSize)
    | some first => walk req (fromFirst s.list first) ⟨addr, s.cachedHoleSize⟩

/-- `nocache`. -/
def noCache (s : Space) : Space := { s with cachedHoleSize := 0, freeVmapCache := none }

/-- Forget the cached area when the parameters are more permissive. -/
def invalidate (s : Space) (req : Request) : Space :=
  if s.freeVmapCache = none ∨ req.size < s.cachedHoleSize ∨ req.vstart < s.cachedVstart ∨
    req.align < s.cachedAlign then
    noCache s
  else s

/-- Record less permissive parameters. -/
def record (s : Space) (req : Request) : Space :=
  { s with cachedVstart := req.vstart, cachedAlign := req.align }

/-- Start from `vstart`, with nothing cached. -/
def searchNocache (s : Space) (req : Request) : Option ℕ × Space :=
  let s := record (noCache s) req
  let (addr, hole) := scan s req
  (addr, { s with cachedHoleSize := hole })

/-- The search of one attempt: the address that was found, none for `overflow`. -/
def search (s : Space) (req : Request) : Option ℕ × Space :=
  let s := record (invalidate s req) req
  match s.freeVmapCache with
  | none => searchNocache s req
  | some first =>
    let addr := alignUp first.vaEnd req.align
    if addr < req.vstart then searchNocache s req
    else if add addr req.size < addr then (none, s)
    else
      let (addr, hole) := walk req (fromFirst s.list first) ⟨addr, s.cachedHoleSize⟩
      (addr, { s with cachedHoleSize := hole })

section
variable [Config]

/-- What `alloc_vmap_area` does from `retry` on, with the checks behind it; none for `overflow`. -/
def attempt (s : Space) (req : Request) : Except Bug (Space × Option Area) :=
  match search s req with
  | (none, s) => .ok (s, none)
  | (some addr, s) =>
    if add addr req.size > req.vend then .ok (s, none)
    else
      let va : Area := ⟨addr, add addr req.size⟩
      match insertVmapArea s va with
      | .error e => .error e
      | .ok s =>
        if va.vaStart % req.align ≠ 0 then .error .unaligned
        else if va.vaStart < req.vstart then .error .belowVstart
        else if va.vaEnd > req.vend then .error .aboveVend
        else .ok ({ s with freeVmapCache := some va }, some va)

/-- Two attempts; in between `purge_vmap_area_lazy` frees the areas of `purge`. -/
def round (req : Request) (s : Space) (purge : List Area) : Except Bug (Space × Option Area) :=
  match attempt s req with
  | .error e => .error e
  | .ok (s, some va) => .ok (s, some va)
  | .ok (s, none) =>
    match freeAreas s purge with
    | .error e => .error e
    | .ok s => attempt s req

/-- A round, and more of them as long as the notifiers free something: what they free, and what the next
    purge frees. -/
def rounds (req : Request) : Space → List Area → List (List Area × List Area) → Except Bug
    (Space × Result)
  | s, purge, more =>
    match round req s purge with
    | .error e => .error e
    | .ok (s, some va) => .ok (s, .area va)
    | .ok (s, none) =>
      match more with
      | [] => .ok (s, .busy)
      | (notified, purge') :: more =>
        match freeAreas s notified with
        | .error e => .error e
        | .ok s => rounds req s purge' more

/-- `alloc_vmap_area`; `mem` says whether `kmalloc_node` succeeds. -/
def allocVmapArea (s : Space) (req : Request) (mem : Bool) (purge : List Area)
    (more : List (List Area × List Area)) : Except Bug (Space × Result) :=
  if req.size = 0 then .error .noSize
  else if req.size % pageSize ≠ 0 then .error .partialPage
  else if isPowerOf2 req.align = false then .error .notPowerOf2
  else if mem = false then .ok (s, .nomem)
  else rounds req s purge more

end

end LinuxNote.Vmalloc
