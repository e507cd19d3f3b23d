import LinuxNote.Lib.Forest
import Mathlib.Data.Nat.Bitwise

/-! The resource tree of `kernel/resource.c`. A tree is its root and the forest of the root's children.
    Each node keeps the parent pointer it has in memory, as the address of the parent; the child and
    sibling pointers are the structure of the forest. Operations that the code starts at a pointer start
    at the node with that address, and the ones that follow a parent pointer look the parent up. -/

namespace LinuxNote.ResourceTree

/-- `struct resource`. `id` is its address, and `name` the address of its name; `stop` is `end`, the
    last address it covers. -/
structure Resource where
  id : ℕ
  start : ℕ
  stop : ℕ
  name : ℕ
  flags : BitVec 64
  desc : ℕ
  parent : Option ℕ
  deriving DecidableEq

abbrev Resources := Forest Resource

/-- A root with its children. -/
structure Tree where
  root : Resource
  child : Resources
  deriving DecidableEq

/-- What a call returns: 0 or a negative error code. `bug` is the `BUG_ON` of
    `reallocate_resource`, and `fuel` a loop that was not given enough rounds. -/
inductive Status where
  | ok | busy | inval | nomem | bug | fuel
  deriving DecidableEq

/-- The largest `resource_size_t`. -/
def sizeMax : ℕ := 2 ^ 64 - 1

/-- `a + 1` in 64 bits. -/
def succ64 (a : ℕ) : ℕ := (a + 1) % 2 ^ 64

/-- `a - 1` in 64 bits. -/
def pred64 (a : ℕ) : ℕ := (a + sizeMax) % 2 ^ 64

/-- `start + n - 1` in 64 bits, the end of a range of `n` addresses. -/
def rangeEnd (start n : ℕ) : ℕ := (start + n + sizeMax) % 2 ^ 64

/-- `ALIGN`. -/
def alignUp (x a : ℕ) : ℕ := ((x + pred64 a) % 2 ^ 64) &&& (sizeMax - pred64 a)

def ioresourceTypeBits : BitVec 64 := 0x1f00
def ioresourceExtTypeBits : BitVec 64 := 0x01000000
def ioresourceMem : BitVec 64 := 0x200
def ioresourceMuxed : BitVec 64 := 0x00400000
def ioresourceSysram : BitVec 64 := 0x01000000
def ioresourceUnset : BitVec 64 := 0x20000000
def ioresourceBusy : BitVec 64 := 0x80000000

variable (r : Resource)

/-- `resource_type`. -/
def Resource.type : BitVec 64 := r.flags &&& ioresourceTypeBits

/-- `resource_ext_type`. -/
def Resource.extType : BitVec 64 := r.flags &&& ioresourceExtTypeBits

/-- The flag bits are set. -/
def Resource.has (bits : BitVec 64) : Bool := r.flags &&& bits != 0

def Resource.busy : Bool := r.has ioresourceBusy

/-- `resource_contains`. -/
def resourceContains (r₁ r₂ : Resource) : Bool :=
  if r₁.type ≠ r₂.type then false
  else if r₁.has ioresourceUnset || r₂.has ioresourceUnset then false
  else r₁.start ≤ r₂.start ∧ r₁.stop ≥ r₂.stop

/-- Replace the range of a resource. -/
def Resource.move (start stop : ℕ) : Resource := { r with start := start, stop := stop }

/-- Set the parent pointer. -/
def Resource.under (p : ℕ) : Resource := { r with parent := some p }

/-- Set the parent pointers of all resources of a list. -/
def reparent (p : Option ℕ) (kids : Resources) : Resources := kids.mapTop fun r => { r with parent := p }

/-! ### Requests and releases -/

/-- The loop of `__request_resource` over the children; a conflict is returned. The new resource keeps
    its child pointer, and so the children `child` that it comes with. -/
def requestLoop (new : Resource) (child : Resources) : Resources → Except Resource Resources
  | .nil => .ok (.cons new child .nil)
  | .cons tmp c s =>
    if tmp.start > new.stop then .ok (.cons new child (.cons tmp c s))
    else if tmp.stop < new.start then (requestLoop new child s).map (.cons tmp c)
    else .error tmp

variable (root : Resource)

/-- The range is empty or not inside of `root`. -/
def outside (start stop : ℕ) : Prop :=
  stop < start ∨ start < root.start ∨ stop > root.stop

instance (start stop : ℕ) : Decidable (outside root start stop) :=
  inferInstanceAs (Decidable (_ ∨ _))

/-- `__request_resource`, on the children of `root`. -/
def requestResource (root new : Resource) (child kids : Resources) : Except Resource Resources :=
  if outside root new.start new.stop then .error root
  else requestLoop (new.under root.id) child kids

/-- The loop of `__release_resource` over the children of the parent; `none` when `old` is not there. -/
def releaseLoop (old : ℕ) (releaseChild : Bool) : Resources → Option Resources
  | .nil => none
  | .cons tmp c s =>
    if tmp.id = old then
      if releaseChild ∨ c = .nil then some s
      else some ((reparent tmp.parent c).append s)
    else (releaseLoop old releaseChild s).map (.cons tmp c)

/-- The siblings from `first` on that start in the range of `new`, which becomes their parent, and the
    siblings after them. A sibling that is not inside of `new` is a conflict. -/
def adopt (new : Resource) : Resources → Except Resource (Resources × Resources)
  | .nil => .ok (.nil, .nil)
  | .cons next c s =>
    if next.start > new.stop then .ok (.nil, .cons next c s)
    else if next.start < new.start ∨ next.stop > new.stop then .error next
    else (adopt new s).map fun p => (.cons (next.under new.id) c p.1, p.2)

/-- The loop of `__insert_resource`. It runs `__request_resource` on the children of the node `parent`;
    with a conflict that has more than the range of `new` it goes on below that one, and any other
    conflict is to become a child of `new`, in place of the children that `new` comes with. -/
def insertLoop (new : Resource) (child : Resources) (parent : ℕ) : Resources → Except Resource Resources
  | .nil => .ok (.cons (new.under parent) child .nil)
  | .cons first c s =>
    if first.start > new.stop then .ok (.cons (new.under parent) child (.cons first c s))
    else if first.stop < new.start then (insertLoop new child parent s).map (.cons first c)
    else if (first.start > new.start ∨ first.stop < new.stop) ∨
        (first.start = new.start ∧ first.stop = new.stop) then
      (adopt new (.cons first c s)).map fun p => .cons (new.under parent) p.1 p.2
    else (insertLoop new child first.id c).map fun c => .cons first c s

/-- `__insert_resource`, on the children of `parent`. -/
def insertResource (parent new : Resource) (child kids : Resources) : Except Resource Resources :=
  if outside parent new.start new.stop then .error parent
  else insertLoop new child parent.id kids

/-! ### Adjusting a resource in place -/

/-- Some child sticks out of the range. -/
def sticksOut (start stop : ℕ) (c : Resources) : Bool :=
  c.siblings.any fun tmp => tmp.start < start ∨ tmp.stop > stop

variable (parent : Resource)

/-- The checks of `__adjust_resource` for a child of `parent` with children `c`, between the siblings
    `prev` and those of `s`. -/
def canAdjust (prev : Option Resource) (c s : Resources) (start stop : ℕ) : Bool :=
  !(decide (start < parent.start ∨ stop > parent.stop) ||
    s.siblings.head?.any (fun next => decide (next.start ≤ stop)) ||
    prev.any (fun tmp => decide (start ≤ tmp.stop)) || sticksOut start stop c)

/-- `__adjust_resource` of the child `res` of `parent`. -/
def adjustLoop (res start stop : ℕ) : Option Resource → Resources → Status × Resources
  | _, .nil => (.busy, .nil)
  | prev, .cons r c s =>
    if r.id = res then
      if canAdjust parent prev c s start stop then (.ok, .cons (r.move start stop) c s)
      else (.busy, .cons r c s)
    else
      let p := adjustLoop res start stop (some r) s
      (p.1, .cons r c p.2)

/-! ### Finding a slot -/

/-- `struct resource_constraint`. -/
structure Constraint where
  min : ℕ
  max : ℕ
  align : ℕ
  alignf : Resource → ℕ → ℕ → ℕ

/-- One round of `__find_resource`: a place in `[start, stop]` after clipping, and the start that
    clipping leaves. -/
def trySlot (new : Resource) (size : ℕ) (con : Constraint) (start stop : ℕ) : Option (ℕ × ℕ) × ℕ :=
  if stop < start then (none, start)
  else
    let start := if start < con.min then con.min else start
    let stop := if stop > con.max then con.max else stop
    let avail := { new with start := alignUp start con.align, stop := stop,
                            flags := new.flags &&& ~~~ioresourceUnset }
    if avail.start ≥ start then
      let alloc := avail.move (con.alignf avail size con.align)
        (rangeEnd (con.alignf avail size con.align) size)
      if alloc.start ≤ alloc.stop ∧ resourceContains avail alloc then
        (some (alloc.start, alloc.stop), start)
      else (none, start)
    else (none, start)

/-- The loop of `__find_resource`, with `tmp.start` in `start`. -/
def findLoop (old : Option ℕ) (new : Resource) (size : ℕ) (con : Constraint) :
    ℕ → Resources → Option (ℕ × ℕ)
  | start, .nil => (trySlot new size con start root.stop).1
  | start, .cons this _ s =>
    let stop := if some this.id = old then this.stop else pred64 this.start
    let slot := trySlot new size con start stop
    if slot.1.isSome then slot.1
    else if this.stop = root.stop then none
    else findLoop old new size con (if some this.id = old then slot.2 else succ64 this.stop) s

/-- `__find_resource`, on the children of `root`. -/
def findResource (old : Option ℕ) (new : Resource) (size : ℕ) (con : Constraint)
    (kids : Resources) : Option (ℕ × ℕ) :=
  match kids with
  | .nil => findLoop root old new size con root.start .nil
  | .cons this c s =>
    if this.start = root.start then
      findLoop root old new size con (if some this.id = old then this.start else succ64 this.stop) s
    else findLoop root old new size con root.start (.cons this c s)

/-- The child `id` and its own children. -/
def childAt (id : ℕ) : Resources → Option (Resource × Resources)
  | .nil => none
  | .cons r c s => if r.id = id then some (r, c) else childAt id s

/-- Give the child `id` another range, where it is. -/
def moveChild (id start stop : ℕ) (kids : Resources) : Resources :=
  kids.mapTop fun r => if r.id = id then r.move start stop else r

/-- `reallocate_resource` of the child `old` of `root`. -/
def reallocateResource (old size : ℕ) (con : Constraint) (kids : Resources) : Status × Resources :=
  match childAt old kids with
  | none => (.inval, kids)
  | some (o, c) =>
    match findResource root (some old) o size con kids with
    | none => (.busy, kids)
    | some (start, stop) =>
      let new := o.move start stop
      if resourceContains new o then (.ok, moveChild old start stop kids)
      else if c ≠ .nil then (.busy, kids)
      else if resourceContains o new then (.ok, moveChild old start stop kids)
      else
        let rest := (releaseLoop old true kids).getD kids
        match requestResource root new .nil rest with
        | .ok kids => (.ok, kids)
        | .error _ => (.bug, rest)

/-- `allocate_resource` of a resource that is not in the tree yet. -/
def allocateNew (root new : Resource) (child : Resources) (size : ℕ) (con : Constraint)
    (kids : Resources) : Status × Resources :=
  match findResource root none new size con kids with
  | none => (.busy, kids)
  | some (start, stop) =>
    match requestResource root (new.move start stop) child kids with
    | .ok kids => (.ok, kids)
    | .error _ => (.busy, kids)

/-! ### Busy regions -/

/-- The loop of `__reserve_region_with_split`. `allocs` are the results of the calls of
    `alloc_resource` still to come; `none` when `fuel` runs out. -/
def splitLoop : ℕ → List (Option ℕ) → Resource → Option Resource → Resources → Option Resources
  | 0, _, _, _, _ => none
  | fuel + 1, allocs, res, nextRes, kids =>
    match requestResource root res .nil kids with
    | .ok kids =>
      match nextRes with
      | none => some kids
      | some nextRes => splitLoop fuel allocs nextRes none kids
    | .error conflict =>
      if conflict.start ≤ res.start ∧ conflict.stop ≥ res.stop then some kids
      else if conflict.start > res.start then
        let lower := { res with stop := pred64 conflict.start }
        if conflict.stop < res.stop then
          match allocs.head?.join with
          | none => some kids
          | some id =>
            let upper := { res with id := id, start := succ64 conflict.stop }
            splitLoop fuel allocs.tail lower (some upper) kids
        else splitLoop fuel allocs lower nextRes kids
      else splitLoop fuel allocs { res with start := succ64 conflict.stop } nextRes kids

/-- `__reserve_region_with_split`. Each round takes away from what is still to be reserved, so the
    length of the range is enough fuel. -/
def reserveSplit (allocs : List (Option ℕ)) (start stop name : ℕ) (kids : Resources) :
    Option Resources :=
  match allocs.head?.join with
  | none => some kids
  | some id =>
    splitLoop root (stop - start + 2) allocs.tail
      ⟨id, start, stop, name, root.type ||| ioresourceBusy, 0, none⟩ none kids

/-- `reserve_region_with_split`: the part of the range that is in `root` is reserved. -/
def reserveRegionWithSplit (allocs : List (Option ℕ)) (start stop name : ℕ)
    (kids : Resources) : Option Resources :=
  if root.start > start ∨ root.stop < stop then
    if start > root.stop ∨ stop < root.start then some kids
    else reserveSplit root allocs (max start root.start) (min stop root.stop) name kids
  else reserveSplit root allocs start stop name kids

/-- The region that `__request_region` tries to put below `parent`. -/
def regionUnder (id start stop name : ℕ) (flags : BitVec 32) : Resource :=
  ⟨id, start, stop, name, parent.type ||| parent.extType ||| (ioresourceBusy ||| flags.setWidth 64),
    parent.desc, some parent.id⟩

/-- The loop of `__request_region`, on the children of `parent`: a conflict that is not busy is the next
    parent. -/
def requestRegionLoop (id start stop name : ℕ) (flags : BitVec 32) (parent : Resource) :
    Resources → Except Resource Resources
  | .nil => .ok (.cons (regionUnder parent id start stop name flags) .nil .nil)
  | .cons tmp c s =>
    if tmp.start > stop then
      .ok (.cons (regionUnder parent id start stop name flags) .nil (.cons tmp c s))
    else if tmp.stop < start then
      (requestRegionLoop id start stop name flags parent s).map (.cons tmp c)
    else if tmp.busy then .error tmp
    else if outside tmp start stop then .error tmp
    else (requestRegionLoop id start stop name flags tmp c).map fun c => .cons tmp c s

/-- What `__request_region` comes back with; `wait` is the sleep on a muxed region. -/
inductive RegionResult where
  | null | region (id : ℕ) | wait
  deriving DecidableEq

/-- What comes of a conflict. -/
def onConflict (conflict : Resource) (flags : BitVec 32) : RegionResult :=
  if conflict.has (flags.setWidth 64 &&& ioresourceMuxed) then .wait else .null

/-- `__request_region` of the range `[start, stop]`, with a new resource `id`. -/
def requestRange (id start stop name : ℕ) (flags : BitVec 32) (kids : Resources) :
    RegionResult × Resources :=
  if outside parent start stop then (onConflict parent flags, kids)
  else match requestRegionLoop id start stop name flags parent kids with
    | .ok kids => (.region id, kids)
    | .error conflict => (onConflict conflict flags, kids)

variable (alloc : Option ℕ)

/-- `__request_region`, with the result of `alloc_resource`. -/
def requestRegion (start n name : ℕ) (flags : BitVec 32) (kids : Resources) : RegionResult × Resources :=
  match alloc with
  | none => (.null, kids)
  | some id => requestRange parent id start (rangeEnd start n) name flags kids

/-- The loop of `__release_region`; `none` for a region that does not exist. -/
def releaseRegionLoop (start stop : ℕ) : Resources → Option Resources
  | .nil => none
  | .cons res c s =>
    if res.start ≤ start ∧ res.stop ≥ stop then
      if !res.busy then (releaseRegionLoop start stop c).map fun c => .cons res c s
      else if res.start ≠ start ∨ res.stop ≠ stop then none
      else some s
    else (releaseRegionLoop start stop s).map (.cons res c)

/-- `__release_region`. -/
def releaseRegion (start n : ℕ) (kids : Resources) : Resources :=
  (releaseRegionLoop start (rangeEnd start n) kids).getD kids

/-- `__adjust_resource` of `r`, as `release_mem_region_adjustable` calls it; `f` says what the list is
    with the adjusted resource. -/
def adjustThen (prev : Option Resource) (r : Resource) (c s : Resources)
    (start size : ℕ) (f : Resource → Resources) : Status × Resources :=
  if canAdjust parent prev c s start (rangeEnd start size) then
    (.ok, f (r.move start (rangeEnd start size)))
  else (.busy, .cons r c s)

/-- The adjustments of `release_mem_region_adjustable` to the busy resource `res` that has the range;
    `alloc` is what `alloc_resource` returned. -/
def releaseMemFrom (start stop : ℕ) (parent : Resource) (prev : Option Resource)
    (res : Resource) (c s : Resources) : Status × Resources :=
  if res.start = start ∧ res.stop = stop then (.ok, s)
  else if res.start = start then
    adjustThen parent prev res c s (succ64 stop) (res.stop - stop) fun r => .cons r c s
  else if res.stop = stop then
    adjustThen parent prev res c s res.start (start - res.start) fun r => .cons r c s
  else match alloc with
    | none => (.nomem, .cons res c s)
    | some id =>
      adjustThen parent prev res c s res.start (start - res.start) fun r =>
        .cons r c (.cons { res with id := id, start := succ64 stop } .nil s)

/-- The loop of `release_mem_region_adjustable`. -/
def releaseMemLoop (start stop : ℕ) (parent : Resource) (prev : Option Resource) :
    Resources → Status × Resources
  | .nil => (.inval, .nil)
  | .cons res c s =>
    if res.start ≥ stop then (.inval, .cons res c s)
    else if res.start > start ∨ res.stop < stop then
      ((releaseMemLoop start stop parent (some res) s).1,
        .cons res c (releaseMemLoop start stop parent (some res) s).2)
    else if !res.has ioresourceSysram then (.ok, .cons res c s)
    else if !res.has ioresourceMem then (.inval, .cons res c s)
    else if !res.busy then
      ((releaseMemLoop start stop res none c).1, .cons res (releaseMemLoop start stop res none c).2 s)
    else releaseMemFrom alloc start stop parent prev res c s

/-- `release_mem_region_adjustable`, on the children of `parent`. -/
def releaseMemRegionAdjustable (start size : ℕ) (kids : Resources) : Status × Resources :=
  let stop := rangeEnd start size
  if start < parent.start ∨ stop > parent.stop then (.inval, kids)
  else releaseMemLoop alloc start stop parent none kids

end LinuxNote.ResourceTree
