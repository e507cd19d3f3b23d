import LinuxNote.Lib.Generator
import LinuxNote.Memblock.Add

/-! The iterators `__next_mem_range` and `__next_mem_range_rev`. Both walk the regions of `type_a` and
    the areas before, between and after the regions of `type_b` in lockstep, and pack the two cursors
    into one `u64`: the low half is the index into `type_a`, the high half the index of the area. The
    cursors are `int`s, so reading them back and moving them wraps at 32 bits, and the forward loops
    compare them with an `unsigned long`. -/

namespace LinuxNote.Memblock

/-- What the functions of the file read besides the region arrays: build constants, and globals that
    other code may change between two calls. `kmalloc` gives the physical address of a new block. -/
structure Env where
  maxNumNodes : ℤ
  pageShift : ℕ
  smpCacheBytes : ℕ
  kernelEnd : ℕ
  movableNodeIsEnabled : Bool
  systemHasSomeMirror : Bool
  canResize : Bool
  slabIsAvailable : Bool
  kmalloc : ℕ → Option ℕ
  bottomUp : Bool
  currentLimit : ℕ
  pageShift_lt : pageShift < 64
  kernelEnd_le : kernelEnd ≤ physAddrMax
  currentLimit_le : currentLimit ≤ physAddrMax

variable (env : Env)

/-- `PAGE_SIZE`. -/
def Env.pageSize : ℕ := 2 ^ env.pageShift

/-- A machine with one node's worth of plain memory before slab is up, for concrete runs. -/
def plainEnv : Env where
  maxNumNodes := 64
  pageShift := 12
  smpCacheBytes := 64
  kernelEnd := 0
  movableNodeIsEnabled := false
  systemHasSomeMirror := false
  canResize := true
  slabIsAvailable := false
  kmalloc := fun _ => none
  bottomUp := false
  currentLimit := physAddrMax
  pageShift_lt := by decide
  kernelEnd_le := by decide
  currentLimit_le := le_rfl

/-- `NUMA_NO_NODE`. -/
def numaNoNode : ℤ := -1

/-- `ULLONG_MAX`. -/
def ullongMax : ℕ := 2 ^ 64 - 1

/-- The largest `int`. -/
def intMax : ℕ := 2 ^ 31 - 1

/-- A number stored in an `int`. -/
def toInt (i : ℤ) : ℤ := i.bmod (2 ^ 32)

/-- An `int` converted to `u32`. -/
def u32 (i : ℤ) : ℕ := (i % 2 ^ 32).toNat

/-- An `int` converted to `u64`, as for a comparison with an `unsigned long`. -/
def u64 (i : ℤ) : ℕ := (i % 2 ^ 64).toNat

/-- `(u32)idx_a | (u64)idx_b << 32`. -/
def pack (idxA idxB : ℤ) : ℕ := u32 idxA ||| (u64 idxB <<< 32) % 2 ^ 64

/-- `int idx_a = *idx & 0xffffffff`. -/
def unpackA (idx : ℕ) : ℤ := toInt (idx &&& 0xffffffff : ℕ)

/-- `int idx_b = *idx >> 32`. -/
def unpackB (idx : ℕ) : ℤ := toInt (idx >>> 32 : ℕ)

/-- `l[i]` for an `int` index. -/
def rgnAt (l : List Region) (i : ℤ) : Option Region := if i < 0 then none else l[i.toNat]?

variable (m : Region)

def isHotpluggable : Bool := m.flags &&& memblockHotplug ≠ 0
def isMirror : Bool := m.flags &&& memblockMirror ≠ 0
def isNomap : Bool := m.flags &&& memblockNomap ≠ 0

/-- The node selector after the deprecation check. -/
def fixNid (nid : ℤ) : ℤ := if nid = env.maxNumNodes then numaNoNode else nid

/-- The four `continue`s: the regions of `type_a` that are not asked for. -/
def skips (nid : ℤ) (flags : Flags) (m : Region) : Bool :=
  (nid ≠ numaNoNode && nid ≠ m.nid) ||
  (env.movableNodeIsEnabled && isHotpluggable m) ||
  (flags &&& memblockMirror ≠ 0 && !isMirror m) ||
  (!(flags &&& memblockNomap ≠ 0) && isNomap m)

variable (l : List Region)

/-- `r_start`, the start of the area before the region with index `i`. -/
def areaStart (i : ℤ) : Option ℕ :=
  if i = 0 then some 0 else (rgnAt l (i - 1)).map Region.rend

/-- `r_end`, the end of that area; the area after the last region has no end of its own. -/
def areaStop (i : ℤ) : Option ℕ :=
  if u64 i < l.length then (rgnAt l i).map Region.base else some physAddrMax

def areaAt (i : ℤ) : Option (ℕ × ℕ) :=
  (areaStart l i).bind fun start => (areaStop l i).map fun stop => (start, stop)

/-- What an iteration hands out: `*out_start`, `*out_end` and `*out_nid`. -/
structure Range where
  start : ℕ
  stop : ℕ
  nid : ℤ
  deriving DecidableEq

/-- The part of region `m` in the area `g`. -/
def meet (g : ℕ × ℕ) : Range := ⟨max m.base g.1, min m.rend g.2, m.nid⟩

/-- The inner loop of `__next_mem_range`: the area index it stops at and the area it hit. -/
def scanAreas : ℕ → ℤ → ℤ × Option (ℕ × ℕ)
  | 0, idxB => (idxB, none)
  | n + 1, idxB =>
    if u64 idxB < l.length + 1 then
      match areaAt l idxB with
      | none => (idxB, none)
      | some g =>
        if g.1 ≥ m.rend then (idxB, none)
        else if m.base < g.2 then (idxB, some g)
        else scanAreas n (toInt (idxB + 1))
    else (idxB, none)

/-- The outer loop of `__next_mem_range`. -/
def nextLoop (nid : ℤ) (flags : Flags) (la : List Region) (lb : Option (List Region)) :
    ℕ → ℤ → ℤ → Option (Range × ℕ)
  | 0, _, _ => none
  | n + 1, idxA, idxB =>
    if u64 idxA < la.length then
      match rgnAt la idxA with
      | none => none
      | some m =>
        if skips env nid flags m then nextLoop nid flags la lb n (toInt (idxA + 1)) idxB
        else match lb with
          | none => some (⟨m.base, m.rend, m.nid⟩, pack (toInt (idxA + 1)) idxB)
          | some l =>
            match scanAreas m l (l.length + 2) idxB with
            | (j, some g) => some (meet m g,
                -- the region which ends first is advanced for the next iteration
                if m.rend ≤ g.2 then pack (toInt (idxA + 1)) j else pack idxA (toInt (j + 1)))
            | (j, none) => nextLoop nid flags la lb n (toInt (idxA + 1)) j
    else none

/-- `__next_mem_range`: the range found and the new `*idx`, or `none` when `*idx` becomes
    `ULLONG_MAX` at the end of the iteration. -/
def nextMemRange (nid : ℤ) (flags : Flags) (la : List Region)
    (lb : Option (List Region)) (idx : ℕ) : Option (Range × ℕ) :=
  nextLoop env (fixNid env nid) flags la lb (la.length + 1) (unpackA idx) (unpackB idx)

/-- The inner loop of `__next_mem_range_rev`. -/
def scanAreasRev : ℕ → ℤ → ℤ × Option (ℕ × ℕ)
  | 0, idxB => (idxB, none)
  | n + 1, idxB =>
    if idxB ≥ 0 then
      match areaAt l idxB with
      | none => (idxB, none)
      | some g =>
        if g.2 ≤ m.base then (idxB, none)
        else if m.rend > g.1 then (idxB, some g)
        else scanAreasRev n (toInt (idxB - 1))
    else (idxB, none)

/-- The outer loop of `__next_mem_range_rev`. -/
def nextLoopRev (nid : ℤ) (flags : Flags) (la : List Region)
    (lb : Option (List Region)) : ℕ → ℤ → ℤ → Option (Range × ℕ)
  | 0, _, _ => none
  | n + 1, idxA, idxB =>
    if idxA ≥ 0 then
      match rgnAt la idxA with
      | none => none
      | some m =>
        if skips env nid flags m then nextLoopRev nid flags la lb n (toInt (idxA - 1)) idxB
        else match lb with
          | none => some (⟨m.base, m.rend, m.nid⟩, pack (toInt (idxA - 1)) idxB)
          | some l =>
            match scanAreasRev m l (l.length + 2) idxB with
            | (j, some g) => some (meet m g,
                if m.base ≥ g.1 then pack (toInt (idxA - 1)) j else pack idxA (toInt (j - 1)))
            | (j, none) => nextLoopRev nid flags la lb n (toInt (idxA - 1)) j
    else none

/-- `__next_mem_range_rev`; `*idx = ULLONG_MAX` starts from the last region and the last area. -/
def nextMemRangeRev (nid : ℤ) (flags : Flags) (la : List Region)
    (lb : Option (List Region)) (idx : ℕ) : Option (Range × ℕ) :=
  let idxA := if idx = ullongMax then toInt ((la.length : ℤ) - 1) else unpackA idx
  let idxB := if idx = ullongMax then (match lb with | some l => toInt l.length | none => 0)
    else unpackB idx
  nextLoopRev env (fixNid env nid) flags la lb (la.length + 1) idxA idxB

/-- The test of the `for_each` macros: an index of `ULLONG_MAX` ends the loop. -/
def untilMax (next : ℕ → Option (Range × ℕ)) (idx : ℕ) : Option (Range × ℕ) :=
  match next idx with
  | none => none
  | some (r, idx') => if idx' = ullongMax then none else some (r, idx')

/-- `for_each_mem_range`: the ranges handed out and the values the loop variable takes. -/
def forEachMemRange (nid : ℤ) (flags : Flags) (la : List Region)
    (lb : Option (List Region)) (n : ℕ) : Option (List (Range × ℕ)) :=
  Generator.run (untilMax (nextMemRange env nid flags la lb)) n 0

/-- `for_each_mem_range_rev`. -/
def forEachMemRangeRev (nid : ℤ) (flags : Flags) (la : List Region)
    (lb : Option (List Region)) (n : ℕ) : Option (List (Range × ℕ)) :=
  Generator.run (untilMax (nextMemRangeRev env nid flags la lb)) n ullongMax

end LinuxNote.Memblock
