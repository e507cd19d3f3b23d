import Mathlib.Algebra.Group.Nat.Defs
import Mathlib.Algebra.Ring.Int.Defs

/-! The list of VMAs of an address space, `mm/mmap.c`: `__vma_adjust` moves the boundaries of a VMA and
    of the one after it, `vma_merge` extends the neighbours of a range over it, and `do_munmap` takes a
    range out. A VMA is pointed to by its position on the list, and a position behind the last one is
    `NULL`. -/

namespace LinuxNote.Mmap

/-- The architecture and the configuration. The last page of the addresses is never part of a task. -/
class Config where
  pageShift : ℕ
  taskSize : ℕ
  sysctlMaxMapCount : ℕ
  memSoftDirty : Bool
  taskSize_le : taskSize + 2 ^ pageShift ≤ 2 ^ 64

export Config (pageShift taskSize sysctlMaxMapCount memSoftDirty taskSize_le)

/-- Pages of 4096 bytes and 47 bits of addresses. -/
@[reducible] def x86 : Config := ⟨12, 2 ^ 47 - 4096, 65530, true, by decide⟩

/-- The methods of `vm_ops` that are asked for. -/
structure VmOps where
  close : Bool
  split : Bool
deriving DecidableEq

/-- `struct vm_area_struct`. Files, policies, `anon_vma`s and userfaultfd contexts are named by numbers,
    policies by their contents. Of the list `anon_vma_chain` there is its length. -/
structure Vma where
  vmStart : ℕ
  vmEnd : ℕ
  vmPgoff : BitVec 64
  vmFlags : BitVec 64
  vmFile : Option ℕ
  vmPolicy : Option ℕ
  anonVma : Option ℕ
  anonVmaChain : ℕ
  vmOps : Option VmOps
  vmUserfaultfdCtx : Option ℕ
deriving DecidableEq

/-- `struct mm_struct`. -/
structure Mm where
  mmap : List Vma
  mapCount : ℕ
  lockedVm : BitVec 64
deriving DecidableEq

inductive Errno
  | einval
  | enomem
  | other (code : ℕ)
deriving DecidableEq

/-- `BUG()` where an inserted VMA meets another, and the use of a `NULL` VMA. -/
inductive Bug
  | overlap
  | null
deriving DecidableEq

/-- `VM_IO | VM_DONTEXPAND | VM_PFNMAP | VM_MIXEDMAP`. -/
def vmSpecial : BitVec 64 := 0x00004000#64 ||| 0x00040000#64 ||| 0x00000400#64 ||| 0x10000000#64

def vmLocked : BitVec 64 := 0x00002000#64

section
variable [Config]

def vmSoftdirty : BitVec 64 := if memSoftDirty then 0x08000000#64 else 0#64

def pageSize : ℕ := 2 ^ pageShift

/-- `x >> PAGE_SHIFT`. -/
def pages (x : ℕ) : ℕ := x / pageSize

/-- `PAGE_ALIGN`. -/
def pageAlign (x : ℕ) : ℕ := (x + (pageSize - 1)) % 2 ^ 64 / pageSize * pageSize

def vmaPages (vma : Vma) : ℕ := pages (vma.vmEnd - vma.vmStart)

end

/-! ### Searching and inserting -/

/-- `find_vma`: the first VMA that ends above `addr`. -/
def findVma (mm : Mm) (addr : ℕ) : ℕ := mm.mmap.findIdx fun v => addr < v.vmEnd

/-- `find_vma_links`: the place for `[addr, end)`, none if it is not free. -/
def findVmaLinks (mm : Mm) (addr endAddr : ℕ) : Option ℕ :=
  let i := findVma mm addr
  if (mm.mmap[i]?).any fun v => v.vmStart < endAddr then none else some i

/-- `__insert_vm_struct`. -/
def insertVmStruct (mm : Mm) (vma : Vma) : Except Bug Mm :=
  match findVmaLinks mm vma.vmStart vma.vmEnd with
  | none => .error .overlap
  | some i => .ok { mm with mmap := mm.mmap.insertIdx i vma, mapCount := mm.mapCount + 1 }

/-! ### `__vma_adjust` -/

/-- `anon_vma_clone`, with the VMA it has changed. A `dst` that fails has left all its `anon_vma`s. -/
def anonVmaClone (fails : Bool) (dst src : Vma) : Option Errno × Vma :=
  if fails then (some .enomem, { dst with anonVma := none, anonVmaChain := 0 })
  else (none, { dst with anonVmaChain := dst.anonVmaChain + src.anonVmaChain })

/-- The expanding VMA takes over the `anon_vma` of the one that shrinks. -/
def importAnonVma (fails : Bool) (exporter : Option Vma) (importer : Vma) : Option Errno × Vma :=
  match exporter with
  | none => (none, importer)
  | some exporter =>
    if exporter.anonVma.isSome && importer.anonVma.isNone then
      anonVmaClone fails { importer with anonVma := exporter.anonVma } exporter
    else (none, importer)

def Vma.put (vma : Vma) (start endAddr : ℕ) (pgoff : BitVec 64) : Vma :=
  { vma with vmStart := start, vmEnd := endAddr, vmPgoff := pgoff }

/-- Go on with the importer, or put back what a failed import has left of it. -/
def importing (fails : Bool) (mm : Mm) (exporter : Option Vma) (importer : Vma) (put : Vma → List Vma)
    (go : Vma → Except Bug Mm) : Except Bug (Option Errno × Mm) :=
  match importAnonVma fails exporter importer with
  | (some err, importer) => .ok (some err, { mm with mmap := put importer })
  | (none, importer) =>
    match go importer with
    | .error b => .error b
    | .ok mm => .ok (none, mm)

section
variable [Config]

/-- The start of `next` moves by `adjust_next` pages. -/
def Vma.shift (next : Vma) (adjustNext : ℤ) : Vma :=
  { next with vmStart := ((next.vmStart + adjustNext * pageSize) % 2 ^ 64).toNat,
              vmPgoff := next.vmPgoff + BitVec.ofInt 64 adjustNext }

/-- `__vma_adjust` where there is a VMA behind `vma` and none to insert. -/
def adjustWithNext (fails : Bool) (mm : Mm) (before : List Vma) (vma next : Vma) (rest : List Vma)
    (start endAddr : ℕ) (pgoff : BitVec 64) (expandNext : Bool) : Except Bug (Option Errno × Mm) :=
  if next.vmEnd ≤ endAddr then
    if expandNext then
      -- `remove_next == 3`: the two are swapped, and `vma` is removed
      importing fails mm (some vma) next (fun next => before ++ vma :: next :: rest) fun next =>
        .ok { mm with
          mmap := before ++ next.put start endAddr pgoff :: rest, mapCount := mm.mapCount - 1 }
    else if next.vmEnd < endAddr then
      -- `remove_next == 2`, in two passes
      let exporter := if next.anonVma.isNone then rest.head? else some next
      importing fails mm exporter vma (fun vma => before ++ vma :: next :: rest) fun vma =>
        match rest with
        | [] => .error .null
        | next' :: rest =>
          .ok { mm with
            mmap := before ++ (vma.put start next.vmEnd pgoff).put start next'.vmEnd pgoff :: rest
            mapCount := mm.mapCount - 1 - 1 }
    else
      -- `remove_next == 1`
      importing fails mm (some next) vma (fun vma => before ++ vma :: next :: rest) fun vma =>
        .ok { mm with
          mmap := before ++ vma.put start next.vmEnd pgoff :: rest, mapCount := mm.mapCount - 1 }
  else if next.vmStart < endAddr then
    -- the boundary moves up
    importing fails mm (some next) vma (fun vma => before ++ vma :: next :: rest) fun vma =>
      .ok { mm with
        mmap := before ++ vma.put start endAddr pgoff ::
          next.shift (pages (endAddr - next.vmStart)) :: rest }
  else if endAddr < vma.vmEnd then
    -- the boundary moves down
    importing fails mm (some vma) next (fun next => before ++ vma :: next :: rest) fun next =>
      .ok { mm with
        mmap := before ++ vma.put start endAddr pgoff ::
          next.shift (-(pages (vma.vmEnd - endAddr) : ℤ)) :: rest }
  else .ok (none, { mm with mmap := before ++ vma.put start endAddr pgoff :: next :: rest })

/-- `__vma_adjust` of the VMA at position `i`. -/
def vmaAdjust (fails : Bool) (mm : Mm) (i start endAddr : ℕ) (pgoff : BitVec 64) (insert : Option Vma)
    (expand : Option ℕ) : Except Bug (Option Errno × Mm) :=
  let before := mm.mmap.take i
  match mm.mmap.drop i, insert with
  | [], _ => .error .null
  | vma :: after, some new =>
    match insertVmStruct { mm with mmap := before ++ vma.put start endAddr pgoff :: after } new with
    | .error b => .error b
    | .ok mm => .ok (none, mm)
  | [vma], none => .ok (none, { mm with mmap := before ++ [vma.put start endAddr pgoff] })
  | vma :: next :: rest, none =>
    adjustWithNext fails mm before vma next rest start endAddr pgoff (expand = some (i + 1))

/-! ### `vma_merge` -/

/-- The arguments of `vma_merge` that say what is to be mapped. -/
structure Request where
  addr : ℕ
  endAddr : ℕ
  vmFlags : BitVec 64
  anonVma : Option ℕ
  file : Option ℕ
  pgoff : BitVec 64
  policy : Option ℕ
  vmUserfaultfdCtx : Option ℕ
deriving DecidableEq

def isMergeableVma (vma : Vma) (r : Request) : Bool :=
  (vma.vmFlags ^^^ r.vmFlags) &&& ~~~vmSoftdirty == 0#64
    && vma.vmFile == r.file
    && !(vma.vmOps.any (·.close))
    && vma.vmUserfaultfdCtx == r.vmUserfaultfdCtx

/-- `list_is_singular` of the chain of `vma` is asked only where there is a `vma`. -/
def isMergeableAnonVma (anonVma₁ anonVma₂ : Option ℕ) (vma : Option Vma) : Bool :=
  (anonVma₁.isNone || anonVma₂.isNone) && vma.all (·.anonVmaChain = 1) || anonVma₁ == anonVma₂

def canVmaMergeBefore (vma : Vma) (r : Request) (pgoff : BitVec 64) : Bool :=
  isMergeableVma vma r && isMergeableAnonVma r.anonVma vma.anonVma (some vma) && vma.vmPgoff == pgoff

def canVmaMergeAfter (vma : Vma) (r : Request) (pgoff : BitVec 64) : Bool :=
  isMergeableVma vma r && isMergeableAnonVma r.anonVma vma.anonVma (some vma)
    && vma.vmPgoff + BitVec.ofNat 64 (vmaPages vma) == pgoff

def Request.pglen (r : Request) : BitVec 64 := BitVec.ofNat 64 (pages (r.endAddr - r.addr))

/-- The predecessor can be extended over the range. -/
def mergesAfter (r : Request) (prev : Vma) : Bool :=
  prev.vmEnd == r.addr && prev.vmPolicy == r.policy && canVmaMergeAfter prev r r.pgoff

/-- The successor can be extended over the range. -/
def mergesBefore (r : Request) (next : Vma) : Bool :=
  r.endAddr == next.vmStart && r.policy == next.vmPolicy && canVmaMergeBefore next r (r.pgoff + r.pglen)

/-- The VMA that `vma_merge` returns, unless `__vma_adjust` has failed. -/
def merged (i : ℕ) : Except Bug (Option Errno × Mm) → Except Bug (Option ℕ × Mm)
  | .error b => .error b
  | .ok (some _, mm) => .ok (none, mm)
  | .ok (none, mm) => .ok (some i, mm)

/-- The VMA at `prev`, if it meets `cond`. -/
def prevIf (mm : Mm) (prev : Option ℕ) (cond : Vma → Bool) : Option (ℕ × Vma) :=
  match prev with
  | none => none
  | some i => ((mm.mmap[i]?).filter cond).map (i, ·)

/-- `prev ? prev->vm_next : mm->mmap`. -/
def behind : Option ℕ → ℕ
  | some i => i + 1
  | none => 0

/-- The VMA behind the range. -/
def nextOf (mm : Mm) (area : ℕ) (r : Request) : ℕ :=
  -- cases 6, 7, 8
  if (mm.mmap[area]?).any (·.vmEnd = r.endAddr) then area + 1 else area

/-- `vma_merge` with a predecessor `p`, at `i`, that can be extended. -/
def mergePrev (fails : Bool) (mm : Mm) (next i : ℕ) (p : Vma) (r : Request) :
    Except Bug (Option ℕ × Mm) :=
  match (mm.mmap[next]?).filter fun n => mergesBefore r n &&
    isMergeableAnonVma p.anonVma n.anonVma none with
  | some n =>
    -- cases 1, 6
    merged i (vmaAdjust fails mm i p.vmStart n.vmEnd p.vmPgoff none (some i))
  | none =>
    -- cases 2, 5, 7
    merged i (vmaAdjust fails mm i p.vmStart r.endAddr p.vmPgoff none (some i))

/-- `vma_merge` where the predecessor cannot be extended. -/
def mergeNext (fails : Bool) (mm : Mm) (prev : Option ℕ) (area next : ℕ) (r : Request) :
    Except Bug (Option ℕ × Mm) :=
  match (mm.mmap[next]?).filter (mergesBefore r) with
  | none => .ok (none, mm)
  | some n =>
    match prevIf mm prev fun p => r.addr < p.vmEnd with
    | some (i, p) =>
      -- case 4
      merged area (vmaAdjust fails mm i p.vmStart r.addr p.vmPgoff none (some next))
    | none =>
      -- cases 3, 8; in case 8 `area` is removed and `next` is in its place
      merged area (vmaAdjust fails mm area r.addr n.vmEnd (n.vmPgoff - r.pglen) none (some next))

/-- `vma_merge`, with the position of the VMA it returns. -/
def vmaMerge (fails : Bool) (mm : Mm) (prev : Option ℕ) (r : Request) : Except Bug (Option ℕ × Mm) :=
  if r.vmFlags &&& vmSpecial ≠ 0#64 then .ok (none, mm)
  else
    let area := behind prev
    let next := nextOf mm area r
    match prevIf mm prev (mergesAfter r) with
    | some (i, p) => mergePrev fails mm next i p r
    | none => mergeNext fails mm prev area next r

/-! ### `do_munmap` -/

/-- What the parts of `__split_vma` outside of this file return. -/
structure SplitEnv where
  split : Option Errno
  dupFails : Bool
  dupPolicy : Option Errno
  cloneFails : Bool
deriving DecidableEq

/-- The same for `__do_munmap`, with its two splits. -/
structure UnmapEnv where
  first : SplitEnv
  second : SplitEnv
  unmapPrep : Option Errno
deriving DecidableEq

/-- The VMA that `__split_vma` is to insert. -/
def splitNew (vma : Vma) (addr : ℕ) (newBelow : Bool) : Vma :=
  -- `vm_area_dup` starts a new chain
  let new := { vma with anonVmaChain := 0 }
  if newBelow then { new with vmEnd := addr }
  else { new with
    vmStart := addr, vmPgoff := new.vmPgoff + BitVec.ofNat 64 (pages (addr - vma.vmStart)) }

/-- `__split_vma`. -/
def splitVma (env : SplitEnv) (mm : Mm) (i addr : ℕ) (newBelow : Bool) :
    Except Bug (Option Errno × Mm) :=
  match mm.mmap[i]? with
  | none => .error .null
  | some vma =>
    match if vma.vmOps.any (·.split) then env.split else none with
    | some err => .ok (some err, mm)
    | none =>
      if env.dupFails then .ok (some .enomem, mm)
      else
        match env.dupPolicy with
        | some err => .ok (some err, mm)
        | none =>
          match anonVmaClone env.cloneFails (splitNew vma addr newBelow) vma with
          | (some err, _) => .ok (some err, mm)
          | (none, new) =>
            if newBelow then
              let pgoff := vma.vmPgoff + BitVec.ofNat 64 (pages (addr - new.vmStart))
              vmaAdjust false mm i addr vma.vmEnd pgoff (some new) none
            else vmaAdjust false mm i vma.vmStart addr vma.vmPgoff (some new) none

/-- The loop that counts the `mlock`ed pages out. -/
def munlock (endAddr : ℕ) : List Vma → BitVec 64 → BitVec 64
  | [], lockedVm => lockedVm
  | tmp :: l, lockedVm =>
    if tmp.vmStart < endAddr then
      munlock endAddr l
        (if tmp.vmFlags &&& vmLocked ≠ 0#64 then lockedVm - BitVec.ofNat 64 (vmaPages tmp) else lockedVm)
    else lockedVm

omit [Config] in
/-- The loop of `detach_vmas_to_be_unmapped` behind its first VMA. -/
def detachVmas (endAddr : ℕ) : List Vma → ℕ → List Vma × ℕ
  | [], mapCount => ([], mapCount)
  | vma :: l, mapCount => if vma.vmStart < endAddr then detachVmas endAddr l (mapCount - 1) else
      (vma :: l, mapCount)

variable (env : UnmapEnv)

/-- `__do_munmap` once the VMAs are split; `n` of them are up to `prev`. -/
def unmapVmas (mm : Mm) (n endAddr : ℕ) (uf downgrade : Bool) : Except Bug (Except Errno ℕ × Mm) :=
  match if uf then env.unmapPrep else none with
  | some err => .ok (.error err, mm)
  | none =>
    match mm.mmap.drop n with
    | [] => .error .null
    | vma :: l =>
      let lockedVm := if mm.lockedVm ≠ 0#64 then munlock endAddr (vma :: l) mm.lockedVm else mm.lockedVm
      let (l, mapCount) := detachVmas endAddr l (mm.mapCount - 1)
      .ok (.ok (if downgrade then 1 else 0), ⟨mm.mmap.take n ++ l, mapCount, lockedVm⟩)

/-- `__do_munmap` from the search for the last VMA on. -/
def splitLast (mm : Mm) (n endAddr : ℕ) (uf downgrade : Bool) : Except Bug (Except Errno ℕ × Mm) :=
  let last := findVma mm endAddr
  if (mm.mmap[last]?).any fun v => v.vmStart < endAddr then
    match splitVma env.second mm last endAddr true with
    | .error b => .error b
    | .ok (some err, mm) => .ok (.error err, mm)
    | .ok (none, mm) => unmapVmas env mm n endAddr uf downgrade
  else unmapVmas env mm n endAddr uf downgrade

/-- `__do_munmap` with an aligned length. -/
def unmapAligned (mm : Mm) (start len : ℕ) (uf downgrade : Bool) :
    Except Bug (Except Errno ℕ × Mm) :=
  let i := findVma mm start
  match mm.mmap[i]? with
  | none => .ok (.ok 0, mm)
  | some vma =>
    let endAddr := (start + len) % 2 ^ 64
    if endAddr ≤ vma.vmStart then .ok (.ok 0, mm)
    else if vma.vmStart < start then
      if endAddr < vma.vmEnd ∧ sysctlMaxMapCount ≤ mm.mapCount then .ok (.error .enomem, mm)
      else
        match splitVma env.first mm i start false with
        | .error b => .error b
        | .ok (some err, mm) => .ok (.error err, mm)
        -- `prev` is the lower part
        | .ok (none, mm) => splitLast env mm (i + 1) endAddr uf downgrade
    else splitLast env mm i endAddr uf downgrade

/-- `__do_munmap`. -/
def doMunmapDowngrade (mm : Mm) (start len : ℕ) (uf downgrade : Bool) :
    Except Bug (Except Errno ℕ × Mm) :=
  if start % pageSize ≠ 0 ∨ taskSize < start ∨ taskSize - start < len then .ok (.error .einval, mm)
  else if pageAlign len = 0 then .ok (.error .einval, mm)
  else unmapAligned env mm start (pageAlign len) uf downgrade

/-- `do_munmap`. -/
def doMunmap (mm : Mm) (start len : ℕ) (uf : Bool) : Except Bug (Except Errno ℕ × Mm) :=
  doMunmapDowngrade env mm start len uf false

end

end LinuxNote.Mmap
