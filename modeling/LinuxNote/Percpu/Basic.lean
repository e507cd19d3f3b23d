import LinuxNote.Lib.Bitmap
import Mathlib.Algebra.Group.Nat.Defs

/-! The area allocator of `mm/percpu.c`. A chunk is cut into units of `PCPU_MIN_ALLOC_SIZE` bytes, with
    one bit each in the allocation map. The boundary map marks where areas start and end, so that the
    size of an area need not be stored. The map is divided into blocks of equal size, and each block has
    metadata about the free runs inside it. -/

namespace LinuxNote.Percpu

open Function

open Bitmap (findNext)

/-- The constants of `linux/percpu.h`. Blocks and pages are powers of two of units. -/
class Config where
  /-- `PCPU_MIN_ALLOC_SIZE`. -/
  minAllocSize : ℕ
  minAllocSize_pos : 0 < minAllocSize
  blockShift : ℕ
  pageShift : ℕ

export Config (minAllocSize minAllocSize_pos blockShift pageShift)

/-- `struct pcpu_block_md`. -/
structure BlockMd where
  contigHint : ℕ
  contigHintStart : ℕ
  leftFree : ℕ
  rightFree : ℕ
  firstFree : ℕ
deriving DecidableEq

/-- `struct pcpu_chunk`, with the number of its blocks in place of its pages. -/
structure Chunk where
  nrBlocks : ℕ
  allocMap : ℕ → Bool
  boundMap : ℕ → Bool
  mdBlocks : ℕ → BlockMd
  freeBytes : ℤ
  firstBit : ℕ
  contigBits : ℕ
  contigBitsStart : ℕ

/-- A search that does not come to an end. -/
inductive Fault
  | endless
deriving DecidableEq

section
variable [Config]

/-- `PCPU_BITMAP_BLOCK_BITS`. -/
def blockBits : ℕ := 2 ^ blockShift

/-- `PCPU_BITS_PER_PAGE`. -/
def bitsPerPage : ℕ := 2 ^ pageShift

def pageSize : ℕ := bitsPerPage * minAllocSize

/-- `pcpu_chunk_map_bits`. -/
def Chunk.mapBits (c : Chunk) : ℕ := c.nrBlocks * blockBits

end

/-! ### Bitmaps -/

/-- `ALIGN`. -/
def alignUp (x a : ℕ) : ℕ := (x + (a - 1)) / a * a

/-- `ALIGN_DOWN`. -/
def alignDown (x a : ℕ) : ℕ := x / a * a

/-- `__ffs` of a `long`. -/
def ffs (x : ℕ) : ℕ := findNext x.testBit 64 0

variable (map : ℕ → Bool)

def findNextBit (size start : ℕ) : ℕ := findNext map size start

def findNextZeroBit (size start : ℕ) : ℕ := findNext (fun i => !map i) size start

def lastBit : ℕ → Option ℕ
  | 0 => none
  | i + 1 => if map i then some i else lastBit i

/-- `find_last_bit`: `size` when there is none. -/
def findLastBit (size : ℕ) : ℕ := (lastBit map size).getD size

def bitmapSet (start nr : ℕ) : ℕ → Bool :=
  fun i => if start ≤ i ∧ i < start + nr then true else map i

def bitmapClear (start nr : ℕ) : ℕ → Bool :=
  fun i => if start ≤ i ∧ i < start + nr then false else map i

/-- `bitmap_find_next_zero_area`: the first place from `start` on for `nr` zero bits that end at `size`
    or before, and `none` for the value beyond `size` that stands for a failure. -/
def bitmapFindNextZeroArea (size start nr alignMask : ℕ) : Option ℕ :=
  let index := findNext (fun i => i &&& alignMask == 0 && (List.range nr).all fun k => !map (i + k))
    (size + 1 - nr) start
  if index + nr ≤ size then some index else none

/-- `pcpu_next_unpop`: the next region of zero bits. -/
def nextUnpop (rs stop : ℕ) : ℕ × ℕ :=
  let rs := findNextZeroBit map stop rs
  (rs, findNextBit map stop (rs + 1))

section
variable [Config] (c : Chunk)

/-- `pcpu_index_alloc_map`. -/
def indexAllocMap (index : ℕ) : ℕ → Bool := fun j => c.allocMap (index * blockBits + j)

def offToBlockIndex (off : ℕ) : ℕ := off / blockBits

def offToBlockOff (off : ℕ) : ℕ := off % blockBits

def blockOffToOff (index off : ℕ) : ℕ := index * blockBits + off

/-! ### The metadata of a block -/

/-- `pcpu_block_update`: `[start, stop)` is a whole free area of the block. -/
def blockUpdate (block : BlockMd) (start stop : ℕ) : BlockMd :=
  let contig := stop - start
  let block := { block with firstFree := min block.firstFree start }
  let block := if start = 0 then { block with leftFree := contig } else block
  let block := if stop = blockBits then { block with rightFree := contig } else block
  if contig > block.contigHint then
    { block with contigHintStart := start, contigHint := contig }
  else if block.contigHintStart ≠ 0 ∧ contig = block.contigHint ∧
      (start = 0 ∨ ffs start > ffs block.contigHintStart) then
    { block with contigHintStart := start }
  else block

def refreshLoop : ℕ → ℕ → BlockMd → BlockMd
  | 0, _, block => block
  | rounds + 1, rs, block =>
    let region := nextUnpop map rs blockBits
    if region.1 < region.2 then
      refreshLoop rounds (region.2 + 1) (blockUpdate block region.1 region.2)
    else block

/-- `pcpu_block_refresh_hint`. There are not more regions than bits. -/
def blockRefreshHint (block : BlockMd) : BlockMd :=
  refreshLoop map (blockBits + 1) block.firstFree
    { block with contigHint := 0, leftFree := 0, rightFree := 0 }

/-- The block an allocation starts in. `same` says that it also ends there. -/
def allocStartBlock (sOff eOff bits : ℕ) (same : Bool) (block : BlockMd) : BlockMd :=
  let block := if sOff = block.firstFree then
      { block with firstFree := findNextZeroBit map blockBits (sOff + bits) }
    else block
  if block.contigHintStart ≤ sOff ∧ sOff < block.contigHintStart + block.contigHint then
    blockRefreshHint map block
  else
    { block with
      leftFree := min block.leftFree sOff
      rightFree := if same then min block.rightFree (blockBits - eOff) else 0 }

/-- The block an allocation ends in, when it starts in an earlier one. -/
def allocEndBlock (eOff : ℕ) (block : BlockMd) : BlockMd :=
  let block := { block with firstFree := findNextZeroBit map blockBits eOff }
  if eOff = blockBits then block
  else if eOff > block.contigHintStart then blockRefreshHint map block
  else { block with leftFree := 0, rightFree := min block.rightFree (blockBits - eOff) }

/-- Where the free area begins that ends at `sOff`. -/
def freeStart (sOff : ℕ) (block : BlockMd) : ℕ :=
  if sOff = block.contigHint + block.contigHintStart then block.contigHintStart
  else
    let lBit := findLastBit map sOff
    if sOff = lBit then 0 else lBit + 1

/-- Where the free area ends that begins at `eOff`. -/
def freeStop (eOff : ℕ) (block : BlockMd) : ℕ :=
  if eOff = block.contigHintStart then block.contigHintStart + block.contigHint
  else findNextBit map blockBits eOff

/-- The metadata of the blocks from `first` to before `stop` is changed. -/
def updateBetween (md : ℕ → BlockMd) (first stop : ℕ) (f : BlockMd → BlockMd) : ℕ → BlockMd :=
  fun i => if first ≤ i ∧ i < stop then f (md i) else md i

/-- The metadata of the first block of an area is changed, and when the area goes on beyond it that of
    the last block and then that of the blocks from the second one to before `stop`. -/
def updateBlocks (md : ℕ → BlockMd) (sIndex eIndex stop : ℕ) (sBlock eBlock : BlockMd)
    (f : BlockMd → BlockMd) : ℕ → BlockMd :=
  let md := update md sIndex sBlock
  if sIndex ≠ eIndex then updateBetween (update md eIndex eBlock) (sIndex + 1) stop f else md

/-! ### The hint of the chunk -/

def nextMdLoop : ℕ → ℕ → ℕ → ℕ → ℕ → ℕ × ℕ
  | 0, _, _, bitOff, bits => (bitOff, bits)
  | left + 1, i, blockOff, bitOff, bits =>
    let block := c.mdBlocks i
    if bits ≠ 0 then
      -- the area goes on across blocks
      if block.leftFree = blockBits then nextMdLoop left (i + 1) blockOff bitOff (bits + block.leftFree)
      else (bitOff, bits + block.leftFree)
    else if block.contigHint ≠ 0 ∧ blockOff ≤ block.contigHintStart ∧
        block.contigHint + block.contigHintStart < blockBits then
      (blockOffToOff i block.contigHintStart, block.contigHint)
    else nextMdLoop left (i + 1) 0 ((i + 1) * blockBits - block.rightFree) block.rightFree

/-- `pcpu_next_md_free_region`: offset and size of the next free area by the metadata. -/
def nextMdFreeRegion (bitOff : ℕ) : ℕ × ℕ :=
  nextMdLoop c (c.nrBlocks - offToBlockIndex bitOff) (offToBlockIndex bitOff)
    (offToBlockOff bitOff) bitOff 0

/-- `pcpu_chunk_update`. -/
def chunkUpdate (bitOff bits : ℕ) : Chunk :=
  if bits > c.contigBits then { c with contigBitsStart := bitOff, contigBits := bits }
  else if bits = c.contigBits ∧ c.contigBitsStart ≠ 0 ∧
      (bitOff = 0 ∨ ffs bitOff > ffs c.contigBitsStart) then
    { c with contigBitsStart := bitOff }
  else c

def chunkRefreshLoop : ℕ → ℕ → Chunk → Chunk
  | 0, _, c => c
  | rounds + 1, bitOff, c =>
    let region := nextMdFreeRegion c bitOff
    if region.1 < c.mapBits then
      chunkRefreshLoop rounds (region.1 + region.2 + 1) (chunkUpdate c region.1 region.2)
    else c

/-- `pcpu_chunk_refresh_hint`. There are not more areas than bits. -/
def chunkRefreshHint : Chunk :=
  chunkRefreshLoop (c.mapBits + 1) c.firstBit { c with contigBits := 0 }

/-! ### The updates on allocation and on free -/

/-- The metadata of the blocks when `bits` bits from `bitOff` on have been allocated. -/
def allocMdBlocks (bitOff bits : ℕ) : ℕ → BlockMd :=
  let sIndex := offToBlockIndex bitOff
  let eIndex := offToBlockIndex (bitOff + bits - 1)
  let sOff := offToBlockOff bitOff
  let eOff := offToBlockOff (bitOff + bits - 1) + 1
  -- a last block without a free bit is cleared like the blocks between
  updateBlocks c.mdBlocks sIndex eIndex (if eOff = blockBits then eIndex + 1 else eIndex)
    (allocStartBlock (indexAllocMap c sIndex) sOff eOff bits (sIndex == eIndex) (c.mdBlocks sIndex))
    (allocEndBlock (indexAllocMap c eIndex) eOff (c.mdBlocks eIndex))
    fun block => { block with contigHint := 0, leftFree := 0, rightFree := 0 }

/-- `pcpu_block_update_hint_alloc`. -/
def blockUpdateHintAlloc (bitOff bits : ℕ) : Chunk :=
  let c := { c with mdBlocks := allocMdBlocks c bitOff bits }
  if c.contigBitsStart ≤ bitOff ∧
    bitOff < c.contigBitsStart + c.contigBits then chunkRefreshHint c else c

/-- The metadata of the blocks when `bits` bits from `bitOff` on have been freed. The freed area is part
    of the free area from `start` in its first block to `stop` in its last one. -/
def freeMdBlocks (bitOff bits start stop : ℕ) : ℕ → BlockMd :=
  let sIndex := offToBlockIndex bitOff
  let eIndex := offToBlockIndex (bitOff + bits - 1)
  updateBlocks c.mdBlocks sIndex eIndex eIndex
    (blockUpdate (c.mdBlocks sIndex) start (if sIndex = eIndex then stop else blockBits))
    (blockUpdate (c.mdBlocks eIndex) 0 stop)
    fun _ => {
      firstFree := 0, contigHintStart := 0, contigHint := blockBits, leftFree := blockBits
      rightFree := blockBits }

/-- `pcpu_block_update_hint_free`. -/
def blockUpdateHintFree (bitOff bits : ℕ) : Chunk :=
  let sIndex := offToBlockIndex bitOff
  let eIndex := offToBlockIndex (bitOff + bits - 1)
  let sOff := offToBlockOff bitOff
  let eOff := offToBlockOff (bitOff + bits - 1) + 1
  let start := freeStart (indexAllocMap c sIndex) sOff (c.mdBlocks sIndex)
  let stop := freeStop (indexAllocMap c eIndex) eOff (c.mdBlocks eIndex)
  let c := { c with mdBlocks := freeMdBlocks c bitOff bits start stop }
  if alignDown stop (min bitsPerPage blockBits) > alignUp start (min bitsPerPage blockBits) ∨
      sIndex ≠ eIndex then chunkRefreshHint c
  else chunkUpdate c (blockOffToOff sIndex start) (c.mdBlocks sIndex).contigHint

/-! ### Where to search -/

def nextFitLoop (allocBits align : ℕ) : ℕ → ℕ → ℕ → ℕ → ℕ → ℕ × ℕ
  | 0, _, _, _, bits => (c.mapBits, bits)
  | left + 1, i, blockOff, bitOff, bits =>
    let block := c.mdBlocks i
    if bits ≠ 0 ∧ allocBits ≤ bits + block.leftFree then (bitOff, bits + block.leftFree)
    else if bits ≠ 0 ∧ block.leftFree = blockBits then
      nextFitLoop allocBits align left (i + 1) blockOff bitOff (bits + block.leftFree)
    else
      let pad := alignUp block.contigHintStart align - block.contigHintStart
      if block.contigHint ≠ 0 ∧ blockOff ≤ block.contigHintStart ∧
        pad + allocBits ≤ block.contigHint then
        (blockOffToOff i block.firstFree, pad + allocBits + block.contigHintStart - block.firstFree)
      else
        let off := alignUp (blockBits - block.rightFree) align
        let bits := blockBits - off
        if allocBits ≤ bits then (blockOffToOff i off, bits)
        else nextFitLoop allocBits align left (i + 1) 0 (blockOffToOff i off) bits

/-- `pcpu_next_fit_region`. -/
def nextFitRegion (allocBits align bitOff : ℕ) : ℕ × ℕ :=
  nextFitLoop c allocBits align (c.nrBlocks - offToBlockIndex bitOff) (offToBlockIndex bitOff)
    (offToBlockOff bitOff) bitOff 0

/-- `pcpu_is_populated`: `none` when the pages are populated, and the offset to go on with when not. -/
def isPopulated (populated : ℕ → Bool) (bitOff bits : ℕ) : Option ℕ :=
  let pageStart := bitOff * minAllocSize / pageSize
  let pageEnd := ((bitOff + bits) * minAllocSize + (pageSize - 1)) / pageSize
  let region := nextUnpop populated pageStart pageEnd
  if region.1 ≥ pageEnd then none else some (region.2 * pageSize / minAllocSize)

def fitLoop (populated : ℕ → Bool) (allocBits align : ℕ) (popOnly : Bool) :
    ℕ → ℕ × ℕ → Except Fault ℕ
  | 0, _ => .error .endless
  | rounds + 1, (bitOff, bits) =>
    if bitOff < c.mapBits then
      if popOnly then
        match isPopulated populated bitOff bits with
        | none => .ok bitOff
        | some nextOff =>
          fitLoop populated allocBits align popOnly rounds (nextFitRegion c allocBits align nextOff)
      else .ok bitOff
    else .ok bitOff

/-- `pcpu_find_block_fit`, for at most `rounds` regions; `none` stands for `-1`. -/
def findBlockFit (rounds : ℕ) (c : Chunk) (populated : ℕ → Bool) (allocBits align : ℕ) (popOnly : Bool) :
    Except Fault (Option ℕ) :=
  if alignUp c.contigBitsStart align - c.contigBitsStart + allocBits > c.contigBits then .ok none
  else
    match fitLoop c populated allocBits align popOnly rounds
      (nextFitRegion c allocBits align c.firstBit) with
    | .error e => .error e
    | .ok bitOff => .ok (if bitOff = c.mapBits then none else some bitOff)

/-! ### Areas -/

/-- The maps and the counters when the area at `bitOff` is allocated. -/
def markArea (bitOff allocBits : ℕ) : Chunk :=
  let allocMap := bitmapSet c.allocMap bitOff allocBits
  let boundMap := update c.boundMap bitOff true
  let boundMap := bitmapClear boundMap (bitOff + 1) (allocBits - 1)
  let boundMap := update boundMap (bitOff + allocBits) true
  { c with
    allocMap := allocMap
    boundMap := boundMap
    freeBytes := c.freeBytes - allocBits * minAllocSize
    firstBit := if bitOff = c.firstBit then findNextZeroBit allocMap c.mapBits (bitOff + allocBits)
      else c.firstBit }

/-- `pcpu_alloc_area`: the offset of the area in bytes, and `none` for `-1`. -/
def allocArea (allocBits align start : ℕ) : Option (ℕ × Chunk) :=
  let alignMask := if align = 0 then 0 else align - 1
  let stop := start + allocBits + blockBits
  match bitmapFindNextZeroArea c.allocMap stop start allocBits alignMask with
  | none => none
  | some bitOff =>
    some (bitOff * minAllocSize, blockUpdateHintAlloc (markArea c bitOff allocBits) bitOff allocBits)

/-- The map and the counters when `bits` bits from `bitOff` on are freed. -/
def clearArea (bitOff bits : ℕ) : Chunk :=
  { c with
    allocMap := bitmapClear c.allocMap bitOff bits
    freeBytes := c.freeBytes + bits * minAllocSize
    firstBit := min c.firstBit bitOff }

/-- `pcpu_free_area`. -/
def freeArea (off : ℕ) : Chunk :=
  let bitOff := off / minAllocSize
  let stop := findNextBit c.boundMap c.mapBits (bitOff + 1)
  let bits := stop - bitOff
  blockUpdateHintFree (clearArea c bitOff bits) bitOff bits

/-- `pcpu_init_md_blocks`. -/
def initMdBlocks : Chunk :=
  { c with mdBlocks := updateBetween c.mdBlocks 0 c.nrBlocks fun block =>
      { block with contigHint := blockBits, leftFree := blockBits, rightFree := blockBits } }

/-- `pcpu_alloc_chunk`: the maps and the metadata are zeroed, and `other` is the memory behind the
    maps. -/
def allocChunk (nrBlocks : ℕ) (other : ℕ → Bool) : Chunk :=
  let regionBits := nrBlocks * blockBits
  initMdBlocks
    { nrBlocks
      allocMap := bitmapClear other 0 regionBits
      boundMap := bitmapClear other 0 (regionBits + 1)
      mdBlocks := fun _ => ⟨0, 0, 0, 0, 0⟩
      freeBytes := regionBits * minAllocSize
      firstBit := 0
      contigBits := regionBits
      contigBitsStart := 0 }

end

end LinuxNote.Percpu
