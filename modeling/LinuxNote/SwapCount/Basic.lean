import Mathlib.Algebra.Group.Nat.Defs
import Mathlib.Logic.Function.Basic

/-! The reference counts of `mm/swapfile.c`. The count of a slot starts in its byte of `swap_map`. A
    count that does not fit is continued in further pages, which the page of `swap_map` keeps on a list;
    the slots of that page have their bytes at the same offset in each of them. `ι` are the slots of one
    page of `swap_map`. -/

namespace LinuxNote.SwapCount

abbrev Byte := BitVec 8

def swapMapMax : Byte := 0x3e#8

def swapMapBad : Byte := 0x3f#8

def swapMapShmem : Byte := 0xbf#8

def swapContMax : Byte := 0x7f#8

def countContinued : Byte := 0x80#8

def swapHasCache : Byte := 0x40#8

/-- The `BUG_ON`s and `VM_BUG_ON`s, and a list of continuation pages without a page. -/
inductive Bug
  | continuedWithoutPage
  | incrementAtHead
  | decrementOfOther
  | decrementAtHead
  | decrementOfZero
  | addToContinued
  | noCache
  | countWithoutPage
  | noPage
deriving DecidableEq

inductive Errno
  | einval
  | enoent
  | eexist
  | enomem
deriving DecidableEq

/-- A page of `swap_map` and the list of its continuation pages, none while `page_private` is not
    `SWP_CONTINUED`. -/
structure Area (ι : Type*) where
  swapMap : ι → Byte
  cont : Option (List (ι → Byte))

section
variable {ι : Type*} [DecidableEq ι] (a : Area ι)

def Area.put (s : ι) (b : Byte) : Area ι := { a with swapMap := Function.update a.swapMap s b }

/-- `*map = b` in a page. -/
def setMap (s : ι) (b : Byte) (page : ι → Byte) : ι → Byte := Function.update page s b

/-! ### `swap_count_continued` -/

omit [DecidableEq ι] in
/-- The walk along the list over the pages with `*map == b`. The pages behind are nearest first. -/
def forward (s : ι) (b : Byte) : List (ι → Byte) → List (ι → Byte) → List (ι → Byte) × List (ι → Byte)
  | behind, [] => (behind, [])
  | behind, page :: rest =>
    if page s = b then forward s b (page :: behind) rest else (behind, page :: rest)

/-- `*map += 1`, and the way back to the head. -/
def increment (s : ι) (behind : List (ι → Byte)) (page : ι → Byte) (rest : List (ι → Byte)) :
    List (ι → Byte) :=
  (behind.map (setMap s countContinued)).reverse ++ setMap s (page s + 1#8) page :: rest

/-- The way back to the head after `*map -= 1`, with the last `count`. -/
def borrow (s : ι) : List (ι → Byte) → Byte → List (ι → Byte) × Byte
  | [], count => ([], count)
  | page :: behind, count =>
    let (behind, last) := borrow s behind countContinued
    (setMap s (swapContMax ||| count) page :: behind, last)

/-- `*map -= 1`, and the way back to the head. -/
def decrement (s : ι) (behind : List (ι → Byte)) (page : ι → Byte) (rest : List (ι → Byte)) :
    Bool × List (ι → Byte) :=
  let page := setMap s (page s - 1#8) page
  let (behind, count) := borrow s behind (if page s = 0#8 then 0#8 else countContinued)
  (count = countContinued, behind.reverse ++ page :: rest)

/-- `swap_count_continued`. -/
def swapCountContinued (s : ι) (count : Byte) : Except Bug (Bool × Area ι) :=
  match a.cont with
  | none => if count &&& countContinued ≠ 0#8 then .error .continuedWithoutPage else .ok (false, a)
  | some pages =>
    if count = swapMapMax then
      match pages with
      | [] => .error .noPage
      | page :: rest => .ok (true, { a with cont := some (increment s [] (setMap s 0#8 page) rest) })
    else if count = swapMapMax ||| countContinued then
      match forward s (swapContMax ||| countContinued) [] pages with
      | (_, []) => .error .incrementAtHead
      | (behind, page :: rest) =>
        if page s = swapContMax then
          match rest with
          | [] => .ok (false, a)
          | next :: rest =>
            .ok (true, { a with cont := some (increment s (page :: behind) (setMap s 0#8 next) rest) })
        else .ok (true, { a with cont := some (increment s behind page rest) })
    else if count ≠ countContinued then .error .decrementOfOther
    else
      match forward s countContinued [] pages with
      | (_, []) => .error .decrementAtHead
      | (behind, page :: rest) =>
        if page s = 0#8 then .error .decrementOfZero
        else
          let (ret, pages) := decrement s behind page rest
          .ok (ret, { a with cont := some pages })

/-! ### Taking and dropping references -/

/-- `swap_count`. -/
def swapCount (ent : Byte) : Byte := ent &&& ~~~swapHasCache

/-- `__swap_duplicate` of a slot of the area. -/
def swapDuplicateOnce (s : ι) (usage : Byte) : Except Bug (Option Errno × Area ι) :=
  if swapCount (a.swapMap s) = swapMapBad then .ok (some .enoent, a)
  else
    let hasCache := a.swapMap s &&& swapHasCache
    let count := a.swapMap s &&& ~~~swapHasCache
    if usage = swapHasCache then
      if hasCache = 0#8 ∧ count ≠ 0#8 then .ok (none, a.put s (count ||| swapHasCache))
      else if hasCache ≠ 0#8 then .ok (some .eexist, a.put s (count ||| hasCache))
      else .ok (some .enoent, a.put s (count ||| hasCache))
    else if count ≠ 0#8 ∨ hasCache ≠ 0#8 then
      if count &&& ~~~countContinued < swapMapMax then .ok (none, a.put s ((count + usage) ||| hasCache))
      else if swapMapMax < count &&&
        ~~~countContinued then .ok (some .einval, a.put s (count ||| hasCache))
      else
        match swapCountContinued a s count with
        | .error b => .error b
        | .ok (true, a) => .ok (none, a.put s (countContinued ||| hasCache))
        | .ok (false, a) => .ok (some .enomem, a.put s (count ||| hasCache))
    else .ok (some .enoent, a.put s (count ||| hasCache))

omit [DecidableEq ι] in
/-- The loop of `add_swap_count_continuation`: whether it comes to the end of the list. -/
def needsPage (s : ι) : Byte → List (ι → Byte) → Bool
  | _, [] => true
  | count, page :: rest =>
    if count &&& countContinued = 0#8 then false
    else if page s &&& ~~~countContinued ≠ swapContMax then false
    else needsPage s (page s) rest

omit [DecidableEq ι] in
/-- `add_swap_count_continuation`, with what `alloc_page` has returned. -/
def addSwapCountContinuation (s : ι) (page : Option (ι → Byte)) : Except Bug (Option Errno × Area ι) :=
  if a.swapMap s = 0#8 then .ok (none, a)
  else
    let count := a.swapMap s &&& ~~~swapHasCache
    if count &&& ~~~countContinued ≠ swapMapMax then .ok (none, a)
    else
      match page with
      | none => .ok (some .enomem, a)
      | some page =>
        match a.cont with
        | none =>
          if count &&& countContinued ≠ 0#8 then .error .addToContinued
          else .ok (none, { a with cont := some [page] })
        | some pages =>
          if needsPage s count pages then .ok (none, { a with cont := some (pages ++ [page]) }) else
            .ok (none, a)

/-- `swap_duplicate`, at most `fuel` times around its loop. `pages` are what `alloc_page` returns. -/
def swapDuplicate : ℕ → (ℕ → Option (ι → Byte)) → Area ι → ι → Option
    (Except Bug (Option Errno × Area ι))
  | 0, _, _, _ => none
  | fuel + 1, pages, a, s =>
    match swapDuplicateOnce a s 1#8 with
    | .error b => some (.error b)
    | .ok (some .enomem, a) =>
      match addSwapCountContinuation a s (pages 0) with
      | .error b => some (.error b)
      | .ok (some err, a) => some (.ok (some err, a))
      | .ok (none, a) => swapDuplicate fuel (fun n => pages (n + 1)) a s
    -- every other error is taken for success
    | .ok (_, a) => some (.ok (none, a))

/-- `__swap_entry_free_locked`, with the usage that is left. -/
def swapEntryFreeLocked (s : ι) (usage : Byte) : Except Bug (Byte × Area ι) :=
  let hasCache := a.swapMap s &&& swapHasCache
  let count := a.swapMap s &&& ~~~swapHasCache
  let finish (a : Area ι) (usage : Byte) : Byte × Area ι :=
    (usage, a.put s (if usage ≠ 0#8 then usage else swapHasCache))
  if usage = swapHasCache then
    if hasCache = 0#8 then .error .noCache else .ok (finish a count)
  else if count = swapMapShmem then .ok (finish a hasCache)
  else if count &&& ~~~countContinued ≤ swapMapMax then
    if count = countContinued then
      match swapCountContinued a s count with
      | .error b => .error b
      | .ok (true, a) => .ok (finish a (swapMapMax ||| countContinued ||| hasCache))
      | .ok (false, a) => .ok (finish a (swapMapMax ||| hasCache))
    else .ok (finish a ((count - 1#8) ||| hasCache))
  else .ok (finish a (count ||| hasCache))

/-- `swap_free`. A slot with no usage left goes to `free_swap_slot`. -/
def swapFree (s : ι) : Except Bug (Area ι) :=
  if a.swapMap s = 0#8 then .ok a
  else
    match swapEntryFreeLocked a s 1#8 with
    | .error b => .error b
    | .ok (_, a) => .ok a

/-! ### `swp_swapcount` -/

omit [DecidableEq ι] in
/-- The loop over the continuation pages. `count` and `n` are `int`s. -/
def countPages (s : ι) : List (ι → Byte) → BitVec 32 → BitVec 32 → Except Bug (BitVec 32)
  | [], _, _ => .error .noPage
  | page :: rest, count, n =>
    let count := count + (page s &&& ~~~countContinued).zeroExtend 32 * n
    if page s &&& countContinued ≠
      0#8 then countPages s rest count (n * (swapContMax.zeroExtend 32 + 1#32))
    else .ok count

omit [DecidableEq ι] in
/-- `swp_swapcount`. -/
def swpSwapcount (s : ι) : Except Bug ℤ :=
  if a.swapMap s = 0#8 then .ok 0
  else
    let count := swapCount (a.swapMap s)
    if count &&& countContinued = 0#8 then .ok (count.zeroExtend 32).toInt
    else
      match a.cont with
      | none => .error .countWithoutPage
      | some pages =>
        let low := count &&& ~~~countContinued
        match countPages s pages (low.zeroExtend 32) (swapMapMax.zeroExtend 32 + 1#32) with
        | .error b => .error b
        | .ok count => .ok count.toInt

end

end LinuxNote.SwapCount
