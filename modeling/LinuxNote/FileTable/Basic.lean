import LinuxNote.Lib.Bitmap
import Mathlib.Algebra.Group.Nat.Defs

/-! The descriptor table of `fs/file.c`. A table has an array of `struct file` pointers and three
    bitmaps. The arrays of a new table hold whatever the memory held before; positions outside of an
    array are null or clear, and a call that uses one faults. A call holds `file_lock` except where
    `expand_files` drops it, to allocate a larger table or to wait until another thread has done so. A
    call is therefore cut into stretches that run under the lock. -/

namespace LinuxNote.FileTable
open Bitmap Function

/-- `BITS_PER_LONG`. -/
def bitsPerLong : ℕ := 64

/-- `sizeof(struct file *)`. -/
def ptrSize : ℕ := 8

/-- `BITS_PER_BYTE`. -/
def bitsPerByte : ℕ := 8

/-- The number of values of an `unsigned int`. -/
def uintSize : ℕ := 2 ^ 32

/-- `BITS_TO_LONGS`. -/
def bitsToLongs (nr : ℕ) : ℕ := (nr + bitsPerLong - 1) / bitsPerLong

/-- `BITBIT_NR`. -/
def bitbitNr (nr : ℕ) : ℕ := bitsToLongs (bitsToLongs nr)

/-- `BITBIT_SIZE`. -/
def bitbitSize (nr : ℕ) : ℕ := bitbitNr nr * (bitsPerLong / bitsPerByte)

/-- `sysctl_nr_open_max`. -/
def nrOpenMax : ℕ := 2 ^ 31 - bitsPerLong

/-- A value of `sysctl_nr_open`, which is kept between `sysctl_nr_open_min` and `sysctl_nr_open_max`. -/
structure NrOpen where
  val : ℕ
  min_le : bitsPerLong ≤ val
  le_max : val ≤ nrOpenMax

/-- `struct fdtable`. -/
structure Fdtable (File : Type) where
  maxFds : ℕ
  fd : ℕ → Option File
  closeOnExec : ℕ → Bool
  openFds : ℕ → Bool
  fullFdsBits : ℕ → Bool

/-- `struct files_struct`. -/
structure FilesStruct (File : Type) where
  resizeInProgress : Bool
  fdt : Fdtable File
  nextFd : ℕ

inductive Errno where
  | emfile | enomem | ebadf | ebusy | einval
  deriving DecidableEq

/-- A call that goes wrong: a `BUG_ON`, an access outside of an array, a thread that waits for itself, or
    a call that grows the table again and again. -/
inductive Fault where
  | bug | bounds | hang | fuel
  deriving DecidableEq

variable {File : Type}

/-- `init_files`. -/
def initFiles : FilesStruct File where
  resizeInProgress := false
  fdt := ⟨bitsPerLong, fun _ => none, fun _ => false, fun _ => false, fun _ => false⟩
  nextFd := 0

/-! ### Copying and allocating tables -/

/-- `memcpy` of the first `n` cells of an array and `memset` of the `m` cells after them. -/
def copyCells {α : Type} (dst src : ℕ → α) (zero : α) (n m : ℕ) : ℕ → α := fun i =>
  if i < n then src i else if i < n + m then zero else dst i

/-- `copy_fd_bitmaps`; a byte has eight cells of a bitmap. -/
def copyFdBitmaps (nfdt ofdt : Fdtable File) (count : ℕ) : Fdtable File :=
  let cpy := count / bitsPerByte
  let set := (nfdt.maxFds + uintSize - count) % uintSize / bitsPerByte
  let cpy' := bitbitSize count
  let set' := (bitbitSize nfdt.maxFds + uintSize - cpy') % uintSize
  { nfdt with
    openFds := copyCells nfdt.openFds ofdt.openFds false (bitsPerByte * cpy) (bitsPerByte * set)
    closeOnExec :=
      copyCells nfdt.closeOnExec ofdt.closeOnExec false (bitsPerByte * cpy) (bitsPerByte * set)
    fullFdsBits :=
      copyCells nfdt.fullFdsBits ofdt.fullFdsBits false (bitsPerByte * cpy') (bitsPerByte * set') }

/-- `copy_fdtable`; the byte counts are `unsigned int`s. -/
def copyFdtable (nfdt ofdt : Fdtable File) : Except Fault (Fdtable File) :=
  if nfdt.maxFds < ofdt.maxFds then .error .bug
  else
    let cpy := ofdt.maxFds * ptrSize % uintSize
    let set := (nfdt.maxFds - ofdt.maxFds) * ptrSize % uintSize
    let nfdt := { nfdt with fd := copyCells nfdt.fd ofdt.fd none (cpy / ptrSize) (set / ptrSize) }
    .ok (copyFdBitmaps nfdt ofdt ofdt.maxFds)

/-- `fls_long`. -/
def flsLong (n : ℕ) : ℕ := if n = 0 then 0 else Nat.log2 n + 1

/-- `roundup_pow_of_two`. -/
def roundupPowOfTwo (n : ℕ) : ℕ := 2 ^ flsLong (n - 1)

/-- The size that `alloc_fdtable` chooses. -/
def fdtableSize (nrOpen : NrOpen) (nr : ℕ) : ℕ :=
  let nr := nr / (1024 / ptrSize)
  let nr := roundupPowOfTwo (nr + 1)
  let nr := nr * (1024 / ptrSize) % uintSize
  if nr > nrOpen.val then (((nrOpen.val - 1) ||| (bitsPerLong - 1)) + 1) % uintSize else nr

/-- What `alloc_fdtable` finds: `sysctl_nr_open`, and what the memory it gets holds. -/
structure Memory (File : Type) where
  nrOpen : NrOpen
  fd : ℕ → Option File
  closeOnExec : ℕ → Bool
  openFds : ℕ → Bool
  fullFdsBits : ℕ → Bool

/-- `alloc_fdtable` when all its allocations succeed. -/
def allocFdtable (mem : Memory File) (nr : ℕ) : Fdtable File :=
  let nr := fdtableSize mem.nrOpen nr
  { maxFds := nr
    fd := fun i => if i < nr then mem.fd i else none
    closeOnExec := fun i => decide (i < nr) && mem.closeOnExec i
    openFds := fun i => decide (i < nr) && mem.openFds i
    fullFdsBits := fun w => decide (w < bitsPerLong * bitbitNr nr) && mem.fullFdsBits w }

/-! ### Expanding the table -/

/-- How a round of `expand_files` ends: the table is large enough, the descriptor is beyond
    `sysctl_nr_open`, another thread resizes the table, or this thread has to. -/
inductive Expand where
  | enough | full | wait | resize
  deriving DecidableEq

/-- `expand_files` from `repeat` to where it returns or drops the lock. -/
def expandFiles (nrOpen : NrOpen) (files : FilesStruct File) (nr : ℕ) : Expand :=
  if nr < files.fdt.maxFds then .enough
  else if nr ≥ nrOpen.val then .full
  else if files.resizeInProgress then .wait
  else .resize

/-- `expand_fdtable` from where it takes the lock again, and the end of `expand_files`. `mem` is what
    `alloc_fdtable` found, and `none` when it failed. -/
def expandFdtable (mem : Option (Memory File)) (nr : ℕ) (files : FilesStruct File) :
    Except Fault (Except Errno Unit × FilesStruct File) :=
  let files := { files with resizeInProgress := false }
  match mem with
  | none => .ok (.error .enomem, files)
  | some mem =>
    let newFdt := allocFdtable mem nr
    if newFdt.maxFds ≤ nr then .ok (.error .emfile, files)
    else if nr < files.fdt.maxFds then .error .bug
    else do
      let fdt ← copyFdtable newFdt files.fdt
      return (.ok (), { files with fdt })

/-! ### Single descriptors -/

/-- All bits of a word are ones. -/
def wordFull (bits : ℕ → Bool) (w : ℕ) : Bool :=
  (List.range bitsPerLong).all fun b => bits (bitsPerLong * w + b)

variable (fdt : Fdtable File)

/-- `__set_open_fd`. -/
def Fdtable.setOpenFd (fd : ℕ) : Fdtable File :=
  let openFds := update fdt.openFds fd true
  let w := fd / bitsPerLong
  { fdt with
    openFds
    fullFdsBits := if wordFull openFds w then update fdt.fullFdsBits w true else fdt.fullFdsBits }

/-- `__clear_open_fd`. -/
def Fdtable.clearOpenFd (fd : ℕ) : Fdtable File :=
  { fdt with
    openFds := update fdt.openFds fd false
    fullFdsBits := update fdt.fullFdsBits (fd / bitsPerLong) false }

/-- `__set_close_on_exec` and `__clear_close_on_exec`. -/
def Fdtable.putCloseOnExec (fd : ℕ) (cloexec : Bool) : Fdtable File :=
  { fdt with closeOnExec := update fdt.closeOnExec fd cloexec }

/-- `rcu_assign_pointer(fdt->fd[fd], file)`. -/
def Fdtable.putFile (fd : ℕ) (file : Option File) : Fdtable File :=
  { fdt with fd := update fdt.fd fd file }

/-- `fcheck_files`. -/
def fcheck (files : FilesStruct File) (fd : ℕ) : Option File :=
  if fd < files.fdt.maxFds then files.fdt.fd fd else none

/-- `find_next_fd`. -/
def findNextFd (start : ℕ) : ℕ :=
  let maxfd := fdt.maxFds
  let maxbit := maxfd / bitsPerLong
  let bitbit := findNext (fun w => !fdt.fullFdsBits w) maxbit (start / bitsPerLong) * bitsPerLong
  if bitbit > maxfd then maxfd
  else findNext (fun i => !fdt.openFds i) maxfd (if bitbit > start then bitbit else start)

/-- `__put_unused_fd`. -/
def putUnusedFd (fd : ℕ) (files : FilesStruct File) : Except Fault (FilesStruct File) :=
  if fd < files.fdt.maxFds then
    .ok { files with
      fdt := files.fdt.clearOpenFd fd
      nextFd := if fd < files.nextFd then fd else files.nextFd }
  else .error .bounds

/-- `__fd_install`, which stores into the current table whether or not a resize is in progress. -/
def fdInstall (fd : ℕ) (file : File) (files : FilesStruct File) : Except Fault (FilesStruct File) :=
  if fd < files.fdt.maxFds then
    if (files.fdt.fd fd).isSome then .error .bug
    else .ok { files with fdt := files.fdt.putFile fd (some file) }
  else .error .bounds

/-- `__close_fd`, with the file for `filp_close`. -/
def closeFd (fd : ℕ) (files : FilesStruct File) : Except Fault (Except Errno File × FilesStruct File) :=
  if fd ≥ files.fdt.maxFds then .ok (.error .ebadf, files)
  else
    match files.fdt.fd fd with
    | none => .ok (.error .ebadf, files)
    | some file => do
      let files ← putUnusedFd fd { files with fdt := files.fdt.putFile fd none }
      return (.ok file, files)

/-- The inner loop of `do_close_on_exec`, over `left` bits of a word; `set` is the word as it was
    read. -/
def closeBits (set : ℕ → Bool) : ℕ → ℕ → FilesStruct File → Except Fault (FilesStruct File)
  | 0, _, files => .ok files
  | left + 1, fd, files =>
    if set fd then
      match files.fdt.fd fd with
      | none => closeBits set left (fd + 1) files
      | some _ => do
        let files ← putUnusedFd fd { files with fdt := files.fdt.putFile fd none }
        closeBits set left (fd + 1) files
    else closeBits set left (fd + 1) files

/-- The outer loop of `do_close_on_exec`, over `left` words. -/
def closeWords : ℕ → ℕ → FilesStruct File → Except Fault (FilesStruct File)
  | 0, _, files => .ok files
  | left + 1, i, files => do
    let set := files.fdt.closeOnExec
    let fd := i * bitsPerLong
    let cleared := fun j => if j / bitsPerLong = i then false else set j
    let files ← closeBits set bitsPerLong fd
      { files with fdt := { files.fdt with closeOnExec := cleared } }
    closeWords left (i + 1) files

/-- `do_close_on_exec`: the words whose first bit is below `max_fds`, which nothing changes on the
    way. -/
def doCloseOnExec (files : FilesStruct File) : Except Fault (FilesStruct File) :=
  closeWords (bitsToLongs files.fdt.maxFds) 0 files

/-! ### Calls that may grow the table -/

/-- The calls, with the arguments that matter here: `end` is the limit of the caller, `flags` is cut down
    to `O_CLOEXEC` and whether any other flag is set. -/
inductive Call (File : Type) where
  | allocFd (start last : ℕ) (cloexec : Bool)
  | dup3 (oldfd newfd : ℕ) (cloexec otherFlags : Bool)
  | dup2 (oldfd newfd : ℕ)
  | replaceFd (fd : ℕ) (file : Option File) (cloexec : Bool)
  deriving DecidableEq

/-- Where a call is while it does not hold the lock: `alloc_fdtable` or `wait_event`. -/
inductive Gap where
  | resizing (nr : ℕ)
  | waiting (nr : ℕ)
  deriving DecidableEq

/-- How a stretch ends. -/
inductive Ending where
  | ret (r : Except Errno ℕ)
  | gap (g : Gap)

/-- What a call reads outside of the table: `sysctl_nr_open` and `rlimit(RLIMIT_NOFILE)`. -/
structure Limits where
  nrOpen : NrOpen
  rlimit : ℕ

variable (limits : Limits)

/-- A round of `expand_files` in a call: `rest` goes on when it returns. -/
def withRoom (nr : ℕ) (files : FilesStruct File)
    (rest : Except Errno Unit → Except Fault (Ending × FilesStruct File)) :
    Except Fault (Ending × FilesStruct File) :=
  match expandFiles limits.nrOpen files nr with
  | .enough => rest (.ok ())
  | .full => rest (.error .emfile)
  | .wait => .ok (.gap (.waiting nr), files)
  | .resize => .ok (.gap (.resizing nr), { files with resizeInProgress := true })

/-- The descriptor that `__alloc_fd` looks up. -/
def nextFree (start : ℕ) (files : FilesStruct File) : ℕ :=
  let fd := if start < files.nextFd then files.nextFd else start
  if fd < files.fdt.maxFds then findNextFd files.fdt fd else fd

/-- The end of `__alloc_fd`; a slot that is not null is reset. -/
def claimFd (start fd : ℕ) (cloexec : Bool) (files : FilesStruct File) :
    Except Fault (Ending × FilesStruct File) :=
  if fd < files.fdt.maxFds then
    .ok (.ret (.ok fd), { files with
      nextFd := if start ≤ files.nextFd then fd + 1 else files.nextFd
      fdt := ((files.fdt.setOpenFd fd).putCloseOnExec fd cloexec).putFile fd none })
  else .error .bounds

/-- `__alloc_fd` from `repeat` to where it returns or drops the lock. -/
def allocFd (start last : ℕ) (cloexec : Bool) (files : FilesStruct File) :
    Except Fault (Ending × FilesStruct File) :=
  let fd := nextFree start files
  if fd ≥ last then .ok (.ret (.error .emfile), files)
  else
    withRoom limits fd files fun
      | .error e => .ok (.ret (.error e), files)
      | .ok () => claimFd start fd cloexec files

/-- `do_dup2`. -/
def doDup2 (file : File) (fd : ℕ) (cloexec : Bool) (files : FilesStruct File) :
    Except Fault (Ending × FilesStruct File) :=
  if fd < files.fdt.maxFds then
    if (files.fdt.fd fd).isNone && files.fdt.openFds fd then .ok (.ret (.error .ebusy), files)
    else
      .ok (.ret (.ok fd), { files with
        fdt := ((files.fdt.putFile fd (some file)).setOpenFd fd).putCloseOnExec fd cloexec })
  else .error .bounds

/-- `ksys_dup3` from where `expand_files` has returned. -/
def dup3Rest (oldfd newfd : ℕ) (cloexec : Bool) (r : Except Errno Unit) (files : FilesStruct File) :
    Except Fault (Ending × FilesStruct File) :=
  match fcheck files oldfd with
  | none => .ok (.ret (.error .ebadf), files)
  | some file =>
    match r with
    | .error .emfile => .ok (.ret (.error .ebadf), files)
    | .error e => .ok (.ret (.error e), files)
    | .ok () => doDup2 file newfd cloexec files

/-- `replace_fd` from where `expand_files` has returned. -/
def replaceFdRest (fd : ℕ) (file : File) (cloexec : Bool) (r : Except Errno Unit)
    (files : FilesStruct File) : Except Fault (Ending × FilesStruct File) :=
  match r with
  | .error e => .ok (.ret (.error e), files)
  | .ok () => doDup2 file fd cloexec files

/-- `ksys_dup3`, its first stretch. -/
def ksysDup3 (oldfd newfd : ℕ) (cloexec otherFlags : Bool) (files : FilesStruct File) :
    Except Fault (Ending × FilesStruct File) :=
  if otherFlags then .ok (.ret (.error .einval), files)
  else if oldfd = newfd then .ok (.ret (.error .einval), files)
  else if newfd ≥ limits.rlimit then .ok (.ret (.error .ebadf), files)
  else withRoom limits newfd files fun r => dup3Rest oldfd newfd cloexec r files

/-- The first stretch of a call. The value of `filp_close` is left out of the result of `replace_fd`. -/
def Call.start (limits : Limits) (files : FilesStruct File) :
    Call File → Except Fault (Ending × FilesStruct File)
  | .allocFd start last cloexec => FileTable.allocFd limits start last cloexec files
  | .dup3 oldfd newfd cloexec otherFlags => ksysDup3 limits oldfd newfd cloexec otherFlags files
  | .dup2 oldfd newfd =>
    if newfd = oldfd then
      if (fcheck files oldfd).isSome then .ok (.ret (.ok oldfd), files)
      else .ok (.ret (.error .ebadf), files)
    else ksysDup3 limits oldfd newfd false false files
  | .replaceFd fd none _ => do
    let p ← closeFd fd files
    return (.ret (p.1.map fun _ => 0), p.2)
  | .replaceFd fd (some file) cloexec =>
    if fd ≥ limits.rlimit then .ok (.ret (.error .ebadf), files)
    else withRoom limits fd files fun r => replaceFdRest fd file cloexec r files

/-- A call goes on when `expand_files`, after a gap, returns an error or 1; `__alloc_fd` tries again. -/
def Call.rest (r : Except Errno Unit) (files : FilesStruct File) :
    Call File → Except Fault (Ending × FilesStruct File)
  | .allocFd start last cloexec =>
    match r with
    | .error e => .ok (.ret (.error e), files)
    | .ok () => FileTable.allocFd limits start last cloexec files
  | .dup3 oldfd newfd cloexec _ => dup3Rest oldfd newfd cloexec r files
  | .dup2 oldfd newfd => dup3Rest oldfd newfd false r files
  | .replaceFd _ none _ => .ok (.ret (.ok 0), files)
  | .replaceFd fd (some file) cloexec => replaceFdRest fd file cloexec r files

/-- The stretch after `wait_event`. -/
def Call.afterWait (nr : ℕ) (files : FilesStruct File) (c : Call File) :
    Except Fault (Ending × FilesStruct File) :=
  withRoom limits nr files fun r => c.rest limits r files

/-- The stretch after `alloc_fdtable`. -/
def Call.afterAlloc (mem : Option (Memory File)) (nr : ℕ) (files : FilesStruct File)
    (c : Call File) : Except Fault (Ending × FilesStruct File) := do
  let p ← expandFdtable mem nr files
  c.rest limits p.1 p.2

/-! ### Calls without other threads -/

/-- Go on with a call until it returns; there is nobody to wait for. -/
def Call.goOn (mem : Option (Memory File)) (c : Call File) :
    ℕ → Ending × FilesStruct File → Except Fault (Except Errno ℕ × FilesStruct File)
  | _, (.ret r, files) => .ok (r, files)
  | _, (.gap (.waiting _), _) => .error .hang
  | 0, (.gap (.resizing _), _) => .error .fuel
  | fuel + 1, (.gap (.resizing nr), files) => do
    let p ← c.afterAlloc limits mem nr files
    goOn mem c fuel p

/-- A whole call. A call grows the table at most once, so one unit of fuel is enough. -/
def Call.run (mem : Option (Memory File)) (c : Call File) (files : FilesStruct File) :
    Except Fault (Except Errno ℕ × FilesStruct File) := do
  let p ← c.start limits files
  c.goOn limits mem 1 p

end LinuxNote.FileTable
