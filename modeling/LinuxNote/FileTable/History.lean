import LinuxNote.FileTable.Calls
import LinuxNote.Lib.Outcome

/-! Histories of a table that one thread uses, from `init_files` on: what holds of every table they
    reach, and which descriptor `__alloc_fd` returns. -/

namespace LinuxNote.FileTable
open Function Prod

variable {File : Type} {files files' : FilesStruct File} {limits : Limits} {mem : Option (Memory File)}
  {c : Call File} {fd i nr last : ℕ}

/-! ### Whole calls -/

theorem Ends.kept {r : Except Errno ℕ} (h : Ends c files (.ret r, files')) : Kept files files' := by
  cases h with
  | same => exact .refl files
  | opens _ h _ | closes _ h _ => exact h.kept

theorem Sound.setResizing (h : Sound files) (b : Bool) : Sound { files with resizeInProgress := b } :=
  ⟨h.bitmaps, h.hint⟩

/-- The byte counts fit if the table has been replaced. -/
def GrowthFits (old new : ℕ) : Prop := new = old ∨ CopyFits old new

instance (old new : ℕ) : Decidable (GrowthFits old new) := inferInstanceAs (Decidable (_ ∨ _))

/-- A call has kept the table or has replaced it by a larger one. -/
structure Ran (files files' : FilesStruct File) : Prop where
  resizing : files'.resizeInProgress = false
  sound : Sound files'
  maxFds : files.fdt.maxFds ≤ files'.fdt.maxFds
  installed : GrowthFits files.fdt.maxFds files'.fdt.maxFds → files.fdt.Installed → files'.fdt.Installed

theorem Kept.ran (hk : Kept files files') (h : Sound files) (hflag : files.resizeInProgress = false) :
    Ran files files' :=
  ⟨hk.resizing.trans hflag, hk.sound h, hk.maxFds.ge, fun _ => hk.installed⟩

theorem Resized.ran {q : Except Errno Unit × FilesStruct File} (hq : Resized files nr q)
    (h : Sound files) (hge : files.fdt.maxFds ≤ nr) (hk : Kept q.2 files') : Ran files files' := by
  have hsound := hk.sound (hq.sound h)
  rcases q with ⟨_ | ⟨⟩, files1⟩
  · rw [show files1 = _ from hq] at hk
    exact ⟨hk.resizing, hsound, hk.maxFds.ge, fun _ => hk.installed⟩
  obtain ⟨hflag, -, -, hlt, hgrown⟩ := hq
  have hmax := hk.maxFds
  refine ⟨hk.resizing.trans hflag, hsound, hmax ▸ hge.trans hlt.le, fun hfits hin => hk.installed
    fun i hi => ?_⟩
  have hcopy : CopyFits files.fdt.maxFds files1.fdt.maxFds := by
    rcases hfits with heq | hfits
    · rw [heq] at hmax
      exact absurd hmax (hge.trans_lt hlt).ne
    · exact hmax ▸ hfits
  rw [hgrown.fd hcopy hin] at hi
  rw [hgrown.openFds]
  exact hin i hi

/-- How `__alloc_fd` ends, when `f` is the lowest descriptor from its `start` on that is not open. -/
inductive Allocated (limits : Limits) (mem : Option (Memory File)) (f last : ℕ)
    (files : FilesStruct File) : Except Errno ℕ × FilesStruct File → Prop
  | limit (h : last ≤ f ∨ files.fdt.maxFds ≤ f ∧ limits.nrOpen.val ≤ f) :
    Allocated limits mem f last files (.error .emfile, files)
  | room {files' : FilesStruct File} (hlast : f < last) (hlt : f < files.fdt.maxFds)
      (h : Opens f files files') :
    Allocated limits mem f last files (.ok f, files')
  | failed {e : Errno} (hlast : f < last) (hge : files.fdt.maxFds ≤ f) (hlt : f < limits.nrOpen.val)
    (h : mem = none ∧ e = .enomem ∨ ∃ m ∈ mem, fdtableSize m.nrOpen f ≤ f) :
    Allocated limits mem f last files (.error e, files)
  | grown {files₁ files' : FilesStruct File} (hlast : f < last) (hge : files.fdt.maxFds ≤ f)
    (hlt : f < limits.nrOpen.val) (hq : Resized files f (.ok (), files₁)) (h : Opens f files₁ files') :
    Allocated limits mem f last files (.ok f, files')

/-- Why `expand_fdtable` fails. -/
theorem expandFdtable_error {e : Errno} (h : expandFdtable mem nr files = .ok (.error e, files')) :
    mem = none ∧ e = .enomem ∨ ∃ m ∈ mem, fdtableSize m.nrOpen nr ≤ nr := by
  rcases mem with _ | m
  · cases h
    exact .inl ⟨rfl, rfl⟩
  rw [expandFdtable] at h
  by_cases hle : (allocFdtable m nr).maxFds ≤ nr
  · exact .inr ⟨m, rfl, hle⟩
  rw [if_neg hle] at h
  split at h
  · cases h
  cases hcopy : copyFdtable (allocFdtable m nr) files.fdt with
  | error e | ok fdt =>
    rw [hcopy] at h
    cases h

section
variable (h : Sound files) (hflag : files.resizeInProgress = false)
include h hflag

theorem allocFd_run (limits : Limits) (mem : Option (Memory File)) (start last : ℕ) (cloexec : Bool) :
    ∃ p, (Call.allocFd start last cloexec).run limits mem files = .ok p ∧
      Allocated limits mem (nextFree start files) last files p := by
  rw [Call.run, Call.start, allocFd]
  split
  case isTrue hlast => exact ⟨_, rfl, .limit (.inl hlast)⟩
  rename_i hlast
  rw [withRoom, expandFiles]
  by_cases hlt : nextFree start files < files.fdt.maxFds
  · rw [if_pos hlt]
    obtain ⟨files', heq, hopens⟩ := claimFd_opens cloexec h hlt
    rw [heq]
    exact ⟨_, rfl, .room (not_le.mp hlast) hlt hopens⟩
  rw [if_neg hlt]
  by_cases hge : nextFree start files ≥ limits.nrOpen.val
  · rw [if_pos hge]
    exact ⟨_, rfl, .limit (.inr ⟨not_lt.mp hlt, hge⟩)⟩
  rw [if_neg hge, if_neg (by simp [hflag])]
  -- the table grows, and the second round finds the same descriptor in it
  have hmax := (not_le.mp hge).trans_le limits.nrOpen.le_max
  obtain ⟨⟨r, files1⟩, heq, hq⟩ := expandFdtable_spec mem (h.setResizing true) (not_lt.mp hlt) hmax
  dsimp only [bind, Except.bind]
  rw [Call.goOn, Call.afterAlloc, heq]
  rcases r with e | ⟨⟩
  · have hsame : files1 = files := by
      rw [show files1 = _ from hq, ← hflag]
    refine ⟨_, rfl, ?_⟩
    rw [hsame]
    exact .failed (not_le.mp hlast) (not_lt.mp hlt) (not_le.mp hge) (expandFdtable_error heq)
  obtain ⟨hflag1, hnext, hsound, hroom, hgrown⟩ := hq
  have hfree : nextFree start files1 = nextFree start files := by
    have hleast := nextFree_isLeast hsound start
    rw [hgrown.openFds] at hleast
    exact hleast.unique (nextFree_isLeast h start)
  obtain ⟨files', hclaim, hopens⟩ := claimFd_opens cloexec hsound (hfree ▸ hroom)
  rw [hfree] at hclaim hopens
  refine ⟨_, ?_, .grown (not_le.mp hlast) (not_lt.mp hlt) (not_le.mp hge)
    ⟨hflag1, hnext, hsound, hroom, hgrown⟩ hopens⟩
  dsimp only [bind, Except.bind]
  rw [Call.rest, allocFd, hfree, if_neg hlast, withRoom, expandFiles, if_pos hroom]
  rw [hclaim]
  rfl

theorem Allocated.ran {p : Except Errno ℕ × FilesStruct File} {f : ℕ}
    (hp : Allocated limits mem f last files p) : Ran files p.2 := by
  cases hp with
  | limit _ | failed _ _ _ _ => exact (Kept.refl files).ran h hflag
  | room _ _ hopens => exact hopens.kept.ran h hflag
  | grown _ hge _ hq hopens => exact hq.ran h hge hopens.kept

theorem Call.run_ran (limits : Limits) (mem : Option (Memory File)) (c : Call File) :
    ∃ r files', c.run limits mem files = .ok (r, files') ∧ Ran files files' := by
  rcases hc : c.target with _ | fd
  · cases c with
    | allocFd start last cloexec =>
      obtain ⟨p, heq, hp⟩ := allocFd_run h hflag limits mem start last cloexec
      exact ⟨p.1, p.2, heq, hp.ran h hflag⟩
    | dup3 oldfd newfd cloexec otherFlags | dup2 oldfd newfd | replaceFd fd file cloexec => cases hc
  obtain ⟨p, heq, hends⟩ := c.start_ends limits h
  rw [Call.run, heq]
  rcases p with ⟨r | ⟨nr | nr⟩, files1⟩
  · exact ⟨r, files1, rfl, hends.kept.ran h hflag⟩
  · -- the call asked for `nr`, and returns after the resize
    cases hends with
    | resize _ hnr hge hlt =>
      obtain ⟨q, hexp, hq⟩ := expandFdtable_spec mem (h.setResizing true) hge hlt
      have hroom : q.1 = .ok () → fd < q.2.fdt.maxFds := by
        rcases q with ⟨_ | ⟨⟩, files2⟩
        · rintro ⟨⟩
        · exact fun _ => (hnr fd hc).trans_lt hq.2.2.2.1
      obtain ⟨r, files', hrest, hends⟩ := c.rest_ret limits q.1 hc hroom
      have hran := hq.ran (h.setResizing true) hge hends.kept
      refine ⟨r, files', ?_, hran.resizing, hran.sound, hran.maxFds, hran.installed⟩
      dsimp only [bind, Except.bind]
      rw [Call.goOn, Call.afterAlloc, hexp]
      dsimp only [bind, Except.bind]
      rw [hrest]
      rfl
  · cases hends with
    | wait hwait _ => cases hwait.symm.trans hflag

end

/-! ### `do_close_on_exec` -/

theorem closeBits_kept (set : ℕ → Bool) (left fd : ℕ) (files : FilesStruct File)
    (hle : fd + left ≤ files.fdt.maxFds) :
    ∃ files', closeBits set left fd files = .ok files' ∧ Kept files files' := by
  induction left generalizing fd files with
  | zero => exact ⟨files, rfl, .refl files⟩
  | succ left ih =>
    have hskip := ih (fd + 1) files (by omega)
    rw [closeBits]
    split
    case isTrue hset =>
      rcases hfile : files.fdt.fd fd with _ | file
      · exact hskip
      obtain ⟨files1, heq, hcloses⟩ := putUnusedFd_closes (show fd < files.fdt.maxFds by omega)
      obtain ⟨files', heq', hk⟩ := ih (fd + 1) files1 (by rw [hcloses.maxFds]; omega)
      rw [heq]
      exact ⟨files', heq', hcloses.kept.trans hk⟩
    case isFalse hset => exact hskip

/-- Clearing bits of `close_on_exec`. -/
theorem kept_clearCloseOnExec {bits : ℕ → Bool}
    (hbits : ∀ i, bits i = true → files.fdt.closeOnExec i = true) :
    Kept files { files with fdt := { files.fdt with closeOnExec := bits } } := by
  refine ⟨rfl, rfl, fun h =>
    ⟨⟨h.bitmaps.pos, h.bitmaps.words, h.bitmaps.small, h.bitmaps.full, h.bitmaps.outside,
      fun i hi => eq_false_of_ne_true fun hset => ?_⟩, h.hint⟩, id⟩
  cases (hbits i hset).symm.trans (h.bitmaps.execOutside i hi)

theorem closeWords_kept (left i : ℕ) (files : FilesStruct File)
    (hle : (i + left) * bitsPerLong ≤ files.fdt.maxFds) :
    ∃ files', closeWords left i files = .ok files' ∧ Kept files files' := by
  induction left generalizing i files with
  | zero => exact ⟨files, rfl, .refl files⟩
  | succ left ih =>
    let cleared := fun j => if j / bitsPerLong = i then false else files.fdt.closeOnExec j
    have hclear : Kept files { files with fdt := { files.fdt with closeOnExec := cleared } } := by
      refine kept_clearCloseOnExec fun j hj => ?_
      by_contra hne
      rw [show cleared j = false from ite_eq_left_iff.mpr fun _ => eq_false_of_ne_true hne] at hj
      cases hj
    have hword : i * bitsPerLong + bitsPerLong ≤ files.fdt.maxFds := by
      rw [bitsPerLong] at hle ⊢
      omega
    obtain ⟨files1, heq, hk⟩ := closeBits_kept files.fdt.closeOnExec bitsPerLong (i * bitsPerLong)
      { files with fdt := { files.fdt with closeOnExec := cleared } } hword
    have hk1 := hclear.trans hk
    obtain ⟨files', heq', hk'⟩ := ih (i + 1) files1 (by
      rw [hk1.maxFds, add_assoc, add_comm 1]
      exact hle)
    refine ⟨files', ?_, hk1.trans hk'⟩
    rw [closeWords, heq]
    exact heq'

/-! ### Histories -/

/-- What a thread does with its table. -/
inductive Op (File : Type) where
  | call (limits : Limits) (mem : Option (Memory File)) (c : Call File)
  | putUnusedFd (fd : ℕ)
  | fdInstall (fd : ℕ) (file : File)
  | closeFd (fd : ℕ)
  | doCloseOnExec

/-- `put_unused_fd` and `fd_install` are for descriptors that are allocated and not installed. -/
def Op.Allowed (files : FilesStruct File) : Op File → Prop
  | .putUnusedFd fd => files.fdt.openFds fd = true ∧ files.fdt.fd fd = none
  | .fdInstall fd _ => files.fdt.openFds fd = true ∧ files.fdt.fd fd = none
  | _ => True

def Op.run (files : FilesStruct File) : Op File → Except Fault (FilesStruct File)
  | .call limits mem c => (c.run limits mem files).map snd
  | .putUnusedFd fd => FileTable.putUnusedFd fd files
  | .fdInstall fd file => FileTable.fdInstall fd file files
  | .closeFd fd => (FileTable.closeFd fd files).map snd
  | .doCloseOnExec => FileTable.doCloseOnExec files

theorem Sound.lt_of_open (h : Sound files) (hopen : files.fdt.openFds fd = true) :
    fd < files.fdt.maxFds := by
  by_contra hge
  cases hopen.symm.trans (h.bitmaps.outside fd (not_lt.mp hge))

theorem putUnusedFd_unused (h : Sound files) (hopen : files.fdt.openFds fd = true)
    (hfd : files.fdt.fd fd = none) :
    ∃ files', putUnusedFd fd files = .ok files' ∧ Kept files files' := by
  have hsame : files.fdt.putFile fd none = files.fdt := by
    rw [Fdtable.putFile, ← hfd, update_eq_self]
  obtain ⟨files', heq, hcloses⟩ := putUnusedFd_closes (h.lt_of_open hopen)
  rw [hsame] at heq
  exact ⟨files', heq, hcloses.kept⟩

theorem fdInstall_unused (h : Sound files) (file : File) (hopen : files.fdt.openFds fd = true)
    (hfd : files.fdt.fd fd = none) : ∃ files', fdInstall fd file files = .ok files' ∧
    Kept files files' := by
  rw [fdInstall, if_pos (h.lt_of_open hopen), hfd]
  refine ⟨_, rfl, rfl, rfl, fun h => ⟨h.bitmaps.putFile, h.hint⟩, fun hin i hi => ?_⟩
  by_cases hne : i = fd
  · rw [hne]
    exact hopen
  rw [putFile_fd, update_of_ne hne] at hi
  exact hin i hi

/-- Every operation returns, and leaves the table in order. -/
theorem Op.run_ran (op : Op File) (h : Sound files) (hflag : files.resizeInProgress = false)
    (hop : op.Allowed files) : ∃ files', op.run files = .ok files' ∧ Ran files files' := by
  cases op with
  | call limits mem c =>
    obtain ⟨r, files', heq, hran⟩ := c.run_ran h hflag limits mem
    rw [Op.run, heq]
    exact ⟨files', rfl, hran⟩
  | putUnusedFd fd =>
    obtain ⟨files', heq, hk⟩ := putUnusedFd_unused h hop.1 hop.2
    exact ⟨files', heq, hk.ran h hflag⟩
  | fdInstall fd file =>
    obtain ⟨files', heq, hk⟩ := fdInstall_unused h file hop.1 hop.2
    exact ⟨files', heq, hk.ran h hflag⟩
  | closeFd fd =>
    obtain ⟨r, files', heq, hends⟩ := closeFd_spec fd files
    rw [Op.run, heq]
    refine ⟨files', rfl, ?_⟩
    rcases hends with rfl | hcloses
    · exact (Kept.refl _).ran h hflag
    · exact hcloses.kept.ran h hflag
  | doCloseOnExec =>
    obtain ⟨k, hk⟩ := h.bitmaps.words
    obtain ⟨files', heq, hk⟩ := closeWords_kept (bitsToLongs files.fdt.maxFds) 0 files (by
      rw [hk, bitsToLongs, bitsPerLong]; omega)
    exact ⟨files', heq, hk.ran h hflag⟩

/-- The tables of histories in which every change of `max_fds` is as `ok` says. -/
inductive Runs (ok : ℕ → ℕ → Prop) : FilesStruct File → Prop
  | init : Runs ok initFiles
  | step {files files' : FilesStruct File} {op : Op File} (h : Runs ok files) (hop : op.Allowed files)
    (heq : op.run files = .ok files') (hok : ok files.fdt.maxFds files'.fdt.maxFds) : Runs ok files'

theorem Runs.sound {ok : ℕ → ℕ → Prop} (h : Runs ok files) :
    Sound files ∧ files.resizeInProgress = false := by
  induction h with
  | init => exact ⟨sound_initFiles, rfl⟩
  | step _ hop heq _ ih =>
    obtain ⟨files', heq', hran⟩ := Op.run_ran _ ih.1 ih.2 hop
    cases heq.symm.trans heq'
    exact ⟨hran.sound, hran.resizing⟩

theorem Runs.installed (h : Runs GrowthFits files) : files.fdt.Installed := by
  induction h with
  | init => exact fun i hi => absurd rfl hi
  | step hruns hop heq hok ih =>
    obtain ⟨hsound, hflag⟩ := hruns.sound
    obtain ⟨files', heq', hran⟩ := Op.run_ran _ hsound hflag hop
    cases heq.symm.trans heq'
    exact hran.installed hok ih

/-- The invariant of descriptor tables. -/
structure Invariant (files : FilesStruct File) : Prop where
  maxFds_pos : 0 < files.fdt.maxFds
  maxFds_words : bitsPerLong ∣ files.fdt.maxFds
  full_iff : ∀ w, files.fdt.fullFdsBits w = true ↔ ∀ b < bitsPerLong,
    files.fdt.openFds (bitsPerLong * w + b) = true
  below_hint : ∀ i < files.nextFd, files.fdt.openFds i = true
  installed_open : ∀ i, files.fdt.fd i ≠ none → files.fdt.openFds i = true
  open_outside : ∀ i, files.fdt.maxFds ≤ i → files.fdt.openFds i = false
  full_outside : ∀ w, files.fdt.maxFds / bitsPerLong ≤ w → files.fdt.fullFdsBits w = false

/-- In every history in which the byte counts of the copies fit, the invariant holds after every
    operation, and the next operation returns. -/
theorem runs_invariant (h : Runs GrowthFits files) :
    Invariant files ∧ ∀ op : Op File, op.Allowed files → ∃ files', op.run files = .ok files' := by
  obtain ⟨hsound, hflag⟩ := h.sound
  have hb := hsound.bitmaps
  refine ⟨⟨hb.pos, hb.words, hb.full, hsound.hint, h.installed, hb.outside, fun w => hb.full_outside⟩,
    fun op hop => ?_⟩
  obtain ⟨files', heq, -⟩ := op.run_ran hsound hflag hop
  exact ⟨files', heq⟩

/-- Two values of `sysctl_nr_open`. -/
def nrOpenSmall : NrOpen := ⟨2 ^ 10, by decide, by decide⟩

@[inherit_doc nrOpenSmall]
def nrOpenLarge : NrOpen := ⟨2 ^ 30, by decide, by decide⟩

/-- Memory that holds one pointer everywhere and set bits, from before. -/
def staleMemory (nrOpen : NrOpen) (file : Option Unit) : Memory Unit :=
  ⟨nrOpen, fun _ => file, fun _ => true, fun _ => true, fun _ => true⟩

/-- `__alloc_fd` for one descriptor, which may make the table grow. -/
def growOp (nrOpen : NrOpen) (start : ℕ) : Op Unit :=
  .call ⟨nrOpen, start + 1⟩ (some (staleMemory nrOpen (some ()))) (.allocFd start (start + 1) false)

theorem runs_grown : ∃ files : FilesStruct Unit, Runs GrowthFits files ∧ files.fdt.maxFds = 128 ∧
    files.fdt.openFds 100 = true ∧ files.fdt.openFds 101 = false := by
  have hrun : ((growOp nrOpenSmall 100).run initFiles).toOption.map
      (fun files => (files.fdt.maxFds, files.fdt.openFds 100, files.fdt.openFds 101)) =
      some (128, true, false) := by
    decide +kernel
  obtain ⟨files, heq, hall⟩ := Outcome.exists_ok hrun
  obtain ⟨hmax, hbits⟩ := mk.inj hall
  obtain ⟨hopen, hclear⟩ := mk.inj hbits
  refine ⟨files, Runs.init.step (show (growOp _ _).Allowed initFiles from trivial) heq ?_, hmax,
    hopen, hclear⟩
  rw [hmax]
  decide

theorem runs_invariant_grown :
    ∃ files : FilesStruct Unit, files.fdt.maxFds = 128 ∧ Runs GrowthFits files ∧ Invariant files ∧
      ∀ op : Op Unit, op.Allowed files → ∃ files', op.run files = .ok files' := by
  obtain ⟨files, hruns, hmax, -⟩ := runs_grown
  exact ⟨files, hmax, hruns, runs_invariant hruns⟩

/-- A table that grows from 64 to 2³⁰ slots: `memset` clears slots up to 2²⁹ only, so that stale pointers
    are left in slots that are not open. -/
theorem runs_stale :
    ∃ files : FilesStruct Unit, Runs (fun _ _ => True) files ∧ files.fdt.fd (2 ^ 29 + 1) = some () ∧
      files.fdt.openFds (2 ^ 29 + 1) = false ∧ ¬Invariant files := by
  have hrun : ((growOp nrOpenLarge (2 ^ 29)).run initFiles).toOption.map
      (fun files => (files.fdt.fd (2 ^ 29 + 1), files.fdt.openFds (2 ^ 29 + 1))) =
      some (some (), false) := by
    decide +kernel
  obtain ⟨files, heq, hall⟩ := Outcome.exists_ok hrun
  obtain ⟨hfd, hclear⟩ := mk.inj hall
  refine ⟨files, Runs.init.step (show (growOp _ _).Allowed initFiles from trivial) heq trivial, hfd,
    hclear, fun hinv => ?_⟩
  have hopen := hinv.installed_open (2 ^ 29 + 1) (by rw [hfd]; simp)
  cases hopen.symm.trans hclear

/-- `__alloc_fd` returns the lowest descriptor from `start` on that is not open, and opens no other. It
    fails with `-EMFILE` when this descriptor is not below the limit of the caller, or is outside of the
    table and not below `sysctl_nr_open`, and otherwise only because there is no memory. -/
theorem allocFd_lowest (h : Runs (fun _ _ => True) files) (limits : Limits) (mem : Option (Memory File))
    (hmem : ∀ m ∈ mem, m.nrOpen = limits.nrOpen) (start last : ℕ) (cloexec : Bool) :
    ∃ f r files', IsLeast {i | start ≤ i ∧ files.fdt.openFds i = false} f ∧
    (Call.allocFd start last cloexec).run limits mem files = .ok (r, files') ∧
    (r = .error .emfile ↔ last ≤ f ∨ files.fdt.maxFds ≤ f ∧ limits.nrOpen.val ≤ f) ∧
    (r = .error .emfile ∨ r = .error .enomem ∧ mem = none ∨ r = .ok f) ∧
    (r = .ok f → files'.fdt.openFds = update files.fdt.openFds f true) ∧
    (r ≠ .ok f → files' = files) := by
  obtain ⟨hsound, hflag⟩ := h.sound
  obtain ⟨⟨r, files'⟩, heq, hp⟩ := allocFd_run hsound hflag limits mem start last cloexec
  refine ⟨nextFree start files, r, files', nextFree_isLeast hsound start, heq, ?_⟩
  cases hp with
  | limit hlim => exact ⟨iff_of_true rfl hlim, .inl rfl, by simp, fun _ => rfl⟩
  | room hlast hlt hopens =>
    exact ⟨iff_of_false (by simp) (by omega), .inr (.inr rfl), fun _ => hopens.openFds,
      fun hne => absurd rfl hne⟩
  | failed hlast hge hlt hcause =>
    rcases hcause with ⟨hnone, rfl⟩ | ⟨m, hm, hsize⟩
    · exact ⟨iff_of_false (by simp) (by omega), .inr (.inl ⟨rfl, hnone⟩), by simp, fun _ => rfl⟩
    -- `sysctl_nr_open` has not changed, so the new table is large enough
    have hroom := (fdtableSize_spec m.nrOpen (hlt.trans_le limits.nrOpen.le_max)).2.2
    rw [hmem m hm] at hroom hsize
    exact absurd (hroom hlt) (not_lt.mpr hsize)
  | grown hlast hge hlt hq hopens =>
    refine ⟨iff_of_false (by simp) (by omega), .inr (.inr rfl), fun _ => ?_, fun hne => absurd rfl hne⟩
    rw [hopens.openFds, hq.2.2.2.2.openFds]

theorem Runs.mono {ok ok' : ℕ → ℕ → Prop} (hok : ∀ o n, ok o n → ok' o n) (h : Runs ok files) :
    Runs ok' files := by
  induction h with
  | init => exact .init
  | step _ hop heq hstep ih => exact .step ih hop heq (hok _ _ hstep)

theorem allocFd_lowest_grown :
    ∃ files files' : FilesStruct Unit, Runs (fun _ _ => True) files ∧ files.fdt.openFds 100 = true ∧
      (Call.allocFd 100 1000 true).run ⟨nrOpenSmall, 1000⟩
        (some (staleMemory nrOpenSmall (some ()))) files = .ok (.ok 101, files') ∧
      files'.fdt.openFds = update files.fdt.openFds 101 true := by
  obtain ⟨files, hruns, hmax, hopen, hclear⟩ := runs_grown
  have hruns' := hruns.mono (fun _ _ _ => trivial)
  obtain ⟨f, r, files', hleast, hrun, hemfile, hr, hok, -⟩ := allocFd_lowest hruns'
    ⟨nrOpenSmall, 1000⟩ (some (staleMemory nrOpenSmall (some ()))) (by rintro m ⟨⟩; rfl) 100 1000 true
  have hf : f = 101 := by
    have hle := hleast.2 ⟨show 100 ≤ 101 by decide, hclear⟩
    have hge : 100 ≤ f := hleast.1.1
    have hne : f ≠ 100 := by
      rintro rfl
      cases hopen.symm.trans hleast.1.2
    omega
  rw [hf] at hemfile hr hok
  have hr' : r = .ok 101 := by
    rcases hr with hr | ⟨-, hnone⟩ | hr
    · exact absurd (hemfile.mp hr) (by omega)
    · cases hnone
    · exact hr
  subst hr'
  exact ⟨files, files', hruns', hopen, hrun, hok rfl⟩

end LinuxNote.FileTable
