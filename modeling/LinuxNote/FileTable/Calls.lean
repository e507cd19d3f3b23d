import LinuxNote.FileTable.Tables

/-! What the stretches of calls do. A stretch leaves the table as it is, opens one descriptor, closes
    one, or marks the start of a resize; only the stretch after `alloc_fdtable` replaces the table. -/

namespace LinuxNote.FileTable
open Bitmap Function Nat

variable {File : Type} {files files' : FilesStruct File} {limits : Limits} {c : Call File}
  {fd i nr start last : ℕ} {cloexec : Bool}

/-- The bitmaps are in order, and everything below the hint is open. -/
structure Sound (files : FilesStruct File) : Prop where
  bitmaps : files.fdt.Bitmaps
  hint : ∀ i < files.nextFd, files.fdt.openFds i = true

theorem sound_initFiles : Sound (initFiles : FilesStruct File) := by
  refine ⟨⟨show 0 < bitsPerLong by decide, dvd_rfl, show bitsPerLong ≤ nrOpenMax by decide,
    fun w => iff_of_false (by simp [initFiles]) fun h => ?_, fun _ _ => rfl, fun _ _ => rfl⟩,
    fun i hi => absurd hi (not_lt_zero i)⟩
  cases h 0 (by decide)

/-! ### The search -/

theorem findNextFd_isNext (h : files.fdt.Bitmaps) (hlt : start < files.fdt.maxFds) :
    IsNext (fun i => !files.fdt.openFds i) files.fdt.maxFds start (findNextFd files.fdt start) := by
  obtain ⟨k, hk⟩ := h.words
  have hskip : ∀ w, (!files.fdt.fullFdsBits w) = false →
      ∀ b < bitsPerLong, (!files.fdt.openFds (bitsPerLong * w + b)) = false := by
    intro w hw b hb
    simp only [Bool.not_eq_false'] at hw ⊢
    exact (h.full w).mp hw b hb
  have hnext :=
    isNext_blocks (p := fun i => !files.fdt.openFds i) (q := fun w => !files.fdt.fullFdsBits w)
      (by decide) hskip (hk ▸ hlt)
  have hle : findNext (fun w => !files.fdt.fullFdsBits w) k (start / bitsPerLong) ≤ k :=
    (isNext_findNext _ ((div_lt_iff_lt_mul (by decide)).mpr (by rwa [mul_comm, ← hk])).le).le
  rw [findNextFd, hk, Nat.mul_div_cancel_left _ (by decide), Nat.mul_comm _ bitsPerLong]
  rw [if_neg (not_lt.mpr (mul_le_mul_left _ hle))]
  convert hnext using 2
  rw [max_def]
  split <;> split <;> omega

/-- `__alloc_fd` looks up the lowest descriptor from `start` on that is not open. -/
theorem nextFree_isLeast (h : Sound files) (start : ℕ) :
    IsLeast {i | start ≤ i ∧ files.fdt.openFds i = false} (nextFree start files) := by
  have hskip : ∀ i, start ≤ i → i < (if start < files.nextFd then files.nextFd else start) →
      files.fdt.openFds i = true := by
    intro i hi hlt
    split at hlt
    · exact h.hint i hlt
    · exact absurd hlt (not_lt.mpr hi)
  have hge : start ≤ if start < files.nextFd then files.nextFd else start := by
    split <;> omega
  rw [nextFree]
  generalize (if start < files.nextFd then files.nextFd else start) = s at hskip hge ⊢
  split
  case isTrue hlt =>
    have hnext := findNextFd_isNext h.bitmaps hlt
    refine ⟨⟨hge.trans hnext.ge, ?_⟩, fun i ⟨hi, hclear⟩ => ?_⟩
    · rcases hnext.le.lt_or_eq with hlt' | heq
      · simpa using hnext.hit hlt'
      rw [heq]
      exact h.bitmaps.outside _ le_rfl
    by_contra hlt'
    have hopen : files.fdt.openFds i = true := by
      rcases lt_or_ge i s with his | his
      · exact hskip i hi his
      · simpa using hnext.skip i his (not_le.mp hlt')
    cases hclear.symm.trans hopen
  case isFalse hlt =>
    refine ⟨⟨hge, h.bitmaps.outside _ (not_lt.mp hlt)⟩, fun i ⟨hi, hclear⟩ => ?_⟩
    by_contra hlt'
    cases hclear.symm.trans (hskip i hi (not_le.mp hlt'))

/-! ### Opening and closing a descriptor -/

/-- `files'` is `files` with `fd` open and its slot set. -/
structure Opens (fd : ℕ) (files files' : FilesStruct File) : Prop where
  lt : fd < files.fdt.maxFds
  resizing : files'.resizeInProgress = files.resizeInProgress
  table : ∃ file cloexec,
    files'.fdt = ((files.fdt.putFile fd file).setOpenFd fd).putCloseOnExec fd cloexec
  nextFd : files'.nextFd = files.nextFd ∨ files'.nextFd = fd + 1 ∧ ∀ i < fd, files.fdt.openFds i = true

/-- `files'` is `files` with `fd` closed. -/
structure Closes (fd : ℕ) (files files' : FilesStruct File) : Prop where
  lt : fd < files.fdt.maxFds
  resizing : files'.resizeInProgress = files.resizeInProgress
  table : files'.fdt = (files.fdt.putFile fd none).clearOpenFd fd
  nextFd : files'.nextFd ≤ files.nextFd ∧ files'.nextFd ≤ fd

section
variable (h : Opens fd files files')
include h

theorem Opens.maxFds : files'.fdt.maxFds = files.fdt.maxFds := by
  obtain ⟨file, cloexec, htable⟩ := h.table
  rw [htable]
  rfl

theorem Opens.openFds : files'.fdt.openFds = update files.fdt.openFds fd true := by
  obtain ⟨file, cloexec, htable⟩ := h.table
  rw [htable]
  rfl

theorem Opens.fd_of_ne (hi : i ≠ fd) : files'.fdt.fd i = files.fdt.fd i := by
  obtain ⟨file, cloexec, htable⟩ := h.table
  rw [htable]
  exact update_of_ne hi ..

theorem Opens.open_mono (hi : files.fdt.openFds i = true) : files'.fdt.openFds i = true := by
  rw [h.openFds, update_apply, hi, ite_self]

theorem Opens.sound (hs : Sound files) : Sound files' := by
  obtain ⟨file, cloexec, htable⟩ := h.table
  refine ⟨?_, fun i hi => ?_⟩
  · rw [htable]
    exact (hs.bitmaps.putFile.setOpenFd h.lt).putCloseOnExec h.lt
  rcases h.nextFd with hnext | ⟨hnext, hbelow⟩
  · exact h.open_mono (hs.hint i (hnext ▸ hi))
  rcases Nat.lt_succ_iff_lt_or_eq.mp (hnext ▸ hi) with hlt | rfl
  · exact h.open_mono (hbelow i hlt)
  · rw [h.openFds, update_self]

theorem Opens.installed (hin : files.fdt.Installed) : files'.fdt.Installed := by
  intro i hi
  by_cases hfd : i = fd
  · rw [hfd, h.openFds, update_self]
  rw [h.fd_of_ne hfd] at hi
  exact h.open_mono (hin i hi)

end

section
variable (h : Closes fd files files')
include h

theorem Closes.maxFds : files'.fdt.maxFds = files.fdt.maxFds := by
  rw [h.table]
  rfl

theorem Closes.openFds : files'.fdt.openFds = update files.fdt.openFds fd false := by
  rw [h.table]
  rfl

theorem Closes.sound (hs : Sound files) : Sound files' := by
  refine ⟨?_, fun i hi => ?_⟩
  · rw [h.table]
    exact hs.bitmaps.putFile.clearOpenFd
  have hne : i ≠ fd := (hi.trans_le h.nextFd.2).ne
  rw [h.openFds, update_of_ne hne]
  exact hs.hint i (hi.trans_le h.nextFd.1)

theorem Closes.installed (hin : files.fdt.Installed) : files'.fdt.Installed := by
  intro i hi
  rw [h.table] at hi
  by_cases hfd : i = fd
  · rw [hfd, clearOpenFd_fd, putFile_fd, update_self] at hi
    exact absurd rfl hi
  rw [clearOpenFd_fd, putFile_fd, update_of_ne hfd] at hi
  rw [h.openFds, update_of_ne hfd]
  exact hin i hi

end

/-- The table has not been replaced and is still in order. -/
structure Kept (files files' : FilesStruct File) : Prop where
  resizing : files'.resizeInProgress = files.resizeInProgress
  maxFds : files'.fdt.maxFds = files.fdt.maxFds
  sound : Sound files → Sound files'
  installed : files.fdt.Installed → files'.fdt.Installed

theorem Kept.refl (files : FilesStruct File) : Kept files files := ⟨rfl, rfl, id, id⟩

theorem Kept.trans {files'' : FilesStruct File} (h : Kept files files') (h' : Kept files' files'') :
    Kept files files'' :=
  ⟨h'.resizing.trans h.resizing, h'.maxFds.trans h.maxFds, h'.sound ∘ h.sound,
    h'.installed ∘ h.installed⟩

theorem Opens.kept (h : Opens fd files files') : Kept files files' :=
  ⟨h.resizing, h.maxFds, h.sound, h.installed⟩

theorem Closes.kept (h : Closes fd files files') : Kept files files' :=
  ⟨h.resizing, h.maxFds, h.sound, h.installed⟩

theorem claimFd_opens (cloexec : Bool) (h : Sound files)
    (hlt : nextFree start files < files.fdt.maxFds) :
    ∃ files', claimFd start (nextFree start files) cloexec files =
      .ok (.ret (.ok (nextFree start files)), files') ∧ Opens (nextFree start files) files files' := by
  rw [claimFd, if_pos hlt]
  refine ⟨_, rfl, hlt, rfl, ⟨none, cloexec, rfl⟩, ?_⟩
  split
  · rename_i hstart
    refine .inr ⟨rfl, fun i hi => ?_⟩
    rcases lt_or_ge i files.nextFd with hlt | hge
    · exact h.hint i hlt
    by_contra hclear
    have := (nextFree_isLeast h start).2 ⟨hstart.trans hge, eq_false_of_ne_true hclear⟩
    omega
  · exact .inl rfl

theorem putUnusedFd_closes (hlt : fd < files.fdt.maxFds) :
    ∃ files', putUnusedFd fd { files with fdt := files.fdt.putFile fd none } = .ok files' ∧
    Closes fd files files' := by
  rw [putUnusedFd, if_pos (by exact hlt)]
  refine ⟨_, rfl, hlt, rfl, rfl, ?_⟩
  dsimp only
  split <;> omega

theorem closeFd_spec (fd : ℕ) (files : FilesStruct File) :
    ∃ r files', closeFd fd files = .ok (r, files') ∧ (files' = files ∨ Closes fd files files') := by
  rw [closeFd]
  split
  case isTrue hge => exact ⟨_, _, rfl, .inl rfl⟩
  case isFalse hge =>
    rcases hfile : files.fdt.fd fd with _ | file
    · exact ⟨_, _, rfl, .inl rfl⟩
    obtain ⟨files', heq, hcloses⟩ := putUnusedFd_closes (not_le.mp hge)
    rw [heq]
    exact ⟨_, _, rfl, .inr hcloses⟩

/-! ### Stretches -/

/-- The descriptor that a call asks for. -/
def Call.target : Call File → Option ℕ
  | .allocFd .. => none
  | .dup3 _ newfd .. => some newfd
  | .dup2 _ newfd => some newfd
  | .replaceFd fd .. => some fd

/-- The call may ask `expand_files` for `nr`. -/
def Call.Wants (c : Call File) (nr : ℕ) : Prop := ∀ fd, c.target = some fd → fd = nr

/-- How a stretch of a call ends that starts with `files`. -/
inductive Ends (c : Call File) (files : FilesStruct File) : Ending × FilesStruct File → Prop
  | same (r : Except Errno ℕ) : Ends c files (.ret r, files)
  | opens {files' : FilesStruct File} {fd : ℕ} (r : Except Errno ℕ) (h : Opens fd files files')
    (hfd : files.fdt.openFds fd = false ∨ c.target = some fd) : Ends c files (.ret r, files')
  | closes {files' : FilesStruct File} {fd : ℕ} (r : Except Errno ℕ) (h : Closes fd files files')
    (hc : ∃ cloexec, c = .replaceFd fd none cloexec) : Ends c files (.ret r, files')
  | wait {nr : ℕ} (hflag : files.resizeInProgress = true) (hnr : c.Wants nr) :
    Ends c files (.gap (.waiting nr), files)
  | resize {nr : ℕ} (hflag : files.resizeInProgress = false) (hnr : c.Wants nr)
      (hge : files.fdt.maxFds ≤ nr)
    (hlt : nr < nrOpenMax) : Ends c files (.gap (.resizing nr), { files with resizeInProgress := true })

theorem withRoom_ends {rest : Except Errno Unit → Except Fault (Ending × FilesStruct File)}
    (hnr : c.Wants nr) (herr : ∃ p, rest (.error .emfile) = .ok p ∧ Ends c files p)
    (hok : nr < files.fdt.maxFds → ∃ p, rest (.ok ()) = .ok p ∧ Ends c files p) :
    ∃ p, withRoom limits nr files rest = .ok p ∧ Ends c files p := by
  rw [withRoom, expandFiles]
  by_cases hlt : nr < files.fdt.maxFds
  · rw [if_pos hlt]
    exact hok hlt
  rw [if_neg hlt]
  by_cases hge : nr ≥ limits.nrOpen.val
  · rw [if_pos hge]
    exact herr
  rw [if_neg hge]
  by_cases hflag : files.resizeInProgress = true
  · rw [if_pos hflag]
    exact ⟨_, rfl, .wait hflag hnr⟩
  rw [if_neg hflag]
  exact ⟨_, rfl, .resize (eq_false_of_ne_true hflag) hnr (not_lt.mp hlt)
    ((not_le.mp hge).trans_le limits.nrOpen.le_max)⟩

theorem allocFd_ends (h : Sound files) (hc : c.target = none) :
    ∃ p, allocFd limits start last cloexec files = .ok p ∧ Ends c files p := by
  rw [allocFd]
  split
  case isTrue hge => exact ⟨_, rfl, .same _⟩
  case isFalse hge =>
    refine withRoom_ends (fun fd hfd => ?_) ⟨_, rfl, .same _⟩ fun hlt => ?_
    · rw [hc] at hfd
      cases hfd
    obtain ⟨files', heq, hopens⟩ := claimFd_opens cloexec h hlt
    exact ⟨_, heq, .opens _ hopens (.inl (nextFree_isLeast h start).1.2)⟩

section
variable (hc : c.target = some fd)
include hc

theorem doDup2_ends (file : File) (cloexec : Bool) (hlt : fd < files.fdt.maxFds) :
    ∃ r files', doDup2 file fd cloexec files = .ok (.ret r, files') ∧ Ends c files (.ret r, files') := by
  rw [doDup2, if_pos hlt]
  split
  · exact ⟨_, _, rfl, .same _⟩
  · exact ⟨_, _, rfl, .opens _ ⟨hlt, rfl, ⟨some file, cloexec, rfl⟩, .inl rfl⟩ (.inr hc)⟩

theorem dup3Rest_ends (oldfd : ℕ) (cloexec : Bool) (r : Except Errno Unit)
    (hr : r = .ok () → fd < files.fdt.maxFds) :
    ∃ r' files', dup3Rest oldfd fd cloexec r files = .ok (.ret r', files') ∧
    Ends c files (.ret r', files') := by
  rw [dup3Rest]
  split
  · exact ⟨_, _, rfl, .same _⟩
  split
  · exact ⟨_, _, rfl, .same _⟩
  · exact ⟨_, _, rfl, .same _⟩
  · exact doDup2_ends hc _ _ (hr rfl)

theorem replaceFdRest_ends (file : File) (cloexec : Bool) (r : Except Errno Unit)
    (hr : r = .ok () → fd < files.fdt.maxFds) :
    ∃ r' files', replaceFdRest fd file cloexec r files = .ok (.ret r', files') ∧
    Ends c files (.ret r', files') := by
  rcases r with e | ⟨⟩
  · exact ⟨_, _, rfl, .same _⟩
  · exact doDup2_ends hc _ _ (hr rfl)

theorem ksysDup3_ends {oldfd : ℕ} {otherFlags : Bool} :
    ∃ p, ksysDup3 limits oldfd fd cloexec otherFlags files = .ok p ∧ Ends c files p := by
  rw [ksysDup3]
  split
  · exact ⟨_, rfl, .same _⟩
  split
  · exact ⟨_, rfl, .same _⟩
  split
  · exact ⟨_, rfl, .same _⟩
  refine withRoom_ends (fun fd' hfd' => ?_) ?_ fun hlt => ?_
  · rw [hc] at hfd'
    exact (Option.some.inj hfd').symm
  · obtain ⟨r, files', heq, hends⟩ :=
      dup3Rest_ends hc oldfd cloexec (.error .emfile) fun hr => by cases hr
    exact ⟨_, heq, hends⟩
  obtain ⟨r, files', heq, hends⟩ := dup3Rest_ends hc oldfd cloexec (.ok ()) fun _ => hlt
  exact ⟨_, heq, hends⟩

end

variable (limits)

theorem Call.start_ends (h : Sound files) (c : Call File) :
    ∃ p, c.start limits files = .ok p ∧ Ends c files p := by
  cases c with
  | allocFd start last cloexec => exact allocFd_ends h rfl
  | dup3 oldfd newfd cloexec otherFlags => exact ksysDup3_ends rfl
  | dup2 oldfd newfd =>
    rw [Call.start]
    split
    · split
      · exact ⟨_, rfl, .same _⟩
      · exact ⟨_, rfl, .same _⟩
    · exact ksysDup3_ends rfl
  | replaceFd fd file cloexec =>
    rcases file with _ | file
    · obtain ⟨r, files', heq, hends⟩ := closeFd_spec fd files
      rw [Call.start, heq]
      refine ⟨_, rfl, ?_⟩
      rcases hends with rfl | hcloses
      · exact .same _
      · exact .closes _ hcloses ⟨cloexec, rfl⟩
    rw [Call.start]
    split
    · exact ⟨_, rfl, .same _⟩
    refine withRoom_ends (fun _ hfd => (Option.some.inj hfd).symm) ⟨_, rfl, .same _⟩ fun hlt => ?_
    obtain ⟨r, files', heq, hends⟩ :=
      replaceFdRest_ends (c := .replaceFd fd (some file) cloexec) rfl file cloexec (.ok ()) fun _ => hlt
    exact ⟨_, heq, hends⟩

/-- A call that asks for a descriptor returns once `expand_files` has. -/
theorem Call.rest_ret (r : Except Errno Unit) (c : Call File) (hc : c.target = some fd)
    (hr : r = .ok () → fd < files.fdt.maxFds) :
    ∃ r' files', c.rest limits r files = .ok (.ret r', files') ∧ Ends c files (.ret r', files') := by
  cases c with
  | allocFd start last cloexec => cases hc
  | dup3 oldfd newfd cloexec otherFlags | dup2 oldfd newfd =>
    cases hc
    exact dup3Rest_ends rfl _ _ _ hr
  | replaceFd fd' file cloexec =>
    cases hc
    rcases file with _ | file
    · exact ⟨_, _, rfl, .same _⟩
    · exact replaceFdRest_ends rfl _ _ _ hr

theorem Call.rest_ends (r : Except Errno Unit) (h : Sound files) (c : Call File)
    (hr : r = .ok () → ∀ fd, c.target = some fd → fd < files.fdt.maxFds) :
    ∃ p, c.rest limits r files = .ok p ∧ Ends c files p := by
  cases hc : c.target with
  | some fd =>
    obtain ⟨r', files', heq, hends⟩ := c.rest_ret limits r hc fun hok => hr hok fd hc
    exact ⟨_, heq, hends⟩
  | none =>
    cases c with
    | allocFd start last cloexec =>
      rcases r with e | ⟨⟩
      · exact ⟨_, rfl, .same _⟩
      · exact allocFd_ends h rfl
    | dup3 oldfd newfd cloexec otherFlags | dup2 oldfd newfd | replaceFd fd file cloexec => cases hc

/-! ### The stretch after `alloc_fdtable` -/

/-- The resize is over: it failed, or the table has been copied into one with more than `nr` slots. -/
def Resized (files : FilesStruct File) (nr : ℕ) : Except Errno Unit × FilesStruct File → Prop
  | (.error _, files') => files' = { files with resizeInProgress := false }
  | (.ok (), files') => files'.resizeInProgress = false ∧ files'.nextFd = files.nextFd ∧
    Sound files' ∧ nr < files'.fdt.maxFds ∧ Grown files.fdt files'.fdt files'.fdt.maxFds

theorem expandFdtable_spec (mem : Option (Memory File)) (h : Sound files) (hge : files.fdt.maxFds ≤ nr)
    (hlt : nr < nrOpenMax) : ∃ p, expandFdtable mem nr files = .ok p ∧ Resized files nr p := by
  rcases mem with _ | mem
  · exact ⟨_, rfl, rfl⟩
  have hsize : (allocFdtable mem nr).maxFds = fdtableSize mem.nrOpen nr := rfl
  rw [expandFdtable, hsize]
  split
  case isTrue hle => exact ⟨_, rfl, rfl⟩
  rename_i hle
  rw [if_neg (not_lt.mpr hge)]
  have hold : files.fdt.maxFds ≤ fdtableSize mem.nrOpen nr := hge.trans (not_le.mp hle).le
  obtain ⟨fdt, heq, hgrown⟩ := copyFdtable_grown mem h.bitmaps hlt hold
  obtain ⟨hwords, hmax, -⟩ := fdtableSize_spec mem.nrOpen hlt
  rw [heq]
  refine ⟨_, rfl, rfl, rfl, ⟨hgrown.bitmaps h.bitmaps hold hwords hmax, fun i hi => ?_⟩, ?_, ?_⟩
  · rw [show fdt.openFds = files.fdt.openFds from hgrown.openFds]
    exact h.hint i hi
  · rw [show fdt.maxFds = _ from hgrown.maxFds]
    exact not_le.mp hle
  rw [show fdt.maxFds = _ from hgrown.maxFds]
  exact hgrown

theorem Resized.sound {p : Except Errno Unit × FilesStruct File} (hp : Resized files nr p)
    (h : Sound files) : Sound p.2 := by
  rcases p with ⟨_ | ⟨⟩, files'⟩
  · rw [show files' = _ from hp]
    exact ⟨h.bitmaps, h.hint⟩
  · exact hp.2.2.1

end LinuxNote.FileTable
