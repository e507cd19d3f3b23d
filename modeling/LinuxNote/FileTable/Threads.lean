import LinuxNote.FileTable.History

/-! A table that threads share. A step is a stretch that one thread runs under `file_lock`; between the
    stretches of a call any number of other threads run theirs. A thread that waits may go on at any
    time: it takes the lock and looks again. -/

namespace LinuxNote.FileTable
open Function

/-- The table, and for every thread in a gap its call and where it is. -/
structure System (T File : Type) where
  files : FilesStruct File
  gaps : T → Option (Call File × Gap)

variable {T File : Type} {s s' : System T File} {files files' : FilesStruct File} {t t' : T}
  {c : Call File} {fd i nr : ℕ} {p : Ending × FilesStruct File}

/-! ### What holds between stretches -/

/-- The table is in order, a thread that resizes it has marked it and is the only one, and what it asked
    for is outside of the table. -/
structure Good (s : System T File) : Prop where
  sound : Sound s.files
  waiting : ∀ t c nr, s.gaps t = some (c, .waiting nr) → c.Wants nr
  resizing : ∀ t c nr, s.gaps t = some (c, .resizing nr) →
    s.files.resizeInProgress = true ∧ c.Wants nr ∧ s.files.fdt.maxFds ≤ nr ∧ nr < nrOpenMax
  unique : ∀ t t' c c' nr nr', s.gaps t = some (c, .resizing nr) → s.gaps t' = some (c', .resizing nr') →
    t = t'

theorem good_init : Good (⟨initFiles, fun _ => none⟩ : System T File) :=
  ⟨sound_initFiles, by simp, by simp, by simp⟩

theorem Good.kept (h : Good s) (hk : Kept s.files files) : Good { s with files } := by
  refine ⟨hk.sound h.sound, h.waiting, fun t c nr ht => ?_, h.unique⟩
  obtain ⟨hflag, hnr, hge, hlt⟩ := h.resizing t c nr ht
  exact ⟨hk.resizing.trans hflag, hnr, hk.maxFds.trans_le hge, hlt⟩

variable [DecidableEq T]

/-- Thread `t` ends a stretch of its call. -/
def System.settle (s : System T File) (t : T) (c : Call File) (p : Ending × FilesStruct File) :
    System T File where
  files := p.2
  gaps := Function.update s.gaps t <| match p.1 with
    | .ret _ => none
    | .gap g => some (c, g)

theorem settle_ret {r : Except Errno ℕ} (ht : s.gaps t = none) :
    s.settle t c (.ret r, files) = { s with files } := by
  rw [System.settle]
  rw [← ht, update_eq_self]

theorem settle_gap {g : Gap} {x : Call File × Gap}
    (h : (s.settle t c (.gap g, files)).gaps t' = some x) :
    t' = t ∧ x = (c, g) ∨ s.gaps t' = some x := by
  by_cases htt : t' = t
  · rw [System.settle, htt] at h
    dsimp only at h
    rw [update_self] at h
    exact .inl ⟨htt, (Option.some.inj h).symm⟩
  · exact .inr ((update_of_ne htt ..).symm.trans h)

/-- A thread that is not in a gap ends a stretch. -/
theorem Good.settle (h : Good s) (ht : s.gaps t = none) (hp : Ends c s.files p) :
    Good (s.settle t c p) := by
  cases hp with
  | same r =>
    rw [settle_ret ht]
    exact h
  | opens r hopens _ =>
    rw [settle_ret ht]
    exact h.kept hopens.kept
  | closes r hcloses _ =>
    rw [settle_ret ht]
    exact h.kept hcloses.kept
  | @wait nr hflag hnr =>
    have hother : ∀ t' c' nr', (s.settle t c (.gap (.waiting nr), s.files)).gaps t' =
      some (c', .resizing nr') → s.gaps t' = some (c', .resizing nr') := by
      intro t' c' nr' hgap
      rcases settle_gap hgap with ⟨-, hx⟩ | hgap
      · cases hx
      · exact hgap
    refine ⟨h.sound, fun t' c' nr' hgap => ?_,
      fun t' c' nr' hgap => h.resizing t' c' nr' (hother t' c' nr' hgap),
      fun t1 t2 c1 c2 nr1 nr2 h1 h2 => h.unique _ _ _ _ _ _ (hother _ _ _ h1) (hother _ _ _ h2)⟩
    rcases settle_gap hgap with ⟨-, hx⟩ | hgap
    · cases hx
      exact hnr
    · exact h.waiting t' c' nr' hgap
  | @resize nr hflag hnr hge hlt =>
    -- nobody else resizes, since the mark was not set
    have hme : ∀ t' c' nr',
      (s.settle t c (.gap (.resizing nr), { s.files with resizeInProgress := true })).gaps t' =
      some (c', .resizing nr') → t' = t ∧ c' = c ∧ nr' = nr := by
      intro t' c' nr' hgap
      rcases settle_gap hgap with ⟨htt, hx⟩ | hgap
      · cases hx
        exact ⟨htt, rfl, rfl⟩
      · cases hflag.symm.trans (h.resizing t' c' nr' hgap).1
    refine ⟨h.sound.setResizing true, fun t' c' nr' hgap => ?_, fun t' c' nr' hgap => ?_,
      fun t1 t2 c1 c2 nr1 nr2 h1 h2 => (hme _ _ _ h1).1.trans (hme _ _ _ h2).1.symm⟩
    · rcases settle_gap hgap with ⟨-, hx⟩ | hgap
      · cases hx
      · exact h.waiting t' c' nr' hgap
    · obtain ⟨-, rfl, rfl⟩ := hme t' c' nr' hgap
      exact ⟨rfl, hnr, hge, hlt⟩

/-- Thread `t` takes the lock again, with `files` in place. -/
def System.leave (s : System T File) (t : T) (files : FilesStruct File) : System T File :=
  ⟨files, Function.update s.gaps t none⟩

theorem settle_leave : (s.leave t files).settle t c p = s.settle t c p := by
  rw [System.settle, System.settle, System.leave, update_idem]

theorem leave_idle : (s.leave t files).gaps t = none := update_self ..

theorem leave_gap {x : Call File × Gap} (h : (s.leave t files).gaps t' = some x) :
    t' ≠ t ∧ s.gaps t' = some x := by
  by_cases htt : t' = t
  · rw [htt, leave_idle] at h
    cases h
  · exact ⟨htt, (update_of_ne htt ..).symm.trans h⟩

theorem Good.leave_wait (h : Good s) : Good (s.leave t s.files) :=
  ⟨h.sound, fun t' c nr hgap => h.waiting t' c nr (leave_gap hgap).2,
    fun t' c nr hgap => h.resizing t' c nr (leave_gap hgap).2, fun t1 t2 c1 c2 nr1 nr2 h1 h2 =>
    h.unique t1 t2 c1 c2 nr1 nr2 (leave_gap h1).2 (leave_gap h2).2⟩

theorem Good.leave_alloc (h : Good s) (ht : s.gaps t = some (c, .resizing nr)) (hfiles : Sound files) :
    Good (s.leave t files) := by
  have hnobody : ∀ t' c' nr', (s.leave t files).gaps t' ≠ some (c', .resizing nr') := by
    intro t' c' nr' hgap
    obtain ⟨hne, hgap⟩ := leave_gap hgap
    exact hne (h.unique _ _ _ _ _ _ hgap ht)
  exact ⟨hfiles, fun t' c nr hgap => h.waiting t' c nr (leave_gap hgap).2,
    fun t' c' nr' hgap => absurd hgap (hnobody t' c' nr'), fun t1 t2 c1 c2 nr1 nr2 h1 _ =>
    absurd h1 (hnobody t1 c1 nr1)⟩

/-! ### Steps -/

/-- The steps, with the faults that they may run into. -/
inductive Step (s : System T File) : Except Fault (System T File) → Prop
  | call {t : T} (ht : s.gaps t = none) (limits : Limits) (c : Call File) :
    Step s ((c.start limits s.files).map (s.settle t c))
  | afterWait {t : T} {c : Call File} {nr : ℕ} (ht : s.gaps t = some (c, .waiting nr))
      (limits : Limits) :
    Step s ((c.afterWait limits nr s.files).map (s.settle t c))
  | afterAlloc {t : T} {c : Call File} {nr : ℕ} (ht : s.gaps t = some (c, .resizing nr))
      (limits : Limits)
    (mem : Option (Memory File)) : Step s ((c.afterAlloc limits mem nr s.files).map (s.settle t c))
  | closeFd (fd : ℕ) : Step s ((FileTable.closeFd fd s.files).map fun p => { s with files := p.2 })
  | putUnusedFd {fd : ℕ} (hopen : s.files.fdt.openFds fd = true) (hfd : s.files.fdt.fd fd = none) :
    Step s ((FileTable.putUnusedFd fd s.files).map fun files => { s with files })
  | fdInstall {fd : ℕ} (hopen : s.files.fdt.openFds fd = true) (hfd : s.files.fdt.fd fd = none)
      (file : File) :
    Step s ((FileTable.fdInstall fd file s.files).map fun files => { s with files })

/-- The states of interleavings in which every change of `max_fds` is as `ok` says. -/
inductive Reachable (ok : ℕ → ℕ → Prop) : System T File → Prop
  | init : Reachable ok ⟨initFiles, fun _ => none⟩
  | step {s s' : System T File} (h : Reachable ok s) (hs : Step s (.ok s'))
    (hok : ok s.files.fdt.maxFds s'.files.fdt.maxFds) : Reachable ok s'

/-- What a step does to the table: it works on it, or replaces it by a larger one. -/
structure Stepped (files files' : FilesStruct File) : Prop where
  maxFds : files.fdt.maxFds ≤ files'.fdt.maxFds
  openFds : files.fdt.maxFds < files'.fdt.maxFds →
    ∀ i, files.fdt.openFds i = true → files'.fdt.openFds i = true
  fd : files.fdt.maxFds < files'.fdt.maxFds → CopyFits files.fdt.maxFds files'.fdt.maxFds →
    files.fdt.Installed → ∀ i, files.fdt.openFds i = true → files'.fdt.fd i = files.fdt.fd i
  installed : GrowthFits files.fdt.maxFds files'.fdt.maxFds → files.fdt.Installed → files'.fdt.Installed

section
omit [DecidableEq T]

theorem Stepped.of_same (hmax : files'.fdt.maxFds = files.fdt.maxFds)
    (hin : files.fdt.Installed → files'.fdt.Installed) : Stepped files files' :=
  ⟨hmax.ge, fun hlt => absurd hmax hlt.ne', fun hlt => absurd hmax hlt.ne', fun _ => hin⟩

theorem Kept.stepped (h : Kept files files') : Stepped files files' := .of_same h.maxFds h.installed

/-- A stretch does not replace the table. -/
theorem Ends.table (hp : Ends c files p) :
    p.2.fdt.maxFds = files.fdt.maxFds ∧ (files.fdt.Installed → p.2.fdt.Installed) := by
  cases hp with
  | same _ | wait _ _ | resize _ _ _ _ => exact ⟨rfl, id⟩
  | opens _ hopens _ => exact ⟨hopens.maxFds, hopens.installed⟩
  | closes _ hcloses _ => exact ⟨hcloses.maxFds, hcloses.installed⟩

/-- A stretch leaves alone what is open, but for the descriptor that the call asks for. -/
theorem Ends.spares (hp : Ends c files p) (hi : files.fdt.openFds i = true) (hne : c.target ≠ some i) :
    p.2.fdt.openFds i = true ∧ p.2.fdt.fd i = files.fdt.fd i := by
  cases hp with
  | same _ | wait _ _ | resize _ _ _ _ => exact ⟨hi, rfl⟩
  | opens _ hopens hfd =>
    refine ⟨hopens.open_mono hi, hopens.fd_of_ne ?_⟩
    rintro rfl
    rcases hfd with hclear | htarget
    · cases hi.symm.trans hclear
    · exact hne htarget
  | closes _ hcloses hc =>
    obtain ⟨cloexec, rfl⟩ := hc
    have hi' : i ≠ _ := fun heq => hne (congrArg some heq.symm)
    rw [hcloses.openFds, hcloses.table]
    exact ⟨(update_of_ne hi' ..).trans hi, update_of_ne hi' ..⟩

theorem Resized.stepped {q : Except Errno Unit × FilesStruct File} (hq : Resized files nr q)
    (h : Sound files) (hnr : c.Wants nr) (hge : files.fdt.maxFds ≤ nr) (hp : Ends c q.2 p) :
    Stepped files p.2 := by
  obtain ⟨hmax, hin⟩ := hp.table
  rcases q with ⟨_ | ⟨⟩, files1⟩
  · rw [show files1 = _ from hq] at hmax hin
    exact .of_same hmax hin
  obtain ⟨-, -, -, hlt, hgrown⟩ := hq
  have hspares : ∀ i, files.fdt.openFds i = true → p.2.fdt.openFds i = true ∧
    p.2.fdt.fd i = files1.fdt.fd i := by
    intro i hi
    refine hp.spares ((congrFun hgrown.openFds i).trans hi) fun htarget => ?_
    have hlt' := h.lt_of_open hi
    rw [hnr i htarget] at hlt'
    exact absurd hlt' (not_lt.mpr hge)
  refine ⟨hmax ▸ hge.trans hlt.le, fun _ i hi => (hspares i hi).1, fun _ hfits hinst i hi => ?_,
    fun hfits hinst => hin fun i hi => ?_⟩
  · rw [(hspares i hi).2, hgrown.fd (hmax ▸ hfits) hinst]
  have hcopy : CopyFits files.fdt.maxFds files1.fdt.maxFds := by
    rcases hfits with heq | hfits
    · exact absurd (heq.symm.trans hmax) (hge.trans_lt hlt).ne
    · exact hmax ▸ hfits
  rw [hgrown.fd hcopy hinst] at hi
  rw [hgrown.openFds]
  exact hinst i hi

end

variable {x : Except Fault (System T File)} {ok : ℕ → ℕ → Prop}

/-- No step faults. -/
theorem Step.stepped (h : Good s) (hx : Step s x) :
    ∃ s', x = .ok s' ∧ Good s' ∧ Stepped s.files s'.files := by
  cases hx with
  | call ht limits c =>
    obtain ⟨p, heq, hp⟩ := c.start_ends limits h.sound
    rw [heq]
    exact ⟨_, rfl, h.settle ht hp, .of_same hp.table.1 hp.table.2⟩
  | @afterWait t c nr ht limits =>
    have hnr := h.waiting t c nr ht
    obtain ⟨p, heq, hp⟩ : ∃ p, c.afterWait limits nr s.files = .ok p ∧ Ends c s.files p :=
      withRoom_ends hnr (c.rest_ends limits _ h.sound fun hr => by cases hr) fun hlt =>
        c.rest_ends limits _ h.sound fun _ fd hfd => (hnr fd hfd).trans_lt hlt
    rw [heq]
    refine ⟨_, rfl, ?_, .of_same hp.table.1 hp.table.2⟩
    rw [← settle_leave]
    exact h.leave_wait.settle leave_idle hp
  | @afterAlloc t c nr ht limits mem =>
    obtain ⟨-, hnr, hge, hlt⟩ := h.resizing t c nr ht
    obtain ⟨q, hexp, hq⟩ := expandFdtable_spec mem h.sound hge hlt
    obtain ⟨p, heq, hp⟩ := c.rest_ends limits q.1 (hq.sound h.sound) fun hr fd hfd => by
      rcases q with ⟨_ | ⟨⟩, files'⟩
      · cases hr
      · exact (hnr fd hfd).trans_lt hq.2.2.2.1
    rw [show c.afterAlloc limits mem nr s.files = .ok p by rw [Call.afterAlloc, hexp]; exact heq]
    refine ⟨_, rfl, ?_, hq.stepped h.sound hnr hge hp⟩
    rw [← settle_leave]
    exact (h.leave_alloc ht (hq.sound h.sound)).settle leave_idle hp
  | closeFd fd =>
    obtain ⟨r, files', heq, hends⟩ := closeFd_spec fd s.files
    have hk : Kept s.files files' := by
      rcases hends with rfl | hcloses
      · exact .refl _
      · exact hcloses.kept
    rw [heq]
    exact ⟨_, rfl, h.kept hk, hk.stepped⟩
  | putUnusedFd hopen hfd =>
    obtain ⟨files', heq, hk⟩ := putUnusedFd_unused h.sound hopen hfd
    rw [heq]
    exact ⟨_, rfl, h.kept hk, hk.stepped⟩
  | fdInstall hopen hfd file =>
    obtain ⟨files', heq, hk⟩ := fdInstall_unused h.sound file hopen hfd
    rw [heq]
    exact ⟨_, rfl, h.kept hk, hk.stepped⟩

/-! ### Interleavings -/

theorem Reachable.good (h : Reachable ok s) : Good s := by
  induction h with
  | init => exact good_init
  | step _ hs _ ih =>
    obtain ⟨s', heq, hgood, -⟩ := hs.stepped ih
    cases heq
    exact hgood

theorem Reachable.installed (h : Reachable GrowthFits s) : s.files.fdt.Installed := by
  induction h with
  | init => exact fun i hi => absurd rfl hi
  | step hr hs hok ih =>
    obtain ⟨s', heq, -, hstep⟩ := hs.stepped hr.good
    cases heq
    exact hstep.installed hok ih

/-- In every interleaving at most one thread resizes the table, and no step runs into a `BUG_ON`. The
    table never gets smaller. A larger one has all the open bits of the old one and, when the byte counts
    of the copies fit, all its files. -/
theorem reachable_growth (h : Reachable GrowthFits s) :
    (∀ t t' c c' nr nr', s.gaps t = some (c, .resizing nr) → s.gaps t' = some (c', .resizing nr') →
      t = t') ∧
    ∀ x, Step s x → ∃ s', x = .ok s' ∧ s.files.fdt.maxFds ≤ s'.files.fdt.maxFds ∧
    (s.files.fdt.maxFds < s'.files.fdt.maxFds →
      (∀ i, s.files.fdt.openFds i = true → s'.files.fdt.openFds i = true) ∧
      (CopyFits s.files.fdt.maxFds s'.files.fdt.maxFds → ∀ i file, s.files.fdt.fd i = some file →
        s'.files.fdt.fd i = some file)) := by
  refine ⟨h.good.unique, fun x hx => ?_⟩
  obtain ⟨s', heq, -, hstep⟩ := hx.stepped h.good
  refine ⟨s', heq, hstep.maxFds, fun hlt => ⟨hstep.openFds hlt, fun hfits i file hfile => ?_⟩⟩
  have hopen := h.installed i (by rw [hfile]; simp)
  rw [hstep.fd hlt hfits h.installed i hopen, hfile]

/-! ### Two runs -/

/-- The state after a step, for runs on given arguments. -/
def System.next (s : System T File) (x : Except Fault (System T File)) : System T File :=
    x.toOption.getD s

theorem Step.next (hx : Step s x) (h : Good s) : Step s (.ok (s.next x)) := by
  obtain ⟨s', rfl, -⟩ := hx.stepped h
  exact hx

theorem Reachable.next (h : Reachable ok s) (hx : Step s x)
    (hok : ok s.files.fdt.maxFds (s.next x).files.fdt.maxFds) : Reachable ok (s.next x) :=
  h.step (hx.next h.good) hok

section

variable {s : System T Unit} (t : T) (nrOpen : NrOpen)

/-- A thread enters `__alloc_fd` for the descriptor `fd`. -/
def System.enter (s : System T Unit) (fd : ℕ) : System T Unit :=
  s.next (((Call.allocFd fd (fd + 1) false).start ⟨nrOpen, 0⟩ s.files).map
    (s.settle t (.allocFd fd (fd + 1) false)))

/-- It comes back with a new table. -/
def System.replace (s : System T Unit) (fd : ℕ) : System T Unit :=
  s.next (((Call.allocFd fd (fd + 1) false).afterAlloc ⟨nrOpen, 0⟩ (some (staleMemory nrOpen none)) fd
      s.files).map (s.settle t (.allocFd fd (fd + 1) false)))

variable {ok : ℕ → ℕ → Prop}

theorem Reachable.enter (fd : ℕ) (h : Reachable ok s) (ht : s.gaps t = none)
    (hok : ok s.files.fdt.maxFds (s.enter t nrOpen fd).files.fdt.maxFds) :
    Reachable ok (s.enter t nrOpen fd) :=
  h.next (.call ht _ _) hok

end

/-- Nothing is open and no thread is in a call. -/
abbrev System.fresh : System T Unit := ⟨initFiles, fun _ => none⟩

/-- One thread resizes the table, the other waits for it. -/
def waitState : System Bool Unit :=
  (System.fresh.enter true nrOpenSmall 100).enter false nrOpenSmall 70

theorem reachable_growth_wait : waitState.gaps true = some (.allocFd 100 101 false, .resizing 100) ∧
    waitState.gaps false = some (.allocFd 70 71 false, .waiting 70) ∧
    ∀ x, Step waitState x → ∃ s', x = .ok s' ∧ waitState.files.fdt.maxFds ≤ s'.files.fdt.maxFds := by
  refine ⟨by decide +kernel, by decide +kernel, fun x hx => ?_⟩
  obtain ⟨s', heq, hle, -⟩ := (reachable_growth ((Reachable.init.enter true nrOpenSmall 100 rfl
    (by decide +kernel)).enter false nrOpenSmall 70 (by decide +kernel) (by decide +kernel))).2 x hx
  exact ⟨s', heq, hle⟩

/-- A table of 2²⁹ slots with a file in the last one. -/
def fullState : System Unit Unit :=
  let s := (System.fresh.enter () nrOpenLarge (2 ^ 29 - 1)).replace () nrOpenLarge (2 ^ 29 - 1)
  s.next ((fdInstall (2 ^ 29 - 1) () s.files).map fun files => { s with files })

theorem fullState_reachable : Reachable GrowthFits fullState := by
  have h1 := Reachable.init.enter () nrOpenLarge (2 ^ 29 - 1) rfl (by decide +kernel : GrowthFits _ _)
  have h2 : Reachable GrowthFits (System.replace () nrOpenLarge _ (2 ^ 29 - 1)) :=
    h1.next (.afterAlloc (by decide +kernel) _ _) (by decide +kernel)
  exact h2.next (.fdInstall (by decide +kernel) (by decide +kernel) ()) (by decide +kernel)

/-- The copy of a table of 2²⁹ slots has no files, since the byte count wraps to 0. -/
theorem reachable_loses_file : ∃ s s' : System Unit Unit, Reachable GrowthFits s ∧ Step s (.ok s') ∧
    s.files.fdt.maxFds < s'.files.fdt.maxFds ∧ s.files.fdt.fd (2 ^ 29 - 1) = some () ∧
    s'.files.fdt.fd (2 ^ 29 - 1) = none := by
  have h := fullState_reachable.enter () nrOpenLarge (2 ^ 29) (by decide +kernel) (by decide +kernel)
  refine ⟨fullState.enter () nrOpenLarge (2 ^ 29),
    (fullState.enter () nrOpenLarge (2 ^ 29)).replace () nrOpenLarge (2 ^ 29), h,
    Step.next (.afterAlloc ?_ _ _) h.good, ?_, ?_, ?_⟩
  · decide +kernel
  · decide +kernel
  · decide +kernel
  · decide +kernel

end LinuxNote.FileTable
