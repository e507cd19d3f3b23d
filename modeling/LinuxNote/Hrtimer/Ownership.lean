import LinuxNote.Hrtimer.Migration

/-! Who may touch a timer: the locks of the CPUs, and the `migration_base` while a timer is between two
of them. -/

namespace LinuxNote.Hrtimer.Migration
open Function Option Outcome StartPc

variable {κ ι τ θ : Type}

/-! ### What is held where -/

/-- The timer that `__run_hrtimer` is at. -/
def RunPc.timer : RunPc τ → Option τ
  | .idle | .held => none
  | .marked t | .odd t | .split t | .removed t | .callback t | .returned t _ | .requeued t
  | .oddAgain t | .splitAgain t => some t

def RunPc.locks : RunPc τ → Bool
  | .idle | .callback _ => false
  | _ => true

/-- The CPU whose lock a call has. -/
def StartPc.locks : StartPc κ ι τ → Option κ
  | .idle | .read _ | .lock .. | .moving .. | .back .. => none
  | .check _ b | .remove _ b | .target _ b | .again _ b .. | .restore _ b _ | .enqueue _ b | .unlock _
      b => some b.cpu
  | .moved _ _ _ new => some new

/-- The timer of a call that has the lock of its base. -/
def StartPc.settled : StartPc κ ι τ → Option (τ × Base κ ι)
  | .remove t b | .target t b | .again t b .. | .enqueue t b | .unlock t b => some (t, b)
  | _ => none

/-- The timer that a call has on the `migration_base`. -/
def StartPc.moves : StartPc κ ι τ → Option τ
  | .moving t .. | .moved t .. | .back t .. | .restore t .. => some t
  | _ => none

/-- The timer that a call has taken off its queue. -/
def StartPc.removed : StartPc κ ι τ → Option τ
  | .target t _ | .again t .. | .moving t .. | .moved t .. | .back t .. | .restore t .. | .enqueue t _ =>
  some t
  | _ => none

variable {pc : StartPc κ ι τ} {t : τ}

theorem StartPc.locks_of_settled {b : Base κ ι} (h : pc.settled = some (t, b)) :
    pc.locks = some b.cpu := by
  cases pc <;> simp_all [settled, locks]

/-- A call may change the base of a timer that it claims. -/
def StartPc.Claims (pc : StartPc κ ι τ) (t : τ) : Prop := (∃ b, pc.settled = some (t, b)) ∨
    pc.moves = some t

theorem StartPc.claims_of_removed (h : pc.removed = some t) : pc.Claims t := by
  cases pc <;> simp_all [Claims, settled, moves, removed]

namespace State

/-- A timer belongs to whoever has the lock of its base, or has put it on the `migration_base`; the timer
    that a base runs stays there. -/
structure Inv (s : State κ ι τ θ) : Prop where
  running : ∀ b, s.running b = (s.runner b).timer
  runner_base : ∀ b t, (s.runner b).timer = some t → s.base t = some b
  runner_lock : ∀ b, (s.runner b).locks = true → s.lock b.cpu = some (.inl b)
  lock : ∀ i c, (s.starter i).locks = some c → s.lock c = some (.inr i)
  settled : ∀ i t b, (s.starter i).settled = some (t, b) → s.base t = some b
  moves : ∀ i t, (s.starter i).moves = some t → s.base t = none
  alone : ∀ i j t, (s.starter i).moves = some t → (s.starter j).moves = some t → i = j
  removed : ∀ i t, (s.starter i).removed = some t → s.queue t = none
  queue_base : ∀ t b, s.queue t = some b → s.base t = some b
  queue_enqueued : ∀ t b, s.queue t = some b → s.enqueued t = true

section

variable {s : State κ ι τ θ}

variable {i : θ} {t : τ} {b : Base κ ι}

theorem Inv.lock_of_settled (h : s.Inv) (hi : (s.starter i).settled = some (t, b)) :
    s.lock b.cpu = some (.inr i) :=
  h.lock i _ (locks_of_settled hi)

theorem Inv.claims_unique (h : s.Inv) {j : θ} (hi : (s.starter i).Claims t)
    (hj : (s.starter j).Claims t) : i = j := by
  rcases hi with ⟨b, hi⟩ | hi <;> rcases hj with ⟨b', hj⟩ | hj
  · obtain rfl : b = b' := by simpa [h.settled i t b hi] using h.settled j t b' hj
    simpa [h.lock_of_settled hi] using h.lock_of_settled hj
  · simpa [h.settled i t b hi] using h.moves j t hj
  · simpa [h.settled j t b' hj] using h.moves i t hi
  · exact h.alone i j t hi hj

/-- The loop of a base that has the lock may change the timers there. -/
theorem Inv.not_claims (h : s.Inv) (hb : (s.runner b).locks = true) (ht : s.base t = some b)
    (i : θ) : ¬(s.starter i).Claims t := by
  rintro (⟨b', hi⟩ | hi)
  · obtain rfl : b = b' := by simpa [ht] using h.settled i t b' hi
    simpa [h.runner_lock b hb] using h.lock_of_settled hi
  · simpa [ht] using h.moves i t hi

end

variable [DecidableEq κ] [DecidableEq ι] [DecidableEq τ] [DecidableEq θ]

/-! ### Single changes -/

section

variable {s : State κ ι τ θ}

variable {c : κ} {b : Base κ ι} {pc₀ pc : RunPc τ} {t : τ}

section
omit [DecidableEq ι] [DecidableEq τ] [DecidableEq θ]

theorem Inv.acquire (h : s.Inv) (hc : s.lock c = none) (who : Base κ ι ⊕ θ) : (s.acquire c who).Inv := by
  have hother : ∀ c' who', s.lock c' = some who' → (s.acquire c who).lock c' = some who' := by
    intro c' who' hwho
    refine (update_of_ne ?_ ..).trans hwho
    rintro rfl
    simp [hc] at hwho
  exact { h with
    runner_lock := fun b hb => hother _ _ (h.runner_lock b hb)
    lock := fun i c' hi => hother _ _ (h.lock i c' hi) }

theorem Inv.release (h : s.Inv) (hrun : ∀ b, (s.runner b).locks = true → b.cpu ≠ c)
    (hstart : ∀ i, (s.starter i).locks ≠ some c) : (s.release c).Inv := by
  refine { h with runner_lock := fun b hb => ?_, lock := fun i c' hi => ?_ }
  · exact (update_of_ne (hrun b hb) ..).trans (h.runner_lock b hb)
  refine (update_of_ne ?_ ..).trans (h.lock i c' hi)
  rintro rfl
  exact hstart i hi

end

section
omit [DecidableEq τ] [DecidableEq θ]

theorem Inv.bump (h : s.Inv) (b : Base κ ι) : (s.bump b).Inv := { h with }

/-- The loop of `b` goes on, and `base->running` with it. -/
theorem Inv.runs (h : s.Inv) (b : Base κ ι) (pc : RunPc τ)
    (hbase : ∀ t, pc.timer = some t → s.base t = some b) (hlocks : pc.locks = true →
      s.lock b.cpu = some (.inl b)) : ((s.setRunning b pc.timer).runAt b pc).Inv := by
  have hrunner : ∀ (p : Base κ ι → RunPc τ → Prop), p b pc → (∀ b', p b' (s.runner b')) →
      ∀ b', p b' (update s.runner b pc b') := fun _ hp hall =>
    (forall_update_iff s.runner _).mpr ⟨hp, fun b' _ => hall b'⟩
  refine { h with
    running := fun b' => ?_
    runner_base :=
      hrunner (fun b' pc' => ∀ t, pc'.timer = some t → s.base t = some b') hbase h.runner_base
    runner_lock :=
      hrunner (fun b' pc' => pc'.locks = true → s.lock b'.cpu = some (.inl b')) hlocks h.runner_lock }
  simp only [runAt, setRunning]
  by_cases hb : b' = b
  · simp [hb]
  · simpa [hb] using h.running b'

/-- The loop of `b` goes on with the same timer. -/
theorem Inv.runAt (h : s.Inv) (hpc : s.runner b = pc₀) (htimer : pc.timer = pc₀.timer)
    (hlocks : pc.locks = true → s.lock b.cpu = some (.inl b)) : (s.runAt b pc).Inv := by
  rw [← hpc] at htimer
  have hruns := h.runs b pc (fun t ht => h.runner_base b t (htimer ▸ ht)) hlocks
  rwa [htimer, ← h.running, setRunning, update_eq_self] at hruns

end

section
omit [DecidableEq κ] [DecidableEq ι] [DecidableEq τ]

/-- A call gets on, with what it claims then. -/
theorem Inv.startAt (h : s.Inv) (i : θ) (pc : StartPc κ ι τ)
    (hlocks : ∀ c, pc.locks = some c → s.lock c = some (.inr i)) (hsettled : ∀ t b,
      pc.settled = some (t, b) → s.base t = some b) (hmoves : ∀ t, pc.moves = some t → s.base t = none)
    (halone : ∀ t j, pc.moves = some t → (s.starter j).moves = some t → i = j)
    (hremoved : ∀ t, pc.removed = some t → s.queue t = none) : (s.startAt i pc).Inv := by
  have hstarter : ∀ (p : θ → StartPc κ ι τ → Prop), p i pc → (∀ j, p j (s.starter j)) →
      ∀ j, p j (update s.starter i pc j) := fun _ hp hall =>
    (forall_update_iff s.starter _).mpr ⟨hp, fun j _ => hall j⟩
  refine ⟨h.running, h.runner_base, h.runner_lock,
    hstarter (fun j pc' => ∀ c, pc'.locks = some c → s.lock c = some (.inr j)) hlocks h.lock,
    hstarter (fun _ pc' => ∀ t b, pc'.settled = some (t, b) → s.base t = some b) hsettled h.settled,
    hstarter (fun _ pc' => ∀ t, pc'.moves = some t → s.base t = none) hmoves h.moves, fun j k t => ?_,
    hstarter (fun _ pc' => ∀ t, pc'.removed = some t → s.queue t = none) hremoved h.removed,
    h.queue_base, h.queue_enqueued⟩
  refine hstarter (fun j pc' => pc'.moves = some t → ((s.startAt i pc).starter k).moves = some t → j = k)
    (fun hi => ?_) (fun j hj => ?_) j
  · exact hstarter (fun k pc' => pc'.moves = some t → i = k) (fun _ => rfl)
      (fun k hk => halone t k hi hk) k
  exact hstarter (fun k pc' => pc'.moves = some t → j = k) (fun hi => (halone t j hi hj).symm)
    (fun k hk => h.alone j k t hj hk) k

/-- A call lets go of everything. -/
theorem Inv.drop (h : s.Inv) (i : θ) : (s.startAt i .idle).Inv :=
  h.startAt i .idle nofun nofun nofun nofun nofun

end

section
omit [DecidableEq κ] [DecidableEq ι] [DecidableEq θ]

theorem Inv.setBase (h : s.Inv) (hrun : ∀ b, (s.runner b).timer ≠ some t)
    (hstart : ∀ i, ¬(s.starter i).Claims t) (hqueue : s.queue t = none) (b : Option (Base κ ι)) :
    (s.setBase t b).Inv := by
  have hother : ∀ {u : τ} {b' : Option (Base κ ι)}, u ≠ t → s.base u = b' →
    (s.setBase t b).base u = b' :=
    fun hu hbase => (update_of_ne hu ..).trans hbase
  refine ⟨h.running, fun b' u hu => hother ?_ (h.runner_base b' u hu), h.runner_lock, h.lock,
    fun i u b' hu => hother ?_ (h.settled i u b' hu), fun i u hu => hother ?_ (h.moves i u hu),
    h.alone, h.removed, fun u b' hu => hother ?_ (h.queue_base u b' hu), h.queue_enqueued⟩
  all_goals rintro rfl
  · exact hrun b' hu
  · exact hstart i (.inl ⟨b', hu⟩)
  · exact hstart i (.inr hu)
  · exact nomatch hqueue.symm.trans hu

theorem Inv.enqueueHrtimer (h : s.Inv) (hbase : s.base t = some b)
    (hstart : ∀ i, (s.starter i).removed ≠ some t) : (s.enqueueHrtimer t b).Inv := by
  refine { h with
    removed := fun i u hu => ?_, queue_base := fun u b' => ?_, queue_enqueued := fun u b' => ?_ }
  all_goals simp only [State.enqueueHrtimer]
  · rw [update_of_ne]
    · exact h.removed i u hu
    rintro rfl
    exact hstart i hu
  all_goals by_cases hu : u = t
  · subst hu
    simp [hbase]
  · simpa [hu] using h.queue_base u b'
  · simp [hu]
  · simpa [hu] using h.queue_enqueued u b'

theorem Inv.removeHrtimer (h : s.Inv) (t : τ) (newstate : Bool) :
    (s.removeHrtimer t newstate).Inv ∧ (s.removeHrtimer t newstate).queue t = none := by
  -- a timer that is not enqueued is on no queue
  have hqueue : ∀ u, (s.removeHrtimer t newstate).queue u = if u = t then none else s.queue u := by
    intro u
    simp only [State.removeHrtimer]
    split
    · simp [update_apply]
    case isFalse ht =>
      split
      case isTrue hu =>
        subst hu
        cases hq : s.queue u with
        | none => rfl
        | some b => exact absurd (h.queue_enqueued u b hq) ht
      · rfl
  refine ⟨{ h with
    removed := fun i u hu => ?_, queue_base := fun u b hu => ?_, queue_enqueued := fun u b hu => ?_ },
    by simp [hqueue]⟩
  · rw [hqueue]
    split
    · rfl
    · exact h.removed i u hu
  all_goals
    rw [hqueue] at hu
    split at hu
    · cases hu
  · exact h.queue_base u b hu
  case isFalse hut =>
    simpa [State.removeHrtimer, hut] using h.queue_enqueued u b hu

end

omit [DecidableEq τ] [DecidableEq θ] in
theorem Inv.runUnlock (h : s.Inv) (hpc0 : s.runner b = pc₀)
    (htimer : pc.timer = pc₀.timer) (hlocks : pc₀.locks = true) (hpc : pc.locks = false) :
    ((s.release b.cpu).runAt b pc).Inv := by
  have hlock := h.runner_lock b (hpc0 ▸ hlocks)
  have hrun : (s.runAt b pc).Inv := h.runAt hpc0 htimer (by simp [hpc])
  refine hrun.release (fun b' hb' heq => ?_) (fun i hi => ?_)
  · -- the lock has one holder, which lets go of it
    have hlock' := hrun.runner_lock b' hb'
    rw [heq] at hlock'
    obtain rfl : b = b' := by simpa using hlock.symm.trans hlock'
    simp [State.runAt, hpc] at hb'
  · simpa using hlock.symm.trans (h.lock i _ hi)

omit [DecidableEq ι] [DecidableEq τ] in
theorem Inv.startUnlock (h : s.Inv) {i : θ} (hi : (s.starter i).locks = some c) {pc : StartPc κ ι τ}
    (hstart : (s.startAt i pc).Inv) (hpc : pc.locks = none) : ((s.release c).startAt i pc).Inv := by
  have hlock := h.lock i c hi
  refine hstart.release (fun b hb heq => ?_) (fun j hj => ?_)
  · rw [← heq] at hlock
    simpa using hlock.symm.trans (h.runner_lock b hb)
  obtain rfl : i = j := by simpa using hlock.symm.trans (hstart.lock j c hj)
  simp [State.startAt, hpc] at hj

end

/-! ### Steps -/

variable {s s' : State κ ι τ θ} {x : τ}

omit [DecidableEq θ] in
theorem Inv.run (h : s.Inv) {b : Base κ ι} (hrun : s.run b = some s') : s'.Inv := by
  unfold State.run at hrun
  split at hrun
  case h_1 t hpc | h_2 t hpc | h_6 t hpc | h_7 t hpc =>
    cases hrun
    exact (h.bump b).runAt hpc rfl fun _ => h.runner_lock b (hpc ▸ rfl)
  case h_3 t hpc =>
    cases hrun
    exact (h.removeHrtimer t false).1.runAt hpc rfl fun _ => h.runner_lock b (hpc ▸ rfl)
  case h_4 t hpc =>
    cases hrun
    exact h.runUnlock hpc rfl rfl rfl
  case h_5 t restart hpc =>
    cases hrun
    have hlocks : (s.runner b).locks = true := hpc ▸ rfl
    have hbase := h.runner_base b t (hpc ▸ rfl)
    split
    · refine (h.enqueueHrtimer hbase fun i hi => ?_).runAt hpc rfl fun _ => h.runner_lock b hlocks
      exact h.not_claims hlocks hbase i (claims_of_removed hi)
    · exact h.runAt hpc rfl fun _ => h.runner_lock b hlocks
  case h_8 t hpc =>
    cases hrun
    exact h.runs b .held nofun fun _ => h.runner_lock b (hpc ▸ rfl)
  case h_9 => cases hrun

section

variable {s : State κ ι τ θ} {i : θ} {t : τ} {b : Base κ ι} {this new : κ}

omit [DecidableEq κ] [DecidableEq ι] [DecidableEq τ] in
theorem Inv.not_claims_drop (h : s.Inv) (hi : (s.starter i).Claims t) (j : θ) :
    ¬((s.startAt i .idle).starter j).Claims t := by
  intro hj
  by_cases hji : j = i
  · subst hji
    simp [State.startAt, StartPc.Claims, StartPc.settled, StartPc.moves] at hj
  simp only [State.startAt, update_of_ne hji] at hj
  exact hji (h.claims_unique hj hi)

omit [DecidableEq ι] in
/-- A call takes its timer to the `migration_base`: the loop of the base is not at it. -/
theorem Inv.move (h : s.Inv) (hpc : s.starter i = .again t b this new)
    (hrunning : s.runningOf (s.base t) ≠ some t) :
    (((s.setBase t none).release b.cpu).startAt i (.moving t b this new)).Inv := by
  have hsettled : (s.starter i).settled = some (t, b) := hpc ▸ rfl
  have hbase := h.settled i t b hsettled
  have hqueue := h.removed i t (hpc ▸ rfl)
  have hothers := h.not_claims_drop (.inl ⟨b, hsettled⟩)
  have hrun : ∀ b', (s.runner b').timer ≠ some t := by
    intro b' hb'
    obtain rfl : b = b' := by simpa [hbase] using h.runner_base b' t hb'
    rw [hbase] at hrunning
    exact hrunning ((h.running b).trans hb')
  have hmoved :=
    (h.startUnlock (locks_of_settled hsettled) (h.drop i) rfl).setBase hrun hothers hqueue none
  have hstart := hmoved.startAt i (.moving t b this new) nofun nofun
    (fun u hu => by cases hu; exact update_self ..)
    (fun u j hu hj => by cases hu; exact absurd (.inr hj) (hothers j))
    (fun u hu => by cases hu; exact hqueue)
  simpa [State.startAt, State.setBase, State.release] using hstart

variable {pc : StartPc κ ι τ}

omit [DecidableEq κ] [DecidableEq ι] in
/-- A call takes its timer off the `migration_base`, to a base whose lock it has. -/
theorem Inv.settle (h : s.Inv) (hmoves : (s.starter i).moves = some t)
    (hlocks : (s.starter i).locks = some b.cpu) (hqueue : s.queue t = none)
    (hpc : pc.settled = some (t, b)) (hpc' : pc.removed = some t) :
    ((s.setBase t (some b)).startAt i pc).Inv := by
  have hothers := h.not_claims_drop (.inr hmoves)
  have hrun : ∀ b', (s.runner b').timer ≠ some t := by
    intro b' hb'
    simpa [h.moves i t hmoves] using h.runner_base b' t hb'
  have hmoved := (h.drop i).setBase hrun hothers hqueue (some b)
  have hpcLocks := locks_of_settled hpc
  have hstart :=
    hmoved.startAt i pc (fun c hc => ?_) (fun u b' hu => ?_) (fun u hu => ?_) (fun u j hu hj => ?_)
      (fun u hu => ?_)
  · simpa [State.startAt, State.setBase] using hstart
  · obtain rfl : b.cpu = c := by simpa [hpcLocks] using hc
    exact h.lock i _ hlocks
  · obtain ⟨rfl, rfl⟩ : t = u ∧ b = b' := by simpa [hpc] using hu
    exact update_self ..
  · cases pc <;> simp_all [StartPc.settled, StartPc.moves]
  · cases pc <;> simp_all [StartPc.settled, StartPc.moves]
  obtain rfl : t = u := by simpa [hpc'] using hu
  exact hqueue

section
omit [DecidableEq κ] [DecidableEq ι] [DecidableEq τ]

/-- A call that has the lock of its base goes on there. -/
theorem Inv.stay (h : s.Inv) {pc₀ : StartPc κ ι τ} (hpc0 : s.starter i = pc₀)
    (hlocks : pc.locks = pc₀.locks) (hsettled : ∀ t b, pc.settled = some (t, b) →
      pc₀.settled = some (t, b)) (hmoves : pc.moves = none) (hremoved : ∀ t, pc.removed = some t →
      s.queue t = none) : (s.startAt i pc).Inv := by
  subst hpc0
  exact h.startAt i pc (fun c hc => h.lock i c (hlocks ▸ hc))
    (fun t b ht => h.settled i t b (hsettled t b ht)) (by simp [hmoves]) (by simp [hmoves]) hremoved

/-- A call goes on with its timer on the `migration_base`. -/
theorem Inv.keep (h : s.Inv) (hmoves : (s.starter i).moves = some t) (hpc : pc.moves = some t)
    (hlocks : ∀ c, pc.locks = some c → s.lock c = some (.inr i)) : (s.startAt i pc).Inv := by
  have hsettled : pc.settled = none := by cases pc <;> simp_all [StartPc.settled, StartPc.moves]
  have hremoved : ∀ {pc : StartPc κ ι τ} {t : τ}, pc.moves = some t → pc.removed = some t := by
    intro pc t hpc
    cases pc <;> simp_all [StartPc.removed, StartPc.moves]
  refine h.startAt i pc hlocks (by simp [hsettled]) (fun u hu => ?_) (fun u j hu hj => ?_)
    (fun u hu => ?_)
  · obtain rfl : t = u := by simpa [hpc] using hu
    exact h.moves i t hmoves
  · obtain rfl : t = u := by simpa [hpc] using hu
    exact h.alone i j t hmoves hj
  obtain rfl : t = u := by simpa [hremoved hpc] using hu
  exact h.removed i t (hremoved hmoves)

end

omit [DecidableEq κ] [DecidableEq ι] in
theorem Inv.enqueue (h : s.Inv) (hpc : s.starter i = .enqueue t b) :
    ((s.enqueueHrtimer t b).startAt i (.unlock t b)).Inv := by
  have hsettled : (s.starter i).settled = some (t, b) := hpc ▸ rfl
  have hbase := h.settled i t b hsettled
  have henq := (h.drop i).enqueueHrtimer hbase
    fun j hj => h.not_claims_drop (.inl ⟨b, hsettled⟩) j (claims_of_removed hj)
  have hstart := henq.startAt i (.unlock t b) (fun c hc => by cases hc; exact h.lock_of_settled hsettled)
    (fun u b' hu => by cases hu; exact hbase) nofun nofun nofun
  simpa [State.startAt, State.enqueueHrtimer] using hstart

theorem Inv.start {s' : State κ ι τ θ} (h : s.Inv) {early : Bool} (hstart : s.start i early = some s') :
    s'.Inv := by
  unfold State.start at hstart
  split at hstart
  case h_1 t hpc =>
    split at hstart
    · cases hstart
      exact h
    cases hstart
    exact h.startAt i _ nofun nofun nofun nofun nofun
  case h_2 t b hpc =>
    obtain ⟨hfree, rfl⟩ := of_guard hstart
    refine (h.acquire hfree (.inr i)).startAt i _ (fun c hc => ?_) nofun nofun nofun nofun
    cases hc
    exact update_self ..
  case h_3 t b hpc =>
    split at hstart
    case isTrue hbase =>
      cases hstart
      refine h.startAt i _ (fun c hc => h.lock i c (hpc ▸ hc)) (fun u b' hu => ?_) nofun nofun nofun
      cases hu
      exact hbase
    cases hstart
    have hlocks : (s.starter i).locks = some b.cpu := hpc ▸ rfl
    exact h.startUnlock hlocks (h.startAt i (.read t) nofun nofun nofun nofun nofun) rfl
  case h_4 t b hpc =>
    cases hstart
    split
    · obtain ⟨hrem, hqueue⟩ := h.removeHrtimer t true
      exact hrem.stay hpc rfl (fun u b' hu => hu) rfl fun u hu => by cases hu; exact hqueue
    case isFalse ht =>
      refine h.stay hpc rfl (fun u b' hu => hu) rfl fun u hu => ?_
      cases hu
      cases hq : s.queue t with
      | none => rfl
      | some b' => exact absurd (h.queue_enqueued t b' hq) ht
  case h_5 t b this new hpc =>
    have hqueue := h.removed i t (hpc ▸ rfl)
    dsimp only at hstart
    split at hstart
    · split at hstart
      · cases hstart
        exact h.stay hpc rfl (fun u b' hu => hu) rfl fun u hu => by cases hu; exact hqueue
      case isFalse hrunning =>
        cases hstart
        exact h.move hpc hrunning
    case isFalse hsame =>
      have hsame : b = ⟨new, b.index⟩ := by simpa using hsame
      split at hstart
      · cases hstart
        exact h.stay hpc rfl (fun u b' hu => hu) rfl fun u hu => by cases hu; exact hqueue
      cases hstart
      rw [← hsame]
      exact h.stay hpc rfl (fun u b' hu => hu) rfl fun u hu => by cases hu; exact hqueue
  case h_6 t b this new hpc | h_8 t b this hpc =>
    obtain ⟨hfree, rfl⟩ := of_guard hstart
    have hmoves : (s.starter i).moves = some t := hpc ▸ rfl
    refine (h.acquire hfree (.inr i)).keep hmoves rfl fun c hc => ?_
    cases hc
    exact update_self ..
  case h_7 t b this new hpc =>
    have hqueue := h.removed i t (hpc ▸ rfl)
    split at hstart
    · cases hstart
      have hmoves : (s.starter i).moves = some t := hpc ▸ rfl
      have hlocks : (s.starter i).locks = some new := hpc ▸ rfl
      exact h.startUnlock hlocks (h.keep hmoves rfl nofun) rfl
    · cases hstart
      exact h.settle (b := ⟨new, b.index⟩) (hpc ▸ rfl) (hpc ▸ rfl) hqueue rfl rfl
  case h_9 t b this hpc =>
    cases hstart
    exact h.settle (hpc ▸ rfl) (hpc ▸ rfl) (h.removed i t (hpc ▸ rfl)) rfl rfl
  case h_10 t b hpc =>
    cases hstart
    exact h.enqueue hpc
  case h_11 t b hpc =>
    cases hstart
    have hlocks : (s.starter i).locks = some b.cpu := hpc ▸ rfl
    exact h.startUnlock hlocks (h.drop i) rfl
  case h_12 => cases hstart

end

theorem Inv.step (h : s.Inv) {e : Event κ ι τ θ} (hstep : s.step x e = some s') : s'.Inv := by
  cases e with
  | runLock b =>
    obtain ⟨⟨hpc, hfree⟩, rfl⟩ := of_guard hstep
    exact (h.acquire hfree (.inl b)).runAt hpc rfl fun _ => update_self ..
  | runUnlock b =>
    obtain ⟨hpc, rfl⟩ := of_guard hstep
    exact h.runUnlock hpc rfl rfl rfl
  | expire b t =>
    obtain ⟨⟨hpc, hqueue⟩, rfl⟩ := of_guard hstep
    refine h.runs b (.marked t) (fun u hu => ?_) fun _ => h.runner_lock b (hpc ▸ rfl)
    cases hu
    exact h.queue_base t b hqueue
  | run b => exact h.run hstep
  | callbackReturns b restart =>
    simp only [State.step] at hstep
    split at hstep
    case h_1 t hpc =>
      obtain ⟨hfree, rfl⟩ := of_guard hstep
      exact (h.acquire hfree (.inl b)).runAt hpc rfl fun _ => update_self ..
    · cases hstep
  | call i t =>
    simp only [State.step] at hstep
    split at hstep
    · cases hstep
      exact h.startAt i _ nofun nofun nofun nofun nofun
    · cases hstep
  | getTargetBase i this new =>
    simp only [State.step] at hstep
    split at hstep
    case h_1 t b hpc =>
      cases hstep
      exact h.stay hpc rfl (fun u b' hu => hu) rfl fun u hu => h.removed i u (hpc ▸ hu)
    · cases hstep
  | start i early => exact h.start hstep
  | callActive =>
    obtain ⟨-, rfl⟩ := of_guard hstep
    exact { h with }
  | read =>
    obtain ⟨pc, -, rfl⟩ := map_eq_some_iff.mp hstep
    exact { h with }

theorem Reached.inv (h : Reached x s) : s.Inv := by
  induction h with
  | init base => exact ⟨fun _ => rfl, nofun, nofun, nofun, nofun, nofun, nofun, nofun, nofun, nofun⟩
  | step _ hstep ih => exact ih.step hstep

end State

end LinuxNote.Hrtimer.Migration
