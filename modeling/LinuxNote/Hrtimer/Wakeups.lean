import LinuxNote.Hrtimer.Timely

/-! Whether wake-ups are late in the bookkeeping of a CPU, over every sequence of calls, interrupts and
callbacks. -/

namespace LinuxNote.Hrtimer
open Option Outcome CpuBase

variable {τ : Type} [Timers τ]

/-- No queued timer is earlier than the times that stand for it. -/
structure CpuBase.Timely (b : CpuBase τ) : Prop where
  bits : ∀ c, b.activeBases c = true ↔ b.active c ≠ []
  hard : ∀ c t, c.soft = false → t ∈ b.active c → b.expiresNext ≤ max 0 (b.expires t - b.offset c)
  soft : b.softirqActivated = false → ∀ c t, c.soft = true → t ∈ b.active c →
    b.expiresNext ≤ max 0 (b.expires t - b.offset c) ∧
    b.softirqExpiresNext ≤ max 0 (b.expires t - b.offset c)

variable {b : CpuBase τ}

theorem CpuBase.Queues.before_iff (h : b.Queues) {x : ℤ} {soft : Bool} :
    b.Before x soft ↔ ∀ c t, c.soft = soft → t ∈ b.active c → x ≤ max 0 (b.expires t - b.offset c) := by
  refine forall_congr' fun c => forall_congr' fun t => imp_congr_right fun _ => imp_congr_right
    fun ht => ?_
  rw [due, event, h.home c t ht]

theorem CpuBase.timely_iff (h : b.Queues) :
    b.Timely ↔ b.Prompt ∧ (b.softirqActivated = false → b.Before b.softirqExpiresNext true) := by
  constructor
  · exact fun ht =>
      ⟨⟨h.before_iff.mpr ht.hard, fun ha => h.before_iff.mpr fun c t hc hm => (ht.soft ha c t hc hm).1⟩,
        fun ha => h.before_iff.mpr fun c t hc hm => (ht.soft ha c t hc hm).2⟩
  exact fun ⟨hp, hs⟩ => ⟨h.bits, h.before_iff.mp hp.hard, fun ha c t hc hm =>
    ⟨h.before_iff.mp (hp.soft ha) c t hc hm, h.before_iff.mp (hs ha) c t hc hm⟩⟩

section
variable {f f' : Frame τ} {soft : Bool} {n m : ℕ}

theorem Frame.Looks.of_soft (h : f.Looks soft) (heq : some f = some f') : f'.Looks soft := by
  cases heq
  exact h

theorem Frame.Looks.of_hard (h : f.Looks soft) (heq : some (f, n) = some (f', m)) : f'.Looks soft := by
  obtain ⟨rfl, -⟩ : f = f' ∧ n = m := by simpa using heq
  exact h

end

namespace State

/-- What is in progress agrees with the flags, and the bookkeeping is right wherever no interrupt is
    about to do it. -/
structure Inv (s : State τ) : Prop where
  kept : s.base.Kept fun _ => False
  prompt : s.hard = none → s.base.Prompt
  inHrtirq : s.base.inHrtirq = s.hard.isSome
  activated : s.base.softirqActivated = (s.raised || s.soft.isSome)
  raised : s.soft.isSome = true → s.raised = false
  hardLooks : ∀ f n, s.hard = some (f, n) → f.Looks false
  softLooks : ∀ f, s.soft = some f → f.Looks true

variable {s s' : State τ} {e : Event τ}

theorem Inv.timely (h : s.Inv) (hhard : s.hard = none) : s.base.Timely :=
  (timely_iff h.kept.queues).mpr ⟨h.prompt hhard, h.kept.softirq⟩

/-- A call that leaves alone what is in progress. -/
theorem Inv.withBase (h : s.Inv) {b : CpuBase τ} (hk : b.Kept fun _ => False)
    (hp : s.hard = none → s.base.Prompt → b.Prompt) (hm : SameMode s.base b) :
    { s with base := b }.Inv :=
  ⟨hk, fun hhard => hp hhard (h.prompt hhard), hm.inHrtirq.trans h.inHrtirq,
    hm.softirqActivated.trans h.activated, h.raised, h.hardLooks, h.softLooks⟩

/-- `hrtimer_interrupt` starts over, whatever `expires_next` was. -/
theorem retry_inv (hk : s.base.Kept fun _ => False)
    (hact : s.base.softirqActivated = (s.raised || s.soft.isSome))
    (hraised : s.soft.isSome = true → s.raised = false)
    (hsoft : ∀ f, s.soft = some f → f.Looks true) {now : ℤ} (hnow : now < ktimeMax) {offs : Offsets}
    (hnot : ¬s.base.InterruptMissed now offs) (n : ℕ) : (s.retry now offs n).Inv := by
  have hq := hk.queues
  by_cases hdue : s.base.softirqExpiresNext ≤ now
  · -- the softirq is not active yet, as `softirq_expires_next` would be parked
    have hinactive : s.base.softirqActivated = false := by
      by_contra ha
      have := hk.parked (by simpa using ha)
      omega
    obtain ⟨-, hnone⟩ : s.raised = false ∧
      s.soft.isSome = false := by simpa using hact.symm.trans hinactive
    simp only [retry, updateBase, hdue, if_true]
    refine ⟨⟨hq.congr rfl rfl rfl, hk.states, le_rfl, fun _ => rfl, by simp⟩, by simp, rfl, by simp,
      ?_, ?_, hsoft⟩
    · simp [hnone]
    · exact fun _ _ => (Frame.begin_looks _ false now).of_hard
  have hk' := hk.updateBase fun hmiss => hnot ⟨hmiss, not_le.mp hdue⟩
  simp only [retry, updateBase, hdue, if_false]
  refine ⟨⟨hq.congr rfl rfl rfl, hk.states, le_rfl, hk.parked, hk'.softirq⟩, by simp, rfl, ?_,
    ?_, ?_, hsoft⟩
  · simpa using hact
  · simpa using hraised
  · exact fun _ _ => (Frame.begin_looks _ false now).of_hard

variable [DecidableEq τ]

/-- The steps that leave a wake-up late. -/
def Missed (s : State τ) : Event τ → Prop
  | .start t tim deltaNs relative => s.hard = none ∧ s.base.StartMissed t tim deltaNs relative
  | .retrigger offs => s.base.RetriggerMissed offs
  | .interrupt now offs => s.base.InterruptMissed now offs
  | .softirq _ offs => ¬(s.base.updateBase offs).Prompt
  | .interruptDone (some (now, offs)) =>
    match s.hard with
    | none => False
    | some (_, retries) =>
      if retries + 1 < 3 then s.base.reevaluate.InterruptMissed now offs
      -- after the third attempt nothing looks at the timers again
      else s.base.reevaluate.SoftMissed offs ∨ ¬(s.base.reevaluate.updateBase offs).Prompt
  | _ => False

theorem Inv.start (h : s.Inv) (t : τ) (tim deltaNs : ℤ) (relative : Option ℤ)
    (hnot : ¬s.Missed (.start t tim deltaNs relative)) :
    { s with base := s.base.hrtimerStartRangeNs t tim deltaNs relative }.Inv := by
  obtain ⟨hk, hm, hp⟩ := h.kept.hrtimerStartRangeNs t tim deltaNs relative
  refine h.withBase hk (fun hhard hprompt => ?_) hm
  exact (hp (by simp [h.inHrtirq, hhard]) hprompt).mpr fun hmiss => hnot ⟨hhard, hmiss⟩

theorem Inv.runQueues (h : s.Inv) (hstep : s.step .runQueues = some s') : s'.Inv := by
  rcases s with ⟨b, hard, soft, raised⟩
  rcases hard with _ | ⟨f, n⟩
  · rcases soft with _ | f
    · cases hstep
    simp only [step] at hstep
    split at hstep
    · cases hstep
    have hlooks := h.softLooks f rfl
    cases hrun : f.run b with
    | some p =>
      obtain ⟨b', f'⟩ := p
      obtain ⟨hk, hp, hm, hl⟩ := Frame.run_kept h.kept hlooks hrun
      rw [hrun] at hstep
      cases hstep
      exact ⟨hk, fun _ => hp (h.prompt rfl), hm.inHrtirq.trans h.inHrtirq,
        hm.softirqActivated.trans h.activated, h.raised, by simp, fun _ => hl.of_soft⟩
    | none =>
      rw [hrun] at hstep
      have hact : b.softirqActivated = true := by simpa using h.activated
      have hraised : raised = false := h.raised rfl
      obtain ⟨hk, hp, ha, hi⟩ := updateSoftirqTimer_kept (b := { b with softirqActivated := false })
        (h.kept.queues.congr rfl rfl rfl) h.kept.states h.kept.le_max (h.prompt rfl).hard
        (h.kept.parked hact) rfl h.inHrtirq
      cases hstep
      exact ⟨hk, fun _ => hp, hi, by simpa [hraised] using ha, by simp, by simp, by simp⟩
  simp only [step] at hstep
  split at hstep
  · cases hstep
  obtain ⟨⟨b', f'⟩, hrun, rfl⟩ := map_eq_some_iff.mp hstep
  obtain ⟨hk, -, hm, hl⟩ := Frame.run_kept h.kept (h.hardLooks f n rfl) hrun
  exact ⟨hk, by simp, hm.inHrtirq.trans h.inHrtirq, hm.softirqActivated.trans h.activated, h.raised,
    fun _ _ => hl.of_hard, h.softLooks⟩

theorem Inv.callbackReturns (h : s.Inv) {restart : Bool}
    (hstep : s.step (.callbackReturns restart) = some s') : s'.Inv := by
  rcases s with ⟨b, hard, soft, raised⟩
  rcases hard with _ | ⟨f, n⟩
  · rcases soft with _ | f
    · cases hstep
    obtain ⟨t, ht, rfl⟩ := map_eq_some_iff.mp hstep
    have hact : b.softirqActivated = true := by simpa using h.activated
    obtain ⟨hk, hm, hp, hl⟩ := Frame.callbackReturns_kept h.kept (h.softLooks f rfl) ht restart
      fun _ => hact
    exact ⟨hk, fun _ => hp rfl (h.prompt rfl), hm.inHrtirq.trans h.inHrtirq,
      hm.softirqActivated.trans h.activated, h.raised, by simp, fun _ => hl.of_soft⟩
  obtain ⟨t, ht, rfl⟩ := map_eq_some_iff.mp hstep
  obtain ⟨hk, hm, -, hl⟩ := Frame.callbackReturns_kept h.kept (h.hardLooks f n rfl) ht restart (by simp)
  exact ⟨hk, by simp, hm.inHrtirq.trans h.inHrtirq, hm.softirqActivated.trans h.activated, h.raised,
    fun _ _ => hl.of_hard, h.softLooks⟩

theorem Inv.interruptDone (h : s.Inv) {expired : Option (ℤ × Offsets)}
    (hstep : s.step (.interruptDone expired) = some s') (hnot : ¬s.Missed (.interruptDone expired)) :
    s'.Inv := by
  rcases s with ⟨b, _ | ⟨f, n⟩, soft, raised⟩
  · cases hstep
  simp only [State.step] at hstep
  split at hstep
  · cases hstep
  case isFalse hlast =>
    obtain ⟨hk, hp, hact⟩ := h.kept.reevaluate
    have hact : b.reevaluate.softirqActivated = (raised || soft.isSome) := hact.trans h.activated
    have hdone : ∀ {b' : CpuBase τ}, b'.Kept (fun _ => False) → b'.Prompt → SameMode b.reevaluate b' →
        (⟨b', none, soft, raised⟩ : State τ).Inv := fun hk hp hm =>
      ⟨hk, fun _ => hp, hm.inHrtirq, hm.softirqActivated.trans hact, h.raised, by simp, h.softLooks⟩
    rcases expired with _ | ⟨now, offs⟩
    · cases hstep
      exact hdone hk hp ⟨rfl, rfl⟩
    simp only [Missed] at hnot
    dsimp only at hstep
    split at hstep
    case isTrue hn =>
      cases hstep
      rw [if_pos hn] at hnot
      have hnow : now < ktimeMax := not_le.mp fun hle => hlast (.inr (.inr ⟨_, rfl, hle⟩))
      exact retry_inv (s := ⟨_, _, soft, raised⟩) hk hact h.raised h.softLooks hnow hnot (n + 1)
    case isFalse hn =>
      cases hstep
      rw [if_neg hn, not_or, not_not] at hnot
      exact hdone (hk.updateBase hnot.1) hnot.2 ⟨rfl, rfl⟩

/-- Offsets that are taken at the very end. -/
theorem Inv.interruptDone_late (h : s.Inv) {expired : Option (ℤ × Offsets)}
    (hstep : s.step (.interruptDone expired) = some s') (hmiss : s.Missed (.interruptDone expired))
    (hdone : s'.hard = none) : ¬s'.base.Timely := by
  rcases expired with _ | ⟨now, offs⟩
  · exact hmiss.elim
  rcases s with ⟨b, _ | ⟨f, n⟩, soft, raised⟩
  · exact hmiss.elim
  simp only [State.step, Missed] at hstep hmiss
  split at hstep
  · cases hstep
  split at hstep
  · cases hstep
    cases hdone
  case isFalse hn =>
    cases hstep
    rw [if_neg hn] at hmiss
    rw [timely_iff (h.kept.reevaluate.1.queues.updateBase offs)]
    exact fun ht => hmiss.elim (fun hs => hs.2 (ht.2 hs.1)) fun hp => hp ht.1

/-- One step. -/
theorem Inv.step (h : s.Inv) (hstep : s.step e = some s') (hnot : ¬s.Missed e) : s'.Inv := by
  cases e with
  | start t tim deltaNs relative =>
    obtain ⟨-, rfl⟩ := of_guard hstep
    exact h.start t tim deltaNs relative hnot
  | tryToCancel t =>
    obtain ⟨-, rfl⟩ := of_guard hstep
    obtain ⟨hk, hp, hm⟩ := h.kept.hrtimerTryToCancel t
    exact h.withBase hk (fun _ => hp) hm
  | forward t expires softexpires =>
    obtain ⟨⟨-, ht⟩, rfl⟩ := of_guard hstep
    obtain ⟨hk, hp⟩ := h.kept.withTimes (h.kept.notQueued (by simpa using ht)) expires softexpires
    exact h.withBase hk (fun _ => hp) ⟨rfl, rfl⟩
  | retrigger offs =>
    obtain ⟨-, rfl⟩ := of_guard hstep
    obtain ⟨hp, hm, hk, -⟩ := h.kept.retriggerNextEvent offs
    exact h.withBase (hk hnot) (fun _ _ => hp) hm
  | interrupt now offs =>
    obtain ⟨⟨-, -, hnow⟩, rfl⟩ := of_guard hstep
    exact retry_inv h.kept h.activated h.raised h.softLooks hnow hnot 0
  | softirq now offs =>
    obtain ⟨⟨-, -, hsoft, hraised⟩, rfl⟩ := of_guard hstep
    have hact : s.base.softirqActivated = true := by rw [h.activated, hraised, Bool.true_or]
    have hk : (s.base.updateBase offs).Kept fun _ => False :=
      h.kept.updateBase fun hmiss => absurd hact (by simp [hmiss.1])
    exact ⟨hk, fun _ => not_not.mp hnot, h.inHrtirq, hact, fun _ => rfl, h.hardLooks,
      fun _ => (Frame.begin_looks _ true now).of_soft⟩
  | runQueues => exact h.runQueues hstep
  | callbackReturns restart => exact h.callbackReturns hstep
  | interruptDone expired => exact h.interruptDone hstep hnot

/-- A missed step is a late wake-up. -/
theorem Inv.late (h : s.Inv) (hstep : s.step e = some s') (hmiss : s.Missed e) (hdone : s'.hard = none) :
    ¬s'.base.Timely := by
  cases e with
  | start t tim deltaNs relative =>
    obtain ⟨-, rfl⟩ := of_guard hstep
    obtain ⟨hhard, hmiss⟩ := hmiss
    obtain ⟨hk, -, hp⟩ := h.kept.hrtimerStartRangeNs t tim deltaNs relative
    rw [timely_iff hk.queues]
    exact fun ht => (hp (by simp [h.inHrtirq, hhard]) (h.prompt hhard)).mp ht.1 hmiss
  | retrigger offs =>
    obtain ⟨-, rfl⟩ := of_guard hstep
    obtain ⟨-, -, -, hlate⟩ := h.kept.retriggerNextEvent offs
    obtain ⟨hlate, ha⟩ := hlate hmiss
    have hq := h.kept.queues.updateBase offs
    exact fun ht => hlate (((timely_iff ((forceReprogram_spec hq false).retimed.queues hq)).mp ht).2 ha)
  | interrupt now offs =>
    obtain ⟨-, rfl⟩ := of_guard hstep
    cases hdone
  | softirq now offs =>
    obtain ⟨-, rfl⟩ := of_guard hstep
    rw [timely_iff (h.kept.queues.updateBase offs)]
    exact fun ht => hmiss ht.1
  | interruptDone expired => exact h.interruptDone_late hstep hmiss hdone
  | _ => exact hmiss.elim

/-! ### Runs -/

/-- `hrtimers_prepare_cpu`, after which the CPU has switched to high resolution. -/
def init (offs : Offsets) (expires softexpires : τ → ℤ) : State τ where
  base :=
    { activeBases := fun _ => false, inHrtirq := false, softirqActivated := false,
      expiresNext := ktimeMax
      nextTimer := none, softirqExpiresNext := ktimeMax, softirqNextTimer := none, offset :=
        fun c => offs.of c.clock
      running := fun _ => none, active := fun _ => [], expires, softexpires, enqueued := fun _ => false }
  hard := none
  soft := none
  raised := false

/-- The states of the runs in which no step has left a wake-up late. -/
inductive Reached : State τ → Prop
  | init (offs : Offsets) (expires softexpires : τ → ℤ) : Reached (init offs expires softexpires)
  | step {s s' : State τ} {e : Event τ} : Reached s → s.step e = some s' → ¬s.Missed e → Reached s'

omit [DecidableEq τ] in
theorem init_inv (offs : Offsets) (expires softexpires : τ → ℤ) :
    (init offs expires softexpires).Inv where
  kept :=
    ⟨⟨by simp [init], by simp [init], by simp [init], by simp [init]⟩, by simp [init, States], le_rfl,
      by simp [init], by simp [init, Before]⟩
  prompt _ := ⟨by simp [init, Before], by simp [init, Before]⟩
  inHrtirq := rfl
  activated := rfl
  raised := by simp [init]
  hardLooks := by simp [init]
  softLooks := by simp [init]

/-- Every run. -/
theorem Reached.inv (h : Reached s) : s.Inv := by
  induction h with
  | init offs expires softexpires => exact init_inv offs expires softexpires
  | step _ hstep hnot ih => exact ih.step hstep hnot

/-- While no interrupt is in progress no wake-up is late, up to the first step that is missed. -/
theorem wakeups_timely {s s' : State τ} {e : Event τ} (hs : Reached s) (hstep : s.step e = some s') :
    (s.hard = none → s.base.Timely) ∧ (s'.hard = none → (s'.base.Timely ↔ ¬s.Missed e)) := by
  refine ⟨hs.inv.timely, fun hhard => ⟨fun ht hmiss => hs.inv.late hstep hmiss hhard ht, fun hnot => ?_⟩⟩
  exact (hs.inv.step hstep hnot).timely hhard

section

/-- Two soft timers, on the monotonic clock and on the real one, and a hard one. -/
inductive Sample
  | soft
  | real
  | hard
deriving DecidableEq

@[reducible] def sampleTimers : Timers Sample where
  base
    | .soft => ⟨.monotonic, true⟩
    | .real => ⟨.realtime, true⟩
    | .hard => ⟨.monotonic, false⟩

local instance sampleInst : Timers Sample := sampleTimers

def sampleInit : State Sample := init ⟨0, 0, 0⟩ (fun _ => 0) fun _ => 0

theorem wakeups_timely_sample :
    ∃ s s' : State Sample, Reached s ∧ s.base.active ⟨.monotonic, true⟩ = [.soft] ∧
    s.step (.start .real 5 0 none) = some s' ∧ (s.hard = none → s.base.Timely) ∧
    (s'.hard = none → (s'.base.Timely ↔ ¬s.Missed (.start .real 5 0 none))) := by
  have hnot : ¬sampleInit.Missed (.start .soft 10 0 none) := by
    rintro ⟨-, hmiss⟩
    revert hmiss
    decide
  refine ⟨_, _, .step (.init ..) rfl hnot, rfl, rfl, ?_⟩
  exact wakeups_timely (.step (.init ..) rfl hnot) rfl

/-- A soft timer is started and cancelled, and another one started for a later time: the second is not in
    `expires_next`. The real clock is set forward while a hard timer comes first: a soft timer that is
    earlier now is not in `softirq_expires_next`, neither after `retrigger_next_event` nor after the
    interrupt of the hard timer. -/
theorem wakeups_late :
    (∃ s, [.start .soft 10 0 none, .tryToCancel .soft, .start .real 20 0 none].foldlM step sampleInit =
        some s ∧ s.hard = none ∧ s.base.expiresNext = ktimeMax ∧ ¬s.base.Timely) ∧
    ∀ l ∈ [[.retrigger ⟨50, 0, 0⟩], [.interrupt 5 ⟨50, 0, 0⟩, .runQueues, .runQueues,
      .callbackReturns false, .runQueues, .interruptDone none]],
    ∃ s, (.start .real 100 0 none :: .start .hard 5 0 none :: l).foldlM step sampleInit = some s ∧
      s.hard = none ∧ s.base.softirqExpiresNext = 100 ∧ ¬s.base.Timely := by
  refine ⟨⟨_, rfl, rfl, rfl, fun h => ?_⟩, List.forall_mem_cons.mpr ⟨⟨_, rfl, rfl, rfl, fun h => ?_⟩,
    List.forall_mem_singleton.mpr ⟨_, rfl, rfl, rfl, fun h => ?_⟩⟩⟩
  · have hsoft := (h.soft rfl ⟨.realtime, true⟩ .real rfl (by decide)).1
    revert hsoft
    decide
  all_goals
    have hsoft := (h.soft rfl ⟨.realtime, true⟩ .real rfl (by decide)).2
    revert hsoft
    decide

end

end State

end LinuxNote.Hrtimer
