import LinuxNote.Hrtimer.Queues

/-! The cached times are never later than the timers they stand for, except where a soft timer is started
    or new offsets are taken in a way that is told here. -/

namespace LinuxNote.Hrtimer
open Function Timers List

namespace CpuBase

variable {τ : Type} [DecidableEq τ] [Timers τ]

/-! ### Timers join and leave their queues -/

theorem enqueue_mem (b : CpuBase τ) (t u : τ) (c : ClockBase) :
    u ∈ (b.enqueueHrtimer t).1.active c ↔ (u = t ∧ c = base t) ∨ u ∈ b.active c := by
  unfold enqueueHrtimer
  dsimp only
  by_cases hc : c = base t
  · subst hc
    rw [update_self, KeyedQueue.mem_insert]
    simp
  · rw [update_of_ne hc]
    simp [hc]

variable {b : CpuBase τ} {t : τ} {x : ℤ} {soft : Bool} {busy : τ → Prop}

theorem enqueue_queues (h : b.Queues) (ht : t ∉ b.active (base t)) : (b.enqueueHrtimer t).1.Queues := by
  refine ⟨fun c u hu => ?_, ?_, ?_, fun c => ?_⟩
  · rcases (b.enqueue_mem t u c).mp hu with ⟨rfl, rfl⟩ | hu
    · rfl
    · exact h.home c u hu
  · exact (forall_update_iff b.active fun _ l => l.Nodup).mpr
      ⟨KeyedQueue.insert_nodup ht (h.nodup _), fun c _ => h.nodup c⟩
  · exact (forall_update_iff b.active fun _ l => l.Pairwise _).mpr
      ⟨KeyedQueue.insert_sorted (h.sorted _), fun c _ => h.sorted c⟩
  unfold enqueueHrtimer
  by_cases hc : c = base t
  · subst hc
    simp only [update_self]
    exact ⟨fun _ => ne_nil_of_mem (KeyedQueue.mem_insert.mpr (.inl rfl)), fun _ => trivial⟩
  · simp only [update_of_ne hc]
    exact h.bits c

theorem enqueue_states (h : b.States (· = t)) : (b.enqueueHrtimer t).1.States fun _ => False := by
  intro u _
  rw [enqueue_mem]
  show update b.enqueued t true u = true ↔ _
  by_cases hu : u = t
  · subst hu
    simp
  rw [update_of_ne hu, h u hu]
  simp [hu]

/-- A time is before the timers of a queue that another one joins if it is before that one as well. -/
theorem enqueue_before : (b.enqueueHrtimer t).1.Before x soft ↔ b.Before x soft ∧
    ((base t).soft = soft → x ≤ b.due t) := by
  constructor
  · exact fun h => ⟨fun c u hc hu => h c u hc ((b.enqueue_mem t u c).mpr (.inr hu)),
      fun hs => h _ t hs ((b.enqueue_mem t t _).mpr (.inl ⟨rfl, rfl⟩))⟩
  rintro ⟨h, ht⟩ c u hc hu
  rcases (b.enqueue_mem t u c).mp hu with ⟨rfl, rfl⟩ | hu
  · exact ht hc
  · exact h c u hc hu

theorem dequeue_mem (h : b.Queues) (t u : τ) (s : Bool) (c : ClockBase) :
    u ∈ (b.dequeue t s).active c ↔ u ≠ t ∧ u ∈ b.active c := by
  unfold dequeue
  dsimp only
  by_cases hc : c = base t
  · subst hc
    rw [update_self, (h.nodup _).mem_erase_iff]
  rw [update_of_ne hc]
  refine ⟨fun hu => ⟨?_, hu⟩, And.right⟩
  rintro rfl
  exact hc (h.home c u hu).symm

theorem dequeue_queues (h : b.Queues) (t : τ) (s : Bool) : (b.dequeue t s).Queues := by
  refine ⟨fun c u hu => h.home c u ((dequeue_mem h t u s c).mp hu).2, ?_, ?_, fun c => ?_⟩
  · exact (forall_update_iff b.active fun _ l => l.Nodup).mpr ⟨(h.nodup _).erase t, fun c _ => h.nodup c⟩
  · exact (forall_update_iff b.active fun _ l => l.Pairwise _).mpr
      ⟨(h.sorted _).sublist erase_sublist, fun c _ => h.sorted c⟩
  show (if (b.active (base t)).erase t = [] then update b.activeBases (base t) false
    else b.activeBases) c = true ↔ update b.active (base t) _ c ≠ []
  by_cases hc : c = base t
  · subst hc
    rw [update_self]
    split
    · simp_all
    case isFalse hne =>
      have hactive : b.active (base t) ≠ [] := by
        rintro heq
        rw [heq] at hne
        exact hne rfl
      exact ⟨fun _ => hne, fun _ => (h.bits _).mpr hactive⟩
  rw [update_of_ne hc]
  split
  · rw [update_of_ne hc]
    exact h.bits c
  · exact h.bits c

theorem dequeue_before (h : b.Queues) {s : Bool} (hx : b.Before x soft) :
    (b.dequeue t s).Before x soft :=
  fun c u hc hu => hx c u hc ((dequeue_mem h t u s c).mp hu).2

/-! ### What every call keeps -/

/-- The queues are in order, and `softirq_expires_next` is before the soft timers, or parked while the
    softirq is to look at them anyway. The states of the timers in `busy` are left out. -/
structure Kept (b : CpuBase τ) (busy : τ → Prop) : Prop where
  queues : b.Queues
  states : b.States busy
  le_max : b.expiresNext ≤ ktimeMax
  parked : b.softirqActivated = true → b.softirqExpiresNext = ktimeMax
  softirq : b.softirqActivated = false → b.Before b.softirqExpiresNext true

/-- `expires_next` is before the timers it stands for. -/
structure Prompt (b : CpuBase τ) : Prop where
  hard : b.Before b.expiresNext false
  soft : b.softirqActivated = false → b.Before b.expiresNext true

omit [DecidableEq τ] in
theorem forceReprogram_prompt (h : b.Queues) (skipEqual : Bool) :
    (b.forceReprogram skipEqual).Prompt := by
  obtain ⟨hr, -, hhard, hsoft, -, -⟩ := forceReprogram_spec h skipEqual
  exact ⟨hr.before_iff.mpr hhard, fun ha => hr.before_iff.mpr (hsoft (hr.softirqActivated ▸ ha))⟩

omit [DecidableEq τ] in
theorem forceReprogram_kept (h : b.Queues) (hst : b.States busy)
    (hparked : b.softirqActivated = true → b.softirqExpiresNext = ktimeMax)
    (hs : b.softirqActivated = false → ¬b.SoftFirst → b.Before b.softirqExpiresNext true)
    (skipEqual : Bool) : (b.forceReprogram skipEqual).Kept busy := by
  obtain ⟨hr, hmax, -, -, hsoftirq, heq⟩ := forceReprogram_spec h skipEqual
  refine ⟨hr.queues h, hr.states hst, hmax, fun ha => ?_, fun ha => ?_⟩
  · rw [hr.softirqActivated] at ha
    rw [heq (.inl ha)]
    exact hparked ha
  rw [hr.softirqActivated] at ha
  rw [hr.before_iff]
  by_cases hf : b.SoftFirst
  · exact hsoftirq ha hf
  rw [heq (.inr hf)]
  exact hs ha hf

/-- The fields that tell what is in progress. -/
structure SameMode (b b' : CpuBase τ) : Prop where
  softirqActivated : b'.softirqActivated = b.softirqActivated
  inHrtirq : b'.inHrtirq = b.inHrtirq

theorem Kept.dequeue (h : b.Kept fun _ => False) (t : τ) (s : Bool) :
    (b.dequeue t s).Kept (· = t) ∧ (b.Prompt → (b.dequeue t s).Prompt) := by
  have hstates : (b.dequeue t s).States (· = t) := by
    intro u hu
    rw [dequeue_mem h.queues, and_iff_right hu]
    show update b.enqueued t s u = true ↔ _
    rw [update_of_ne hu]
    exact h.states u not_false
  exact ⟨⟨dequeue_queues h.queues t s, hstates, h.le_max, h.parked,
    fun ha => dequeue_before h.queues (h.softirq ha)⟩,
    fun hp => ⟨dequeue_before h.queues hp.hard, fun ha => dequeue_before h.queues (hp.soft ha)⟩⟩

theorem Kept.removeHrtimerFrom (h : b.Kept fun _ => False) (ht : b.enqueued t = true)
    (s reprogram : Bool) : (b.removeHrtimerFrom t s reprogram).Kept (· = t) ∧
    (b.Prompt → (b.removeHrtimerFrom t s reprogram).Prompt) ∧
    SameMode b (b.removeHrtimerFrom t s reprogram) ∧ (b.removeHrtimerFrom t s reprogram).enqueued t = s ∧
    t ∉ (b.removeHrtimerFrom t s reprogram).active (base t) := by
  have hstate : (b.dequeue t s).enqueued t = s := update_self ..
  have hgone : t ∉ (b.dequeue t s).active (base t) :=
    fun hmem => ((dequeue_mem h.queues t t s _).mp hmem).1 rfl
  obtain ⟨hk, hp⟩ := h.dequeue t s
  unfold CpuBase.removeHrtimerFrom
  rw [if_neg (by simp [ht])]
  split
  · have hr := (forceReprogram_spec hk.queues true).retimed
    exact ⟨forceReprogram_kept hk.queues hk.states hk.parked (fun ha _ => hk.softirq ha) true,
      fun _ => forceReprogram_prompt hk.queues true, { hr with },
      by rw [hr.enqueued, hstate], by rwa [hr.active]⟩
  · exact ⟨hk, hp, ⟨rfl, rfl⟩, hstate, hgone⟩

/-- A timer that is inactive after its removal has the right state. -/
theorem Kept.inactive (h : b.Kept (· = t)) (hs : b.enqueued t = false) (ht : t ∉ b.active (base t)) :
    b.Kept fun _ => False := by
  refine { h with states := fun u _ => ?_ }
  by_cases hu : u = t
  · subst hu
    simp [hs, ht]
  · exact h.states u hu

omit [DecidableEq τ] in
theorem Kept.notQueued (h : b.Kept fun _ => False) (ht : b.enqueued t = false) :
    t ∉ b.active (base t) := by
  rw [← h.states t not_false]
  simp [ht]

/-! ### `hrtimer_start_range_ns` -/

/-- A soft timer is started that is earlier than `expires_next`, but no earlier than a
    `softirq_expires_next` that has been left behind. -/
def StartMissed (b : CpuBase τ) (t : τ) (tim deltaNs : ℤ) (relative : Option ℤ) : Prop :=
  let b := (b.startRange t tim deltaNs relative).1
  (Timers.base t).soft = true ∧ b.softirqActivated = false ∧ b.softirqExpiresNext ≤ b.due t ∧
    b.due t < b.expiresNext

instance (b : CpuBase τ) (t : τ) (tim deltaNs : ℤ) (relative : Option ℤ) :
    Decidable (b.StartMissed t tim deltaNs relative) :=
  inferInstanceAs (Decidable (_ ∧ _ ∧ _ ∧ _))

def withTimes (b : CpuBase τ) (t : τ) (x y : ℤ) : CpuBase τ :=
  { b with expires := update b.expires t x, softexpires := update b.softexpires t y }

/-- Times of a timer that is not queued are of no concern. -/
theorem Kept.withTimes (h : b.Kept busy) (ht : t ∉ b.active (base t)) (x y : ℤ) :
    (b.withTimes t x y).Kept busy ∧ (b.Prompt → (b.withTimes t x y).Prompt) := by
  have hne : ∀ c u, u ∈ b.active c → u ≠ t := by
    rintro c u hu rfl
    exact ht (by rwa [h.queues.home c u hu])
  have hbefore : ∀ {z : ℤ} {soft : Bool}, b.Before z soft → (b.withTimes t x y).Before z soft := by
    intro z soft hz c u hc hu
    show z ≤ max 0 (update b.expires t x u - b.offset (base u))
    rw [update_of_ne (hne c u hu)]
    exact hz c u hc hu
  refine ⟨⟨⟨h.queues.home, h.queues.nodup, fun c => ?_, h.queues.bits⟩, h.states, h.le_max, h.parked,
    fun ha => hbefore (h.softirq ha)⟩, fun hp => ⟨hbefore hp.hard, fun ha => hbefore (hp.soft ha)⟩⟩
  refine (h.queues.sorted c).imp_of_mem fun {u v} hu hv huv => ?_
  show update b.expires t x u ≤ update b.expires t x v
  rw [update_of_ne (hne c u hu), update_of_ne (hne c v hv)]
  exact huv

theorem Kept.removeHrtimer (h : b.Kept fun _ => False) (t : τ) (restart : Bool) :
    (b.removeHrtimer t restart).1.Kept (· = t) ∧ (b.Prompt → (b.removeHrtimer t restart).1.Prompt) ∧
      SameMode b (b.removeHrtimer t restart).1 ∧ t ∉ (b.removeHrtimer t restart).1.active (base t) ∧
      (restart = false → (b.removeHrtimer t restart).1.enqueued t = false) := by
  unfold CpuBase.removeHrtimer
  split
  case isTrue ht =>
    obtain ⟨hk, hp, hm, hs, hgone⟩ := h.removeHrtimerFrom ht restart true
    exact ⟨hk, hp, hm, hgone, fun hr => hs.trans hr⟩
  case isFalse ht =>
    have ht : b.enqueued t = false := by simpa using ht
    exact ⟨{ h with states := fun u _ => h.states u not_false }, id, ⟨rfl, rfl⟩, h.notQueued ht,
      fun _ => ht⟩

theorem Kept.hrtimerTryToCancel (h : b.Kept fun _ => False) (t : τ) :
    (b.hrtimerTryToCancel t).1.Kept (fun _ => False) ∧ (b.Prompt → (b.hrtimerTryToCancel t).1.Prompt) ∧
      SameMode b (b.hrtimerTryToCancel t).1 := by
  unfold CpuBase.hrtimerTryToCancel
  split
  · exact ⟨h, id, rfl, rfl⟩
  split
  · exact ⟨h, id, rfl, rfl⟩
  obtain ⟨hk, hp, hm, hgone, hs⟩ := h.removeHrtimer t false
  exact ⟨hk.inactive (hs rfl) hgone, hp, hm⟩

/-- Enqueueing alone keeps what is said of the timers other than the new one. -/
theorem Kept.enqueue (h : b.Kept (· = t)) (ht : t ∉ b.active (base t)) :
    (b.enqueueHrtimer t).1.Queues ∧ (b.enqueueHrtimer t).1.States fun _ => False :=
  ⟨enqueue_queues h.queues ht, enqueue_states h.states⟩

/-- `x` is no later than the timers other than `t`. -/
def BeforeBut (b : CpuBase τ) (x : ℤ) (soft : Bool) (t : τ) : Prop :=
  ∀ c u, c.soft = soft → u ∈ b.active c → u ≠ t → x ≤ b.due u

theorem BeforeBut.before (hq : b.Queues) (h : b.BeforeBut x soft t)
    (ht : (base t).soft = soft → x ≤ b.due t) : b.Before x soft := by
  intro c u hc hu
  by_cases hut : u = t
  · subst hut
    exact ht (by rw [hq.home c u hu, hc])
  · exact h c u hc hu hut

/-- What holds after `__hrtimer_start_range_ns`: all but the new timer is accounted for, and the new one
    too unless it is the first of its base. -/
structure Started (b : CpuBase τ) (t : τ) (b' : CpuBase τ) (first : Bool) : Prop where
  mode : SameMode b b'
  queues : b'.Queues
  states : b'.States fun _ => False
  le_max : b'.expiresNext ≤ ktimeMax
  parked : b'.softirqActivated = true → b'.softirqExpiresNext = ktimeMax
  softirq : b'.softirqActivated = false → b'.BeforeBut b'.softirqExpiresNext true t
  hard : b.Prompt → b'.BeforeBut b'.expiresNext false t
  soft : b.Prompt → b'.softirqActivated = false → b'.BeforeBut b'.expiresNext true t
  mem : t ∈ b'.active (Timers.base t)
  behind : first = false → ∃ u, u ∈ b'.active (Timers.base t) ∧ u ≠ t ∧ b'.due u ≤ b'.due t

theorem Kept.startRange (h : b.Kept fun _ => False) (t : τ) (tim deltaNs : ℤ) (relative : Option ℤ) :
    Started b t (b.startRange t tim deltaNs relative).1 (b.startRange t tim deltaNs relative).2 := by
  obtain ⟨hk1, hp1, hm1, hgone1, -⟩ := h.removeHrtimer t true
  unfold CpuBase.startRange
  generalize (b.removeHrtimer t true).1 = b1 at *
  obtain ⟨x, y, heq⟩ : ∃ x y, b1.setExpires t tim deltaNs relative = b1.withTimes t x y := ⟨_, _, rfl⟩
  rw [heq]
  obtain ⟨hk2, hp2⟩ := hk1.withTimes hgone1 x y
  have hgone2 : t ∉ (b1.withTimes t x y).active (base t) := hgone1
  have hm2 : SameMode b (b1.withTimes t x y) := { hm1 with }
  have hp := fun hb => hp2 (hp1 hb)
  generalize b1.withTimes t x y = b2 at *
  obtain ⟨hq, hst⟩ := hk2.enqueue hgone2
  have hbut : ∀ {x : ℤ} {soft : Bool}, b2.Before x soft →
    (b2.enqueueHrtimer t).1.BeforeBut x soft t := by
    intro x soft hx c u hc hu hut
    rcases (b2.enqueue_mem t u c).mp hu with ⟨rfl, -⟩ | hu
    · exact absurd rfl hut
    · exact hx c u hc hu
  refine ⟨{ hm2 with }, hq, hst, hk2.le_max, hk2.parked, fun ha => hbut (hk2.softirq ha),
    fun hb => hbut (hp hb).hard, fun hb ha => hbut ((hp hb).soft ha),
    (enqueue_mem ..).mpr (.inl ⟨rfl, rfl⟩), fun hfirst => ?_⟩
  -- the timer is behind one that expires no later on the same clock
  obtain ⟨u, hu, hle⟩ := KeyedQueue.exists_le_of_head_ne (of_decide_eq_false hfirst)
  refine ⟨u, (enqueue_mem ..).mpr (.inr hu), fun hut => hgone2 (hut ▸ hu), max_le_max le_rfl ?_⟩
  show b2.expires u - b2.offset (base u) ≤ b2.expires t - b2.offset (base t)
  rw [hk2.queues.home _ u hu]
  linarith

/-- In an interrupt `expires_next` does not matter; otherwise it is right again unless the timer was
    missed. -/
theorem Kept.hrtimerStartRangeNs (h : b.Kept fun _ => False) (t : τ) (tim deltaNs : ℤ)
    (relative : Option ℤ) : (b.hrtimerStartRangeNs t tim deltaNs relative).Kept (fun _ => False) ∧
    SameMode b (b.hrtimerStartRangeNs t tim deltaNs relative) ∧ (b.inHrtirq = false → b.Prompt →
      ((b.hrtimerStartRangeNs t tim deltaNs relative).Prompt ↔
        ¬b.StartMissed t tim deltaNs relative)) := by
  have hst := h.startRange t tim deltaNs relative
  unfold CpuBase.hrtimerStartRangeNs StartMissed
  dsimp only
  generalize (b.startRange t tim deltaNs relative).1 = b' at *
  split
  case isTrue hfirst =>
    have hre := reprogram_spec b' t
    generalize b'.reprogram t true = b'' at *
    have hr := hre.retimed
    have hmode : SameMode b b'' :=
      ⟨hr.softirqActivated.trans hst.mode.softirqActivated, hr.inHrtirq.trans hst.mode.inHrtirq⟩
    have hlower : ∀ {x y : ℤ} {soft : Bool}, y ≤ x → b'.BeforeBut x soft t →
        ((base t).soft = soft → y ≤ b'.due t) → b''.Before y soft := fun hyx hx ht =>
      hr.before_iff.mpr
        (BeforeBut.before hst.queues (fun c u hc hu hut => hyx.trans (hx c u hc hu hut)) ht)
    refine ⟨⟨hr.queues hst.queues, hr.states hst.states, hre.le.trans hst.le_max, fun ha => ?_,
      fun ha => ?_⟩, hmode, fun hirq hp => ?_⟩
    · rw [hr.softirqActivated] at ha
      rw [hre.parked (.inl ha)]
      exact hst.parked ha
    · rw [hr.softirqActivated] at ha
      exact hlower hre.softirq_le (hst.softirq ha) fun hs => hre.softirq hs ha
    have hirq' : b'.inHrtirq = false := hst.mode.inHrtirq.trans hirq
    constructor
    · rintro hp'' ⟨hs, ha, hle, hlt⟩
      have hsoft := hp''.soft (hr.softirqActivated.trans ha) _ t hs (by rw [hr.active]; exact hst.mem)
      rw [hr.due] at hsoft
      -- `hrtimer_reprogram` has not looked at `expires_next`
      rw [hre.missed hs hle] at hsoft
      exact absurd hsoft (not_le.mpr hlt)
    intro hnot
    refine ⟨hlower hre.le (hst.hard hp) fun hs => hre.hard hs hirq', fun ha => ?_⟩
    rw [hr.softirqActivated] at ha
    refine hlower hre.le (hst.soft hp ha) fun hs => ?_
    rcases lt_or_ge (b'.due t) b'.softirqExpiresNext with hlt | hle
    · exact hre.soft hs ha hirq' hlt
    rw [hre.missed hs hle]
    exact not_lt.mp fun hlt => hnot ⟨hs, ha, hle, hlt⟩
  case isFalse hfirst =>
    obtain ⟨u, hu, hut, hdue⟩ := hst.behind (by simpa using hfirst)
    have hbefore : ∀ {x : ℤ} {soft : Bool}, b'.BeforeBut x soft t → b'.Before x soft := fun hx =>
      hx.before hst.queues fun hs => (hx _ u hs hu hut).trans hdue
    refine ⟨{ hst with softirq := fun ha => hbefore (hst.softirq ha) }, hst.mode,
      fun _ hp => ⟨?_, fun _ => ⟨hbefore (hst.hard hp), fun ha => hbefore (hst.soft hp ha)⟩⟩⟩
    rintro hp' ⟨hs, ha, -, hlt⟩
    exact absurd (hp'.soft ha _ t hs hst.mem) (not_le.mpr hlt)

/-! ### `retrigger_next_event` and the end of the softirq -/

/-- The clocks have been set so that a soft timer is earlier than `softirq_expires_next`. -/
def SoftMissed (b : CpuBase τ) (offs : Offsets) : Prop :=
  b.softirqActivated = false ∧ ¬(b.updateBase offs).Before b.softirqExpiresNext true

/-- `softirq_expires_next` is left as it is by `retrigger_next_event` when the first timer is a hard
    one. -/
def RetriggerMissed (b : CpuBase τ) (offs : Offsets) : Prop :=
  b.SoftMissed offs ∧ ¬(b.updateBase offs).SoftFirst

/-- `hrtimer_interrupt` leaves it as it is when it is not due yet. -/
def InterruptMissed (b : CpuBase τ) (now : ℤ) (offs : Offsets) : Prop :=
  b.SoftMissed offs ∧ now < b.softirqExpiresNext

section
omit [DecidableEq τ]

theorem Queues.updateBase (h : b.Queues) (offs : Offsets) : (b.updateBase offs).Queues :=
  h.congr rfl rfl rfl

theorem Kept.retriggerNextEvent (h : b.Kept fun _ => False) (offs : Offsets) :
    (b.retriggerNextEvent offs).Prompt ∧ SameMode b (b.retriggerNextEvent offs) ∧
    (¬b.RetriggerMissed offs → (b.retriggerNextEvent offs).Kept fun _ => False) ∧
    (b.RetriggerMissed offs →
      ¬(b.retriggerNextEvent offs).Before (b.retriggerNextEvent offs).softirqExpiresNext true ∧
      (b.retriggerNextEvent offs).softirqActivated = false) := by
  have hq := h.queues.updateBase offs
  have hspec := forceReprogram_spec hq false
  have hr := hspec.retimed
  unfold CpuBase.retriggerNextEvent
  refine ⟨forceReprogram_prompt hq false, { hr with }, fun hnot => ?_, ?_⟩
  · refine forceReprogram_kept hq h.states h.parked (fun ha hf => ?_) false
    by_contra hlate
    exact hnot ⟨⟨ha, hlate⟩, hf⟩
  rintro ⟨⟨ha, hlate⟩, hf⟩
  refine ⟨?_, hr.softirqActivated.trans ha⟩
  rw [hr.before_iff, hspec.softirq_eq (.inr hf)]
  exact hlate

/-- The cached times under new offsets. -/
theorem Kept.updateBase (h : b.Kept fun _ => False) {offs : Offsets} (hnot : ¬b.SoftMissed offs) :
    (b.updateBase offs).Kept fun _ => False := by
  refine { h with queues := h.queues.updateBase offs, softirq := fun ha => ?_ }
  by_contra hlate
  exact hnot ⟨ha, hlate⟩

theorem Kept.reevaluate (h : b.Kept fun _ => False) :
    b.reevaluate.Kept (fun _ => False) ∧ b.reevaluate.Prompt ∧
      b.reevaluate.softirqActivated = b.softirqActivated := by
  have hev := getNextEvent_spec h.queues .all
  have hr := hev.retimed
  unfold CpuBase.reevaluate
  dsimp only
  generalize (b.getNextEvent .all).1 = b' at *
  generalize (b.getNextEvent .all).2 = e at *
  have hact := hr.softirqActivated
  refine ⟨⟨(hr.queues h.queues).congr rfl rfl rfl, hr.states h.states, hev.le_max, fun ha => ?_,
    fun ha => ?_⟩, ⟨hr.before_iff.mpr (hev.hard (by decide)), fun ha => ?_⟩, hact⟩
  · exact hev.softirqExpiresNext.trans (h.parked (hact.symm.trans ha))
  · have hs := h.softirq (hact.symm.trans ha)
    rw [← hev.softirqExpiresNext] at hs
    exact hr.before_iff.mpr hs
  · exact hr.before_iff.mpr (hev.soft (by decide) (hact.symm.trans ha))

/-- The softirq is through and looks for the next soft timer. -/
theorem updateSoftirqTimer_kept (hq : b.Queues) (hst : b.States fun _ => False)
    (hle : b.expiresNext ≤ ktimeMax) (hhard : b.Before b.expiresNext false)
    (hparked : b.softirqExpiresNext = ktimeMax) (hact : b.softirqActivated = false)
    (hirq : b.inHrtirq = false) :
    (b.updateSoftirqTimer true).Kept (fun _ => False) ∧ (b.updateSoftirqTimer true).Prompt ∧
    (b.updateSoftirqTimer true).softirqActivated = false ∧
    (b.updateSoftirqTimer true).inHrtirq = false := by
  have hev := getNextEvent_spec hq .soft
  have hsoft := hev.soft (by decide) hact
  unfold updateSoftirqTimer
  dsimp only
  have hr := hev.retimed
  by_cases hmax : (b.getNextEvent .soft).2 = ktimeMax
  · -- no soft timer is queued, or none that ever expires
    rw [if_pos hmax]
    rw [hmax] at hsoft
    refine ⟨⟨hr.queues hq, hr.states hst, hev.expiresNext.trans_le hle, ?_, fun _ => ?_⟩,
      ⟨?_, fun _ => ?_⟩, hr.softirqActivated.trans hact, hr.inHrtirq.trans hirq⟩
    · simp [hr.softirqActivated, hact]
    · rw [hr.before_iff, hev.softirqExpiresNext, hparked]
      exact hsoft
    · rw [hr.before_iff, hev.expiresNext]
      exact hhard
    rw [hr.before_iff, hev.expiresNext]
    exact hsoft.mono hle
  obtain ⟨t, hnote, hts, hdue⟩ := (getNextEvent_soft hq hact).resolve_left hmax
  rw [if_neg hmax, hnote]
  have hlt : (b.getNextEvent .soft).2 < ktimeMax := lt_of_le_of_ne hev.le_max hmax
  have hre := reprogram_spec (b.getNextEvent .soft).1 t
  rw [← hdue, ← hr.due] at hlt hsoft
  have hr2 := hr.trans hre.retimed
  have hact1 := hr.softirqActivated.trans hact
  have hirq1 := hr.inHrtirq.trans hirq
  have hs2 := hre.softirq hts hact1
  have hn2 := hre.soft hts hact1 hirq1 (by rw [hev.softirqExpiresNext, hparked]; exact hlt)
  have hle2 := hre.le
  rw [hev.expiresNext] at hle2
  refine ⟨⟨hr2.queues hq, hr2.states hst, hle2.trans hle, ?_,
    fun _ => hr2.before_iff.mpr (hsoft.mono hs2)⟩,
    ⟨hr2.before_iff.mpr (hhard.mono hle2), fun _ => hr2.before_iff.mpr (hsoft.mono hn2)⟩,
    hr2.softirqActivated.trans hact, hr2.inHrtirq.trans hirq⟩
  simp [hr2.softirqActivated, hact]

end

end CpuBase

/-! ### Interrupts -/

section

variable {τ : Type} [DecidableEq τ] [Timers τ]

/-- A frame looks at bases of one kind only. -/
structure Frame.Looks (f : Frame τ) (soft : Bool) : Prop where
  todo : ∀ c ∈ f.todo, c.soft = soft
  current : ∀ c now, f.current = some (c, now) → c.soft = soft
  callback : ∀ t, f.callback = some t → (Timers.base t).soft = soft

omit [DecidableEq τ] in
theorem Frame.begin_looks (b : CpuBase τ) (soft : Bool) (now : ℤ) :
    (Frame.begin b soft now).Looks soft :=
  ⟨fun c hc => CpuBase.soft_of_mem_bases (mem_of_mem_filter hc), by simp [Frame.begin],
    by simp [Frame.begin]⟩

variable {b : CpuBase τ} {f : Frame τ} {soft : Bool}

theorem Frame.run_kept {b' : CpuBase τ} {f' : Frame τ} (h : b.Kept fun _ => False)
    (hf : f.Looks soft) (hrun : f.run b = some (b', f')) :
    b'.Kept (fun _ => False) ∧ (b.Prompt → b'.Prompt) ∧ CpuBase.SameMode b b' ∧ f'.Looks soft := by
  unfold Frame.run at hrun
  split at hrun
  case h_1 hcur =>
    split at hrun
    · cases hrun
    case h_2 c cs htodo =>
      obtain ⟨rfl, rfl⟩ : b = b' ∧ _ = f' := by simpa using hrun
      obtain ⟨hc, hcs⟩ := forall_mem_cons.mp (htodo ▸ hf.todo)
      refine ⟨h, id, ⟨rfl, rfl⟩, hcs, ?_, hf.callback⟩
      intro c' now heq
      obtain ⟨rfl, -⟩ : c = c' ∧ _ = now := by simpa using heq
      exact hc
  case h_2 c basenow hcur =>
    have hc := hf.current c basenow hcur
    split at hrun
    · obtain ⟨rfl, rfl⟩ : b = b' ∧ _ = f' := by simpa using hrun
      exact ⟨h, id, ⟨rfl, rfl⟩, hf.todo, by simp, hf.callback⟩
    case h_2 t ht =>
      split at hrun
      · obtain ⟨rfl, rfl⟩ : b = b' ∧ _ = f' := by simpa using hrun
        exact ⟨h, id, ⟨rfl, rfl⟩, hf.todo, by simp, hf.callback⟩
      obtain ⟨rfl, rfl⟩ : _ = b' ∧ _ = f' := by simpa using hrun
      have hmem := mem_of_head? ht
      have hbase := h.queues.home c t hmem
      have hk : { b with running := update b.running c (some t) }.Kept fun _ => False :=
        { h with queues := h.queues.congr rfl rfl rfl }
      have henq : { b with running := update b.running c (some t) }.enqueued t = true :=
        (h.states t not_false).mpr (by rwa [hbase])
      obtain ⟨hk', hp', hm', hs, hgone⟩ := hk.removeHrtimerFrom henq false false
      refine ⟨hk'.inactive hs hgone, fun hp => hp' ⟨hp.hard, hp.soft⟩, { hm' with }, hf.todo,
        hf.current, ?_⟩
      intro t' heq
      cases heq
      rw [hbase, hc]

/-- A timer that its callback restarts is enqueued without a look at the cached times: they do not count
    then. -/
theorem Frame.callbackReturns_kept (h : b.Kept fun _ => False)
    (hf : f.Looks soft) {t : τ} (ht : f.callback = some t) (restart : Bool)
    (hsoft : soft = true → b.softirqActivated = true) :
    (f.callbackReturns b t restart).1.Kept (fun _ => False) ∧
    CpuBase.SameMode b (f.callbackReturns b t restart).1 ∧
    (soft = true → b.Prompt → (f.callbackReturns b t restart).1.Prompt) ∧
    (f.callbackReturns b t restart).2.Looks soft := by
  have hts := hf.callback t ht
  have hlooks : (f.callbackReturns b t restart).2.Looks soft :=
    ⟨hf.todo, hf.current, by simp [callbackReturns]⟩
  by_cases hre : restart = true ∧ ¬b.enqueued t = true
  · have henq : b.enqueued t = false := by simpa using hre.2
    have hgone := h.notQueued henq
    have hk : b.Kept (· = t) := { h with states := fun u _ => h.states u not_false }
    obtain ⟨hq, hst⟩ := hk.enqueue hgone
    have heq : (f.callbackReturns b t restart).1 =
      { (b.enqueueHrtimer t).1 with running := update b.running (base t) none } := by
      simp only [callbackReturns]
      rw [if_pos hre]
      rfl
    rw [heq]
    refine ⟨⟨hq.congr rfl rfl rfl, hst, h.le_max, h.parked, fun ha => ?_⟩, ⟨rfl, rfl⟩,
      fun hs hp => ⟨?_, fun ha => ?_⟩, hlooks⟩
    · refine CpuBase.enqueue_before.mpr ⟨h.softirq ha, fun hs => ?_⟩
      exact absurd (hsoft (hts.symm.trans hs)) (by simp [show b.softirqActivated = false from ha])
    · exact CpuBase.enqueue_before.mpr ⟨hp.hard, fun hs' => by simp [hts.symm.trans hs'] at hs⟩
    · exact absurd (hsoft hs) (by simp [show b.softirqActivated = false from ha])
  have heq : (f.callbackReturns b t restart).1 =
    { b with running := update b.running (base t) none } := by
    simp only [callbackReturns]
    rw [if_neg hre]
  rw [heq]
  exact ⟨{ h with queues := h.queues.congr rfl rfl rfl }, ⟨rfl, rfl⟩, fun _ hp => ⟨hp.hard, hp.soft⟩,
    hlooks⟩

end

end LinuxNote.Hrtimer
