import LinuxNote.Hrtimer.Basic
import Mathlib.Tactic.Linarith

/-! The queues of the clock bases, and what the search for the next event finds in them. -/

namespace LinuxNote.Hrtimer.CpuBase
open List

variable {τ : Type} [Timers τ]

/-- The queues are sorted, hold the timers of their bases, and `active_bases` says which of them are not
    empty. -/
structure Queues (b : CpuBase τ) : Prop where
  home : ∀ c t, t ∈ b.active c → Timers.base t = c
  nodup : ∀ c, (b.active c).Nodup
  sorted : ∀ c, (b.active c).Pairwise fun t u => b.expires t ≤ b.expires u
  bits : ∀ c, b.activeBases c = true ↔ b.active c ≠ []

theorem Queues.congr {b b' : CpuBase τ} (h : b.Queues) (ha : b'.active = b.active)
    (hb : b'.activeBases = b.activeBases) (he : b'.expires = b.expires) : b'.Queues := by
  obtain ⟨h1, h2, h3, h4⟩ := h
  constructor <;> simp only [ha, hb, he] <;> assumption

/-- The states of the timers other than those in `busy` tell whether they are queued. -/
def States (b : CpuBase τ) (busy : τ → Prop) : Prop :=
  ∀ t, ¬busy t → (b.enqueued t = true ↔ t ∈ b.active (Timers.base t))

/-- `max(0, expires - offset)` -/
def due (b : CpuBase τ) (t : τ) : ℤ := max 0 (b.event t)

/-- `x` is no later than the timers of the hard bases, or of the soft ones. -/
def Before (b : CpuBase τ) (x : ℤ) (soft : Bool) : Prop :=
  ∀ c t, c.soft = soft → t ∈ b.active c → x ≤ b.due t

variable {b : CpuBase τ} {soft : Bool} {c : ClockBase} {e : ℤ}

theorem Before.mono {x y : ℤ} (h : b.Before y soft) (hxy : x ≤ y) : b.Before x soft :=
  fun c t hc ht => hxy.trans (h c t hc ht)

/-- Only the cached times and timers differ. -/
structure Retimed (b b' : CpuBase τ) : Prop where
  active : b'.active = b.active
  activeBases : b'.activeBases = b.activeBases
  expires : b'.expires = b.expires
  enqueued : b'.enqueued = b.enqueued
  offset : b'.offset = b.offset
  softirqActivated : b'.softirqActivated = b.softirqActivated
  inHrtirq : b'.inHrtirq = b.inHrtirq

namespace Retimed

variable {a b c : CpuBase τ}

omit [Timers τ] in
theorem refl (b : CpuBase τ) : Retimed b b := ⟨rfl, rfl, rfl, rfl, rfl, rfl, rfl⟩

omit [Timers τ] in
theorem trans (h : Retimed a b) (h' : Retimed b c) : Retimed a c :=
  ⟨h'.active.trans h.active, h'.activeBases.trans h.activeBases, h'.expires.trans h.expires,
    h'.enqueued.trans h.enqueued, h'.offset.trans h.offset, h'.softirqActivated.trans h.softirqActivated,
    h'.inHrtirq.trans h.inHrtirq⟩

omit [Timers τ] in
theorem withNext (h : Retimed a b) (e : ℤ) : Retimed a { b with expiresNext := e } := { h with }

theorem queues (h : Retimed a b) (hq : a.Queues) : b.Queues := hq.congr h.active h.activeBases h.expires

theorem states (h : Retimed a b) {busy : τ → Prop} (hs : a.States busy) : b.States busy := by
  intro t ht
  rw [h.enqueued, h.active]
  exact hs t ht

theorem event (h : Retimed a b) (t : τ) : b.event t = a.event t := by
  simp only [CpuBase.event, h.expires, h.offset]

theorem due (h : Retimed a b) (t : τ) : b.due t = a.due t := by
  simp only [CpuBase.due, h.event]

theorem before_iff (h : Retimed a b) {x : ℤ} {soft : Bool} : b.Before x soft ↔ a.Before x soft := by
  simp only [Before, h.active, h.due]

end Retimed

/-! ### The next event -/

theorem Queues.first?_spec (h : b.Queues) (c : ClockBase) : match b.first? c with
    | none => b.active c = []
    | some t => t ∈ b.active c ∧ ∀ u ∈ b.active c, b.event t ≤ b.event u := by
  unfold first?
  by_cases hb : b.activeBases c = true
  · rw [if_pos hb]
    rcases hq : (b.active c).head? with _ | t
    · exact head?_eq_none_iff.mp hq
    refine ⟨mem_of_head? hq, fun u hu => ?_⟩
    have hle := KeyedQueue.head_le (h.sorted c) hq u hu
    unfold event
    rw [h.home c t (mem_of_head? hq), h.home c u hu]
    linarith
  rw [if_neg hb]
  by_contra hne
  exact hb ((h.bits c).mpr hne)

theorem noteNext_retimed (b : CpuBase τ) (t : τ) : Retimed b (b.noteNext t) := by
  unfold noteNext
  split <;> exact ⟨rfl, rfl, rfl, rfl, rfl, rfl, rfl⟩

theorem noteNext_caches (b : CpuBase τ) (t : τ) : (b.noteNext t).expiresNext = b.expiresNext ∧
    (b.noteNext t).softirqExpiresNext = b.softirqExpiresNext := by
  unfold noteNext
  split <;> exact ⟨rfl, rfl⟩

/-- The search only notes the timers it finds. -/
theorem nextEventLoop_retimed : ∀ (cs : List ClockBase) (b : CpuBase τ) (e : ℤ),
    Retimed b (b.nextEventLoop cs e).1 ∧ (b.nextEventLoop cs e).1.expiresNext = b.expiresNext ∧
      (b.nextEventLoop cs e).1.softirqExpiresNext = b.softirqExpiresNext := by
  intro cs
  induction cs with
  | nil => exact fun b e => ⟨.refl b, rfl, rfl⟩
  | cons c cs ih =>
    intro b e
    unfold nextEventLoop
    rcases b.first? c with _ | t
    · exact ih b e
    dsimp only
    split
    · obtain ⟨hnext, hsoft⟩ := b.noteNext_caches t
      obtain ⟨hr, hnext', hsoft'⟩ := ih (b.noteNext t) (b.event t)
      exact ⟨(b.noteNext_retimed t).trans hr, hnext'.trans hnext, hsoft'.trans hsoft⟩
    · exact ih b e

theorem nextEventLoop_le : ∀ (cs : List ClockBase) (b : CpuBase τ) (e : ℤ), b.Queues →
    (b.nextEventLoop cs e).2 ≤ e ∧ ∀ c ∈ cs, ∀ t ∈ b.active c, (b.nextEventLoop cs e).2 ≤ b.event t := by
  intro cs
  induction cs with
  | nil => exact fun b e _ => ⟨le_rfl, by simp⟩
  | cons c cs ih =>
    intro b e hb
    have hfirst := hb.first?_spec c
    unfold nextEventLoop
    rcases hf : b.first? c with _ | t
    · rw [hf] at hfirst
      obtain ⟨hle, hall⟩ := ih b e hb
      refine ⟨hle, fun d hd t ht => ?_⟩
      rcases mem_cons.mp hd with rfl | hd
      · rw [hfirst] at ht
        cases ht
      · exact hall d hd t ht
    rw [hf] at hfirst
    dsimp only at hfirst ⊢
    split
    case isTrue hlt =>
      have hr := b.noteNext_retimed t
      obtain ⟨hle, hall⟩ := ih (b.noteNext t) (b.event t) (hr.queues hb)
      refine ⟨hle.trans hlt.le, fun d hd u hu => ?_⟩
      rcases mem_cons.mp hd with rfl | hd
      · exact hle.trans (hfirst.2 u hu)
      · exact (hall d hd u (by rwa [hr.active])).trans_eq (hr.event u)
    case isFalse hge =>
      obtain ⟨hle, hall⟩ := ih b e hb
      refine ⟨hle, fun d hd u hu => ?_⟩
      rcases mem_cons.mp hd with rfl | hd
      · exact hle.trans ((not_lt.mp hge).trans (hfirst.2 u hu))
      · exact hall d hd u hu

/-- A search over the soft bases that finds something earlier notes the timer. -/
theorem nextEventLoop_soft : ∀ (cs : List ClockBase) (b : CpuBase τ) (e : ℤ), b.Queues →
    (∀ c ∈ cs, c.soft = true) →
    ((b.nextEventLoop cs e).2 = e ∧ (b.nextEventLoop cs e).1.softirqNextTimer = b.softirqNextTimer) ∨
    ∃ t, (b.nextEventLoop cs e).1.softirqNextTimer = some t ∧ (Timers.base t).soft = true ∧
    b.event t = (b.nextEventLoop cs e).2 := by
  intro cs
  induction cs with
  | nil => exact fun b e _ _ => .inl ⟨rfl, rfl⟩
  | cons c cs ih =>
    intro b e hb hcs
    obtain ⟨hc, hcs⟩ := forall_mem_cons.mp hcs
    have hfirst := hb.first?_spec c
    unfold nextEventLoop
    rcases hf : b.first? c with _ | t
    · exact ih b e hb hcs
    rw [hf] at hfirst
    dsimp only at hfirst ⊢
    split
    case isTrue hlt =>
      have hr := b.noteNext_retimed t
      have hsoft : (Timers.base t).soft = true := by rw [hb.home c t hfirst.1, hc]
      right
      rcases ih (b.noteNext t) (b.event t) (hr.queues hb) hcs with ⟨heq, hnext⟩ | ⟨u, hnext, hu, hev⟩
      · refine ⟨t, ?_, hsoft, heq.symm⟩
        rw [hnext, noteNext, if_pos hsoft]
      · exact ⟨u, hnext, hu, (hr.event u).symm.trans hev⟩
    case isFalse => exact ih b e hb hcs

theorem soft_of_mem_bases (h : c ∈ bases soft) : c.soft = soft := by
  simp only [bases, mem_cons, not_mem_nil, or_false] at h
  rcases h with rfl | rfl | rfl | rfl <;> rfl

theorem nextEventBase_snd (b : CpuBase τ) (cs : List ClockBase) (e : ℤ) :
    (b.nextEventBase cs e).2 = max 0 (b.nextEventLoop cs e).2 := by
  unfold nextEventBase
  dsimp only
  split <;> omega

/-- What the search answers is no later than the timers of the bases, and no later than the time it was
    given. -/
theorem nextEventBase_spec (h : b.Queues) (soft : Bool) (he : 0 ≤ e) :
    (b.nextEventBase (bases soft) e).2 ≤ e ∧ 0 ≤ (b.nextEventBase (bases soft) e).2 ∧
      b.Before (b.nextEventBase (bases soft) e).2 soft := by
  obtain ⟨hle, hall⟩ := nextEventLoop_le (bases soft) b e h
  rw [nextEventBase_snd]
  refine ⟨max_le he hle, le_max_left _ _, fun ⟨clock, _⟩ t hc ht => max_le_max le_rfl (hall _ ?_ t ht)⟩
  cases hc
  cases clock <;> simp [bases]

/-- What `__hrtimer_get_next_event` finds, in the bases it was asked for. -/
structure NextEvent (b : CpuBase τ) (mask : ActiveMask) (b' : CpuBase τ) (e : ℤ) : Prop where
  retimed : Retimed b b'
  expiresNext : b'.expiresNext = b.expiresNext
  softirqExpiresNext : b'.softirqExpiresNext = b.softirqExpiresNext
  le_max : e ≤ ktimeMax
  hard : mask ≠ .soft → b.Before e false
  soft : mask ≠ .hard → b.softirqActivated = false → b.Before e true

/-- The second half of `__hrtimer_get_next_event`, after `e` has been found in the soft bases. -/
theorem nextEvent_hard {b1 : CpuBase τ} (h : b.Queues) (mask : ActiveMask) (x : Option τ)
    (hr : Retimed b b1) (hn : b1.expiresNext = b.expiresNext)
    (hs : b1.softirqExpiresNext = b.softirqExpiresNext) (he : 0 ≤ e) (hle : e ≤ ktimeMax)
    (hsoft : mask ≠ .hard → b.softirqActivated = false → b.Before e true) {p : CpuBase τ × ℤ}
    (hp : p = if mask ≠ .soft then { b1 with nextTimer := x }.nextEventBase
      (bases false) e else (b1, e)) : NextEvent b mask p.1 p.2 := by
  subst hp
  by_cases hm : mask = .soft
  · rw [if_neg (not_not.mpr hm)]
    exact ⟨hr, hn, hs, hle, fun h => absurd hm h, hsoft⟩
  rw [if_pos hm]
  have hr1 : Retimed b1 { b1 with nextTimer := x } := ⟨rfl, rfl, rfl, rfl, rfl, rfl, rfl⟩
  obtain ⟨hle', h0', hbefore⟩ := nextEventBase_spec ((hr.trans hr1).queues h) false he
  obtain ⟨hr2, hn2, hs2⟩ := nextEventLoop_retimed (bases false) { b1 with nextTimer := x } e
  exact ⟨(hr.trans hr1).trans hr2, hn2.trans hn, hs2.trans hs, hle'.trans hle,
    fun _ => (hr.trans hr1).before_iff.mp hbefore, fun hm' ha => (hsoft hm' ha).mono hle'⟩

theorem getNextEvent_spec (h : b.Queues) (mask : ActiveMask) :
    NextEvent b mask (b.getNextEvent mask).1 (b.getNextEvent mask).2 := by
  have hmax : (0 : ℤ) ≤ ktimeMax := by decide
  by_cases hc : ¬b.softirqActivated ∧ mask ≠ .hard
  · have hr0 : Retimed b { b with softirqNextTimer := none } := ⟨rfl, rfl, rfl, rfl, rfl, rfl, rfl⟩
    obtain ⟨hle, h0, hbefore⟩ := nextEventBase_spec (hr0.queues h) true hmax
    obtain ⟨hr, hn, hs⟩ :=
      nextEventLoop_retimed (bases true) { b with softirqNextTimer := none } ktimeMax
    refine nextEvent_hard h mask
      ({ b with softirqNextTimer := none }.nextEventBase (bases true) ktimeMax).1.softirqNextTimer
      (hr0.trans hr) hn hs h0 hle (fun _ _ => hr0.before_iff.mp hbefore) ?_
    rw [getNextEvent, if_pos hc]
    rfl
  · refine nextEvent_hard h mask none (.refl b) rfl rfl hmax le_rfl
      (fun hm ha => absurd ⟨by simp [ha], hm⟩ hc) ?_
    rw [getNextEvent, if_neg hc]

/-- The next soft event is that of the timer that is noted. -/
theorem getNextEvent_soft (h : b.Queues) (ha : b.softirqActivated = false) :
    (b.getNextEvent .soft).2 = ktimeMax ∨ ∃ t, (b.getNextEvent .soft).1.softirqNextTimer = some t ∧
      (Timers.base t).soft = true ∧ b.due t = (b.getNextEvent .soft).2 := by
  have hr0 : Retimed b { b with softirqNextTimer := none } := ⟨rfl, rfl, rfl, rfl, rfl, rfl, rfl⟩
  have heq : b.getNextEvent .soft = { b with softirqNextTimer := none }.nextEventBase
    (bases true) ktimeMax := by
    unfold getNextEvent
    rw [if_pos ⟨by simp [ha], by decide⟩]
    rfl
  have hmax : max 0 ktimeMax = ktimeMax := by decide
  rw [heq, nextEventBase_snd]
  rcases nextEventLoop_soft (bases true) _ ktimeMax (hr0.queues h) fun c => soft_of_mem_bases with
    ⟨hmaxe, -⟩ | ⟨t, hnext, hsoft, hev⟩
  · left
    rw [hmaxe, hmax]
  right
  refine ⟨t, hnext, hsoft, ?_⟩
  rw [← hev]
  rfl

/-! ### The cached times -/

/-- The first timer that `hrtimer_force_reprogram` finds is a soft one. -/
def SoftFirst (b : CpuBase τ) : Prop :=
  ((b.getNextEvent .all).1.nextTimer.any fun t => (Timers.base t).soft) = true

/-- `hrtimer_force_reprogram` brings `expires_next` up to date, and `softirq_expires_next` if the first
    timer is soft. -/
structure Reprogrammed (b b' : CpuBase τ) : Prop where
  retimed : Retimed b b'
  le_max : b'.expiresNext ≤ ktimeMax
  hard : b.Before b'.expiresNext false
  soft : b.softirqActivated = false → b.Before b'.expiresNext true
  softirq : b.softirqActivated = false → b.SoftFirst → b.Before b'.softirqExpiresNext true
  softirq_eq : b.softirqActivated = true ∨ ¬b.SoftFirst → b'.softirqExpiresNext = b.softirqExpiresNext

omit [Timers τ] in
/-- Whether or not the time is stored again when it is equal. -/
theorem storeNext (b : CpuBase τ) (skipEqual : Bool) (e : ℤ) :
    (if skipEqual ∧ e = b.expiresNext then b else { b with expiresNext := e }) =
      { b with expiresNext := e } := by
  split
  · obtain ⟨-, rfl⟩ := ‹_ ∧ _›
    rfl
  · rfl

theorem forceReprogram_spec (h : b.Queues) (skipEqual : Bool) :
    Reprogrammed b (b.forceReprogram skipEqual) := by
  have hall := getNextEvent_spec h .all
  unfold forceReprogram
  dsimp only
  generalize hb1 : (b.getNextEvent .all).1 = b1 at hall
  generalize (b.getNextEvent .all).2 = e at hall
  have hsf : b.SoftFirst ↔ (b1.nextTimer.any fun t => (Timers.base t).soft) =
    true := by rw [SoftFirst, hb1]
  split
  case isTrue hfirst =>
    split
    case isTrue ha =>
      have ha' : b.softirqActivated = true := by rw [← hall.retimed.softirqActivated, ha]
      have hhard := getNextEvent_spec (hall.retimed.queues h) .hard
      rw [storeNext]
      refine ⟨(hall.retimed.trans hhard.retimed).withNext _, hhard.le_max,
        hall.retimed.before_iff.mp (hhard.hard (by decide)), ?_, ?_, fun _ => ?_⟩
      · simp [ha']
      · simp [ha']
      · exact hhard.softirqExpiresNext.trans hall.softirqExpiresNext
    case isFalse ha =>
      have ha' : b.softirqActivated = false := by
        rw [← hall.retimed.softirqActivated]
        simpa using ha
      have hr : Retimed b { b1 with softirqExpiresNext := e } :=
        hall.retimed.trans ⟨rfl, rfl, rfl, rfl, rfl, rfl, rfl⟩
      rw [storeNext]
      refine ⟨hr.withNext _, hall.le_max, hall.hard (by decide), hall.soft (by decide),
        fun ha _ => hall.soft (by decide) ha, fun hor => ?_⟩
      rcases hor with ha | hn
      · simp [ha'] at ha
      · exact absurd (hsf.mpr hfirst) hn
  case isFalse hfirst =>
    rw [storeNext]
    exact ⟨hall.retimed.withNext _, hall.le_max, hall.hard (by decide), hall.soft (by decide),
      fun _ hf => absurd (hsf.mp hf) hfirst, fun _ => hall.softirqExpiresNext⟩

omit [Timers τ] in
theorem program_spec (b : CpuBase τ) (t : τ) (e : ℤ) :
    Retimed b (b.program t e) ∧ (b.program t e).expiresNext ≤ b.expiresNext ∧
    (b.program t e).softirqExpiresNext = b.softirqExpiresNext ∧
    (b.inHrtirq = false → (b.program t e).expiresNext ≤ e) := by
  unfold program
  split
  · exact ⟨.refl b, le_rfl, rfl, by simp_all⟩
  split
  · exact ⟨.refl b, le_rfl, rfl, fun _ => ‹_›⟩
  · exact ⟨⟨rfl, rfl, rfl, rfl, rfl, rfl, rfl⟩, (not_le.mp ‹_›).le, rfl, fun _ => le_rfl⟩

/-- `hrtimer_reprogram` gives up on a soft timer that is no earlier than `softirq_expires_next`, even if
    it is earlier than `expires_next`. -/
structure Reprograms (b : CpuBase τ) (t : τ) (b' : CpuBase τ) : Prop where
  retimed : Retimed b b'
  le : b'.expiresNext ≤ b.expiresNext
  softirq_le : b'.softirqExpiresNext ≤ b.softirqExpiresNext
  hard : (Timers.base t).soft = false → b.inHrtirq = false → b'.expiresNext ≤ b.due t
  softirq : (Timers.base t).soft = true → b.softirqActivated = false → b'.softirqExpiresNext ≤ b.due t
  soft : (Timers.base t).soft = true → b.softirqActivated = false → b.inHrtirq = false →
    b.due t < b.softirqExpiresNext → b'.expiresNext ≤ b.due t
  missed : (Timers.base t).soft = true → b.softirqExpiresNext ≤ b.due t → b'.expiresNext = b.expiresNext
  parked : b.softirqActivated = true ∨ (Timers.base t).soft = false →
    b'.softirqExpiresNext = b.softirqExpiresNext

theorem reprogram_spec (b : CpuBase τ) (t : τ) : Reprograms b t (b.reprogram t true) := by
  unfold reprogram
  dsimp only
  rw [show (if b.event t < 0 then 0 else b.event t) = b.due t by unfold due; split <;> omega]
  split
  case isTrue hsoft =>
    split
    case isTrue ha =>
      exact ⟨.refl b, le_rfl, le_rfl, by simp [hsoft], by simp [ha], by simp [ha], fun _ _ => rfl,
        fun _ => rfl⟩
    case isFalse ha =>
      have ha' : b.softirqActivated = false := by simpa using ha
      split
      case isTrue hle =>
        exact ⟨.refl b, le_rfl, le_rfl, by simp [hsoft], fun _ _ => hle,
          fun _ _ _ hlt => absurd hle (not_le.mpr hlt), fun _ _ => rfl, fun _ => rfl⟩
      case isFalse hlt =>
        have hlt : b.due t < b.softirqExpiresNext := not_le.mp hlt
        have hr0 : Retimed b { b with softirqNextTimer := some t, softirqExpiresNext := b.due t } :=
          ⟨rfl, rfl, rfl, rfl, rfl, rfl, rfl⟩
        split
        case isTrue hor =>
          have hle : b.expiresNext ≤ b.due t := hor.resolve_right (by simp)
          exact ⟨hr0, le_rfl, hlt.le, by simp [hsoft], fun _ _ => le_rfl, fun _ _ _ _ => hle,
            fun _ _ => rfl, by simp [ha', hsoft]⟩
        case isFalse =>
          obtain ⟨hr, hle, hs, hp⟩ :=
            program_spec { b with softirqNextTimer := some t, softirqExpiresNext := b.due t } t (b.due t)
          exact ⟨hr0.trans hr, hle, hs.trans_le hlt.le, by simp [hsoft], fun _ _ => hs.le,
            fun _ _ hi _ => hp hi, fun _ hle' => absurd hlt (not_lt.mpr hle'), by simp [ha', hsoft]⟩
  case isFalse hhard =>
    obtain ⟨hr, hle, hs, hp⟩ := program_spec b t (b.due t)
    exact ⟨hr, hle, hs.le, fun _ => hp, fun h => absurd h hhard, fun h => absurd h hhard,
      fun h => absurd h hhard, fun _ => hs⟩

end LinuxNote.Hrtimer.CpuBase
