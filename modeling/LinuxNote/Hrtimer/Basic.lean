import LinuxNote.Lib.KeyedQueue
import LinuxNote.Lib.Outcome
import LinuxNote.Lib.Word

/-! High-resolution timers on one CPU, `kernel/time/hrtimer.c`. A CPU has a queue of timers for each of
    four clocks, once for timers that expire in the hard interrupt and once for those left to the
    softirq. `expires_next` and `softirq_expires_next` cache when the first of them expire, in monotonic
    time. -/

namespace LinuxNote.Hrtimer
open Word Function

inductive Clock
  | monotonic
  | realtime
  | boottime
  | tai
deriving DecidableEq

/-- `hrtimer_base_type` -/
structure ClockBase where
  clock : Clock
  soft : Bool
deriving DecidableEq

/-- The bases of `HRTIMER_ACTIVE_SOFT`, or of `HRTIMER_ACTIVE_HARD`, in the order of their indices. -/
def bases (soft : Bool) : List ClockBase :=
  [⟨.monotonic, soft⟩, ⟨.realtime, soft⟩, ⟨.boottime, soft⟩, ⟨.tai, soft⟩]

/-- How far the clocks are from the monotonic one. -/
structure Offsets where
  real : ℤ
  boot : ℤ
  tai : ℤ
deriving DecidableEq

def Offsets.of (offs : Offsets) : Clock → ℤ
  | .monotonic => 0
  | .realtime => offs.real
  | .boottime => offs.boot
  | .tai => offs.tai

/-- `KTIME_MAX` -/
def ktimeMax : ℤ := 2 ^ 63 - 1

/-- `ktime_add_safe`; `ktime_set` of the largest second is `KTIME_MAX`. -/
def ktimeAddSafe (lhs rhs : ℤ) : ℤ :=
  let res := s64 (lhs + rhs)
  if res < 0 ∨ res < lhs ∨ res < rhs then ktimeMax else res

/-- The timers, each with its base on this CPU. -/
class Timers (τ : Type) where
  base : τ → ClockBase

/-- `hrtimer_cpu_base`, with the fields of its clock bases and of the timers. -/
structure CpuBase (τ : Type) where
  activeBases : ClockBase → Bool
  inHrtirq : Bool
  softirqActivated : Bool
  expiresNext : ℤ
  nextTimer : Option τ
  softirqExpiresNext : ℤ
  softirqNextTimer : Option τ
  offset : ClockBase → ℤ
  running : ClockBase → Option τ
  active : ClockBase → List τ
  expires : τ → ℤ
  softexpires : τ → ℤ
  enqueued : τ → Bool

/-- The parts of `active_bases` that `__hrtimer_get_next_event` is asked for. -/
inductive ActiveMask
  | all
  | soft
  | hard
deriving DecidableEq

namespace CpuBase

variable {τ : Type} [DecidableEq τ] [Timers τ] (b : CpuBase τ)

/-- When `t` expires in monotonic time. -/
def event (t : τ) : ℤ := b.expires t - b.offset (Timers.base t)

/-! ### The next event -/

/-- The first timer of an active base; no active base is empty. -/
def first? (c : ClockBase) : Option τ := if b.activeBases c then (b.active c).head? else none

def noteNext (t : τ) : CpuBase τ :=
  if (Timers.base t).soft then { b with softirqNextTimer := some t } else { b with nextTimer := some t }

def nextEventLoop : CpuBase τ → List ClockBase → ℤ → CpuBase τ × ℤ
  | b, [], expiresNext => (b, expiresNext)
  | b, c :: cs, expiresNext =>
    match b.first? c with
    | none => nextEventLoop b cs expiresNext
    | some t =>
      if b.event t < expiresNext then nextEventLoop (b.noteNext t) cs (b.event t)
      else nextEventLoop b cs expiresNext

/-- `__hrtimer_next_event_base` without a timer to exclude. -/
def nextEventBase (cs : List ClockBase) (expiresNext : ℤ) : CpuBase τ × ℤ :=
  let (b, expiresNext) := b.nextEventLoop cs expiresNext
  (b, if expiresNext < 0 then 0 else expiresNext)

/-- `__hrtimer_get_next_event` -/
def getNextEvent (mask : ActiveMask) : CpuBase τ × ℤ :=
  let (b, nextTimer, expiresNext) :=
    if ¬b.softirqActivated ∧ mask ≠ .hard then
      let (b, expiresNext) := { b with softirqNextTimer := none }.nextEventBase (bases true) ktimeMax
      (b, b.softirqNextTimer, expiresNext)
    else (b, none, ktimeMax)
  if mask ≠ .soft then { b with nextTimer := nextTimer }.nextEventBase (bases false) expiresNext
  else (b, expiresNext)

/-- `hrtimer_update_base` when the timekeeper has the offsets `offs`. -/
def updateBase (offs : Offsets) : CpuBase τ := { b with offset := fun c => offs.of c.clock }

/-- The next event as `hrtimer_interrupt` stores it before it drops the lock. -/
def reevaluate : CpuBase τ :=
  let (b, expiresNext) := b.getNextEvent .all
  { b with expiresNext, inHrtirq := false }

/-- `hrtimer_force_reprogram` -/
def forceReprogram (skipEqual : Bool) : CpuBase τ :=
  let (b, expiresNext) := b.getNextEvent .all
  let (b, expiresNext) :=
    if b.nextTimer.any fun t => (Timers.base t).soft then
      if b.softirqActivated then b.getNextEvent .hard
      else ({ b with softirqExpiresNext := expiresNext }, expiresNext)
    else (b, expiresNext)
  if skipEqual ∧ expiresNext = b.expiresNext then b else { b with expiresNext }

/-- `retrigger_next_event` -/
def retriggerNextEvent (offs : Offsets) : CpuBase τ := (b.updateBase offs).forceReprogram false

/-- The second half of `hrtimer_reprogram`. -/
def program (t : τ) (expires : ℤ) : CpuBase τ :=
  if b.inHrtirq then b
  else if b.expiresNext ≤ expires then b
  else { b with nextTimer := some t, expiresNext := expires }

/-- `hrtimer_reprogram` -/
def reprogram (b : CpuBase τ) (t : τ) (reprogram : Bool) : CpuBase τ :=
  let expires := if b.event t < 0 then 0 else b.event t
  if (Timers.base t).soft then
    if b.softirqActivated then b
    else if b.softirqExpiresNext ≤ expires then b
    else
      let b := { b with softirqNextTimer := some t, softirqExpiresNext := expires }
      if b.expiresNext ≤ expires ∨ ¬reprogram then b else b.program t expires
  else b.program t expires

/-- `hrtimer_update_softirq_timer` -/
def updateSoftirqTimer (reprogram : Bool) : CpuBase τ :=
  let (b, expires) := b.getNextEvent .soft
  if expires = ktimeMax then b
  else
    match b.softirqNextTimer with
    | none => b
    | some t => b.reprogram t reprogram

/-! ### The queues -/

/-- `enqueue_hrtimer` with `timerqueue_add`; the answer is whether the timer is the first of its base. -/
def enqueueHrtimer (t : τ) : CpuBase τ × Bool :=
  let c := Timers.base t
  let queue := KeyedQueue.insert b.expires t (b.active c)
  ({ b with
    activeBases := update b.activeBases c true
    enqueued := update b.enqueued t true
    active := update b.active c queue }, queue.head? = some t)

/-- `timerqueue_del`, with the state of the timer and the bit of its base. -/
def dequeue (t : τ) (newstate : Bool) : CpuBase τ :=
  let c := Timers.base t
  let queue := (b.active c).erase t
  { b with
    enqueued := update b.enqueued t newstate
    active := update b.active c queue
    activeBases := if queue = [] then update b.activeBases c false else b.activeBases }

/-- `__remove_hrtimer` -/
def removeHrtimerFrom (t : τ) (newstate reprogram : Bool) : CpuBase τ :=
  if ¬b.enqueued t then { b with enqueued := update b.enqueued t newstate }
  else if reprogram ∧ b.nextTimer = some t then (b.dequeue t newstate).forceReprogram true
  else b.dequeue t newstate

/-- `remove_hrtimer` -/
def removeHrtimer (t : τ) (restart : Bool) : CpuBase τ × ℤ :=
  if b.enqueued t then (b.removeHrtimerFrom t restart true, 1) else (b, 0)

/-- The times of `hrtimer_start_range_ns`: with `HRTIMER_MODE_REL` the clock of the base reads
    `relative`. -/
def setExpires (t : τ) (tim deltaNs : ℤ) (relative : Option ℤ) : CpuBase τ :=
  let tim := match relative with
    | some now => ktimeAddSafe tim now
    | none => tim
  { b with
    softexpires := update b.softexpires t tim
    expires := update b.expires t (ktimeAddSafe tim deltaNs) }

/-- `__hrtimer_start_range_ns`; there is no other CPU to switch to. -/
def startRange (t : τ) (tim deltaNs : ℤ) (relative : Option ℤ) : CpuBase τ × Bool :=
  ((b.removeHrtimer t true).1.setExpires t tim deltaNs relative).enqueueHrtimer t

/-- `hrtimer_start_range_ns` -/
def hrtimerStartRangeNs (t : τ) (tim deltaNs : ℤ) (relative : Option ℤ) : CpuBase τ :=
  let (b, first) := b.startRange t tim deltaNs relative
  if first then b.reprogram t true else b

/-- `hrtimer_active`, when nothing runs at the same time. -/
def hrtimerActive (t : τ) : Bool := b.enqueued t || b.running (Timers.base t) = some t

/-- `hrtimer_try_to_cancel` -/
def hrtimerTryToCancel (t : τ) : CpuBase τ × ℤ :=
  if ¬b.hrtimerActive t then (b, 0)
  else if b.running (Timers.base t) = some t then (b, -1)
  else b.removeHrtimer t false

end CpuBase

/-! ### Interrupts -/

/-- Where `__hrtimer_run_queues` is: the bases it still has to look at, the one it looks at with the time
    there, and the timer whose callback runs. The lock is dropped only during a callback. -/
structure Frame (τ : Type) where
  now : ℤ
  todo : List ClockBase
  current : Option (ClockBase × ℤ)
  callback : Option τ

/-- What runs on the CPU: `hrtimer_interrupt` with its number of retries, or `hrtimer_run_softirq`, or
    both, the first on top of the second. -/
structure State (τ : Type) where
  base : CpuBase τ
  hard : Option (Frame τ × ℕ)
  soft : Option (Frame τ)
  raised : Bool

inductive Event (τ : Type)
  | start (t : τ) (tim deltaNs : ℤ) (relative : Option ℤ)
  | tryToCancel (t : τ)
  | forward (t : τ) (expires softexpires : ℤ)
  | retrigger (offs : Offsets)
  | interrupt (now : ℤ) (offs : Offsets)
  | softirq (now : ℤ) (offs : Offsets)
  | runQueues
  | callbackReturns (restart : Bool)
  | interruptDone (expired : Option (ℤ × Offsets))

section

variable {τ : Type} [DecidableEq τ] [Timers τ]

def Frame.begin (b : CpuBase τ) (soft : Bool) (now : ℤ) : Frame τ :=
  ⟨now, (bases soft).filter fun c => b.activeBases c, none, none⟩

/-- A step of `__hrtimer_run_queues`, down to the callback of `__run_hrtimer`; `none` when it is
    through. -/
def Frame.run (b : CpuBase τ) (f : Frame τ) : Option (CpuBase τ × Frame τ) :=
  match f.current with
  | none =>
    match f.todo with
    | [] => none
    | c :: cs => some (b, { f with todo := cs, current := some (c, f.now + b.offset c) })
  | some (c, basenow) =>
    match (b.active c).head? with
    | none => some (b, { f with current := none })
    | some t =>
      if basenow < b.softexpires t then some (b, { f with current := none })
      else
        let b := { b with running := update b.running c (some t) }
        some (b.removeHrtimerFrom t false false, { f with callback := some t })

/-- The end of `__run_hrtimer`, after the callback of `t`. -/
def Frame.callbackReturns (b : CpuBase τ) (f : Frame τ) (t : τ) (restart : Bool) : CpuBase τ × Frame τ :=
  let b := if restart ∧ ¬b.enqueued t then (b.enqueueHrtimer t).1 else b
  ({ b with running := update b.running (Timers.base t) none }, { f with callback := none })

namespace State

/-- `hrtimer_interrupt` from `hrtimer_update_base` over the label `retry` to `__hrtimer_run_queues`. -/
def retry (s : State τ) (now : ℤ) (offs : Offsets) (retries : ℕ) : State τ :=
  let b := { s.base.updateBase offs with inHrtirq := true, expiresNext := ktimeMax }
  let due := b.softirqExpiresNext ≤ now
  let b := if due then { b with softirqExpiresNext := ktimeMax, softirqActivated := true } else b
  { s with base := b, hard := some (.begin b false now, retries), raised := due || s.raised }

/-- Nobody holds the lock. -/
def unlocked (s : State τ) : Bool :=
  match s.hard, s.soft with
  | some (f, _), _ => f.callback.isSome
  | none, some f => f.callback.isSome
  | none, none => true

/-- What happens next, where it can: a call of somebody who does not hold the lock, an interrupt where no
    interrupt is in progress, the softirq after it has been raised, or the next step of what is in
    progress. Wherever `hrtimer_update_base` is called, the clocks may have been set since the last
    time. -/
def step (s : State τ) : Event τ → Option (State τ)
  | .start t tim deltaNs relative =>
    if s.unlocked then some { s with base := s.base.hrtimerStartRangeNs t tim deltaNs relative }
    else none
  | .tryToCancel t =>
    if s.unlocked then some { s with base := (s.base.hrtimerTryToCancel t).1 } else none
  | .forward t expires softexpires =>
    if s.unlocked ∧ ¬s.base.enqueued t then
      some { s with base := { s.base with
        expires := update s.base.expires t expires
        softexpires := update s.base.softexpires t softexpires } }
    else none
  | .retrigger offs =>
    if s.unlocked ∧ s.hard.isNone then some { s with base := s.base.retriggerNextEvent offs } else none
  | .interrupt now offs =>
    if s.unlocked ∧ s.hard.isNone ∧ now < ktimeMax then some (s.retry now offs 0) else none
  | .softirq now offs =>
    if s.unlocked ∧ s.hard.isNone ∧ s.soft.isNone ∧ s.raised then
      let b := s.base.updateBase offs
      some { s with base := b, soft := some (.begin b true now), raised := false }
    else none
  | .runQueues =>
    match s.hard, s.soft with
    | some (f, retries), _ =>
      if f.callback.isSome then none
      else (f.run s.base).map fun (b, f) => { s with base := b, hard := some (f, retries) }
    | none, some f =>
      if f.callback.isSome then none
      else
        match f.run s.base with
        | some (b, f) => some { s with base := b, soft := some f }
        | none =>
          some { s with
            base := { s.base with softirqActivated := false }.updateSoftirqTimer true, soft := none }
    | none, none => none
  | .callbackReturns restart =>
    match s.hard, s.soft with
    | some (f, retries), _ =>
      f.callback.map fun t =>
        let (b, f) := f.callbackReturns s.base t restart
        { s with base := b, hard := some (f, retries) }
    | none, some f =>
      f.callback.map fun t =>
        let (b, f) := f.callbackReturns s.base t restart
        { s with base := b, soft := some f }
    | none, none => none
  | .interruptDone expired =>
    match s.hard with
    | none => none
    | some (f, retries) =>
      if f.callback.isSome ∨ (f.run s.base).isSome ∨ ∃ p ∈ expired, ktimeMax ≤ p.1 then none
      else
        let s := { s with base := s.base.reevaluate }
        match expired with
        | none => some { s with hard := none }
        | some (now, offs) =>
          if retries + 1 < 3 then some (s.retry now offs (retries + 1))
          else some { s with base := s.base.updateBase offs, hard := none }

end State

end

end LinuxNote.Hrtimer
