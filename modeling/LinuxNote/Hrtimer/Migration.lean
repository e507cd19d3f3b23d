import LinuxNote.Lib.Outcome
import Mathlib.Logic.Function.Basic

/-! Timers that move between CPUs, `kernel/time/hrtimer.c`: any number of `hrtimer_start_range_ns` calls,
    a `__run_hrtimer` on every clock base, and one lockless `hrtimer_active`. A step is one access to a
    field that `hrtimer_active` reads; what is done under a lock and not read there goes with the access
    before it. -/

namespace LinuxNote.Hrtimer.Migration
open Function

/-- A `hrtimer_clock_base`: its CPU, whose lock protects it, and its index there. -/
structure Base (κ ι : Type) where
  cpu : κ
  index : ι
deriving DecidableEq

variable {κ ι τ θ : Type}

/-- Where `__hrtimer_run_queues` is on a base; in `held` it has the lock and looks for the next timer. -/
inductive RunPc (τ : Type)
  | idle
  | held
  | marked (t : τ)
  | odd (t : τ)
  | split (t : τ)
  | removed (t : τ)
  | callback (t : τ)
  | returned (t : τ) (restart : Bool)
  | requeued (t : τ)
  | oddAgain (t : τ)
  | splitAgain (t : τ)
deriving DecidableEq

/-- Where a call of `hrtimer_start_range_ns` is; `b` is the base of the timer `t` when it was locked. -/
inductive StartPc (κ ι τ : Type)
  | idle
  | read (t : τ)
  | lock (t : τ) (b : Base κ ι)
  | check (t : τ) (b : Base κ ι)
  | remove (t : τ) (b : Base κ ι)
  | target (t : τ) (b : Base κ ι)
  | again (t : τ) (b : Base κ ι) (this new : κ)
  | moving (t : τ) (b : Base κ ι) (this new : κ)
  | moved (t : τ) (b : Base κ ι) (this new : κ)
  | back (t : τ) (b : Base κ ι) (this : κ)
  | restore (t : τ) (b : Base κ ι) (this : κ)
  | enqueue (t : τ) (b : Base κ ι)
  | unlock (t : τ) (b : Base κ ι)

/-- Where `hrtimer_active` is, with the base and the count it has read; `none` is `migration_base`. -/
inductive ReadPc (κ ι : Type)
  | idle
  | base
  | seq (b : Option (Base κ ι))
  | state (b : Option (Base κ ι)) (seq : BitVec 32)
  | running (b : Option (Base κ ι)) (seq : BitVec 32)
  | retrySeq (b : Option (Base κ ι)) (seq : BitVec 32)
  | retryBase (b : Option (Base κ ι)) (seq : BitVec 32)
  | returned (active : Bool)
deriving DecidableEq

/-- The timers `τ` on the bases of the CPUs `κ`, with the calls in progress. A lock tells who holds it:
    the loop of a base or a thread `θ` that starts a timer. -/
structure State (κ ι τ θ : Type) where
  lock : κ → Option (Base κ ι ⊕ θ)
  base : τ → Option (Base κ ι)
  enqueued : τ → Bool
  queue : τ → Option (Base κ ι)
  running : Base κ ι → Option τ
  seq : Base κ ι → BitVec 32
  runner : Base κ ι → RunPc τ
  starter : θ → StartPc κ ι τ
  reader : ReadPc κ ι

inductive Event (κ ι τ θ : Type)
  | runLock (b : Base κ ι)
  | runUnlock (b : Base κ ι)
  | expire (b : Base κ ι) (t : τ)
  | run (b : Base κ ι)
  | callbackReturns (b : Base κ ι) (restart : Bool)
  | call (i : θ) (t : τ)
  | getTargetBase (i : θ) (this new : κ)
  | start (i : θ) (early : Bool)
  | callActive
  | read

namespace State

variable (s : State κ ι τ θ)

/-- `base->running`; no timer runs on the `migration_base`. -/
def runningOf : Option (Base κ ι) → Option τ
  | none => none
  | some b => s.running b

/-- `base->seq`; that of the `migration_base` stays zero. -/
def seqOf : Option (Base κ ι) → BitVec 32
  | none => 0
  | some b => s.seq b

/-- `hrtimer_is_queued` or `hrtimer_callback_running` -/
def Active (t : τ) : Prop := s.enqueued t = true ∨ s.runningOf (s.base t) = some t

instance [DecidableEq τ] (s : State κ ι τ θ) (t : τ) : Decidable (s.Active t) :=
  inferInstanceAs (Decidable (_ ∨ _))

variable [DecidableEq κ] [DecidableEq ι] [DecidableEq τ] [DecidableEq θ]

def acquire (c : κ) (who : Base κ ι ⊕ θ) : State κ ι τ θ :=
  { s with lock := update s.lock c (some who) }

def release (c : κ) : State κ ι τ θ := { s with lock := update s.lock c none }

def runAt (b : Base κ ι) (pc : RunPc τ) : State κ ι τ θ :=
  { s with runner := update s.runner b pc }

def startAt (i : θ) (pc : StartPc κ ι τ) : State κ ι τ θ :=
  { s with starter := update s.starter i pc }

/-- `s->sequence++` -/
def bump (b : Base κ ι) : State κ ι τ θ :=
  { s with seq := update s.seq b (s.seq b + 1) }

def setRunning (b : Base κ ι) (t : Option τ) : State κ ι τ θ :=
  { s with running := update s.running b t }

def setBase (t : τ) (b : Option (Base κ ι)) : State κ ι τ θ :=
  { s with base := update s.base t b }

/-- `enqueue_hrtimer` -/
def enqueueHrtimer (t : τ) (b : Base κ ι) : State κ ι τ θ :=
  { s with enqueued := update s.enqueued t true, queue := update s.queue t (some b) }

/-- `__remove_hrtimer` -/
def removeHrtimer (t : τ) (newstate : Bool) : State κ ι τ θ :=
  { s with
    enqueued := update s.enqueued t newstate
    queue := if s.enqueued t then update s.queue t none else s.queue }

/-- A step of `__run_hrtimer` on `b`; `raw_write_seqcount_barrier` counts twice. -/
def run (b : Base κ ι) : Option (State κ ι τ θ) :=
  match s.runner b with
  | .marked t => some ((s.bump b).runAt b (.odd t))
  | .odd t => some ((s.bump b).runAt b (.split t))
  | .split t => some ((s.removeHrtimer t false).runAt b (.removed t))
  | .removed t => some ((s.release b.cpu).runAt b (.callback t))
  | .returned t restart =>
    some ((if restart ∧ ¬s.enqueued t then s.enqueueHrtimer t b else s).runAt b (.requeued t))
  | .requeued t => some ((s.bump b).runAt b (.oddAgain t))
  | .oddAgain t => some ((s.bump b).runAt b (.splitAgain t))
  | .splitAgain _ => some ((s.setRunning b none).runAt b .held)
  | _ => none

/-- A step of `hrtimer_start_range_ns` in the thread `i`: `lock_hrtimer_base`, `remove_hrtimer`,
    `switch_hrtimer_base` and `enqueue_hrtimer`. The timer expires before the next event of the target
    when `early`. -/
def start (i : θ) (early : Bool) : Option (State κ ι τ θ) :=
  match s.starter i with
  | .read t =>
    match s.base t with
    | none => some s
    | some b => some (s.startAt i (.lock t b))
  | .lock t b =>
    if s.lock b.cpu = none then some ((s.acquire b.cpu (.inr i)).startAt i (.check t b)) else none
  | .check t b =>
    if s.base t = some b then some (s.startAt i (.remove t b))
    else some ((s.release b.cpu).startAt i (.read t))
  | .remove t b => some ((if s.enqueued t then s.removeHrtimer t true else s).startAt i (.target t b))
  | .again t b this new =>
    let newBase : Base κ ι := ⟨new, b.index⟩
    if b ≠ newBase then
      if s.runningOf (s.base t) = some t then some (s.startAt i (.enqueue t b))
      else some (((s.setBase t none).release b.cpu).startAt i (.moving t b this new))
    else if new ≠ this ∧ early then some (s.startAt i (.again t b this this))
    else some (s.startAt i (.enqueue t newBase))
  | .moving t b this new =>
    if s.lock new = none then some ((s.acquire new (.inr i)).startAt i (.moved t b this new)) else none
  | .moved t b this new =>
    if new ≠ this ∧ early then some ((s.release new).startAt i (.back t b this))
    else some ((s.setBase t (some ⟨new, b.index⟩)).startAt i (.enqueue t ⟨new, b.index⟩))
  | .back t b this =>
    if s.lock b.cpu = none then some ((s.acquire b.cpu (.inr i)).startAt i (.restore t b this)) else none
  | .restore t b this => some ((s.setBase t (some b)).startAt i (.again t b this this))
  | .enqueue t b => some ((s.enqueueHrtimer t b).startAt i (.unlock t b))
  | .unlock _ b => some ((s.release b.cpu).startAt i .idle)
  | _ => none

/-- A step of `hrtimer_active` for the timer `x`. -/
def read (x : τ) : Option (ReadPc κ ι) :=
  match s.reader with
  | .base => some (.seq (s.base x))
  | .seq b => some (if (s.seqOf b)[0] then .seq b else .state b (s.seqOf b))
  | .state b seq => some (if s.enqueued x then .returned true else .running b seq)
  | .running b seq => some (if s.runningOf b = some x then .returned true else .retrySeq b seq)
  | .retrySeq b seq => some (if s.seqOf b ≠ seq then .base else .retryBase b seq)
  | .retryBase b _ => some (if b ≠ s.base x then .base else .returned false)
  | _ => none

def step (x : τ) : Event κ ι τ θ → Option (State κ ι τ θ)
  | .runLock b =>
    if s.runner b = .idle ∧
      s.lock b.cpu = none then some ((s.acquire b.cpu (.inl b)).runAt b .held) else none
  | .runUnlock b => if s.runner b = .held then some ((s.release b.cpu).runAt b .idle) else none
  | .expire b t =>
    if s.runner b = .held ∧
      s.queue t = some b then some ((s.setRunning b (some t)).runAt b (.marked t)) else none
  | .run b => s.run b
  | .callbackReturns b restart =>
    match s.runner b with
    | .callback t =>
      if s.lock b.cpu =
        none then some ((s.acquire b.cpu (.inl b)).runAt b (.returned t restart)) else none
    | _ => none
  | .call i t =>
    match s.starter i with
    | .idle => some (s.startAt i (.read t))
    | _ => none
  | .getTargetBase i this new =>
    match s.starter i with
    | .target t b => some (s.startAt i (.again t b this new))
    | _ => none
  | .start i early => s.start i early
  | .callActive => if s.reader = .idle then some { s with reader := .base } else none
  | .read => (s.read x).map fun reader => { s with reader }

/-- After `hrtimer_init` of the timers. -/
def init (base : τ → Base κ ι) : State κ ι τ θ where
  lock _ := none
  base t := some (base t)
  enqueued _ := false
  queue _ := none
  running _ := none
  seq _ := 0
  runner _ := .idle
  starter _ := .idle
  reader := .idle

/-- The states before `hrtimer_active` and during it. -/
inductive Reached (x : τ) : State κ ι τ θ → Prop
  | init (base : τ → Base κ ι) : Reached x (init base)
  | step {s s' : State κ ι τ θ} {e : Event κ ι τ θ} : Reached x s → s.step x e = some s' → Reached x s'

end State

end LinuxNote.Hrtimer.Migration
