import LinuxNote.Hrtimer.Ownership
import Mathlib.Data.List.Chain

/-! `hrtimer_active` gives no false negative, unless the base or the count comes back to what it has
read. -/

namespace LinuxNote.Hrtimer.Migration
open Function List Option Outcome

variable {κ ι τ θ : Type} [DecidableEq κ] [DecidableEq ι] [DecidableEq τ] [DecidableEq θ]

namespace State

variable {s s' : State κ ι τ θ} {x : τ}

/-! ### What a step leaves alone -/

/-- A call changes nothing of the loops, and the state of a timer only when it enqueues it. -/
theorem start_eq {i : θ} {early : Bool} (hstart : s.start i early = some s') :
    s'.runner = s.runner ∧ s'.running = s.running ∧
      (∀ t, s'.enqueued t = s.enqueued t ∨ ∃ b, s.starter i = .enqueue t b) ∧ s'.reader = s.reader := by
  unfold State.start at hstart
  dsimp only at hstart
  split at hstart
  case h_4 t b hpc =>
    cases hstart
    split
    case isTrue ht =>
      refine ⟨rfl, rfl, fun u => .inl ?_, rfl⟩
      simp only [startAt, State.removeHrtimer, update_apply]
      split
      · simp_all
      · rfl
    · exact ⟨rfl, rfl, fun _ => .inl rfl, rfl⟩
  case h_10 t b hpc =>
    cases hstart
    refine ⟨rfl, rfl, fun u => ?_, rfl⟩
    by_cases hu : u = t
    · exact .inr ⟨b, hu ▸ hpc⟩
    · exact .inl (update_of_ne hu ..)
  all_goals
    repeat' split at hstart
    all_goals cases hstart
    all_goals exact ⟨rfl, rfl, fun _ => .inl rfl, rfl⟩

omit [DecidableEq θ] in
/-- A loop changes its own base, and the state of the timer that it runs. -/
theorem run_eq {b : Base κ ι} (hrun : s.run b = some s') :
    (∀ c, c ≠ b → s'.runner c = s.runner c ∧ s'.running c = s.running c) ∧
      ∀ t, s'.enqueued t = s.enqueued t ∨ (s.runner b).timer = some t := by
  have hown : ∀ {pc : RunPc τ} {t u : τ} {v : Bool}, s.runner b = pc → pc.timer = some t →
      update s.enqueued t v u = s.enqueued u ∨ (s.runner b).timer = some u := by
    intro pc t u v hpc ht
    by_cases hu : u = t
    · exact .inr (by rw [hpc, ht, hu])
    · exact .inl (update_of_ne hu ..)
  unfold State.run at hrun
  split at hrun
  case h_3 t hpc =>
    cases hrun
    exact ⟨fun c hc => ⟨update_of_ne hc .., rfl⟩, fun u => hown hpc rfl⟩
  case h_5 t restart hpc =>
    cases hrun
    split
    · exact ⟨fun c hc => ⟨update_of_ne hc .., rfl⟩, fun u => hown hpc rfl⟩
    · exact ⟨fun c hc => ⟨update_of_ne hc .., rfl⟩, fun _ => .inl rfl⟩
  case h_8 t hpc =>
    cases hrun
    exact ⟨fun c hc => ⟨update_of_ne hc .., update_of_ne hc ..⟩, fun _ => .inl rfl⟩
  case h_9 => cases hrun
  all_goals
    cases hrun
    exact ⟨fun c hc => ⟨update_of_ne hc .., rfl⟩, fun _ => .inl rfl⟩

variable {c : Base κ ι} {t : τ} {e : Event κ ι τ θ} {P : State κ ι τ θ → Prop}

omit [DecidableEq θ] in
/-- A base gets to the end of `__run_hrtimer` with the second barrier only, and stops running its timer
    there. -/
theorem run_running (h : s.Inv) (hrun : s.run c = some s') (ht : s.running c = some t) :
    s'.running c = some t ∧ (s'.runner c = .splitAgain t → s'.seq c = s.seq c + 1) ∨
    s.runner c = .splitAgain t ∧ s'.running c = none ∧ s'.enqueued = s.enqueued ∧
    s'.base = s.base := by
  have htimer := (h.running c).symm.trans ht
  unfold State.run at hrun
  split at hrun
  case h_5 u restart hpc =>
    cases hrun
    refine .inl ⟨?_, ?_⟩
    · split <;> exact ht
    · simp [runAt]
  case h_8 u hpc =>
    cases hrun
    obtain rfl : u = t := by simpa [hpc, RunPc.timer] using htimer
    exact .inr ⟨hpc, update_self .., rfl, rfl⟩
  case h_9 => cases hrun
  all_goals
    cases hrun
    exact .inl ⟨ht, by simp [runAt, bump]⟩

theorem step_running (h : s.Inv) (hstep : s.step x e = some s')
    (ht : s.running c = some t) :
    s'.running c = some t ∧
    (s'.runner c = .splitAgain t → s.runner c = .splitAgain t ∨ s'.seq c = s.seq c + 1) ∨
    s.runner c = .splitAgain t ∧ s'.running c = none ∧ s'.enqueued = s.enqueued ∧ s'.base = s.base := by
  have htimer := (h.running c).symm.trans ht
  cases e with
  | runLock b =>
    obtain ⟨⟨hpc, -⟩, rfl⟩ := of_guard hstep
    have hc : c ≠ b := by rintro rfl; simp [hpc, RunPc.timer] at htimer
    exact .inl ⟨ht, fun hs => .inl ((update_of_ne hc ..).symm.trans hs)⟩
  | runUnlock b =>
    obtain ⟨hpc, rfl⟩ := of_guard hstep
    have hc : c ≠ b := by rintro rfl; simp [hpc, RunPc.timer] at htimer
    exact .inl ⟨ht, fun hs => .inl ((update_of_ne hc ..).symm.trans hs)⟩
  | expire b u =>
    obtain ⟨⟨hpc, -⟩, rfl⟩ := of_guard hstep
    have hc : c ≠ b := by rintro rfl; simp [hpc, RunPc.timer] at htimer
    exact .inl ⟨(update_of_ne hc ..).trans ht, fun hs => .inl ((update_of_ne hc ..).symm.trans hs)⟩
  | run b =>
    by_cases hc : c = b
    · subst hc
      rcases run_running h hstep ht with ⟨hr, hs⟩ | hend
      · exact .inl ⟨hr, fun hsplit => .inr (hs hsplit)⟩
      · exact .inr hend
    · obtain ⟨hpc, hr⟩ := (run_eq hstep).1 c hc
      exact .inl ⟨hr.trans ht, fun hs => .inl (hpc.symm.trans hs)⟩
  | callbackReturns b restart =>
    simp only [step] at hstep
    split at hstep
    case h_1 u hpc =>
      obtain ⟨-, rfl⟩ := of_guard hstep
      refine .inl ⟨ht, fun hs => .inl ?_⟩
      by_cases hc : c = b
      · simp [runAt, hc] at hs
      · exact (update_of_ne hc ..).symm.trans hs
    · cases hstep
  | start i early =>
    obtain ⟨hpc, hr, -⟩ := start_eq hstep
    exact .inl ⟨hr ▸ ht, fun hs => .inl (hpc ▸ hs)⟩
  | call i u | getTargetBase i this new =>
    simp only [step] at hstep
    split at hstep <;> cases hstep
    exact .inl ⟨ht, .inl⟩
  | callActive =>
    obtain ⟨-, rfl⟩ := of_guard hstep
    exact .inl ⟨ht, .inl⟩
  | read =>
    obtain ⟨pc, -, rfl⟩ := map_eq_some_iff.mp hstep
    exact .inl ⟨ht, .inl⟩

/-- At the end of `__run_hrtimer` the lock keeps the state of the timer as it is. -/
theorem step_enqueued (h : s.Inv) (hstep : s.step x e = some s')
    (hpc : s.runner c = .splitAgain t) : s'.enqueued t = s.enqueued t := by
  have hbase := h.runner_base c t (hpc ▸ rfl)
  cases e with
  | run b =>
    rcases (run_eq hstep).2 t with heq | hown
    · exact heq
    obtain rfl : c = b := by simpa [hbase] using h.runner_base b t hown
    simp only [step, State.run, hpc, some.injEq] at hstep
    subst hstep
    rfl
  | start i early =>
    rcases (start_eq hstep).2.2.1 t with heq | ⟨b, hi⟩
    · exact heq
    · exact absurd (.inl ⟨b, hi ▸ rfl⟩) (h.not_claims (hpc ▸ rfl) hbase i)
  | runLock b | runUnlock b | expire b u | callActive =>
    obtain ⟨-, rfl⟩ := of_guard hstep
    rfl
  | callbackReturns b restart =>
    simp only [step] at hstep
    split at hstep
    · obtain ⟨-, rfl⟩ := of_guard hstep
      rfl
    · cases hstep
  | call i u | getTargetBase i this new =>
    simp only [step] at hstep
    split at hstep <;> cases hstep
    rfl
  | read =>
    obtain ⟨pc, -, rfl⟩ := map_eq_some_iff.mp hstep
    rfl

/-! ### What the reader has seen -/

def Steps (x : τ) (s s' : State κ ι τ θ) : Prop := ∃ e, s.step x e = some s'

/-- After `hrtimer_active` has read the state of the timer, the step brings the base of the timer, or the
    count of the base, back to what it had read before. -/
def Back (x : τ) (s s' : State κ ι τ θ) : Prop :=
  match s.reader with
  | .running b seq | .retrySeq b seq => s.base x ≠ b ∧ s'.base x = b ∨ s.seqOf b ≠ seq ∧ s'.seqOf b = seq
  | .retryBase b _ => s.base x ≠ b ∧ s'.base x = b
  | _ => False

/-- What `hrtimer_active` may conclude as long as the timer is active. If nothing has changed since it
    read an inactive state, the callback is running; at the end of `__run_hrtimer` the timer has not been
    enqueued again. -/
def Seen (x : τ) (s : State κ ι τ θ) : Prop :=
  match s.reader with
  | .running b seq => s.base x = b → s.seqOf b = seq →
      s.runningOf b = some x ∧ ∀ c, b = some c → s.runner c = .splitAgain x → s.enqueued x = false
  | .retrySeq b seq => s.base x = b → s.seqOf b ≠ seq
  | .retryBase b _ => s.base x ≠ b
  | .returned active => active = true
  | _ => True

omit [DecidableEq κ] [DecidableEq ι] [DecidableEq θ] in
theorem Seen.read [DecidableEq κ] [DecidableEq ι] (h : s.Seen x) (ha : s.Active x) {pc : ReadPc κ ι}
    (hread : s.read x = some pc) : { s with reader := pc }.Seen x := by
  unfold Seen at h
  unfold State.read at hread
  split at hread
  case h_1 => cases hread; trivial
  case h_2 =>
    cases hread
    split <;> trivial
  case h_3 b seq hpc =>
    cases hread
    split
    · rfl
    case isFalse ht =>
      intro hbase _
      have hrunning : s.runningOf (s.base x) = some x := ha.resolve_left ht
      rw [show s.base x = b from hbase] at hrunning
      exact ⟨hrunning, fun _ _ _ => by simpa using ht⟩
  case h_4 b seq hpc =>
    simp only [hpc] at h
    cases hread
    split
    · rfl
    case isFalse hrunning => exact fun hbase hseq => hrunning (h hbase hseq).1
  case h_5 b seq hpc =>
    simp only [hpc] at h
    cases hread
    split
    · trivial
    case isFalse hseq => exact fun hbase => h hbase (not_not.mp hseq)
  case h_6 b seq hpc =>
    simp only [hpc] at h
    cases hread
    split
    · trivial
    case isFalse hbase => exact absurd (not_not.mp hbase).symm h
  case h_7 => cases hread

/-- One step of somebody else. -/
theorem Seen.step (h : s.Seen x) (hinv : s.Inv) (hstep : s.step x e = some s')
    (hreader : s'.reader = s.reader) (ha' : s'.Active x) (hback : ¬Back x s s') : s'.Seen x := by
  unfold Seen Back at *
  rw [hreader]
  cases hpc : s.reader with
  | running b seq =>
    simp only [hpc, not_or] at h hback
    intro hbase' hseq'
    -- neither the base nor the count has changed
    have hbase : s.base x = b := by
      by_contra hne
      exact hback.1 ⟨hne, hbase'⟩
    have hseq : s.seqOf b = seq := by
      by_contra hne
      exact hback.2 ⟨hne, hseq'⟩
    obtain ⟨hrunning, hend⟩ := h hbase hseq
    rcases b with _ | c
    · cases hrunning
    rcases step_running hinv hstep hrunning with ⟨hrunning', hsplit⟩ | ⟨hsplit, hnone, henq, -⟩
    · refine ⟨hrunning', fun c' hc' hpc' => ?_⟩
      obtain rfl : c = c' := some.inj hc'
      rcases hsplit hpc' with hsplit | hbump
      · rw [step_enqueued hinv hstep hsplit]
        exact hend c rfl hsplit
      rw [show s.seq c = s'.seq c from hseq.trans hseq'.symm] at hbump
      simp at hbump
    -- the timer would not be active any more
    have hinactive := hend c rfl hsplit
    rw [Active, henq, hinactive, hbase'] at ha'
    rcases ha' with ha' | ha'
    · cases ha'
    · cases hnone.symm.trans ha'
  | retrySeq b seq =>
    simp only [hpc, not_or] at h hback
    intro hbase' hseq'
    refine h ?_ ?_
    · by_contra hne
      exact hback.1 ⟨hne, hbase'⟩
    by_contra hne
    exact hback.2 ⟨hne, hseq'⟩
  | retryBase b seq =>
    simp only [hpc, not_and] at h hback
    exact hback h
  | returned active =>
    simp only [hpc] at h
    exact h
  | _ => trivial

theorem step_reader (hstep : s.step x e = some s') :
    s'.reader = s.reader ∨ s'.reader = .base ∨ ∃ pc, s.read x = some pc ∧
    s' = { s with reader := pc } := by
  cases e with
  | runLock b | runUnlock b | expire b u =>
    obtain ⟨-, rfl⟩ := of_guard hstep
    exact .inl rfl
  | run b =>
    simp only [step, State.run] at hstep
    split at hstep <;> cases hstep
    case h_5 => split <;> exact .inl rfl
    all_goals exact .inl rfl
  | callbackReturns b restart =>
    simp only [step] at hstep
    split at hstep
    · obtain ⟨-, rfl⟩ := of_guard hstep
      exact .inl rfl
    · cases hstep
  | call i u | getTargetBase i this new =>
    simp only [step] at hstep
    split at hstep <;> cases hstep
    exact .inl rfl
  | start i early => exact .inl (start_eq hstep).2.2.2
  | callActive =>
    obtain ⟨-, rfl⟩ := of_guard hstep
    exact .inr (.inl rfl)
  | read =>
    obtain ⟨pc, hread, rfl⟩ := map_eq_some_iff.mp hstep
    exact .inr (.inr ⟨pc, hread, rfl⟩)

/-- A whole call, as long as the timer is active. -/
theorem seen_getLast : ∀ {l : List (State κ ι τ θ)} {s : State κ ι τ θ}, s.Inv → s.Seen x →
    (s :: l).IsChain (fun u u' => Steps x u u' ∧ ¬Back x u u') → (∀ u ∈ s :: l, u.Active x) →
    ((s :: l).getLast (cons_ne_nil s l)).Seen x
  | [], s, _, h, _, _ => h
  | s' :: l, s, hinv, h, hl, ha => by
    obtain ⟨⟨⟨e, hstep⟩, hback⟩, hl⟩ := isChain_cons_cons.mp hl
    obtain ⟨has, ha⟩ := forall_mem_cons.mp ha
    rw [getLast_cons_cons]
    refine seen_getLast (hinv.step hstep) ?_ hl ha
    rcases step_reader hstep with hreader | hreader | ⟨pc, hread, rfl⟩
    · exact h.step hinv hstep hreader (ha s' mem_cons_self) hback
    · simp [Seen, hreader]
    · exact h.read has hread

/-- `hrtimer_active` returns false only if the timer was neither enqueued nor running at some time during
    the call, provided that no step brings the base or the count back. -/
theorem hrtimerActive_no_false_negative {s : State κ ι τ θ} (hs : Reached x s) (hcall : s.reader = .base)
    {l : List (State κ ι τ θ)} (hl : (s :: l).IsChain fun u u' => Steps x u u' ∧ ¬Back x u u')
    (hret : ((s :: l).getLast (List.cons_ne_nil s l)).reader = .returned false) :
    ∃ u ∈ s :: l, ¬u.Active x := by
  by_contra hall
  have hactive : ∀ u ∈ s :: l, u.Active x := fun u hu => by_contra fun hu' => hall ⟨u, hu, hu'⟩
  have hseen : s.Seen x := by simp [Seen, hcall]
  have hlast := seen_getLast hs.inv hseen hl hactive
  simp [Seen, hret] at hlast

/-! ### Sequences of steps -/

/-- A sequence of steps that are all related by `R`. -/
def Passes (R : State κ ι τ θ → State κ ι τ θ → Prop) (x : τ) :
    State κ ι τ θ → State κ ι τ θ → Prop :=
  Relation.ReflTransGen fun u u' => Steps x u u' ∧ R u u'

variable {R : State κ ι τ θ → State κ ι τ θ → Prop}

theorem Passes.reached (h : Passes R x s s') (hs : Reached x s) : Reached x s' := by
  induction h with
  | refl => exact hs
  | tail _ hstep ih =>
    obtain ⟨⟨e, he⟩, -⟩ := hstep
    exact .step ih he

theorem Passes.path (h : Passes (fun _ u => P u) x s s') (hs : P s) :
    ∃ l, (s :: l).IsChain (Steps x) ∧ (∀ u ∈ s :: l, P u) ∧ (s :: l).getLast (cons_ne_nil s l) = s' := by
  induction h using Relation.ReflTransGen.head_induction_on with
  | refl => exact ⟨[], .singleton _, by simpa using hs, rfl⟩
  | head hstep _ ih =>
    obtain ⟨l, hl, hall, hlast⟩ := ih hstep.2
    exact ⟨_ :: l, .cons_cons hstep.1 hl, forall_mem_cons.mpr ⟨hs, hall⟩, hlast⟩

/-- Take the listed steps as long as they are related by `R`. -/
def walk (R : State κ ι τ θ → State κ ι τ θ → Prop) [DecidableRel R] (x : τ) :
    State κ ι τ θ → List (Event κ ι τ θ) → Option (State κ ι τ θ) :=
  List.foldlM fun s e => (s.step x e).filter (R s)

theorem walk_passes [DecidableRel R] (es : List (Event κ ι τ θ)) (h : walk R x s es = some s') :
    Passes R x s s' := by
  induction es generalizing s with
  | nil => exact some.inj h ▸ .refl
  | cons e es ih =>
    obtain ⟨u, hu, hrest⟩ := bind_eq_some_iff.mp h
    obtain ⟨hstep, hR⟩ := filter_eq_some_iff.mp hu
    exact .head ⟨⟨e, hstep⟩, of_decide_eq_true hR⟩ (ih hrest)

instance : DecidableRel (Back x : State κ ι τ θ → State κ ι τ θ → Prop) := fun _ _ => by
  unfold Back
  split <;> infer_instance

section

/-- One timer on two CPUs. -/
abbrev Sample := State Bool Unit Unit Unit

def baseOf (c : Bool) : Base Bool Unit := ⟨c, ()⟩

def sampleInit : Sample := init fun _ => baseOf false

/-- `hrtimer_start_range_ns` on the CPU `this` for the timer on the CPU `c`, when nothing is in its
    way. -/
def startOn (c this : Bool) : List (Event Bool Unit Unit Unit) :=
  [.call () (), .start () false, .start () false, .start () false, .start () false,
    .getTargetBase () this this, .start () false] ++
  (if c = this then [] else [.start () false, .start () false]) ++ [.start () false, .start () false]

/-- The timer is enqueued and `hrtimer_active` called. -/
def started : Sample :=
  (walk (fun _ _ => True) () sampleInit (startOn false false ++ [.callActive])).get (by decide)

theorem started_reached : Reached () started := (walk_passes _ (some_get _).symm).reached (.init _)

/-- After `hrtimer_active` has read the base and its count, the timer is started on the other CPU,
    expires there and is seen in its callback. -/
def away : List (Event Bool Unit Unit Unit) :=
  [.read, .read] ++ startOn false true ++
    [.runLock (baseOf true), .expire (baseOf true) (), .run (baseOf true), .run (baseOf true),
      .run (baseOf true), .read, .run (baseOf true)]

/-- The callback returns, and the loop of its base goes on. -/
def callbackEnds (restart : Bool) : List (Event Bool Unit Unit Unit) :=
  .callbackReturns (baseOf true) restart :: List.replicate 4 (.run (baseOf true)) ++
    [.runUnlock (baseOf true)]

/-- The callback does not restart the timer: `hrtimer_active` finds the other base and looks there. -/
def awayAndGone : List (Event Bool Unit Unit Unit) :=
  away ++ callbackEnds false ++ List.replicate 9 .read

def gone : Sample := (walk (fun u u' => ¬Back () u u') () started awayAndGone).get (by decide)

theorem hrtimerActive_no_false_negative_gone : ∃ (s : Sample) (l : List Sample), Reached () s ∧
    s.base () = some (baseOf false) ∧ s.Active () ∧ gone.base () = some (baseOf true) ∧
    (s :: l).getLast (cons_ne_nil s l) = gone ∧ gone.reader = .returned false ∧
    ∃ u ∈ s :: l, ¬u.Active () := by
  have hend : walk (fun u u' => ¬Back () u u') () started awayAndGone = some gone :=
    (some_get _).symm
  obtain ⟨l, hl, hlast⟩ := exists_isChain_cons_of_relationReflTransGen (walk_passes _ hend)
  have hret : gone.reader = .returned false := by decide
  exact ⟨started, l, started_reached, by decide, by decide, by decide, hlast, hret,
    hrtimerActive_no_false_negative started_reached (by decide) hl (hlast ▸ hret)⟩

/-! ### Calls that return a false negative -/

/-- The callback restarts the timer, and it is started on the first CPU again. -/
def awayAndBack : List (Event Bool Unit Unit Unit) :=
  away ++ callbackEnds true ++ startOn true false ++ [.read, .read, .read]

def cameBack : Sample := (walk (fun _ u => u.Active ()) () started awayAndBack).get (by decide)

/-- One timer on one CPU. -/
abbrev Lone := State Unit Unit Unit Unit

def loneBase : Base Unit Unit := ⟨(), ()⟩

/-- The loop of the base is about to run the timer, and the count is `seq`. -/
def spin (seq : BitVec 32) (reader : ReadPc Unit Unit) : Lone where
  lock _ := some (.inl loneBase)
  base _ := some loneBase
  enqueued _ := true
  queue _ := some loneBase
  running _ := none
  seq _ := seq
  runner _ := .held
  starter _ := .idle
  reader := reader

/-- The timer is on the queue of the base or runs there. -/
abbrev InPlace (s : Lone) : Prop :=
  s.Active () ∧ (s.queue () = some loneBase ∨ s.running loneBase = some ())

/-- The timer is started on its CPU, and the loop of the base begins. -/
def startLone : List (Event Unit Unit Unit Unit) :=
  [.call () (), .start () false, .start () false, .start () false, .start () false,
    .getTargetBase () () (), .start () false, .start () false, .start () false, .runLock loneBase,
    .callActive]

/-- The timer expires, and its callback runs. -/
def expires : List (Event Unit Unit Unit Unit) := .expire loneBase () :: List.replicate 3 (.run loneBase)

/-- The callback restarts the timer. -/
def restarts : List (Event Unit Unit Unit Unit) :=
  [.run loneBase, .callbackReturns loneBase true] ++ List.replicate 4 (.run loneBase)

theorem passes_runs (reader : ReadPc Unit Unit) (seq : BitVec 32) : ∀ n : ℕ,
    Passes (fun _ => InPlace) () (spin seq reader) (spin (seq + BitVec.ofNat 32 (4 * n)) reader)
  | 0 => by simpa using .refl
  | n + 1 => by
    have hn : seq + BitVec.ofNat 32 (4 * (n + 1)) = seq + BitVec.ofNat 32 (4 * n) + 1 + 1 + 1 + 1 := by
      simp [Nat.mul_succ, BitVec.ofNat_add, BitVec.add_assoc]
    rw [hn]
    exact (passes_runs reader seq n).trans (walk_passes (expires ++ restarts) rfl)

/-- The count makes a full turn after `hrtimer_active` has read the state while the callback runs, and
    `base->running`. -/
theorem passes_turn : Passes (fun _ => InPlace) () (spin 0 .base) (spin 0 (.returned false)) := by
  have hturn := passes_runs (.retrySeq (some loneBase) 0) 4 (2 ^ 30 - 1)
  rw [show (4 : BitVec 32) + BitVec.ofNat 32 (4 * (2 ^ 30 - 1)) = 0 by decide] at hturn
  have hreads : Passes (fun _ => InPlace) () (spin 0 .base) (spin 4 (.retrySeq (some loneBase) 0)) :=
    walk_passes ([.read, .read] ++ expires ++ [.read] ++ restarts ++ [.read]) rfl
  exact (hreads.trans hturn).trans (walk_passes [.read, .read] rfl)

/-- The timer is active all the time, but `hrtimer_active` returns false: after the timer has gone to
    another CPU and come back, and after the count of its base has come back although the timer stays
    there. -/
theorem hrtimerActive_false_negative :
    (∃ (s : Sample) (l : List Sample), Reached () s ∧ s.reader = .base ∧ (s :: l).IsChain (Steps ()) ∧
      (∀ u ∈ s :: l, u.Active ()) ∧ ((s :: l).getLast (List.cons_ne_nil s l)).reader = .returned false) ∧
    ∃ (s : Lone) (l : List Lone), Reached () s ∧ s.reader = .base ∧ (s :: l).IsChain (Steps ()) ∧
      (∀ u ∈ s :: l, u.Active () ∧ (u.queue () = some loneBase ∨ u.running loneBase = some ())) ∧
      ((s :: l).getLast (List.cons_ne_nil s l)).reader = .returned false := by
  constructor
  · have hend : walk (fun _ u => u.Active ()) () started awayAndBack = some cameBack :=
      (Option.some_get _).symm
    obtain ⟨l, hl, hall, hlast⟩ := (walk_passes _ hend).path (by decide)
    exact ⟨started, l, started_reached, by decide, hl, hall, by rw [hlast]; decide⟩
  · obtain ⟨l, hl, hall, hlast⟩ := passes_turn.path ⟨.inl rfl, .inl rfl⟩
    have hspin : Reached () (spin 0 .base) :=
      (walk_passes (R := fun _ _ => True) startLone rfl).reached (.init fun _ => loneBase)
    exact ⟨_, l, hspin, rfl, hl, hall, by rw [hlast]; rfl⟩

end

/-- However the calls interleave, a timer that the loop of a base is at stays on that base, and no other
    one runs it or has it queued; at most one call may move a timer. -/
theorem timer_one_owner (h : Reached x s) (t : τ) :
    (∀ b, (s.runner b).timer = some t → s.base t = some b ∧
      ∀ b', (s.runner b').timer = some t ∨ s.queue t = some b' → b' = b) ∧
      ∀ i j, (s.starter i).Claims t → (s.starter j).Claims t → i = j := by
  have hinv := h.inv
  refine ⟨fun b hb => ?_, fun i j => hinv.claims_unique⟩
  have hbase := hinv.runner_base b t hb
  refine ⟨hbase, fun b' hb' => ?_⟩
  have hbase' : s.base t = some b' := hb'.elim (hinv.runner_base b' t) (hinv.queue_base t b')
  exact some.inj (hbase'.symm.trans hbase)

/-- The timer is in its callback on the CPU to which it has moved. -/
theorem timer_one_owner_moved : ∃ s : Sample, s.runner (baseOf true) = .callback () ∧
    s.base () = some (baseOf true) ∧ (s.runner (baseOf false)).timer ≠ some () := by
  have hs : Reached () ((walk (fun _ _ => True) () started away).get (by decide)) :=
    (walk_passes _ (some_get _).symm).reached started_reached
  obtain ⟨hbase, honly⟩ := (timer_one_owner hs ()).1 (baseOf true) (by decide)
  exact ⟨_, by decide, hbase, fun h => absurd (honly _ (.inl h)) (by decide)⟩

end State

end LinuxNote.Hrtimer.Migration
