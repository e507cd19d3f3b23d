import LinuxNote.Asid.Allocator

/-! `check_and_switch_context` on all CPUs at once. The reads of `mm->context.id` and of
    `asid_generation`, the exchange of `active_asids` and the section under `cpu_asid_lock` are one step
    each; `cpu_switch_mm` reads `mm->context.id` once more, for the hardware. -/

namespace LinuxNote.Asid
open Function List State

inductive Pc (μ : Type)
  | idle
  | readId (mm : μ)
  | readGeneration (mm : μ) (asid : ℕ)
  | xchg (mm : μ) (asid : ℕ)
  | lock (mm : μ)
  | switch (mm : μ)
  | runs (mm : μ) (asid : ℕ)

structure System (γ μ : Type) where
  mem : State γ μ
  pc : γ → Pc μ

inductive Event (γ μ : Type)
  | begin (c : γ) (mm : μ)
  | next (c : γ)

namespace System

variable {γ μ : Type} [Fintype γ] [DecidableEq γ] [DecidableEq μ] (s : System γ μ)

def goto (c : γ) (pc : Pc μ) : System γ μ := { s with pc := Function.update s.pc c pc }

def step : Event γ μ → Option (System γ μ)
  | .begin c mm =>
    match s.pc c with
    | .idle | .runs .. => some (s.goto c (.readId mm))
    | _ => none
  | .next c =>
    match s.pc c with
    | .readId mm => some (s.goto c (.readGeneration mm (s.mem.id mm)))
    | .readGeneration mm asid =>
      some (s.goto c (if s.mem.isCurrent asid then .xchg mm asid else .lock mm))
    | .xchg mm asid =>
      some ({ s with mem := s.mem.xchgActive c asid }.goto c
          (if s.mem.active c ≠ 0 then .switch mm else .lock mm))
    | .lock mm => some ({ s with mem := s.mem.lockSection c mm }.goto c (.switch mm))
    | .switch mm => some (s.goto c (.runs mm (s.mem.id mm % numUserAsids)))
    | .idle | .runs .. => none

def init : System γ μ := ⟨.init, fun _ => .idle⟩

/-- A new generation begins while `active_asids` of some CPU has an identifier of an older one, or the
    number of the generation overflows. -/
def Missed : Event γ μ → Prop
  | .begin .. => False
  | .next c => ∃ mm, s.pc c = .lock mm ∧ s.mem.Rolls mm ∧
      ¬(s.mem.Fits ∧ ∀ c, s.mem.active c ≠ 0 → s.mem.Current (s.mem.active c))

/-- The states of the runs in which every new generation finds the CPUs up to date. -/
inductive Reached : System γ μ → Prop
  | init : Reached init
  | step {s s' : System γ μ} {e : Event γ μ} : Reached s → s.step e = some s' → ¬s.Missed e → Reached s'

/-! ### Switches without interference -/

def Steps (s s' : System γ μ) : Prop := ∃ e, s.step e = some s'

/-- The outcome of a whole call that takes the lock. -/
def slow (c : γ) (mm : μ) : System γ μ :=
  { s with mem := s.mem.lockSection c mm }.goto c
    (.runs mm ((s.mem.lockSection c mm).id mm % numUserAsids))

def CanSwitch (c : γ) : Prop := s.pc c = .idle ∨ ∃ mm asid, s.pc c = .runs mm asid

variable {s : System γ μ} {c : γ} {mm : μ} {pc : Pc μ} {x a : ℕ} {pending : γ → Bool}

/-- Such a call stays within the good runs when it does not begin a new generation. -/
theorem reached_slow (hs : Reached s) (hpc : s.CanSwitch c)
    (hold : s.mem.isCurrent (s.mem.id mm) = false)
    (hfind : findNextZeroBit s.mem.map s.mem.curIdx ≠ numUserAsids) : Reached (s.slow c mm) := by
  have hs1 : Reached (s.goto c (.readId mm)) := hs.step (e := .begin c mm)
    (by rcases hpc with hpc | ⟨m, asid, hpc⟩ <;> simp [step, hpc]) (by simp [Missed])
  have hs2 : Reached (s.goto c (.readGeneration mm (s.mem.id mm))) :=
    hs1.step (e := .next c) (by simp [step, goto]) (by simp [Missed, goto])
  have hs3 : Reached (s.goto c (.lock mm)) :=
    hs2.step (e := .next c) (by simp [step, goto, hold]) (by simp [Missed, goto])
  have hs4 : Reached ({ s with mem := s.mem.lockSection c mm }.goto c (.switch mm)) :=
    hs3.step (e := .next c) (by simp [step, goto]) fun ⟨m, _, hrolls, _⟩ => hfind hrolls.2.2
  exact hs4.step (e := .next c) (by simp [step, goto, slow]) (by simp [Missed, goto])

/-! ### What a CPU in the middle of a switch knows -/

/-- Where a CPU is fits with the memory: an identifier that it has read may be out of date, but then the
    exchange will find zero; the number of what it runs is kept for it. -/
def PcOk (s : State γ μ) (c : γ) : Pc μ → Prop
  | .readGeneration mm asid => asid = s.id mm ∨ asid / numUserAsids < s.generation / numUserAsids
  | .xchg mm asid => asid = s.id mm ∧ s.Current asid ∨ asid / numUserAsids < s.generation /
      numUserAsids ∧ s.active c = 0
  | .switch mm => s.Holds c mm
  | .runs mm asid => s.Holds c mm ∧ asid = s.id mm % numUserAsids
  | _ => True

structure Inv (s : System γ μ) : Prop where
  good : s.mem.Good
  active : ∀ c, s.mem.active c ≠ 0 → s.mem.Current (s.mem.active c) → ∃ mm, s.mem.id mm = s.mem.active c
  pcs : ∀ c, PcOk s.mem c (s.pc c)

omit [Fintype γ] [DecidableEq μ] in
theorem Inv.goto (h : s.Inv) (hpc : PcOk s.mem c pc) : (s.goto c pc).Inv :=
  ⟨h.good, h.active,
    (forall_update_iff s.pc fun c pc => PcOk s.mem c pc).mpr ⟨hpc, fun c' _ => h.pcs c'⟩⟩

omit [Fintype γ] [DecidableEq γ] in
/-- The other CPUs when `mm` has been brought up to date. -/
theorem PcOk.renew {s s' : State γ μ} (h : s.Good) (hr : Renews s mm s') (hpc : PcOk s c pc) :
    PcOk s' c pc := by
  have hgen : s.generation / numUserAsids ≤ s'.generation / numUserAsids := by
    rcases hr.carries with ⟨heq, -⟩ | ⟨hlt, -⟩
    · rw [heq]
    · exact hlt.le
  -- an identifier that is not the same any more is of an older generation
  have hid : ∀ m, s'.id m = s.id m ∨ s.id m / numUserAsids < s.generation / numUserAsids := by
    intro m
    by_cases hcur : s.Current (s.id m)
    · exact .inl (hr.id_of_current hcur)
    refine .inr (lt_of_le_of_ne ?_ hcur)
    by_cases hid : s.id m = 0
    · simp [hid]
    · exact (h.ids m hid).2
  cases pc with
  | readGeneration m asid =>
    rcases hpc with rfl | hlt
    · rcases hid m with heq | hlt
      · exact .inl heq.symm
      · exact .inr (hlt.trans_le hgen)
    · exact .inr (hlt.trans_le hgen)
  | xchg m asid =>
    rcases hr.carries with ⟨heq, hactive, -⟩ | ⟨hlt, hzero, -⟩
    · rcases hpc with ⟨rfl, hcur⟩ | ⟨hlt, hzero⟩
      · refine .inl ⟨?_, by rwa [Current, heq]⟩
        exact ((hid m).resolve_right hcur.not_lt).symm
      · exact .inr ⟨heq ▸ hlt, hactive ▸ hzero⟩
    refine .inr ⟨?_, hzero c⟩
    rcases hpc with ⟨-, hcur⟩ | ⟨hlt', -⟩
    · exact hcur.trans_lt hlt
    · exact hlt'.trans hlt
  | switch m => exact (hr.holds c m hpc).1
  | runs m asid =>
    obtain ⟨hholds, heq⟩ := hr.holds c m hpc.1
    exact ⟨hholds, hpc.2.trans heq.symm⟩
  | _ => trivial

omit [Fintype γ] [DecidableEq μ] in
/-- `active_asids` of another CPU is of no concern. -/
theorem PcOk.other {s : State γ μ} {c' : γ} (hne : c' ≠ c) (hpc : PcOk s c' pc) :
    PcOk { s with active := update s.active c x, pending } c' pc := by
  have hactive : update s.active c x c' = s.active c' := update_of_ne hne ..
  cases pc with
  | xchg m asid => exact hpc.imp (fun h => h) fun ⟨hlt, hzero⟩ => ⟨hlt, hactive.trans hzero⟩
  | switch m =>
    exact ⟨hpc.1, hpc.2.imp (fun ⟨h, hcur⟩ => ⟨hactive.trans h, hcur⟩) fun ⟨h, hr⟩ =>
      ⟨hactive.trans h, hr⟩⟩
  | runs m asid =>
    exact ⟨⟨hpc.1.1, hpc.1.2.imp (fun ⟨h, hcur⟩ => ⟨hactive.trans h, hcur⟩) fun ⟨h, hr⟩ =>
      ⟨hactive.trans h, hr⟩⟩, hpc.2⟩
  | readGeneration m asid => exact hpc
  | _ => trivial

omit [Fintype γ] [DecidableEq μ] in
/-- A CPU stores an identifier in its `active_asids`. -/
theorem Inv.store (h : s.Inv) (hx : s.mem.Current x → ∃ mm, s.mem.id mm = x)
    (hpc : PcOk { s.mem with active := update s.mem.active c x, pending } c pc) :
    ({ s with mem := { s.mem with active := update s.mem.active c x, pending } }.goto c pc).Inv := by
  refine ⟨h.good.store .., fun c' hne hcur => ?_, ?_⟩
  · simp only [System.goto] at hne hcur ⊢
    by_cases hc : c' = c
    · rw [hc, update_self] at hcur ⊢
      exact hx hcur
    rw [update_of_ne hc] at hne hcur ⊢
    exact h.active c' hne hcur
  · refine (forall_update_iff s.pc fun c' pc => PcOk _ c' pc).mpr ⟨hpc, fun c' hc => ?_⟩
    exact PcOk.other hc (h.pcs c')

/-- The section under the lock. -/
theorem Inv.lockSection (h : s.Inv) (hcard : Fintype.card γ < numUserAsids - 1)
    (hpc : s.pc c = .lock mm) (hnot : ¬s.Missed (.next c)) :
    ({ s with mem := s.mem.lockSection c mm }.goto c (.switch mm)).Inv := by
  have hroll : s.mem.Rolls mm → s.mem.Fits ∧ s.mem.Fresh := by
    intro hrolls
    have hfine : s.mem.Fits ∧ ∀ c, s.mem.active c ≠ 0 → s.mem.Current (s.mem.active c) := by
      by_contra hbad
      exact hnot ⟨mm, hpc, hrolls, hbad⟩
    exact ⟨hfine.1, fun c' hc' => ⟨hfine.2 c' hc', h.active c' hc' (hfine.2 c' hc')⟩⟩
  have hr := h.good.renew hcard hroll
  have hrenewed : (⟨s.mem.renew mm, s.pc⟩ : System γ μ).Inv := by
    refine ⟨hr.good, fun c' hne hcur => ?_, fun c' => (h.pcs c').renew h.good hr⟩
    rcases hr.carries with ⟨hgen, hactive, -⟩ | ⟨-, hzero, -⟩
    · dsimp only at hne hcur ⊢
      rw [hactive] at hne hcur ⊢
      rw [Current, hgen] at hcur
      obtain ⟨m, hm⟩ := h.active c' hne hcur
      exact ⟨m, (hr.id_of_current (hm ▸ hcur)).trans hm⟩
    · exact absurd (hzero c') hne
  exact hrenewed.store (fun _ => ⟨mm, rfl⟩)
    ⟨hr.good.ne_zero_of_current hr.current, .inl ⟨update_self .., hr.current⟩⟩

theorem Inv.step {s' : System γ μ} (h : s.Inv) (hcard : Fintype.card γ < numUserAsids - 1)
    {e : Event γ μ} (hstep : s.step e = some s') (hnot : ¬s.Missed e) : s'.Inv := by
  rcases e with ⟨c, mm⟩ | c
  · simp only [System.step] at hstep
    split at hstep <;> cases hstep
    all_goals exact h.goto trivial
  have hpcs := h.pcs c
  simp only [System.step] at hstep
  split at hstep <;> cases hstep
  case h_1 mm hpc => exact h.goto (.inl rfl)
  case h_2 mm asid hpc =>
    rw [hpc] at hpcs
    refine h.goto ?_
    split
    case isTrue hcur =>
      rw [isCurrent_iff] at hcur
      exact .inl ⟨hpcs.resolve_right hcur.not_lt, hcur⟩
    · trivial
  case h_3 mm asid hpc =>
    rw [hpc] at hpcs
    refine h.store (fun hcur => ?_) ?_
    · rcases hpcs with ⟨rfl, -⟩ | ⟨hlt, -⟩
      · exact ⟨mm, rfl⟩
      · exact absurd hcur hlt.ne
    split
    case isTrue hold =>
      obtain ⟨rfl, hcur⟩ := hpcs.resolve_right fun hzero => hold hzero.2
      exact ⟨h.good.ne_zero_of_current hcur, .inl ⟨update_self .., hcur⟩⟩
    · trivial
  case h_4 mm hpc => exact h.lockSection hcard hpc hnot
  case h_5 mm hpc =>
    rw [hpc] at hpcs
    exact h.goto ⟨hpcs, rfl⟩

theorem Reached.inv (h : Reached s) (hcard : Fintype.card γ < numUserAsids - 1) : s.Inv := by
  induction h with
  | init => exact ⟨good_init, fun c hc => absurd rfl hc, fun _ => trivial⟩
  | step _ hstep hnot ih => exact ih.step hcard hstep hnot

/-- No two CPUs run different address spaces under one number, and no two address spaces have the same
    number in the current generation. -/
theorem asids_unique {s : System γ μ} (hs : Reached s) (hcard : Fintype.card γ < numUserAsids - 1) :
    (∀ c c' mm mm' asid, s.pc c = .runs mm asid → s.pc c' = .runs mm' asid → mm = mm') ∧
      ∀ mm mm', mm ≠ mm' → s.mem.Current (s.mem.id mm) → s.mem.Current (s.mem.id mm') →
        s.mem.id mm % numUserAsids ≠ s.mem.id mm' % numUserAsids := by
  have h := hs.inv hcard
  constructor
  · intro c c' mm mm' asid hc hc'
    obtain ⟨hholds, hlow⟩ : PcOk s.mem c (.runs mm asid) := hc ▸ h.pcs c
    obtain ⟨hholds', hlow'⟩ : PcOk s.mem c' (.runs mm' asid) := hc' ▸ h.pcs c'
    have heq := h.good.unique _ _ hholds.claimed hholds'.claimed (hlow.symm.trans hlow')
    exact h.good.inj mm mm' hholds.1 heq
  · intro mm mm' hne hcur hcur' hlow
    exact hne (h.good.eq_of_current hcur hcur' hlow)

theorem asids_unique_two : ∃ s : System Bool ℕ, s.pc false = .runs 1 1 ∧ s.pc true = .runs 2 2 ∧
    (∀ c c' mm mm' asid, s.pc c = .runs mm asid → s.pc c' = .runs mm' asid → mm = mm') ∧
      ∀ mm mm', mm ≠ mm' → s.mem.Current (s.mem.id mm) → s.mem.Current (s.mem.id mm') →
        s.mem.id mm % numUserAsids ≠ s.mem.id mm' % numUserAsids := by
  have hs1 : Reached ((init : System Bool ℕ).slow false 1) :=
    reached_slow .init (.inl rfl) (by decide) (by decide)
  have hs2 : Reached (((init : System Bool ℕ).slow false 1).slow true 2) :=
    reached_slow hs1 (.inl rfl) (by decide) (by decide)
  exact ⟨_, congrArg (Pc.runs 1) (by decide), congrArg (Pc.runs 2) (by decide),
    asids_unique hs2 (by decide)⟩

/-! ### Two CPUs that run two address spaces under one number -/

section

deriving instance DecidableEq for Pc

theorem steps_of_foldlM {es : List (Event γ μ)} {s' : System γ μ} (h : es.foldlM step s = some s') :
    Relation.ReflTransGen Steps s s' := by
  induction es generalizing s with
  | nil => exact Option.some.inj h ▸ .refl
  | cons e es ih =>
    obtain ⟨s1, hs, hrest⟩ := Option.bind_eq_some_iff.mp h
    exact .head ⟨e, hs⟩ (ih hrest)

/-- The events of a whole call. -/
def call (c : Bool) (mm : ℕ) : List (Event Bool ℕ) := .begin c mm :: replicate 4 (.next c)

/-- While the second CPU uses up all numbers, the first one stops before it exchanges its `active_asids`.
    A new generation begins, and the second CPU gets the number that the first one then stores. The first
    one still waits for the lock when the next generation begins, in which the number is reserved
    twice. -/
def race : List (Event Bool ℕ) :=
  call false 1 ++ (range 254).flatMap (fun n => call true (2 + n)) ++
    [.begin false 2, .next false, .next false] ++ call true 256 ++ [.next false] ++
    (range 252).flatMap (fun n => call true (257 + n)) ++ call true 256 ++ call true 509 ++
    [.next false, .next false] ++ call true 256

set_option maxRecDepth 100000 in
/-- Two CPUs run two address spaces under the number 2, which both of these have in the current
    generation. -/
theorem asids_shared : ∃ s : System Bool ℕ, Relation.ReflTransGen Steps init s ∧ s.pc false = .runs 2 2 ∧
    s.pc true = .runs 256 2 ∧ s.mem.Current (s.mem.id 2) ∧ s.mem.Current (s.mem.id 256) ∧
    s.mem.id 2 % numUserAsids = s.mem.id 256 % numUserAsids := by
  have hrun :
    ((race.foldlM step init).any fun s => decide (s.pc false = .runs 2 2 ∧ s.pc true = .runs 256 2 ∧
      s.mem.isCurrent (s.mem.id 2) = true ∧ s.mem.isCurrent (s.mem.id 256) = true ∧
      s.mem.id 2 % numUserAsids = s.mem.id 256 % numUserAsids)) = true := by
    decide +kernel
  rcases hend : race.foldlM step (init : System Bool ℕ) with _ | s
  · rw [hend] at hrun; exact nomatch hrun
  rw [hend] at hrun
  obtain ⟨hfalse, htrue, hold, hnew, hid⟩ := of_decide_eq_true hrun
  exact ⟨s, steps_of_foldlM hend, hfalse, htrue, isCurrent_iff.mp hold, isCurrent_iff.mp hnew, hid⟩

end

end System

end LinuxNote.Asid
