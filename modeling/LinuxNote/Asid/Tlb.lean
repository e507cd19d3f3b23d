import LinuxNote.Asid.Allocator

/-! `check_and_switch_context` and the TLBs. A call is one step here; while a CPU runs an address space,
    the hardware may put its translations into the TLB of the CPU at any time, tagged with the number
    that it runs under. -/

namespace LinuxNote.Asid
open Function State Relation Bool

structure Machine (γ μ : Type) where
  mem : State γ μ
  running : γ → Option (μ × ℕ)
  tlb : γ → List (ℕ × μ)

inductive Action (γ μ : Type)
  | switch (c : γ) (mm : μ)
  | fill (c : γ)

namespace Machine

variable {γ μ : Type} [Fintype γ] [DecidableEq γ] [DecidableEq μ] (s : Machine γ μ)

/-- `cpu_switch_mm` -/
def cpuSwitchMm (c : γ) (mm : μ) : Machine γ μ :=
  { s with running := Function.update s.running c (some (mm, s.mem.id mm % numUserAsids)) }

/-- `check_and_switch_context`. The exchange of `active_asids` takes place whenever the identifier is up
    to date. -/
def checkAndSwitchContext (c : γ) (mm : μ) : Machine γ μ :=
  let asid := s.mem.id mm
  let fast := s.mem.isCurrent asid && s.mem.active c ≠ 0
  let mem := if s.mem.isCurrent asid then s.mem.xchgActive c asid else s.mem
  if fast then { s with mem }.cpuSwitchMm c mm
  else
    let tlb := if (mem.renew mm).pending c then Function.update s.tlb c [] else s.tlb
    { s with mem := mem.lockSection c mm, tlb }.cpuSwitchMm c mm

/-- The TLB of `c` gets an entry of what `c` runs. -/
def fill (c : γ) : Machine γ μ :=
  match s.running c with
  | some (mm, asid) => { s with tlb := Function.update s.tlb c ((asid, mm) :: s.tlb c) }
  | none => s

def step : Action γ μ → Machine γ μ
  | .switch c mm => s.checkAndSwitchContext c mm
  | .fill c => s.fill c

def init : Machine γ μ := ⟨.init, fun _ => none, fun _ => []⟩

/-- A new generation begins whose number does not fit into 64 bits. -/
def Wraps : Action γ μ → Prop
  | .switch _ mm => s.mem.Rolls mm ∧ ¬s.mem.Fits
  | .fill _ => False

/-- The states of the histories in which `asid_generation` does not overflow. -/
inductive Reached : Machine γ μ → Prop
  | init : Reached init
  | step {s : Machine γ μ} (a : Action γ μ) : Reached s → ¬s.Wraps a → Reached (s.step a)

/-! ### The two ways through a call -/

variable {mm : μ} {s : Machine γ μ} {c : γ} {n g : ℕ}

theorem lockSection_xchgActive {s : State γ μ} (c : γ) (hcur : s.isCurrent (s.id mm) = true) :
    (s.xchgActive c (s.id mm)).lockSection c mm = s.lockSection c mm := by
  have hrenew : s.renew mm = s := if_pos hcur
  have hrenew' : (s.xchgActive c (s.id mm)).renew mm = s.xchgActive c (s.id mm) := if_pos hcur
  rw [lockSection, hrenew', lockSection, hrenew]
  simp [xchgActive]

/-- An exchange that finds zero makes no difference to what follows. -/
theorem checkAndSwitchContext_slow
    (hslow : s.mem.isCurrent (s.mem.id mm) = true → s.mem.active c = 0) :
    s.checkAndSwitchContext c mm = { s with
        mem := s.mem.lockSection c mm
        tlb := if (s.mem.renew mm).pending c then update s.tlb c [] else s.tlb }.cpuSwitchMm c mm := by
  cases hcur : s.mem.isCurrent (s.mem.id mm)
  · simp [checkAndSwitchContext, hcur]
  have hrenew : s.mem.renew mm = s.mem := if_pos hcur
  have hrenew' : (s.mem.xchgActive c (s.mem.id mm)).renew mm = s.mem.xchgActive c (s.mem.id mm) :=
    if_pos hcur
  have hpend : (s.mem.xchgActive c (s.mem.id mm)).pending = s.mem.pending := rfl
  simp [checkAndSwitchContext, hcur, hslow hcur, lockSection_xchgActive c hcur, hrenew, hrenew', hpend]

theorem checkAndSwitchContext_fast (hcur : s.mem.isCurrent (s.mem.id mm) = true)
    (hactive : s.mem.active c ≠ 0) :
    s.checkAndSwitchContext c mm =
      { s with mem := s.mem.xchgActive c (s.mem.id mm) }.cpuSwitchMm c mm := by
  simp [checkAndSwitchContext, hcur, hactive]

/-! ### The invariant -/

/-- A CPU without a pending flush has entries of the current generation only. A pending flush may leave
    old entries, but none of another address space under the number of the one that still runs. -/
structure Inv (s : Machine γ μ) : Prop where
  good : s.mem.Good
  fresh : s.mem.Fresh
  pending : ∀ c, s.mem.pending c = true → s.mem.active c = 0
  running : ∀ c mm asid, s.running c = some (mm, asid) → s.mem.Holds c mm ∧
    asid = s.mem.id mm % numUserAsids
  active : ∀ c, s.running c ≠ none → s.mem.pending c = false → s.mem.active c ≠ 0
  own : ∀ c mm asid m, s.running c = some (mm, asid) → (asid, m) ∈ s.tlb c → m = mm
  tlb : ∀ c asid m, s.mem.pending c = false → (asid, m) ∈ s.tlb c → s.mem.Current (s.mem.id m) ∧
    s.mem.id m % numUserAsids = asid

omit [Fintype γ] [DecidableEq γ] [DecidableEq μ] in
theorem inv_init : (init : Machine γ μ).Inv where
  good := good_init
  fresh _ hc := absurd rfl hc
  pending _ _ := rfl
  running _ _ _ h := nomatch h
  active _ h := absurd rfl h
  own _ _ _ _ h := nomatch h
  tlb _ _ _ _ h := nomatch h

omit [Fintype γ] [DecidableEq μ] in
theorem Inv.fill (h : s.Inv) (c : γ) : (s.fill c).Inv := by
  unfold Machine.fill
  split
  case h_2 => exact h
  case h_1 mm asid hrun =>
    have hnew : ∀ c' x m, (x, m) ∈ update s.tlb c ((asid, mm) :: s.tlb c) c' →
        c' = c ∧ x = asid ∧ m = mm ∨ (x, m) ∈ s.tlb c' := by
      intro c' x m hm
      by_cases hc : c' = c
      · rw [hc, update_self] at hm
        rcases List.mem_cons.mp hm with heq | hm
        · exact .inl ⟨hc, Prod.mk.inj heq⟩
        · exact .inr (hc ▸ hm)
      · rw [update_of_ne hc] at hm
        exact .inr hm
    refine ⟨h.good, h.fresh, h.pending, h.running, h.active, fun c' m x m' hrun' hm => ?_,
      fun c' x m hpend hm => ?_⟩
    · rcases hnew c' x m' hm with ⟨rfl, rfl, rfl⟩ | hm
      · have heq := hrun.symm.trans hrun'
        cases heq
        rfl
      · exact h.own c' m x m' hrun' hm
    rcases hnew c' x m hm with ⟨rfl, rfl, rfl⟩ | hm
    · obtain ⟨hholds, hlow⟩ := h.running c' m x hrun
      have hactive := h.active c' (by simp [hrun]) hpend
      exact ⟨(hholds.2.resolve_right fun hzero => hactive hzero.1).2, hlow.symm⟩
    · exact h.tlb c' x m hpend hm

omit [Fintype γ] [DecidableEq γ] in
/-- `mm->context.id` has been brought up to date. -/
theorem Inv.renew (h : s.Inv) {mem : State γ μ} (hr : Renews s.mem mm mem) : { s with mem }.Inv := by
  have hrunning : ∀ c m asid, s.running c = some (m, asid) → mem.Holds c m ∧
    asid = mem.id m % numUserAsids := by
    intro c m asid hrun
    obtain ⟨hholds, hlow⟩ := h.running c m asid hrun
    exact ⟨(hr.holds c m hholds).1, hlow.trans (hr.holds c m hholds).2.symm⟩
  rcases hr.carries with ⟨hgen, hactive, hpend⟩ | ⟨-, hzero, hpend⟩
  · have hcur : ∀ x, mem.Current x ↔ s.mem.Current x := fun x => by rw [Current, Current, hgen]
    refine ⟨hr.good, fun c hc => ?_, hpend ▸ hactive ▸ h.pending, hrunning, hpend ▸ hactive ▸ h.active,
      h.own, fun c asid m hc hm => ?_⟩
    · rw [hactive] at hc ⊢
      obtain ⟨hcur', m, hm⟩ := h.fresh c hc
      exact ⟨(hcur _).mpr hcur', m, (hr.id_of_current (hm ▸ hcur')).trans hm⟩
    obtain ⟨hcur', hlow⟩ := h.tlb c asid m (hpend ▸ hc) hm
    rw [hr.id_of_current hcur', hcur]
    exact ⟨hcur', hlow⟩
  have hnot : ∀ c, mem.pending c ≠ false := fun c => by simp [hpend c]
  exact ⟨hr.good, fun c hc => absurd (hzero c) hc, fun c _ => hzero c, hrunning,
    fun c _ hc => absurd hc (hnot c), h.own, fun c _ _ hc => absurd hc (hnot c)⟩

omit [Fintype γ] [DecidableEq μ] in
/-- `c` goes on with `mm`, whose identifier is up to date, after the flush that was pending. -/
theorem Inv.switch (h : s.Inv) (hcur : s.mem.Current (s.mem.id mm)) :
    ({ s with
      mem := { s.mem with
        pending := update s.mem.pending c false, active := update s.mem.active c (s.mem.id mm) }
      tlb := if s.mem.pending c then update s.tlb c [] else s.tlb }.cpuSwitchMm c mm).Inv := by
  have hid := h.good.ne_zero_of_current hcur
  generalize htlb : (if s.mem.pending c then update s.tlb c [] else s.tlb) = tlb
  -- what is left in the TLB of `c` is of the current generation
  have hleft : ∀ asid m, (asid, m) ∈ tlb c → s.mem.Current (s.mem.id m) ∧
    s.mem.id m % numUserAsids = asid := by
    intro asid m hm
    rw [← htlb] at hm
    split at hm
    · simp at hm
    case isFalse hpend => exact h.tlb c asid m (eq_false_iff.mpr hpend) hm
  have hother : ∀ c', c' ≠ c → tlb c' = s.tlb c' := by
    intro c' hc
    rw [← htlb]
    split
    · exact update_of_ne hc ..
    · rfl
  refine ⟨h.good.store .., fun c' hc => ?_, fun c' hc => ?_, fun c' m asid hrun => ?_,
    fun c' hrun hc => ?_, fun c' m asid m' hrun hm => ?_, fun c' asid m hc hm => ?_⟩
  all_goals
    dsimp only [cpuSwitchMm] at *
    rcases eq_or_ne c' c with rfl | hcc
  · rw [update_self] at hc ⊢
    exact ⟨hcur, mm, rfl⟩
  · rw [update_of_ne hcc] at hc ⊢
    exact h.fresh c' hc
  · rw [update_self] at hc
    exact absurd hc (by simp)
  · rw [update_of_ne hcc] at hc ⊢
    exact h.pending c' hc
  · rw [update_self] at hrun
    obtain ⟨rfl, rfl⟩ := Prod.mk.inj (Option.some.inj hrun)
    exact ⟨⟨hid, .inl ⟨update_self .., hcur⟩⟩, rfl⟩
  · rw [update_of_ne hcc] at hrun
    obtain ⟨⟨hne, hholds⟩, hlow⟩ := h.running c' m asid hrun
    refine ⟨⟨hne, ?_⟩, hlow⟩
    dsimp only
    rwa [update_of_ne hcc]
  · rwa [update_self]
  · rw [update_of_ne hcc] at hrun hc ⊢
    exact h.active c' hrun hc
  · rw [update_self] at hrun
    obtain ⟨rfl, rfl⟩ := Prod.mk.inj (Option.some.inj hrun)
    obtain ⟨hcur', hlow⟩ := hleft _ m' hm
    exact h.good.eq_of_current hcur' hcur hlow
  · rw [update_of_ne hcc] at hrun
    exact h.own c' m asid m' hrun (hother c' hcc ▸ hm)
  · exact hleft asid m hm
  · rw [update_of_ne hcc] at hc
    exact h.tlb c' asid m hc (hother c' hcc ▸ hm)

theorem Inv.checkAndSwitchContext (h : s.Inv) (hcard : Fintype.card γ < numUserAsids - 1)
    (hnot : ¬s.Wraps (.switch c mm)) : (s.checkAndSwitchContext c mm).Inv := by
  by_cases hfast : s.mem.isCurrent (s.mem.id mm) = true ∧ s.mem.active c ≠ 0
  · obtain ⟨hcur, hactive⟩ := hfast
    rw [checkAndSwitchContext_fast hcur hactive]
    -- no flush is pending here
    have hpend : s.mem.pending c = false := eq_false_iff.mpr fun hc => hactive (h.pending c hc)
    have hswitch := h.switch (c := c) (isCurrent_iff.mp hcur)
    have hupdate : update s.mem.pending c false = s.mem.pending := by rw [← hpend, update_eq_self]
    rw [hupdate, if_neg (by simp [hpend])] at hswitch
    exact hswitch
  rw [checkAndSwitchContext_slow fun hcur => not_not.mp fun hactive => hfast ⟨hcur, hactive⟩]
  have hr : Renews s.mem mm (s.mem.renew mm) :=
    h.good.renew hcard fun hrolls => ⟨not_not.mp fun hfits => hnot ⟨hrolls, hfits⟩, h.fresh⟩
  exact (h.renew hr).switch hr.current

theorem Reached.inv (hs : Reached s) (hcard : Fintype.card γ < numUserAsids - 1) : s.Inv := by
  induction hs with
  | init => exact inv_init
  | step a _ hnot ih =>
    cases a with
    | switch c mm => exact ih.checkAndSwitchContext hcard hnot
    | fill c => exact ih.fill c

/-- No CPU finds translations of another address space under the number of the one that it runs, the
    number zero is not given to any address space, and a new generation always has a free number. -/
theorem no_stale_translations {s : Machine γ μ} (hs : Reached s)
    (hcard : Fintype.card γ < numUserAsids - 1) :
    (∀ c mm asid, s.running c = some (mm, asid) → asid ≠ 0 ∧ ∀ m, (asid, m) ∈ s.tlb c → m = mm) ∧
    (∀ mm, s.mem.id mm ≠ 0 → s.mem.id mm % numUserAsids ≠ 0) ∧
    State.findNextZeroBit s.mem.rollover.map 1 < numUserAsids := by
  have h := hs.inv hcard
  refine ⟨fun c mm asid hrun => ⟨?_, fun m hm => h.own c mm asid m hrun hm⟩,
    fun mm hid => (h.good.ids mm hid).1.ne', (State.findNextZeroBit_rollover hcard).2.1⟩
  obtain ⟨hholds, hlow⟩ := h.running c mm asid hrun
  exact hlow ▸ (h.good.ids mm hholds.1).1.ne'

theorem no_stale_translations_two : ∃ s : Machine Bool ℕ,
    s.running false = some (1, 1) ∧ s.running true = some (2, 2) ∧ s.tlb false = [(1, 1)] ∧
    (∀ c mm asid, s.running c = some (mm, asid) → asid ≠ 0 ∧ ∀ m, (asid, m) ∈ s.tlb c → m = mm) ∧
    (∀ mm, s.mem.id mm ≠ 0 → s.mem.id mm % numUserAsids ≠ 0) ∧
    State.findNextZeroBit s.mem.rollover.map 1 < numUserAsids := by
  have hs1 : Reached ((init : Machine Bool ℕ).step (.switch false 1)) :=
    .step _ .init fun h => absurd h.1.2.2 (by decide)
  have hs2 : Reached (((init : Machine Bool ℕ).step (.switch false 1)).step (.fill false)) :=
    .step _ hs1 fun h => h
  have hs3 := hs2.step (.switch true 2) fun h => absurd h.1.2.2 (by decide)
  exact ⟨_, by decide, by decide, by decide, no_stale_translations hs3 (by decide)⟩

/-! ### The generation overflows -/

def Steps (s s' : Machine γ μ) : Prop := ∃ a, s' = s.step a

/-- One CPU has begun with a number, and the address spaces from `n` on are new. -/
structure Ready (s : Machine Unit ℕ) (n generation : ℕ) : Prop where
  generation : s.mem.generation = generation
  curIdx : s.mem.curIdx < numUserAsids
  map : s.mem.map s.mem.curIdx = true
  pending : s.mem.pending () = false
  new : ∀ m, n ≤ m → s.mem.id m = 0

/-- A new address space is run and gets the number `a`, perhaps of a new generation. -/
theorem Ready.take {s : Machine Unit ℕ} {a : ℕ} (h : Ready s n g) (hg : numUserAsids ≤ g)
    {mem : State Unit ℕ} (hmem : mem.id = s.mem.id) (hcontext : s.mem.newContext n = mem.take a)
    (ha : a < numUserAsids) :
    Ready (s.step (.switch () n)) (n + 1) mem.generation ∧ (s.step (.switch () n)).mem.curIdx = a := by
  have hold : s.mem.isCurrent (s.mem.id n) = false := by
    rw [h.new n le_rfl, Bool.eq_false_iff, Ne, isCurrent_iff, Current, h.generation]
    simp only [numUserAsids_eq] at *
    omega
  have hstep : (s.step (.switch () n)).mem = { (mem.take a).1 with
      pending := update mem.pending () false
      active := update mem.active () (update mem.id n (mem.take a).2 n)
      id := update mem.id n (mem.take a).2 } := by
    rw [step, checkAndSwitchContext_slow fun hcur => absurd hcur (by simp [hold])]
    simp only [cpuSwitchMm, lockSection, renew, hold, hcontext, false_eq_true, if_false]
    rfl
  refine ⟨⟨?_, ?_, ?_, ?_, fun m hm => ?_⟩, ?_⟩
  all_goals rw [hstep]
  · rfl
  · exact ha
  · exact update_self a true mem.map
  · rfl
  · show update mem.id n (mem.take a).2 m = 0
    rw [update_of_ne (by omega), hmem]
    exact h.new m (by omega)
  · rfl

theorem Ready.switch {s : Machine Unit ℕ} (h : Ready s n g) (hg : numUserAsids ≤ g) :
    Ready (s.step (.switch () n)) (n + 1) g ∧ s.mem.curIdx < (s.step (.switch () n)).mem.curIdx ∨
      Ready (s.step (.switch () n)) (n + 1) ((g + numUserAsids) % 2 ^ 64) := by
  have hid := h.new n le_rfl
  by_cases hfind : findNextZeroBit s.mem.map s.mem.curIdx = numUserAsids
  · have hlt := (findNextZeroBit_rollover (s := s.mem) (by decide)).2.1
    have hcontext : s.mem.newContext n = s.mem.rollover.take (findNextZeroBit s.mem.rollover.map 1) := by
      simp [newContext, hid, allocate, hfind]
    have hid' : s.mem.rollover.id = s.mem.id := rfl
    exact .inr (h.generation ▸ (h.take hg hid' hcontext hlt).1)
  have hnext := Bitmap.isNext_findNext (fun i => !s.mem.map i) h.curIdx.le
  have hcontext : s.mem.newContext n = s.mem.take (findNextZeroBit s.mem.map s.mem.curIdx) := by
    simp [newContext, hid, allocate, hfind]
  have hlt := lt_of_le_of_ne hnext.le hfind
  obtain ⟨hready, hidx⟩ := h.take hg rfl hcontext hlt
  refine .inl ⟨h.generation ▸ hready, hidx ▸ lt_of_le_of_ne hnext.ge fun heq => ?_⟩
  -- the number at which the search begins is in use
  have hfree : (!s.mem.map (findNextZeroBit s.mem.map s.mem.curIdx)) = true := hnext.hit hlt
  rw [← heq, h.map] at hfree
  exact absurd hfree (by decide)

/-- The numbers are used up one after the other until a new generation begins. -/
theorem Ready.generation_ends {s : Machine Unit ℕ} {left : ℕ} (h : Ready s n g) (hg : numUserAsids ≤ g)
    (hleft : numUserAsids ≤ s.mem.curIdx + left) :
    ∃ s' n', ReflTransGen Steps s s' ∧ Ready s' n' ((g + numUserAsids) % 2 ^ 64) := by
  induction left generalizing s n with
  | zero => exact absurd h.curIdx (not_lt.mpr hleft)
  | succ left ih =>
    rcases h.switch hg with ⟨hready, hidx⟩ | hready
    · obtain ⟨s', n', hsteps, hready'⟩ := ih hready (by omega)
      exact ⟨s', n', .head ⟨_, rfl⟩ hsteps, hready'⟩
    · exact ⟨_, _, .single ⟨_, rfl⟩, hready⟩

theorem ready_first : Ready ((init : Machine Unit ℕ).step (.switch () 0)) 1 numUserAsids where
  generation := rfl
  curIdx := by decide
  map := by decide
  pending := rfl
  new m hm := by
    obtain ⟨k, rfl⟩ := Nat.exists_eq_add_of_le' hm
    rfl

theorem generations (k : ℕ) (hk : k < 2 ^ 56) : ∃ s n, ReflTransGen Steps (init : Machine Unit ℕ) s ∧
    Ready s n ((k + 1) * numUserAsids % 2 ^ 64) := by
  induction k with
  | zero => exact ⟨_, _, .single ⟨_, rfl⟩, ready_first⟩
  | succ k ih =>
    obtain ⟨s, n, hsteps, hready⟩ := ih (by omega)
    rw [Nat.mod_eq_of_lt (by simp only [numUserAsids_eq]; omega)] at hready
    obtain ⟨s', n', hsteps', hready'⟩ :=
      hready.generation_ends (by simp only [numUserAsids_eq]; omega) (Nat.le_add_left ..)
    refine ⟨s', n', hsteps.trans hsteps', ?_⟩
    rwa [add_one_mul (k + 1)]

/-- In the generation zero an address space without an identifier passes for up to date. -/
theorem switch_overflowed {s : Machine Unit ℕ} {mm : ℕ} (hgen : s.mem.generation = 0)
    (hpend : s.mem.pending () = false) (hid : s.mem.id mm = 0) :
    (s.step (.switch () mm)).running () = some (mm, 0) ∧ (s.step (.switch () mm)).mem.generation = 0 ∧
    (s.step (.switch () mm)).mem.pending () = false ∧ (s.step (.switch () mm)).mem.id = s.mem.id ∧
    (s.step (.switch () mm)).tlb = s.tlb := by
  have hcur : s.mem.isCurrent (s.mem.id mm) = true := by
    rw [hid, isCurrent_iff, Current, hgen]
  have hrenew : s.mem.renew mm = s.mem := if_pos hcur
  by_cases hactive : s.mem.active () = 0
  · rw [step, checkAndSwitchContext_slow fun _ => hactive]
    simp [cpuSwitchMm, lockSection, hrenew, hid, hgen, hpend]
  rw [step, checkAndSwitchContext_fast hcur hactive]
  simp [cpuSwitchMm, xchgActive, hid, hgen, hpend]

/-- After `2 ^ 56 - 1` new generations all address spaces without an identifier run under the number
    zero. -/
theorem stale_translations : ∃ (s : Machine Unit ℕ) (mm m : ℕ), ReflTransGen Steps init s ∧
    s.running () = some (mm, 0) ∧ (0, m) ∈ s.tlb () ∧ m ≠ mm := by
  obtain ⟨s, n, hsteps, hready⟩ := generations (2 ^ 56 - 1) (by decide)
  have hgen : s.mem.generation = 0 := hready.generation
  obtain ⟨hrun1, hgen1, hpend1, hid1, -⟩ := switch_overflowed hgen hready.pending (hready.new n le_rfl)
  have hsteps1 := hsteps.tail ⟨.switch () n, rfl⟩
  generalize s.step (.switch () n) = s1 at *
  have hfill :
    s1.step (.fill ()) = { s1 with tlb := Function.update s1.tlb () ((0, n) :: s1.tlb ()) } := by
    simp [step, fill, hrun1]
  have hid2 : s1.mem.id (n + 1) = 0 := by
    rw [hid1]
    exact hready.new (n + 1) (Nat.le_succ n)
  have hsteps2 := hsteps1.tail ⟨.fill (), rfl⟩
  rw [hfill] at hsteps2
  obtain ⟨hrun3, -, -, -, htlb3⟩ := switch_overflowed
    (s := { s1 with tlb := Function.update s1.tlb () ((0, n) :: s1.tlb ()) }) hgen1 hpend1 hid2
  refine ⟨_, n + 1, n, hsteps2.tail ⟨.switch () (n + 1), rfl⟩, hrun3, ?_, (Nat.lt_succ_self n).ne⟩
  rw [htlb3]
  exact List.mem_cons_self

end Machine

end LinuxNote.Asid
