import LinuxNote.Asid.Basic
import Mathlib.Data.Nat.Bitwise
import Mathlib.Order.Interval.Finset.Nat

/-! What the allocator keeps: an identifier of the current generation, or one that is reserved for a CPU,
    belongs to one address space, and no other of them has the same number. -/

namespace LinuxNote.Asid
open Function Finset Nat

open Bitmap

theorem numUserAsids_eq : numUserAsids = 256 := rfl

/-! ### Generation and number of an identifier -/

theorem or_generation {a g : ℕ} (ha : a < numUserAsids) (hg : g % numUserAsids = 0) :
    a ||| g = g + a := by
  have hor : 2 ^ asidBits * (g / numUserAsids) + a = 2 ^ asidBits * (g / numUserAsids) ||| a :=
    two_pow_add_eq_or_of_lt ha _
  have hmul : 2 ^ asidBits * (g / numUserAsids) = g := Nat.mul_div_cancel' (Nat.dvd_of_mod_eq_zero hg)
  rw [hmul] at hor
  rw [Nat.or_comm, ← hor]

namespace State

variable {γ μ : Type} {s : State γ μ}

/-- An identifier of this generation. -/
def Current (s : State γ μ) (x : ℕ) : Prop := x / numUserAsids = s.generation / numUserAsids

variable {x a k : ℕ} {mm : μ} {c c₀ : γ}

theorem isCurrent_iff : s.isCurrent x = true ↔ s.Current x := by
  rw [isCurrent, Current, decide_eq_true_iff, shiftRight_xor_distrib, xor_eq_zero_iff,
    shiftRight_eq_div_pow, shiftRight_eq_div_pow]
  rfl

/-- An identifier whose number nobody else may get. -/
def Claimed (s : State γ μ) (x : ℕ) : Prop :=
  x ≠ 0 ∧ ((∃ c, s.reserved c = x) ∨ ∃ mm, s.id mm = x ∧ s.Current x)

structure Good (s : State γ μ) : Prop where
  generation_mod : s.generation % numUserAsids = 0
  generation_pos : 0 < s.generation
  curIdx_pos : 0 < s.curIdx
  curIdx_lt : s.curIdx < numUserAsids
  ids : ∀ mm, s.id mm ≠ 0 → 0 < s.id mm % numUserAsids ∧ s.id mm / numUserAsids ≤ s.generation /
    numUserAsids
  inj : ∀ mm mm', s.id mm ≠ 0 → s.id mm = s.id mm' → mm = mm'
  owned : ∀ c, s.reserved c ≠ 0 → ∃ mm, s.id mm = s.reserved c
  marked : ∀ x, s.Claimed x → s.map (x % numUserAsids) = true
  unique : ∀ x y, s.Claimed x → s.Claimed y → x % numUserAsids = y % numUserAsids → x = y

theorem good_init : (init : State γ μ).Good where
  generation_mod := mod_self _
  generation_pos := Nat.two_pow_pos _
  curIdx_pos := one_pos
  curIdx_lt := by simp [init, numUserAsids_eq]
  ids := by simp [init]
  inj := by simp [init]
  owned := by simp [init]
  marked x h := by simp [Claimed, init] at h; omega
  unique x y h := by simp [Claimed, init] at h; omega

theorem Good.ne_zero_of_current (h : s.Good) (hcur : s.Current (s.id mm)) : s.id mm ≠ 0 := by
  have hmod := h.generation_mod
  have hpos := h.generation_pos
  simp only [Current, numUserAsids_eq] at *
  omega

theorem Good.eq_of_current (h : s.Good) {mm' : μ} (hcur : s.Current (s.id mm))
    (hcur' : s.Current (s.id mm')) (hlow : s.id mm % numUserAsids = s.id mm' % numUserAsids) :
    mm = mm' := by
  have hid := h.ne_zero_of_current hcur
  have hid' := h.ne_zero_of_current hcur'
  exact h.inj mm mm' hid (h.unique _ _ ⟨hid, .inr ⟨mm, rfl, hcur⟩⟩ ⟨hid', .inr ⟨mm', rfl, hcur'⟩⟩ hlow)

/-- The allocator does not depend on what the CPUs are doing. -/
theorem Good.store (h : s.Good) (active : γ → ℕ) (pending : γ → Bool) :
    { s with active, pending }.Good :=
  { h with }

/-! ### A new generation -/

/-- What the CPUs are running has an identifier of this generation. -/
def Fresh (s : State γ μ) : Prop := ∀ c, s.active c ≠ 0 → s.Current (s.active c) ∧
    ∃ mm, s.id mm = s.active c

def Fits (s : State γ μ) : Prop := s.generation + numUserAsids < 2 ^ 64

variable [Fintype γ]

theorem rollover_generation (hfits : s.Fits) : s.rollover.generation = s.generation + numUserAsids :=
  mod_eq_of_lt hfits

theorem rollover_map {i : ℕ} : s.rollover.map i = true ↔ ∃ c, s.kept c % numUserAsids = i :=
  decide_eq_true_iff

theorem Good.not_current_rollover (h : s.Good) (hfits : s.Fits) (mm : μ) :
    ¬s.rollover.Current (s.id mm) := by
  have hgen := rollover_generation hfits
  by_cases hid : s.id mm = 0
  · rw [hid]
    simp only [Current, hgen, numUserAsids_eq]
    omega
  have hle := (h.ids mm hid).2
  simp only [Current, hgen, numUserAsids_eq] at *
  omega

omit [Fintype γ] in
theorem Fresh.claimed_kept (hfresh : s.Fresh) (hc : s.kept c ≠ 0) : s.Claimed (s.kept c) := by
  refine ⟨hc, ?_⟩
  rw [kept] at hc ⊢
  split
  · exact .inl ⟨c, rfl⟩
  case isFalse hactive =>
    obtain ⟨hcur, mm, hmm⟩ := hfresh c hactive
    exact .inr ⟨mm, hmm, hcur⟩

theorem Good.claimed_rollover (h : s.Good) (hfits : s.Fits) (hfresh : s.Fresh)
    (hx : s.rollover.Claimed x) : s.Claimed x ∧ ∃ c, s.kept c = x := by
  obtain ⟨hne, ⟨c, rfl⟩ | ⟨mm, rfl, hcur⟩⟩ := hx
  · exact ⟨hfresh.claimed_kept hne, c, rfl⟩
  · exact absurd hcur (h.not_current_rollover hfits mm)

theorem Good.rollover (h : s.Good) (hfits : s.Fits) (hfresh : s.Fresh) : s.rollover.Good := by
  have hgen := rollover_generation hfits
  have hmod := h.generation_mod
  refine ⟨?_, ?_, h.curIdx_pos, h.curIdx_lt, fun mm hid => ⟨(h.ids mm hid).1, ?_⟩, h.inj, fun c hc => ?_,
    fun x hx => ?_, fun x y hx hy => h.unique x y (h.claimed_rollover hfits hfresh hx).1
    (h.claimed_rollover hfits hfresh hy).1⟩
  · rw [hgen, add_mod_right]
    exact hmod
  · rw [hgen]
    exact Nat.add_pos_left h.generation_pos _
  · rw [hgen]
    exact (h.ids mm hid).2.trans (Nat.div_le_div_right (Nat.le_add_right ..))
  · obtain ⟨-, ⟨c', hc'⟩ | ⟨mm, hmm, -⟩⟩ := hfresh.claimed_kept hc
    · obtain ⟨mm, hmm⟩ := h.owned c' (hc' ▸ hc)
      exact ⟨mm, hmm.trans hc'⟩
    · exact ⟨mm, hmm⟩
  · obtain ⟨-, c, hc⟩ := h.claimed_rollover hfits hfresh hx
    exact rollover_map.mpr ⟨c, congrArg (· % numUserAsids) hc⟩

/-- There are more numbers than CPUs. -/
theorem findNextZeroBit_rollover (hcard : Fintype.card γ < numUserAsids - 1) :
    0 < findNextZeroBit s.rollover.map 1 ∧ findNextZeroBit s.rollover.map 1 < numUserAsids ∧
      s.rollover.map (findNextZeroBit s.rollover.map 1) = false := by
  have hnum : 1 ≤ numUserAsids := by decide
  -- some number is reserved for no CPU
  obtain ⟨i, hi, hfree⟩ : ∃ i ∈ Finset.Ico 1 numUserAsids, i ∉ univ.image fun c => s.kept c %
    numUserAsids := by
    refine exists_mem_notMem_of_card_lt_card ?_
    calc (univ.image fun c => s.kept c % numUserAsids).card ≤ Fintype.card γ := card_image_le
      _ < numUserAsids - 1 := hcard
      _ = (Finset.Ico 1 numUserAsids).card := (card_Ico ..).symm
  obtain ⟨hle, hlt⟩ := mem_Ico.mp hi
  have hclear : s.rollover.map i = false := by
    rw [Bool.eq_false_iff, Ne, rollover_map]
    rintro ⟨c, hc⟩
    exact hfree (mem_image.mpr ⟨c, mem_univ c, hc⟩)
  have hnext := isNext_findNext (fun i => !s.rollover.map i) hnum
  have hfound : findNextZeroBit s.rollover.map 1 ≤ i := findNext_le hle hlt (by simp [hclear])
  have hhit : (!s.rollover.map (findNextZeroBit s.rollover.map 1)) = true :=
    hnext.hit (hfound.trans_lt hlt)
  exact ⟨hnext.ge, hfound.trans_lt hlt, by simpa using hhit⟩

/-! ### Giving out an identifier -/

omit [Fintype γ] in
theorem Good.current_add (h : s.Good) (ha : a < numUserAsids) :
    s.Current (s.generation + a) ∧ (s.generation + a) % numUserAsids = a := by
  have hmod := h.generation_mod
  simp only [Current, numUserAsids_eq] at *
  omega

variable [DecidableEq μ]

section
omit [Fintype γ]

theorem Good.ids_update (h : s.Good) (mm : μ) (hlow : 0 < x % numUserAsids) (hcur : s.Current x) (m : μ)
    (hm : update s.id mm x m ≠ 0) : 0 < update s.id mm x m % numUserAsids ∧
      update s.id mm x m / numUserAsids ≤ s.generation / numUserAsids := by
  by_cases hmm : m = mm
  · rw [hmm, update_self]
    exact ⟨hlow, hcur.le⟩
  rw [update_of_ne hmm] at hm ⊢
  exact h.ids m hm

theorem Good.inj_update (h : s.Good) (hother : ∀ m, m ≠ mm → s.id m ≠ x) (m m' : μ)
    (hm : update s.id mm x m ≠ 0) (heq : update s.id mm x m = update s.id mm x m') : m = m' := by
  by_cases hmm : m = mm <;> by_cases hmm' : m' = mm
  · exact hmm.trans hmm'.symm
  · rw [hmm, update_self, update_of_ne hmm'] at heq
    exact absurd heq.symm (hother m' hmm')
  · rw [hmm', update_self, update_of_ne hmm] at heq
    exact absurd heq (hother m hmm)
  rw [update_of_ne hmm, update_of_ne hmm'] at heq
  rw [update_of_ne hmm] at hm
  exact h.inj m m' hm heq

/-- An address space gets a number that nobody has. -/
theorem Good.mark (h : s.Good) (hk : 0 < k) (hk' : k < numUserAsids) (ha : 0 < a)
    (ha' : a < numUserAsids) (hfree : s.map a = false)
    (hmm : s.id mm ≠ 0 → ∀ c, s.reserved c ≠ s.id mm) : { s with
      map := update s.map a true
      curIdx := k
      id := update s.id mm (s.generation + a) }.Good := by
  obtain ⟨hcur, hlow⟩ := h.current_add ha'
  have hpos := h.generation_pos
  have hother : ∀ m, s.id m ≠ s.generation + a := by
    intro m hm
    have hmarked := h.marked _ ⟨by omega, .inr ⟨m, hm, hcur⟩⟩
    rw [hlow, hfree] at hmarked
    cases hmarked
  -- the new identifier, or one that was claimed before
  have hclaimed : ∀ y, { s with
      map := update s.map a true
      curIdx := k
      id := update s.id mm (s.generation + a) }.Claimed y → y = s.generation + a ∨ s.Claimed y := by
    rintro y ⟨hy, ⟨c, rfl⟩ | ⟨m, rfl, hm⟩⟩
    · exact .inr ⟨hy, .inl ⟨c, rfl⟩⟩
    dsimp only at hy hm ⊢
    by_cases hmm' : m = mm
    · exact .inl (by rw [hmm', update_self])
    rw [update_of_ne hmm'] at hy hm ⊢
    exact .inr ⟨hy, .inr ⟨m, rfl, hm⟩⟩
  have hnew : ∀ y, s.Claimed y → y % numUserAsids ≠ a := by
    rintro y hy rfl
    rw [h.marked y hy] at hfree
    cases hfree
  refine ⟨h.generation_mod, hpos, hk, hk', h.ids_update mm (hlow.symm ▸ ha) hcur,
    h.inj_update fun m _ => hother m, fun c hc => ?_, fun y hy => ?_, fun x y hx hy hxy => ?_⟩
  · obtain ⟨m, hm⟩ := h.owned c hc
    refine ⟨m, ?_⟩
    dsimp only
    rw [update_of_ne]
    · exact hm
    rintro rfl
    exact hmm (hm ▸ hc) c hm.symm
  · dsimp only
    rcases hclaimed y hy with rfl | hy
    · rw [hlow, update_self]
    rw [update_of_ne (hnew y hy)]
    exact h.marked y hy
  rcases hclaimed x hx with rfl | hx' <;> rcases hclaimed y hy with rfl | hy'
  · rfl
  · exact absurd (hxy.symm.trans hlow) (hnew y hy')
  · exact absurd (hxy.trans hlow) (hnew x hx')
  · exact h.unique x y hx' hy' hxy

/-- The address space that has a reserved number keeps it. -/
theorem Good.updateReserved (h : s.Good) (hmm : s.id mm ≠ 0) (hc0 : s.reserved c₀ = s.id mm) :
    { s.updateReserved (s.id mm) (s.generation + s.id mm % numUserAsids) with
      id := update s.id mm (s.generation + s.id mm % numUserAsids) }.Good := by
  obtain ⟨hlow0, hle⟩ := h.ids mm hmm
  have hpos := h.generation_pos
  obtain ⟨hcur, hlow⟩ := h.current_add (Nat.mod_lt (s.id mm) (Nat.two_pow_pos _))
  generalize hx : s.generation + s.id mm % numUserAsids = x at *
  have hold : s.Claimed (s.id mm) := ⟨hmm, .inl ⟨c₀, hc0⟩⟩
  have hother : ∀ m, m ≠ mm → s.id m ≠ x := by
    intro m hm heq
    have hclaimed : s.Claimed x := ⟨by omega, .inr ⟨m, heq, hcur⟩⟩
    have hid : x = s.id mm := h.unique _ _ hclaimed hold hlow
    exact hm (h.inj m mm (by rwa [heq, hid]) (heq.trans hid))
  have hclaimed : ∀ y, { s.updateReserved (s.id mm) x with id := update s.id mm x }.Claimed y →
      y = x ∨ s.Claimed y ∧ y ≠ s.id mm := by
    rintro y ⟨hy, ⟨c, rfl⟩ | ⟨m, rfl, hm⟩⟩
    · simp only [State.updateReserved] at hy ⊢
      split
      · exact .inl rfl
      case isFalse hc =>
        rw [if_neg hc] at hy
        exact .inr ⟨⟨hy, .inl ⟨c, rfl⟩⟩, hc⟩
    dsimp only at hy hm ⊢
    by_cases hmm' : m = mm
    · exact .inl (by rw [hmm', update_self])
    rw [update_of_ne hmm'] at hy hm ⊢
    exact .inr ⟨⟨hy, .inr ⟨m, rfl, hm⟩⟩, fun heq => hmm' (h.inj m mm hy heq)⟩
  refine ⟨h.generation_mod, hpos, h.curIdx_pos, h.curIdx_lt, h.ids_update mm (hlow.symm ▸ hlow0) hcur,
    h.inj_update hother, fun c hc => ?_, fun y hy => ?_, fun y z hy hz hyz => ?_⟩
  · simp only [State.updateReserved] at hc ⊢
    split
    · exact ⟨mm, update_self ..⟩
    case isFalse hc' =>
      rw [if_neg hc'] at hc
      obtain ⟨m, hm⟩ := h.owned c hc
      refine ⟨m, ?_⟩
      rw [update_of_ne]
      · exact hm
      rintro rfl
      exact hc' hm.symm
  · rcases hclaimed y hy with rfl | ⟨hy, -⟩
    · rw [hlow]
      exact h.marked _ hold
    · exact h.marked y hy
  rcases hclaimed y hy with rfl | ⟨hy', hne⟩ <;> rcases hclaimed z hz with rfl | ⟨hz', hne'⟩
  · rfl
  · exact absurd (h.unique z _ hz' hold (hyz.symm.trans hlow)) hne'
  · exact absurd (h.unique y _ hy' hold (hyz.trans hlow)) hne
  · exact h.unique y z hy' hz' hyz

end

/-! ### `new_context` -/

/-- The number of `mm` is kept for the CPU `c`, which may be running it. -/
def Holds (s : State γ μ) (c : γ) (mm : μ) : Prop :=
  s.id mm ≠ 0 ∧ (s.active c = s.id mm ∧ s.Current (s.id mm) ∨ s.active c = 0 ∧ s.reserved c = s.id mm)

omit [Fintype γ] [DecidableEq μ] in
theorem Holds.claimed (h : s.Holds c mm) : s.Claimed (s.id mm) :=
  ⟨h.1, h.2.elim (fun hc => .inr ⟨mm, rfl, hc.2⟩) fun hc => .inl ⟨c, hc.2⟩⟩

omit [DecidableEq μ] in
theorem Holds.rollover (h : s.Holds c mm) : s.rollover.Holds c mm := by
  refine ⟨h.1, .inr ⟨rfl, ?_⟩⟩
  show s.kept c = s.id mm
  rcases h.2 with ⟨hc, -⟩ | ⟨hc, hr⟩
  · rw [kept, if_neg (hc ▸ h.1), hc]
  · rw [kept, if_pos hc, hr]

/-- Nothing but a new generation changes what is active and what is to be flushed. -/
def Carries (s s' : State γ μ) : Prop :=
  s'.generation = s.generation ∧ s'.active = s.active ∧ s'.pending = s.pending ∨
    s.generation / numUserAsids < s'.generation / numUserAsids ∧ (∀ c, s'.active c = 0) ∧
    ∀ c, s'.pending c = true

/-- What it means that `mm->context.id` has been brought up to date. -/
structure Renews (s : State γ μ) (mm : μ) (s' : State γ μ) : Prop where
  good : s'.Good
  current : s'.Current (s'.id mm)
  other : ∀ m, m ≠ mm → s'.id m = s.id m
  unchanged : s.Current (s.id mm) → s' = s
  holds : ∀ c m, s.Holds c m → s'.Holds c m ∧ s'.id m % numUserAsids = s.id m % numUserAsids
  carries : s.Carries s'

omit [Fintype γ] in
/-- What is up to date stays as it is. -/
theorem Renews.id_of_current {s' : State γ μ} {m : μ} (h : Renews s mm s') (hcur : s.Current (s.id m)) :
    s'.id m = s.id m := by
  by_cases hm : m = mm
  · rw [hm] at hcur ⊢
    rw [h.unchanged hcur]
  · exact h.other m hm

omit [Fintype γ] [DecidableEq μ] in
theorem Holds.claims (h : s.Holds c mm) (hold : ¬s.Current (s.id mm)) : s.reserved c = s.id mm := by
  rcases h.2 with ⟨-, hcur⟩ | ⟨-, hr⟩
  · exact absurd hcur hold
  · exact hr

omit [Fintype γ] in
/-- `mm` gets the number `a`, perhaps in a new generation `s₁`. -/
theorem Renews.mark {s1 : State γ μ} (h1 : s1.Good) (hid : s1.id = s.id) (hcarries : s.Carries s1)
    (hholds : ∀ c m, s.Holds c m → s1.Holds c m) (hold : ¬s.Current (s.id mm))
    (hold1 : ¬s1.Current (s1.id mm)) (hk : 0 < k) (hk' : k < numUserAsids) (ha : 0 < a)
    (ha' : a < numUserAsids) (hfree : s1.map a = false)
    (hmm : s1.id mm ≠ 0 → ∀ c, s1.reserved c ≠ s1.id mm) : Renews s mm { s1 with
      map := update s1.map a true
      curIdx := k
      id := update s1.id mm (s1.generation + a) } := by
  refine ⟨h1.mark hk hk' ha ha' hfree hmm, ?_, fun m hm => ?_, fun hcur => absurd hcur hold,
    fun c m hm => ?_, hcarries⟩
  · dsimp only
    rw [update_self]
    exact (h1.current_add ha').1
  · dsimp only
    rw [update_of_ne hm, hid]
  have hm1 := hholds c m hm
  have hne : m ≠ mm := by
    rintro rfl
    exact hmm hm1.1 c (hm1.claims hold1)
  unfold Holds
  dsimp only
  rw [update_of_ne hne]
  exact ⟨hm1, by rw [hid]⟩

/-- `new_context` of `mm` begins a new generation. -/
def Rolls (s : State γ μ) (mm : μ) : Prop :=
  ¬s.Current (s.id mm) ∧
    (s.id mm ≠ 0 → (∀ c, s.reserved c ≠ s.id mm) ∧ s.map (s.id mm % numUserAsids) = true) ∧
    findNextZeroBit s.map s.curIdx = numUserAsids

theorem Good.allocate (h : s.Good) (hcard : Fintype.card γ < numUserAsids - 1)
    (hold : ¬s.Current (s.id mm)) (hmm : s.id mm ≠ 0 → ∀ c, s.reserved c ≠ s.id mm)
    (hroll : findNextZeroBit s.map s.curIdx = numUserAsids → s.Fits ∧ s.Fresh) :
    Renews s mm { s.allocate.1 with id := update s.allocate.1.id mm s.allocate.2 } := by
  unfold State.allocate
  dsimp only
  split
  case isTrue hfull =>
    obtain ⟨hfits, hfresh⟩ := hroll hfull
    obtain ⟨hpos, hlt, hfree⟩ := findNextZeroBit_rollover (s := s) hcard
    have hgen := rollover_generation hfits
    have hgood := h.rollover hfits hfresh
    have hnone : s.rollover.id mm ≠ 0 → ∀ c, s.rollover.reserved c ≠ s.rollover.id mm := by
      intro hid c
      show s.kept c ≠ s.id mm
      rw [kept]
      split
      · exact hmm hid c
      case isFalse hactive =>
        intro heq
        exact hold (heq ▸ (hfresh c hactive).1)
    have hcarries : s.Carries s.rollover := by
      refine .inr ⟨?_, fun _ => rfl, fun _ => rfl⟩
      rw [hgen, numUserAsids_eq]
      omega
    have hid : s.rollover.id = s.id := rfl
    rw [take, or_generation hlt hgood.generation_mod]
    exact Renews.mark hgood hid hcarries (fun c m hm => hm.rollover) hold
      (h.not_current_rollover hfits mm) hpos hlt hpos hlt hfree hnone
  case isFalse hfull =>
    have hnext := isNext_findNext (fun i => !s.map i) h.curIdx_lt.le
    have hlt : findNextZeroBit s.map s.curIdx < numUserAsids := lt_of_le_of_ne hnext.le hfull
    have hhit : (!s.map (findNextZeroBit s.map s.curIdx)) = true := hnext.hit hlt
    have hpos : 0 < findNextZeroBit s.map s.curIdx := h.curIdx_pos.trans_le hnext.ge
    rw [take, or_generation hlt h.generation_mod]
    exact Renews.mark h rfl (.inl ⟨rfl, rfl, rfl⟩) (fun c m hm => hm) hold hold hpos hlt hpos hlt
      (by simpa using hhit) hmm

omit [Fintype γ] in
theorem Good.renews_updateReserved (h : s.Good) (hold : ¬s.Current (s.id mm)) (hmm : s.id mm ≠ 0)
    (hc0 : s.reserved c₀ = s.id mm) :
    Renews s mm { s.updateReserved (s.id mm) (s.generation + s.id mm % numUserAsids) with
      id := update s.id mm (s.generation + s.id mm % numUserAsids) } := by
  obtain ⟨hcur, hlow⟩ := h.current_add (Nat.mod_lt (s.id mm) (Nat.two_pow_pos _))
  have hpos := h.generation_pos
  refine ⟨h.updateReserved hmm hc0, ?_, fun m hm => update_of_ne hm .., fun hcur => absurd hcur hold,
    fun c m hm => ?_, .inl ⟨rfl, rfl, rfl⟩⟩
  · dsimp only
    rw [update_self]
    exact hcur
  unfold Holds
  simp only [State.updateReserved]
  by_cases hne : m = mm
  · subst hne
    have hr := hm.claims hold
    have hactive : s.active c = 0 := (hm.2.resolve_left fun hc => hold hc.2).1
    rw [update_self, if_pos hr, hlow]
    exact ⟨⟨by omega, .inr ⟨hactive, rfl⟩⟩, rfl⟩
  rw [update_of_ne hne]
  refine ⟨⟨hm.1, hm.2.imp (fun hc => hc) fun ⟨hc, hr⟩ => ⟨hc, ?_⟩⟩, rfl⟩
  rw [if_neg, hr]
  rw [hr]
  exact fun heq => hne (h.inj m mm hm.1 heq)

/-- The identifier of `mm` is brought up to date. A new generation must fit in 64 bits, and no CPU may
    hold an identifier of an older generation then. -/
theorem Good.renew (h : s.Good) (hcard : Fintype.card γ < numUserAsids - 1)
    (hroll : s.Rolls mm → s.Fits ∧ s.Fresh) : Renews s mm (s.renew mm) := by
  unfold State.renew
  split
  case isTrue hcur =>
    exact ⟨h, isCurrent_iff.mp hcur, fun _ _ => rfl, fun _ => rfl, fun c m hm => ⟨hm, rfl⟩,
      .inl ⟨rfl, rfl, rfl⟩⟩
  case isFalse hcur =>
    have hold : ¬s.Current (s.id mm) := fun hc => hcur (isCurrent_iff.mpr hc)
    have hlow := Nat.mod_lt (s.id mm) (Nat.two_pow_pos asidBits)
    have hor : s.generation ||| s.id mm % numUserAsids = s.generation + s.id mm % numUserAsids := by
      rw [Nat.or_comm]
      exact or_generation hlow h.generation_mod
    by_cases hid : s.id mm = 0
    · have hnew : s.newContext mm = s.allocate := by simp [State.newContext, hid]
      rw [hnew]
      exact h.allocate hcard hold (fun hne => absurd hid hne) fun hfull =>
        hroll ⟨hold, fun hne => absurd hid hne, hfull⟩
    by_cases hres : ∃ c, s.reserved c = s.id mm
    · have hnew : s.newContext mm = (s.updateReserved (s.id mm) (s.generation + s.id mm % numUserAsids),
          s.generation + s.id mm % numUserAsids) := by
        simp [State.newContext, hid, hres, hor]
      rw [hnew]
      obtain ⟨c₀, hc0⟩ := hres
      exact h.renews_updateReserved hold hid hc0
    have hnone : ∀ c, s.reserved c ≠ s.id mm := fun c hc => hres ⟨c, hc⟩
    by_cases hbit : s.map (s.id mm % numUserAsids) = true
    · have hnew : s.newContext mm = s.allocate := by simp [State.newContext, hid, hres, hbit]
      rw [hnew]
      exact h.allocate hcard hold (fun _ => hnone) fun hfull =>
        hroll ⟨hold, fun _ => ⟨hnone, hbit⟩, hfull⟩
    have hnew : s.newContext mm = ({ s with map := update s.map (s.id mm % numUserAsids) true },
        s.generation + s.id mm % numUserAsids) := by
      simp [State.newContext, hid, hres, hbit, hor]
    rw [hnew]
    exact Renews.mark h rfl (.inl ⟨rfl, rfl, rfl⟩) (fun c m hm => hm) hold hold h.curIdx_pos h.curIdx_lt
      (h.ids mm hid).1 hlow (by simpa using hbit) fun _ => hnone

end State

end LinuxNote.Asid
