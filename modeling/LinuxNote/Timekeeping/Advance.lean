import LinuxNote.Timekeeping.Basic
import Mathlib.Tactic.Linarith
import Mathlib.Tactic.Ring

/-! Monotonic time across `timekeeping_advance`: however the seconds, the shifted nanoseconds, the cycles
    and the multiplier share it out, their sum at the reading just taken stays what it was. -/

namespace LinuxNote.Timekeeping.Timekeeper
open Word Int Timespec64 Config

/-! ### What the time is -/

/-- The part of monotonic time that is kept in seconds and in `wall_to_monotonic`. -/
def mono (tk : Timekeeper) : ℤ :=
  (tk.xtimeSec + tk.wallToMonotonic.sec) * nsecPerSec + tk.wallToMonotonic.nsec

/-- Monotonic time in shifted nanoseconds, `offset` cycles after `cycle_last`. -/
def shifted (tk : Timekeeper) (offset : ℤ) : ℤ :=
  tk.mono * 2 ^ tk.shift + tk.xtimeNsec + offset * tk.mult

/-- Monotonic time in shifted nanoseconds as readers see it, through `base`. -/
def now (tk : Timekeeper) (cycles : ℤ) : ℤ :=
  tk.base * 2 ^ tk.shift + tk.xtimeNsec + tk.delta cycles * tk.mult

/-- A clock of sensible size, whose two rates agree. -/
structure Rate (tk : Timekeeper) : Prop where
  shift_le : tk.shift ≤ 32
  bits_le : tk.bits ≤ 64
  interval_pos : 0 < tk.cycleInterval
  interval_lt : tk.cycleInterval < 2 ^ 64
  mult_nonneg : 0 ≤ tk.mult
  mult_lt : tk.mult < 2 ^ 32
  product_lt : tk.cycleInterval * tk.mult < 2 ^ 64
  interval_eq : tk.xtimeInterval = tk.cycleInterval * tk.mult

/-- The nanoseconds are those of a part of a second. -/
structure Sound (tk : Timekeeper) : Prop extends Rate tk where
  nsec_nonneg : 0 ≤ tk.xtimeNsec
  nsec_lt : tk.xtimeNsec < tk.nsecps

/-- `tk'` counts as `tk` does. -/
structure SameRate (tk tk' : Timekeeper) : Prop where
  bits : tk'.bits = tk.bits
  shift : tk'.shift = tk.shift
  mult : tk'.mult = tk.mult
  cycleInterval : tk'.cycleInterval = tk.cycleInterval
  xtimeInterval : tk'.xtimeInterval = tk.xtimeInterval

variable {a b c tk tk' : Timekeeper} {cycles offset interval x n : ℤ} {ntp : Ntp}

theorem SameRate.trans (h : a.SameRate b) (h' : b.SameRate c) : a.SameRate c :=
  ⟨h'.bits.trans h.bits, h'.shift.trans h.shift, h'.mult.trans h.mult,
    h'.cycleInterval.trans h.cycleInterval, h'.xtimeInterval.trans h.xtimeInterval⟩

theorem SameRate.rate (h : tk.SameRate tk') (hr : tk.Rate) : tk'.Rate := by
  obtain ⟨hb, hs, hm, hc, hx⟩ := h
  obtain ⟨h1, h2, h3, h4, h5, h6, h7, h8⟩ := hr
  constructor <;> simp only [hb, hs, hm, hc, hx] <;> assumption

theorem SameRate.nsecps (h : tk.SameRate tk') : tk'.nsecps = tk.nsecps := by
  simp only [Timekeeper.nsecps, h.shift]

theorem nsecps_pos (tk : Timekeeper) : 0 < tk.nsecps := by
  unfold nsecps nsecPerSec
  positivity

theorem nsecps_le (h : tk.shift ≤ 32) : tk.nsecps ≤ 1000000000 * 2 ^ 32 := by
  have hp : (2 : ℤ) ^ tk.shift ≤ 2 ^ 32 := pow_le_pow_right₀ (by norm_num) h
  unfold nsecps nsecPerSec
  linarith

theorem delta_nonneg (tk : Timekeeper) (cycles : ℤ) : 0 ≤ tk.delta cycles :=
    emod_nonneg _ (by positivity)

theorem Rate.delta_lt (h : tk.Rate) (cycles : ℤ) : tk.delta cycles < 2 ^ 64 :=
  calc tk.delta cycles < 2 ^ tk.bits := emod_lt_of_pos _ (by positivity)
    _ ≤ 2 ^ 64 := pow_le_pow_right₀ (by norm_num) h.bits_le

/-! ### Whole seconds -/

/-- `tk'` is `tk` with whole seconds carried from the nanoseconds. -/
structure Settled (tk tk' : Timekeeper) : Prop extends SameRate tk tk' where
  cycleLast : tk'.cycleLast = tk.cycleLast
  base : tk'.base = tk.base
  nsec_le : tk'.xtimeNsec ≤ tk.xtimeNsec
  sum : tk'.mono * 2 ^ tk.shift + tk'.xtimeNsec = tk.mono * 2 ^ tk.shift + tk.xtimeNsec

theorem Settled.refl (tk : Timekeeper) : tk.Settled tk :=
    ⟨⟨rfl, rfl, rfl, rfl, rfl⟩, rfl, rfl, le_rfl, rfl⟩

theorem Settled.trans (h : a.Settled b) (h' : b.Settled c) : a.Settled c where
  toSameRate := h.toSameRate.trans h'.toSameRate
  cycleLast := h'.cycleLast.trans h.cycleLast
  base := h'.base.trans h.base
  nsec_le := h'.nsec_le.trans h.nsec_le
  sum := by
    have := h'.sum
    rw [h.shift] at this
    exact this.trans h.sum

theorem Settled.shifted (h : tk.Settled tk') (offset : ℤ) : tk'.shifted offset = tk.shifted offset := by
  unfold Timekeeper.shifted
  rw [h.shift, h.mult, h.sum]

variable (ntp)

theorem accumulateSec_nsec (tk : Timekeeper) :
    (tk.accumulateSec ntp).xtimeNsec = tk.xtimeNsec - tk.nsecps := by
  unfold accumulateSec
  dsimp only
  split
  · rfl
  · split <;> rfl

theorem accumulateSec_mono (tk : Timekeeper) : (tk.accumulateSec ntp).mono = tk.mono + nsecPerSec := by
  have hsec : ∀ tk : Timekeeper, { tk with xtimeSec := tk.xtimeSec + 1 }.mono = tk.mono +
    nsecPerSec := by
    intro tk
    simp only [mono]
    ring
  unfold accumulateSec
  dsimp only
  split
  · exact hsec tk
  split
  · rw [← hsec tk]
    simp only [mono, setWallToMono, sub, setNormalized, nsecPerSec]
    omega
  · exact hsec tk

theorem accumulateSec_settled (tk : Timekeeper) : tk.Settled (tk.accumulateSec ntp) := by
  have hsum : (tk.accumulateSec ntp).mono * 2 ^ tk.shift + (tk.accumulateSec ntp).xtimeNsec =
      tk.mono * 2 ^ tk.shift + tk.xtimeNsec := by
    rw [accumulateSec_mono, accumulateSec_nsec, nsecps]
    ring
  have hle : (tk.accumulateSec ntp).xtimeNsec ≤ tk.xtimeNsec := by
    rw [accumulateSec_nsec]
    linarith [tk.nsecps_pos]
  refine ⟨⟨?_, ?_, ?_, ?_, ?_⟩, ?_, ?_, hle, hsum⟩ <;>
  · unfold accumulateSec
    dsimp only
    split
    · rfl
    · split <;> rfl

theorem accumulateSecs_settled : ∀ (rounds : ℕ) (tk : Timekeeper), 0 ≤ tk.xtimeNsec →
    tk.xtimeNsec < tk.nsecps * (rounds + 1) → tk.Settled (accumulateSecs ntp rounds tk) ∧
    0 ≤ (accumulateSecs ntp rounds tk).xtimeNsec ∧ (accumulateSecs ntp rounds tk).xtimeNsec <
      tk.nsecps := by
  intro rounds
  induction rounds with
  | zero =>
    intro tk h0 h
    refine ⟨.refl tk, h0, ?_⟩
    simpa [accumulateSecs] using h
  | succ rounds ih =>
    intro tk h0 h
    unfold accumulateSecs
    split
    case isTrue hle =>
      have hstep := accumulateSec_settled ntp tk
      have hnsec := accumulateSec_nsec ntp tk
      have hlt : (tk.accumulateSec ntp).xtimeNsec < (tk.accumulateSec ntp).nsecps * (rounds + 1) := by
        rw [hnsec, hstep.nsecps]
        push_cast at h
        linarith
      obtain ⟨hset, hge, hlt'⟩ := ih (tk.accumulateSec ntp) (by rw [hnsec]; linarith) hlt
      exact ⟨hstep.trans hset, hge, hlt'.trans_eq hstep.nsecps⟩
    case isFalse hlt =>
      exact ⟨.refl tk, h0, not_le.mp hlt⟩

theorem accumulateNsecsToSecs_settled (h0 : 0 ≤ tk.xtimeNsec) :
    tk.Settled (tk.accumulateNsecsToSecs ntp) ∧ 0 ≤ (tk.accumulateNsecsToSecs ntp).xtimeNsec ∧
      (tk.accumulateNsecsToSecs ntp).xtimeNsec < tk.nsecps := by
  apply accumulateSecs_settled ntp _ tk h0
  have hq : 0 ≤ tk.xtimeNsec / tk.nsecps := ediv_nonneg h0 tk.nsecps_pos.le
  rw [toNat_of_nonneg hq, mul_add, mul_one]
  exact lt_mul_ediv_self_add tk.nsecps_pos

/-! ### The accumulation -/

/-- `offset` of the cycles up to the reading `cycles` are left in `tk'`, the others have been carried. -/
structure Carries (cycles : ℤ) (tk : Timekeeper) (offset : ℤ) (tk' : Timekeeper) (offset' : ℤ) : Prop
    extends SameRate tk tk' where
  sound : tk'.Sound
  base : tk'.base = tk.base
  delta : tk'.delta cycles = offset'
  shifted : tk'.shifted offset' = tk.shifted offset
  product_le : offset' * tk'.mult + tk'.xtimeNsec ≤ offset * tk.mult + tk.xtimeNsec

theorem Carries.refl (hs : tk.Sound) (hd : tk.delta cycles = offset) :
    Carries cycles tk offset tk offset :=
  ⟨⟨rfl, rfl, rfl, rfl, rfl⟩, hs, rfl, hd, rfl, le_rfl⟩

theorem Sound.carries (hs : tk.Sound) (h0 : 0 ≤ interval) (h : interval ≤ tk.delta cycles)
    (hset : { tk with
      cycleLast := u64 (tk.cycleLast + interval)
      xtimeNsec := tk.xtimeNsec + interval * tk.mult }.Settled tk')
    (hn0 : 0 ≤ tk'.xtimeNsec) (hn : tk'.xtimeNsec < tk.nsecps) :
    Carries cycles tk (tk.delta cycles) tk' (tk.delta cycles - interval) := by
  have hsame : tk.SameRate tk' := { hset with }
  refine ⟨hsame, ⟨hsame.rate hs.toRate, hn0, hn.trans_eq hsame.nsecps.symm⟩, hset.base, ?_, ?_, ?_⟩
  · -- cycles that cycle_last takes over are no longer between it and the reading
    have hlt : tk.delta cycles < 2 ^ tk.bits := emod_lt_of_pos _ (by positivity)
    rw [← emod_eq_of_lt (by linarith : 0 ≤ tk.delta cycles - interval) (by linarith), Timekeeper.delta,
      hset.cycleLast, hsame.bits]
    unfold u64 delta
    rw [sub_emod, emod_emod_of_dvd _ (pow_dvd_pow 2 hs.bits_le), ← sub_emod, emod_sub_emod]
    congr 1
    ring
  · rw [hset.shifted]
    simp only [Timekeeper.shifted, mono]
    ring
  · rw [hsame.mult]
    linarith [hset.nsec_le]

theorem logarithmicAccumulation_carries (hs : tk.Sound) {shift : ℤ}
    (hfit : tk.Fresh cycles) (hshift : 0 ≤ shift) (hint : tk.cycleInterval * 2 ^ shift.toNat < 2 ^ 64) :
    ∃ tk' offset, tk.logarithmicAccumulation ntp (tk.delta cycles) shift = .ok (tk', offset) ∧
      Carries cycles tk (tk.delta cycles) tk' offset ∧
      offset = if tk.delta cycles < tk.cycleInterval * 2 ^ shift.toNat then tk.delta cycles
        else tk.delta cycles - tk.cycleInterval * 2 ^ shift.toNat := by
  have hipos : 0 < tk.cycleInterval * 2 ^ shift.toNat := mul_pos hs.interval_pos (by positivity)
  have hx : tk.xtimeInterval * 2 ^ shift.toNat = tk.cycleInterval * 2 ^ shift.toNat * tk.mult := by
    rw [hs.interval_eq]
    ring
  unfold logarithmicAccumulation
  rw [if_neg (not_lt.mpr hshift)]
  dsimp only
  rw [hx]
  generalize tk.cycleInterval * 2 ^ shift.toNat = interval at *
  rw [u64_eq hipos.le hint]
  split
  case isTrue hlt => exact ⟨_, _, rfl, .refl hs rfl, rfl⟩
  case isFalse hge =>
    rw [not_lt] at hge
    -- the nanoseconds of the interval are some of those that fit
    have hx0 : 0 ≤ interval * tk.mult := mul_nonneg hipos.le hs.mult_nonneg
    have hxle : interval * tk.mult ≤ tk.delta cycles * tk.mult :=
      mul_le_mul_of_nonneg_right hge hs.mult_nonneg
    have hn0 := hs.nsec_nonneg
    have hun : u64 (tk.xtimeNsec + interval * tk.mult) = tk.xtimeNsec + interval * tk.mult :=
      u64_eq (by linarith) (by linarith)
    rw [u64_eq hx0 (by linarith), hun]
    have hmid : 0 ≤ { tk with
        cycleLast := u64 (tk.cycleLast + interval)
        xtimeNsec := tk.xtimeNsec + interval * tk.mult }.xtimeNsec := add_nonneg hn0 hx0
    obtain ⟨hset, hge0, hlt0⟩ := accumulateNsecsToSecs_settled ntp hmid
    exact ⟨_, _, rfl, hs.carries hipos.le hge { hset with } hge0 hlt0, rfl⟩

theorem accumulate_carries (cycles : ℤ) : ∀ (rounds : ℕ) (shift : ℤ) (tk : Timekeeper), tk.Sound →
    tk.delta cycles * tk.mult + tk.xtimeNsec < 2 ^ 64 → tk.cycleInterval * 2 ^ shift.toNat < 2 ^ 64 →
    -1 ≤ shift → (0 ≤ shift ∨ tk.delta cycles < tk.cycleInterval) →
    tk.delta cycles + shift + 1 < rounds → ∃ tk' offset,
    accumulate ntp rounds shift tk (tk.delta cycles) = .ok (tk', offset) ∧
    Carries cycles tk (tk.delta cycles) tk' offset ∧ offset < tk.cycleInterval := by
  intro rounds
  induction rounds with
  | zero =>
    intro shift tk _ _ _ h1 _ hr
    have := tk.delta_nonneg cycles
    omega
  | succ rounds ih =>
    intro shift tk hs hfit hint h1 hor hr
    unfold accumulate
    split
    case isFalse hlt => exact ⟨tk, _, rfl, .refl hs rfl, not_le.mp hlt⟩
    case isTrue hle =>
      have hshift : 0 ≤ shift := hor.resolve_right (not_lt.mpr hle)
      have hipos : 0 < tk.cycleInterval * 2 ^ shift.toNat := mul_pos hs.interval_pos (by positivity)
      obtain ⟨tk1, offset1, hok, hcar, hoff⟩ := logarithmicAccumulation_carries ntp hs hfit hshift hint
      rw [hok]
      dsimp only
      rw [hcar.cycleInterval, u64_eq hipos.le hint, ← hcar.delta]
      rw [← hcar.delta] at hoff hcar
      have hfit1 : tk1.delta cycles * tk1.mult + tk1.xtimeNsec < 2 ^ 64 := hcar.product_le.trans_lt hfit
      generalize hs1 :
        (if tk1.delta cycles < tk.cycleInterval * 2 ^ shift.toNat then shift - 1 else shift) = shift1
      have hle1 : shift - 1 ≤ shift1 ∧ shift1 ≤ shift := by
        rw [← hs1]
        split <;> omega
      have hint1 : tk.cycleInterval * 2 ^ shift1.toNat < 2 ^ 64 := by
        refine lt_of_le_of_lt (mul_le_mul_of_nonneg_left ?_ hs.interval_pos.le) hint
        exact pow_le_pow_right₀ (by norm_num) (by omega)
      have hor1 : 0 ≤ shift1 ∨ tk1.delta cycles < tk.cycleInterval := by
        by_cases h0 : 0 ≤ shift1
        · exact .inl h0
        -- the shift was 0, and went down as less than one interval is left
        right
        have hzero : shift = 0 := by omega
        subst hzero
        by_contra hge
        rw [if_neg (by simpa using hge)] at hs1
        omega
      have hr1 : tk1.delta cycles + shift1 + 1 < rounds := by
        split at hoff <;> omega
      obtain ⟨tk', offset, hok', hcar', hlt⟩ :=
        ih shift1 tk1 hcar.sound hfit1 (by rw [hcar.cycleInterval]; exact hint1) (by omega)
          (by rw [hcar.cycleInterval]; exact hor1) hr1
      exact ⟨tk', offset, hok',
        ⟨hcar.toSameRate.trans hcar'.toSameRate, hcar'.sound, hcar'.base.trans hcar.base, hcar'.delta,
          hcar'.shifted.trans hcar.shifted, hcar'.product_le.trans hcar.product_le⟩,
          hlt.trans_eq hcar.cycleInterval⟩

variable {ntp}

/-! ### The first shift -/

theorem ilog2_le {n : ℕ} (h : x < 2 ^ (n + 1)) : ilog2 x ≤ n := by
  unfold ilog2
  split
  · omega
  have hlt : x.toNat < 2 ^ (n + 1) := (toNat_lt' (by positivity)).mpr (by exact_mod_cast h)
  by_cases h0 : x.toNat = 0
  · simp [h0]
  · exact_mod_cast Nat.lt_succ_iff.mp ((Nat.log2_lt h0).mpr hlt)

/-- A number lies between the power of two that `ilog2` names and the next one. -/
theorem ilog2_spec (h : 0 < x) : x < 2 ^ ((ilog2 x).toNat + 1) ∧ 0 ≤ ilog2 x := by
  have hx : (x.toNat : ℤ) = x := toNat_of_nonneg h.le
  have hlog : ilog2 x = x.toNat.log2 := by simp [ilog2, h.ne']
  rw [hlog, toNat_natCast]
  refine ⟨?_, natCast_nonneg _⟩
  have := Nat.lt_log2_self (n := x.toNat)
  rw [← hx]
  exact_mod_cast this

/-- The first interval is not cut by its type. -/
theorem firstShift_interval (ntp : Ntp) (hs : tk.Sound) (h : offset < 2 ^ 64) :
    tk.cycleInterval * 2 ^ (tk.firstShift ntp offset).toNat < 2 ^ 64 := by
  obtain ⟨hlt, hlog⟩ := ilog2_spec hs.interval_pos
  have hoff := ilog2_le (n := 63) h
  generalize hshift : (tk.firstShift ntp offset).toNat = shift
  by_cases h0 : shift = 0
  · rw [h0, pow_zero, mul_one]
    exact hs.interval_lt
  have hle : (ilog2 tk.cycleInterval).toNat + 1 + shift ≤ 64 := by
    unfold firstShift at hshift
    omega
  calc tk.cycleInterval * 2 ^ shift < 2 ^ ((ilog2 tk.cycleInterval).toNat + 1) * 2 ^ shift :=
        mul_lt_mul_of_pos_right hlt (by positivity)
    _ = 2 ^ ((ilog2 tk.cycleInterval).toNat + 1 + shift) := (pow_add _ _ _).symm
    _ ≤ 2 ^ 64 := pow_le_pow_right₀ (by norm_num) hle

/-! ### The multiplier -/

/-- A change of the multiplier moves both rates and takes from the nanoseconds what the cycles left over
    gain; a fall by more than half the range is refused. -/
theorem applyAdjustment_eq (hr : tk.Rate) {mult : ℤ} (hm : 0 ≤ mult ∧ mult < 2 ^ 32)
    (hchange : mult - tk.mult < 2 ^ 31) (hprod : tk.cycleInterval * mult < 2 ^ 64) (offset : ℤ) :
    tk.applyAdjustment offset (s32 (mult - tk.mult)) = tk ∨
    tk.applyAdjustment offset (s32 (mult - tk.mult)) = { tk with
        mult
        xtimeInterval := tk.cycleInterval * mult
        xtimeNsec := u64 (tk.xtimeNsec - offset * (mult - tk.mult)) } := by
  have hm32 := hr.mult_lt
  unfold applyAdjustment
  by_cases hlow : -2 ^ 31 ≤ mult - tk.mult
  · rw [s32_eq hlow hchange]
    have hmult : u32 (tk.mult + (mult - tk.mult)) = mult := by
      rw [add_sub_cancel]
      exact u32_eq hm.1 hm.2
    have hinterval : u64 (tk.xtimeInterval + tk.cycleInterval * (mult - tk.mult)) =
      tk.cycleInterval * mult := by
      rw [hr.interval_eq, ← mul_add, add_sub_cancel]
      exact u64_eq (mul_nonneg hr.interval_pos.le hm.1) hprod
    rw [hmult, hinterval]
    split
    · exact .inl rfl
    split
    · exact .inl rfl
    · exact .inr rfl
  -- the difference wraps to a positive number that the sum falls short of
  left
  have hs : s32 (mult - tk.mult) = mult - tk.mult + 2 ^ 32 := by
    unfold s32
    rw [bmod_def]
    split <;> omega
  have hu : u32 (tk.mult + (mult - tk.mult + 2 ^ 32)) = mult := by
    unfold u32
    omega
  rw [hs, hu, if_neg (by omega), if_pos (by omega)]

theorem borrowSecond_spec (hr : tk.Rate) (hn : tk.xtimeNsec = u64 n) (hlo : -tk.nsecps ≤ n)
    (hhi : n < 2 * tk.nsecps) : tk.SameRate tk.borrowSecond ∧ tk.borrowSecond.cycleLast = tk.cycleLast ∧
    0 ≤ tk.borrowSecond.xtimeNsec ∧ tk.borrowSecond.mono * 2 ^ tk.shift + tk.borrowSecond.xtimeNsec =
      tk.mono * 2 ^ tk.shift + n := by
  have hps := nsecps_le hr.shift_le
  have hsign : s64 (u64 n) = n := by
    unfold s64 u64
    rw [bmod_def]
    split <;> omega
  unfold borrowSecond
  rw [hn, hsign]
  split
  case isTrue hneg =>
    have hnsec : u64 (u64 n + tk.nsecps) = n + tk.nsecps := by
      unfold u64
      omega
    refine ⟨⟨rfl, rfl, rfl, rfl, rfl⟩, rfl, ?_, ?_⟩
    · show 0 ≤ u64 (u64 n + tk.nsecps)
      omega
    show _ + u64 (u64 n + tk.nsecps) = _
    rw [hnsec]
    simp only [mono, nsecps]
    ring
  case isFalse hge =>
    have hnsec : tk.xtimeNsec = n := by rw [hn]; exact u64_eq (by omega) (by omega)
    refine ⟨⟨rfl, rfl, rfl, rfl, rfl⟩, rfl, by omega, by rw [hnsec]⟩

/-- What `timekeeping_adjust` keeps. -/
structure Adjusts (offset : ℤ) (tk tk' : Timekeeper) : Prop where
  rate : tk'.Rate
  bits : tk'.bits = tk.bits
  cycleInterval : tk'.cycleInterval = tk.cycleInterval
  cycleLast : tk'.cycleLast = tk.cycleLast
  shift : tk'.shift = tk.shift
  nsec_nonneg : 0 ≤ tk'.xtimeNsec
  shifted : tk'.shifted offset = tk.shifted offset

theorem Rate.adjusts {tk1 : Timekeeper} (hr : tk1.Rate) (hbits : tk1.bits = tk.bits)
    (hint : tk1.cycleInterval = tk.cycleInterval) (hlast : tk1.cycleLast = tk.cycleLast)
    (hshift : tk1.shift = tk.shift) (hmono : tk1.mono = tk.mono) (hn : tk1.xtimeNsec = u64 n)
    (hlo : -tk.nsecps ≤ n) (hhi : n < 2 * tk.nsecps)
    (hsum : n + offset * tk1.mult = tk.xtimeNsec + offset * tk.mult) :
    Adjusts offset tk tk1.borrowSecond := by
  have hps : tk1.nsecps = tk.nsecps := by simp only [nsecps, hshift]
  obtain ⟨hsame, hlast', hn0, heq⟩ := borrowSecond_spec hr hn (by rwa [hps]) (by rwa [hps])
  refine ⟨hsame.rate hr, hsame.bits.trans hbits, hsame.cycleInterval.trans hint, hlast'.trans hlast,
    hsame.shift.trans hshift, hn0, ?_⟩
  unfold shifted
  rw [hsame.shift, hsame.mult, heq, hmono, hshift]
  linarith

theorem adjust_adjusts (ntp : Ntp) (hs : tk.Sound)
    (hchange : tk.newMult ntp - tk.mult < 2 ^ 31) (hprod : tk.cycleInterval * tk.newMult ntp < 2 ^ 64)
    (hcost : |offset * (tk.newMult ntp - tk.mult)| < tk.nsecps) :
    Adjusts offset tk (tk.adjust ntp offset) := by
  obtain ⟨hr, hn0, hnlt⟩ := hs
  have hps := nsecps_le hr.shift_le
  have hm : 0 ≤ tk.newMult ntp ∧ tk.newMult ntp < 2 ^ 32 :=
    ⟨emod_nonneg _ (by norm_num), emod_lt_of_pos _ (by norm_num)⟩
  obtain ⟨hclo, hchi⟩ := abs_lt.mp hcost
  have hsame : tk.SameRate
      { tk with ntpTick := ntp.tickLength, ntpErrMult := if 0 < tk.ntpError then 1 else 0 } :=
    ⟨rfl, rfl, rfl, rfl, rfl⟩
  have hr0 := hsame.rate hr
  unfold adjust
  dsimp only
  rcases applyAdjustment_eq hr0 hm hchange hprod offset with heq | heq
  · rw [heq]
    exact hr0.adjusts rfl rfl rfl rfl rfl (u64_eq hn0 (by omega)).symm (by omega) (by omega) rfl
  rw [heq]
  dsimp only
  refine Rate.adjusts ⟨hr.shift_le, hr.bits_le, hr.interval_pos, hr.interval_lt, hm.1, hm.2, hprod, rfl⟩
    rfl rfl rfl rfl rfl rfl (by omega) (by omega) ?_
  ring

/-! ### A whole update -/

/-- The 64-bit products of an update do not overflow, and what its change of the multiplier costs is less
    than a second. -/
structure Fits (ntp : Ntp) (cycles : ℤ) (tk : Timekeeper) : Prop where
  delta_lt : tk.delta cycles * tk.mult + tk.xtimeNsec < 2 ^ 64
  interval_lt : ∀ tk' offset, tk.accumulated ntp cycles = .ok (tk', offset) →
    tk'.cycleInterval * tk'.newMult ntp < 2 ^ 64
  cost_lt : ∀ tk' offset, tk.accumulated ntp cycles = .ok (tk', offset) →
    |offset * (tk'.newMult ntp - tk'.mult)| < tk'.nsecps

/-- Tick lengths that leave a bit for the shift, and do not raise the multiplier by more than `mult_adj`
    can hold. -/
structure Mild (ntp : Ntp) (cycles : ℤ) (tk : Timekeeper) : Prop where
  tick_lt : ntp.tickLengthBefore < 2 ^ 63
  change_lt : ∀ tk' offset, tk.accumulated ntp cycles = .ok (tk', offset) →
    tk'.newMult ntp - tk'.mult < 2 ^ 31

theorem Fits.of_ok (hok : tk.accumulated ntp cycles = .ok (tk', offset)) (hdelta : tk.Fresh cycles)
    (hint : tk'.cycleInterval * tk'.newMult ntp < 2 ^ 64)
    (hcost : |offset * (tk'.newMult ntp - tk'.mult)| < tk'.nsecps) : tk.Fits ntp cycles := by
  have heq : ∀ tk1 offset1, tk.accumulated ntp cycles = .ok (tk1, offset1) → tk1 = tk' ∧
    offset1 = offset := by
    intro tk1 offset1 h
    simpa [hok, eq_comm] using h
  refine ⟨hdelta, fun tk1 offset1 h => ?_, fun tk1 offset1 h => ?_⟩
  · obtain ⟨rfl, rfl⟩ := heq tk1 offset1 h
    exact hint
  obtain ⟨rfl, rfl⟩ := heq tk1 offset1 h
  exact hcost

/-- A timekeeper as readers see it. -/
structure Shown (tk : Timekeeper) : Prop extends Sound tk where
  base_eq : tk.base = tk.mono

theorem Shown.now_eq (h : tk.Shown) (cycles : ℤ) : tk.now cycles = tk.shifted (tk.delta cycles) := by
  unfold now shifted
  rw [h.base_eq]

theorem Sound.updateKtimeData (h : tk.Sound) : tk.updateKtimeData.Shown :=
  ⟨⟨(show tk.SameRate tk.updateKtimeData from ⟨rfl, rfl, rfl, rfl, rfl⟩).rate h.toRate, h.nsec_nonneg,
    h.nsec_lt⟩, rfl⟩

theorem Shown.now_le (h : tk.Shown) {seen : ℤ} (hon : tk.delta seen ≤ tk.delta cycles) :
    tk.now seen ≤ tk.now cycles := by
  have := mul_le_mul_of_nonneg_right hon h.mult_nonneg
  unfold now
  linarith

/-- Whole nanoseconds `b` and the cycles since the last update. -/
theorem add_cyclesToNs (hmult : 0 ≤ tk.mult) (hnsec : 0 ≤ tk.xtimeNsec) (hfit : tk.Fresh cycles)
    (b : ℤ) : b + tk.cyclesToNs cycles = (b * 2 ^ tk.shift + tk.xtimeNsec + tk.delta cycles * tk.mult) /
    2 ^ tk.shift := by
  have h0 : 0 ≤ tk.delta cycles * tk.mult := mul_nonneg (tk.delta_nonneg cycles) hmult
  rw [cyclesToNs, u64_eq (by linarith) hfit, add_assoc, add_comm (b * _),
    add_mul_ediv_right _ _ (by positivity), add_comm tk.xtimeNsec, add_comm]

/-- `ktime_get` is the time in whole nanoseconds. -/
theorem Shown.ktimeGet_eq (h : tk.Shown) (hfit : tk.Fresh cycles) :
    tk.ktimeGet cycles = tk.now cycles / 2 ^ tk.shift :=
  add_cyclesToNs h.mult_nonneg h.nsec_nonneg hfit _

/-- An update ends, leaves less than an interval, and does not change the time at its reading. -/
theorem Shown.advance (h : tk.Shown) (hfit : tk.Fits ntp cycles)
    (hmild : tk.Mild ntp cycles) (mode : Mode) :
    ∃ tk', tk.advance ntp mode cycles = .ok tk' ∧ tk'.Shown ∧ tk'.delta cycles < tk'.cycleInterval ∧
      tk'.shift = tk.shift ∧ tk'.now cycles = tk.now cycles := by
  unfold Timekeeper.advance
  split
  case isTrue hskip => exact ⟨tk, rfl, h, hskip.1, rfl, rfl⟩
  case isFalse _ =>
    have hs := h.toSound
    have hdelta := hs.toRate.delta_lt cycles
    obtain ⟨h0, h63⟩ : 0 ≤ tk.firstShift ntp (tk.delta cycles) ∧
      tk.firstShift ntp (tk.delta cycles) ≤ 63 := by
      have := ilog2_le (n := 62) hmild.tick_lt
      have := ilog2_le (n := 63) hdelta
      have := (ilog2_spec hs.interval_pos).2
      unfold firstShift
      omega
    obtain ⟨tk1, offset, hok, hcar, hlt⟩ :=
      accumulate_carries ntp cycles ((tk.delta cycles).toNat + 65) _ tk hs hfit.delta_lt
        (firstShift_interval ntp hs hdelta) (by omega) (.inl h0) (by omega)
    have hadj := adjust_adjusts ntp hcar.sound (hmild.change_lt _ _ hok) (hfit.interval_lt _ _ hok)
      (hfit.cost_lt _ _ hok)
    obtain ⟨hset, hge0, hlt0⟩ := accumulateNsecsToSecs_settled ntp hadj.nsec_nonneg
    rw [accumulated, hok]
    dsimp only
    generalize (tk1.adjust ntp offset).accumulateNsecsToSecs ntp = tk2 at hset hge0 hlt0
    have hsound : tk2.Sound := ⟨hset.toSameRate.rate hadj.rate, hge0, hlt0.trans_eq hset.nsecps.symm⟩
    have hshown := hsound.updateKtimeData
    have hdelta : tk2.updateKtimeData.delta cycles = offset := by
      rw [← hcar.delta]
      show (cycles - tk2.cycleLast) % 2 ^ tk2.bits = (cycles - tk1.cycleLast) % 2 ^ tk1.bits
      rw [hset.cycleLast, hadj.cycleLast, hset.bits, hadj.bits]
    refine ⟨_, rfl, hshown, ?_, hset.shift.trans (hadj.shift.trans hcar.shift), ?_⟩
    · rw [hdelta]
      exact hlt.trans_eq (hset.cycleInterval.trans (hadj.cycleInterval.trans hcar.cycleInterval)).symm
    rw [hshown.now_eq, hdelta, h.now_eq]
    exact (hset.shifted offset).trans (hadj.shifted.trans hcar.shifted)

/-! ### Runs -/

section

variable [Config]

/-- The nanoseconds a clock source is set up with are less than a second, in the units of the clock
    before it. -/
structure Ready (tk : Timekeeper) (clock : Clocksource) (changed : Bool) : Prop where
  nsec_nonneg : 0 ≤ tk.xtimeNsec
  nsec_lt : tk.xtimeNsec < nsecPerSec * 2 ^ (if changed then tk.shift else clock.shift)

variable {tk : Timekeeper} {clock : Clocksource} {changed : Bool}

/-- The nanoseconds stay below a second when they are converted to another shift. -/
theorem setupInternals_nsec (h : tk.Ready clock changed)
    (cycles : ℤ) : 0 ≤ (tk.setupInternals clock cycles changed).xtimeNsec ∧
      (tk.setupInternals clock cycles changed).xtimeNsec < nsecPerSec * 2 ^ clock.shift := by
  obtain ⟨h0, hlt⟩ := h
  rcases changed with _ | _
  · exact ⟨h0, hlt⟩
  simp only [setupInternals, if_true]
  split
  case isTrue hs =>
    refine ⟨Int.ediv_nonneg h0 (by positivity), Int.ediv_lt_of_lt_mul (by positivity) ?_⟩
    rwa [mul_assoc, ← pow_add, Nat.add_sub_cancel' hs.le]
  case isFalse hs =>
    have hprod : tk.xtimeNsec * 2 ^ (clock.shift - tk.shift) < nsecPerSec * 2 ^ clock.shift := by
      rw [← Nat.add_sub_cancel' (not_lt.mp hs), pow_add, ← mul_assoc, Nat.add_sub_cancel_left]
      exact mul_lt_mul_of_pos_right hlt (by positivity)
    have hpow : (2 : ℤ) ^ clock.shift ≤ 2 ^ 32 := pow_le_pow_right₀ (by norm_num) clock.shift_le
    have hge : 0 ≤ tk.xtimeNsec * 2 ^ (clock.shift - tk.shift) := mul_nonneg h0 (by positivity)
    unfold nsecPerSec at *
    rw [u64_eq hge (by omega)]
    exact ⟨hge, hprod⟩

theorem setupInternals_rate (tk : Timekeeper) (clock : Clocksource) (cycles : ℤ) (changed : Bool) :
    (tk.setupInternals clock cycles changed).Rate := by
  have hm := clock.mult_pos
  have hmlt := clock.mult_lt
  have hipos := interval_pos
  have hile := interval_le
  have hpow : (2 : ℤ) ^ clock.shift ≤ 2 ^ 32 := pow_le_pow_right₀ (by norm_num) clock.shift_le
  obtain ⟨len, hlen⟩ : ∃ len, ntpIntervalLength * 2 ^ clock.shift = len := ⟨_, rfl⟩
  have hn0 : 0 < len := by
    rw [← hlen]
    positivity
  have hnle : len ≤ 1000000000 * 2 ^ 32 := by
    rw [← hlen]
    exact mul_le_mul hile hpow (by positivity) (by norm_num)
  -- the interval in cycles, and what it is again in shifted nanoseconds
  obtain ⟨tmp, htmp⟩ : ∃ tmp, (len + clock.mult / 2) / clock.mult = tmp := ⟨_, rfl⟩
  have htmp' : u64 (u64 (ntpIntervalLength * 2 ^ clock.shift) + clock.mult / 2) / clock.mult = tmp := by
    rw [hlen, ← htmp, u64_eq hn0.le (by omega), u64_eq (by omega) (by omega)]
  have ht0 : 0 ≤ tmp := by
    rw [← htmp]
    exact ediv_nonneg (by omega) hm.le
  have htle : tmp * clock.mult ≤ len + clock.mult / 2 := by
    rw [← htmp]
    exact Int.ediv_mul_le _ hm.ne'
  obtain ⟨interval, hint⟩ : ∃ interval, (if tmp = 0 then 1 else tmp) = interval := ⟨_, rfl⟩
  have hi0 : 0 < interval := by
    rw [← hint]
    split <;> omega
  have hprod : interval * clock.mult < 2 ^ 64 := by
    rw [← hint]
    split <;> omega
  have hilt : interval < 2 ^ 64 := lt_of_le_of_lt (le_mul_of_one_le_right hi0.le hm) hprod
  have hcyc : (tk.setupInternals clock cycles changed).cycleInterval = interval := by
    simp only [setupInternals, htmp', hint]
  have hx : (tk.setupInternals clock cycles changed).xtimeInterval = interval * clock.mult := by
    simp only [setupInternals, htmp', hint]
    exact u64_eq (mul_nonneg hi0.le hm.le) hprod
  exact ⟨clock.shift_le, clock.bits_le, by rwa [hcyc], by rwa [hcyc], hm.le, hmlt,
    by rw [hcyc]; exact hprod, by rw [hx, hcyc]; rfl⟩

theorem setupInternals_shown (h : tk.Ready clock changed)
    (cycles : ℤ) : (tk.setupInternals clock cycles changed).updateKtimeData.Shown := by
  obtain ⟨h0, hlt⟩ := setupInternals_nsec h cycles
  have hsound : (tk.setupInternals clock cycles changed).Sound :=
    ⟨setupInternals_rate tk clock cycles changed, h0, hlt⟩
  exact hsound.updateKtimeData

/-- The timekeepers that updates lead to. -/
inductive Reaches : Timekeeper → Prop
  | setup {tk : Timekeeper} {clock : Clocksource} {changed : Bool} (h : tk.Ready clock changed)
  (cycles : ℤ) : Reaches (tk.setupInternals clock cycles changed).updateKtimeData
  | advance {tk tk' : Timekeeper} {ntp : Ntp} {cycles : ℤ} (h : Reaches tk) (hfit : tk.Fits ntp cycles)
    (hmild : tk.Mild ntp cycles) (mode : Mode) (hok : tk.advance ntp mode cycles = .ok tk') : Reaches tk'

theorem Reaches.shown (h : Reaches tk) : tk.Shown := by
  induction h with
  | setup h cycles => exact setupInternals_shown h cycles
  | advance _ hfit hmild mode hok ih =>
    obtain ⟨tk', hok', hshown, -⟩ := ih.advance hfit hmild mode
    obtain rfl : tk' = _ := by simpa [hok'] using hok
    exact hshown

/-- Updates and calls of `ktime_get` while the counter moves on; `seen` was read last, and the list holds
    what `ktime_get` answered, the last answer first. -/
inductive Observed : Timekeeper → ℤ → List ℤ → Prop
  | setup {tk : Timekeeper} {clock : Clocksource} {changed : Bool} (h : tk.Ready clock changed)
  (cycles : ℤ) : Observed (tk.setupInternals clock cycles changed).updateKtimeData cycles []
  | advance {tk tk' : Timekeeper} {ntp : Ntp} {seen cycles : ℤ} {times : List ℤ}
      (h : Observed tk seen times)
    (hon : tk.delta seen ≤ tk.delta cycles) (hfit : tk.Fits ntp cycles) (hmild : tk.Mild ntp cycles)
      (mode : Mode)
    (hok : tk.advance ntp mode cycles = .ok tk') : Observed tk' cycles times
  | ktimeGet {tk : Timekeeper} {seen cycles : ℤ} {times : List ℤ} (h : Observed tk seen times)
    (hon : tk.delta seen ≤ tk.delta cycles) (hfit : tk.delta cycles * tk.mult + tk.xtimeNsec < 2 ^ 64) :
    Observed tk cycles (tk.ktimeGet cycles :: times)

theorem Observed.inv {seen : ℤ} {times : List ℤ} (h : Observed tk seen times) :
    tk.Shown ∧ (∀ t ∈ times, t ≤ tk.now seen / 2 ^ tk.shift) ∧ times.Pairwise (· ≥ ·) := by
  have hmono : ∀ {tk : Timekeeper} {a b : ℤ}, a ≤ b → a / 2 ^ tk.shift ≤ b / 2 ^ tk.shift :=
    fun hab => Int.ediv_le_ediv (by positivity) hab
  induction h with
  | setup h cycles => exact ⟨setupInternals_shown h cycles, by simp, .nil⟩
  | advance _ hon hfit hmild mode hok ih =>
    obtain ⟨hshown, hle, hsorted⟩ := ih
    obtain ⟨tk', hok', hshown', -, hshift, hnow⟩ := hshown.advance hfit hmild mode
    obtain rfl : tk' = _ := by simpa [hok'] using hok
    refine ⟨hshown', ?_, hsorted⟩
    rw [hshift, hnow]
    exact fun t ht => (hle t ht).trans (hmono (hshown.now_le hon))
  | ktimeGet _ hon hfit ih =>
    obtain ⟨hshown, hle, hsorted⟩ := ih
    have hle' := fun t ht => (hle t ht).trans (hmono (hshown.now_le hon))
    rw [hshown.ktimeGet_eq hfit]
    refine ⟨hshown, ?_, List.pairwise_cons.mpr ⟨hle', hsorted⟩⟩
    intro t ht
    rcases List.mem_cons.mp ht with rfl | ht
    · exact le_rfl
    · exact hle' t ht

/-- Every update ends with the rates in step and less than a second and an interval left over, and the
    time at its reading is what it was; so `ktime_get` never goes backwards. -/
theorem advance_continuous :
    (∀ tk, Reaches tk → tk.xtimeInterval = tk.cycleInterval * tk.mult ∧ 0 ≤ tk.xtimeNsec ∧
      tk.xtimeNsec < tk.nsecps ∧
      ∀ ntp mode cycles, tk.Fits ntp cycles → tk.Mild ntp cycles →
      ∃ tk', tk.advance ntp mode cycles = .ok tk' ∧ Reaches tk' ∧
      tk'.delta cycles < tk'.cycleInterval ∧ tk'.now cycles = tk.now cycles) ∧
    ∀ tk seen times, Observed tk seen times → times.Pairwise (· ≥ ·) := by
  refine ⟨fun tk h => ?_, fun tk seen times h => h.inv.2.2⟩
  have hshown := h.shown
  refine ⟨hshown.interval_eq, hshown.nsec_nonneg, hshown.nsec_lt, fun ntp mode cycles hfit hmild => ?_⟩
  obtain ⟨tk', hok, -, hlt, -, hnow⟩ := hshown.advance hfit hmild mode
  exact ⟨tk', hok, .advance h hfit hmild mode hok, hlt, hnow⟩

end

/-! ### A clock of one cycle a nanosecond -/

section

@[reducible] def smallConfig : Config := ⟨4000000, by decide, by decide⟩

local instance smallConfigInstance : Config := smallConfig

def smallClock : Clocksource := ⟨2 ^ 24, 24, 56, by decide, by decide, by decide, by decide⟩

def bootTimekeeper : Timekeeper :=
  { bits := 0, shift := 0, mult := 0, cycleLast := 0, xtimeNsec := 0, base := 0, xtimeSec := 0
    wallToMonotonic := ⟨0, 0⟩, offsReal := 0, cycleInterval := 0, xtimeInterval := 0, xtimeRemainder := 0
    ntpError := 0, ntpErrorShift := 0, ntpTick := 0, ntpErrMult := 0, skipSecondOverflow :=
      false, overflows := 0 }

def smallTimekeeper : Timekeeper := (bootTimekeeper.setupInternals smallClock 0 false).updateKtimeData

theorem smallTimekeeper_reaches : Reaches smallTimekeeper := .setup ⟨by decide, by decide⟩ 0

/-- Ticks of `length`, without leap seconds. -/
def steadyNtp (length : ℤ) (h0 : 0 ≤ length) (h : length < 2 ^ 64) : Ntp :=
  ⟨length, length, fun _ _ => .none, h0, h, h0, h⟩

/-- Ticks a little longer than the clock's. -/
def slowNtp : Ntp := steadyNtp (4000000 * (2 ^ 24 + 5) * 2 ^ 8) (by decide) (by decide)

/-- Ticks more than a hundred times as long as the clock's. -/
def wildNtp : Ntp := steadyNtp (4000000 * (2 ^ 24 + 2 ^ 31) * 2 ^ 8) (by decide) (by decide)

/-- After two intervals, with 1000007 cycles left over. -/
def smallAccumulated : Timekeeper :=
  { smallTimekeeper with
    cycleLast := 8000000
    xtimeNsec := 8000000 * 2 ^ 24
    ntpError := 0 }

theorem smallTimekeeper_accumulated : smallTimekeeper.accumulated slowNtp 9000007 = .ok
    (smallAccumulated, 1000007) := by
  rfl

theorem smallTimekeeper_fits : smallTimekeeper.Fits slowNtp 9000007 :=
  .of_ok smallTimekeeper_accumulated (by decide) (by decide) (by decide)

theorem smallTimekeeper_mild : smallTimekeeper.Mild slowNtp 9000007 := by
  refine ⟨by decide, fun tk offset h => ?_⟩
  obtain ⟨rfl, rfl⟩ := by simpa [smallTimekeeper_accumulated] using h
  decide

/-- The multiplier has grown by 5. -/
def smallAdvanced : Timekeeper :=
  { smallAccumulated with
    mult := 2 ^ 24 + 5
    xtimeInterval := 4000000 * (2 ^ 24 + 5)
    xtimeNsec := 8000000 * 2 ^ 24 - 1000007 * 5
    ntpTick := 4000000 * (2 ^ 24 + 5) * 2 ^ 8 }

theorem smallTimekeeper_observed : Observed smallAdvanced 9000010 [smallAdvanced.ktimeGet 9000010,
      smallTimekeeper.ktimeGet 9000000] := by
  have hsetup : Observed smallTimekeeper 0 [] := .setup ⟨by decide, by decide⟩ 0
  have hget : Observed smallTimekeeper 9000000 [smallTimekeeper.ktimeGet 9000000] :=
    .ktimeGet hsetup (by decide) (by decide)
  have hadvance : Observed smallAdvanced 9000007 [smallTimekeeper.ktimeGet 9000000] :=
    .advance hget (by decide) smallTimekeeper_fits smallTimekeeper_mild .tick rfl
  exact .ktimeGet hadvance (by decide) (by decide)

/-- An update and two calls of `ktime_get`. -/
theorem advance_continuous_small :
    (∃ tk', smallTimekeeper.advance slowNtp .tick 9000007 = .ok tk' ∧ Reaches tk' ∧
      tk'.delta 9000007 < tk'.cycleInterval ∧ tk'.now 9000007 = smallTimekeeper.now 9000007) ∧
    [smallAdvanced.ktimeGet 9000010, smallTimekeeper.ktimeGet 9000000].Pairwise (· ≥ ·) :=
  ⟨(advance_continuous.1 smallTimekeeper smallTimekeeper_reaches).2.2.2 slowNtp .tick 9000007
    smallTimekeeper_fits smallTimekeeper_mild, advance_continuous.2 _ _ _ smallTimekeeper_observed⟩

/-- Ticks so long that the multiplier would have to grow by more than `mult_adj` can hold: the interval
    in nanoseconds is no longer the one in cycles times the multiplier. -/
theorem advance_loses_interval :
    ∃ tk tk' ntp mode cycles, Reaches tk ∧ tk.Fits ntp cycles ∧ tk.advance ntp mode cycles = .ok tk' ∧
      tk'.xtimeInterval ≠ tk'.cycleInterval * tk'.mult := by
  have hok : smallTimekeeper.accumulated wildNtp 0 = .ok (smallTimekeeper, 0) := rfl
  refine ⟨smallTimekeeper, _, wildNtp, .freq, 0, smallTimekeeper_reaches,
    .of_ok hok (by decide) (by decide) (by decide), rfl, ?_⟩
  decide

end

end LinuxNote.Timekeeping.Timekeeper
