import LinuxNote.Timekeeping.Advance
import Mathlib.Tactic.LinearCombination

/-! Setting the clock: `do_settimeofday64` and `timekeeping_inject_offset`. Both are to keep
    `wall_to_monotonic` from becoming positive, so that real time stays ahead of monotonic time. -/

namespace LinuxNote.Timekeeping
open Word Timespec64 Int

namespace Timespec64

theorem setNormalized_toNs (sec nsec : ℤ) : (setNormalized sec nsec).toNs = sec * nsecPerSec + nsec := by
  simp only [setNormalized, toNs, nsecPerSec]
  omega

theorem setNormalized_nsec (sec nsec : ℤ) :
    0 ≤ (setNormalized sec nsec).nsec ∧ (setNormalized sec nsec).nsec < nsecPerSec := by
  simp only [setNormalized, nsecPerSec]
  omega

variable {a : Timespec64}

/-- A normalised time is told by its nanoseconds. -/
theorem eq_of_toNs {b : Timespec64} (ha : 0 ≤ a.nsec ∧ a.nsec < nsecPerSec)
    (hb : 0 ≤ b.nsec ∧ b.nsec < nsecPerSec) (h : a.toNs = b.toNs) : a = b := by
  obtain ⟨sec, nsec⟩ := a
  obtain ⟨sec', nsec'⟩ := b
  simp only [toNs, nsecPerSec] at *
  simp only [mk.injEq]
  omega

theorem sub_toNs (a b : Timespec64) : (a.sub b).toNs = a.toNs - b.toNs := by
  rw [sub, setNormalized_toNs]
  simp only [toNs]
  ring

theorem add_toNs (a b : Timespec64) : (a.add b).toNs = a.toNs + b.toNs := by
  rw [add, setNormalized_toNs]
  simp only [toNs]
  ring

theorem ValidStrict.toNs_lt (h : a.ValidStrict) : a.toNs < ktimeSecMax * nsecPerSec := by
  obtain ⟨-, -, hn, hs⟩ := h
  simp only [toNs, nsecPerSec] at *
  omega

end Timespec64

namespace Timekeeper

/-! ### Real time -/

/-- A clock whose nanoseconds are those of a part of a second. -/
structure Ticking (tk : Timekeeper) : Prop where
  shift_le : tk.shift ≤ 32
  mult_nonneg : 0 ≤ tk.mult
  nsec_nonneg : 0 ≤ tk.xtimeNsec
  nsec_lt : tk.xtimeNsec < tk.nsecps

/-- Real time at `cycle_last` is `wall_to_monotonic` away from monotonic time, which has started at 0,
    and ahead of it. -/
structure Ahead (tk : Timekeeper) : Prop extends Ticking tk where
  mono_nonneg : 0 ≤ tk.shifted 0
  wtm_nsec : 0 ≤ tk.wallToMonotonic.nsec ∧ tk.wallToMonotonic.nsec < nsecPerSec
  wtm_le : tk.wallToMonotonic.toNs ≤ 0
  offsReal_eq : tk.offsReal = -tk.wallToMonotonic.toNs

/-- As readers see it. -/
structure Real (tk : Timekeeper) : Prop extends Ahead tk where
  base_eq : tk.base = tk.mono

variable {tk : Timekeeper} {cycles later : ℤ} {ts : Timespec64}

theorem Ahead.updateClearNtp (h : tk.Ahead) : tk.updateClearNtp.Real :=
  { h with base_eq := rfl }

/-- Real time in shifted nanoseconds, `offset` cycles after `cycle_last`. -/
def wall (tk : Timekeeper) (offset : ℤ) : ℤ :=
  tk.xtimeSec * nsecPerSec * 2 ^ tk.shift + tk.xtimeNsec + offset * tk.mult

theorem shifted_eq_wall (tk : Timekeeper) (offset : ℤ) :
    tk.shifted offset = tk.wall offset + tk.wallToMonotonic.toNs * 2 ^ tk.shift := by
  simp only [shifted, wall, mono, toNs]
  ring

/-- `tk_xtime` is real time in whole nanoseconds. -/
theorem xtime_toNs (tk : Timekeeper) : tk.xtime.toNs = tk.wall 0 / 2 ^ tk.shift := by
  simp only [xtime, toNs, wall, zero_mul, add_zero]
  rw [add_comm (_ * _ * _), add_mul_ediv_right _ _ (by positivity), add_comm]

theorem ktimeGetRealTs64_toNs (h : tk.Ticking) (hfit : tk.Fresh cycles) :
    (tk.ktimeGetRealTs64 cycles).toNs = tk.wall (tk.delta cycles) / 2 ^ tk.shift := by
  rw [ktimeGetRealTs64, setNormalized_toNs, add_cyclesToNs h.mult_nonneg h.nsec_nonneg hfit, wall]

theorem ktimeGet_shifted (h : tk.Ticking) (hbase : tk.base = tk.mono) (hfit : tk.Fresh cycles) :
    tk.ktimeGet cycles = tk.shifted (tk.delta cycles) / 2 ^ tk.shift := by
  rw [ktimeGet, hbase, add_cyclesToNs h.mult_nonneg h.nsec_nonneg hfit, shifted]

/-! ### `timekeeping_forward_now` -/

theorem normalizeXtime_wall (tk : Timekeeper) (offset : ℤ) :
    tk.normalizeXtime.wall offset = tk.wall offset := by
  have hdiv := emod_add_mul_ediv tk.xtimeNsec tk.nsecps
  have hps : tk.nsecps = nsecPerSec * 2 ^ tk.shift := rfl
  simp only [wall, normalizeXtime]
  linear_combination hdiv - (tk.xtimeNsec / tk.nsecps) * hps

theorem normalizeXtime_nsec (tk : Timekeeper) :
    0 ≤ tk.normalizeXtime.xtimeNsec ∧ tk.normalizeXtime.xtimeNsec < tk.nsecps :=
  ⟨emod_nonneg _ tk.nsecps_pos.ne', emod_lt_of_pos _ tk.nsecps_pos⟩

theorem forwardNow_wall (h : tk.Ticking) (hfit : tk.Fresh cycles) (offset : ℤ) :
    (tk.forwardNow cycles).wall offset = tk.wall (tk.delta cycles + offset) := by
  have h0 : 0 ≤ tk.delta cycles * tk.mult := mul_nonneg (tk.delta_nonneg cycles) h.mult_nonneg
  have hn0 := h.nsec_nonneg
  rw [forwardNow, normalizeXtime_wall, u64_eq h0 (by linarith), u64_eq (by linarith) (by linarith)]
  simp only [wall]
  ring

theorem Ahead.shifted_nonneg (h : tk.Ahead) (cycles : ℤ) : 0 ≤ tk.shifted (tk.delta cycles) := by
  have hge := h.mono_nonneg
  have hle := mul_nonneg (tk.delta_nonneg cycles) h.mult_nonneg
  rw [shifted_eq_wall, wall] at hge ⊢
  linarith

theorem Ahead.forwardNow (h : tk.Ahead) (hfit : tk.Fresh cycles) : (tk.forwardNow cycles).Ahead where
  __ := h
  nsec_nonneg := (normalizeXtime_nsec _).1
  nsec_lt := (normalizeXtime_nsec _).2
  mono_nonneg := by
    rw [shifted_eq_wall, forwardNow_wall h.toTicking hfit, add_zero]
    exact (h.shifted_nonneg cycles).trans_eq (shifted_eq_wall ..)

/-- Bringing the clock forward changes no reading of real time from then on. -/
theorem ktimeGetRealTs64_forwardNow (h : tk.Ahead)
    (hon : tk.delta cycles ≤ tk.delta later) (hfit : tk.Fresh later) :
    (tk.forwardNow cycles).updateClearNtp.ktimeGetRealTs64 later = tk.ktimeGetRealTs64 later := by
  have hprod := mul_le_mul_of_nonneg_right hon h.mult_nonneg
  have hfit0 : tk.Fresh cycles := by linarith
  have hahead := h.forwardNow hfit0
  have hd : (tk.forwardNow cycles).delta later = tk.delta later - tk.delta cycles := by
    have hlt : tk.delta later < 2 ^ tk.bits := emod_lt_of_pos _ (by positivity)
    have h0 := tk.delta_nonneg cycles
    have hmod : (later - cycles) % 2 ^ tk.bits = (tk.delta later - tk.delta cycles) % 2 ^ tk.bits := by
      unfold delta
      rw [← sub_emod]
      congr 1
      ring
    show (later - cycles) % 2 ^ tk.bits = _
    rw [hmod]
    exact emod_eq_of_lt (by linarith) (by linarith)
  have hwall : (tk.forwardNow cycles).wall ((tk.forwardNow cycles).delta later) =
    tk.wall (tk.delta later) := by
    rw [forwardNow_wall h.toTicking hfit0, hd, add_sub_cancel]
  -- what is left in nanoseconds has not grown
  have hnsec : (tk.forwardNow cycles).xtimeNsec ≤ tk.delta cycles * tk.mult + tk.xtimeNsec := by
    have h0 : 0 ≤ tk.delta cycles * tk.mult := mul_nonneg (tk.delta_nonneg cycles) h.mult_nonneg
    have hn0 := h.nsec_nonneg
    show u64 (tk.xtimeNsec + u64 (tk.delta cycles * tk.mult)) % tk.nsecps ≤ _
    rw [u64_eq h0 (by linarith), u64_eq (by linarith) (by linarith), add_comm]
    have hdiv := emod_add_mul_ediv (tk.delta cycles * tk.mult + tk.xtimeNsec) tk.nsecps
    have hq : 0 ≤ tk.nsecps * ((tk.delta cycles * tk.mult + tk.xtimeNsec) / tk.nsecps) :=
      mul_nonneg tk.nsecps_pos.le (ediv_nonneg (by linarith) tk.nsecps_pos.le)
    linarith
  have hfit' : (tk.forwardNow cycles).updateClearNtp.Fresh later := by
    show (tk.forwardNow cycles).delta later * tk.mult + (tk.forwardNow cycles).xtimeNsec < 2 ^ 64
    rw [hd, sub_mul]
    linarith
  refine eq_of_toNs (setNormalized_nsec _ _) (setNormalized_nsec _ _) ?_
  rw [ktimeGetRealTs64_toNs hahead.updateClearNtp.toTicking hfit',
    ktimeGetRealTs64_toNs h.toTicking hfit]
  exact congrArg (· / 2 ^ tk.shift) hwall

/-! ### `tk_set_wall_to_mono` -/

variable (tk)

/-- The time of day that `wall_to_monotonic` stands for is below the largest second, so `offs_real` is
    exact. -/
theorem setWallToMono_offsReal {wtm : Timespec64} (h : -wtm.toNs < ktimeSecMax * nsecPerSec) :
    (tk.setWallToMono wtm).offsReal = -wtm.toNs := by
  have hns : (setNormalized (-wtm.sec) (-wtm.nsec)).toNs = -wtm.toNs := by
    rw [setNormalized_toNs, toNs]
    ring
  have hlt : ¬ktimeSecMax ≤ (setNormalized (-wtm.sec) (-wtm.nsec)).sec := by
    have := (setNormalized_nsec (-wtm.sec) (-wtm.nsec)).1
    rw [← hns] at h
    simp only [toNs, nsecPerSec] at h
    omega
  exact (if_neg hlt).trans hns

/-! ### `do_settimeofday64` -/

/-- How far `do_settimeofday64` is to move the clock, a difference that is not normalised. -/
def tsDelta (cycles : ℤ) (ts : Timespec64) : Timespec64 :=
  ⟨ts.sec - (tk.forwardNow cycles).xtime.sec, ts.nsec - (tk.forwardNow cycles).xtime.nsec⟩

/-- The difference to a valid `ts` has the next second after that of `wall_to_monotonic`, and so many
    nanoseconds below 0 that it is less than `wall_to_monotonic` all the same. -/
def CarryMissed (cycles : ℤ) (ts : Timespec64) : Prop :=
  ts.ValidStrict ∧ (tk.tsDelta cycles ts).sec = tk.wallToMonotonic.sec + 1 ∧
    (tk.tsDelta cycles ts).nsec + nsecPerSec < tk.wallToMonotonic.nsec

instance (cycles : ℤ) (ts : Timespec64) : Decidable (tk.CarryMissed cycles ts) :=
  inferInstanceAs (Decidable (_ ∧ _ ∧ _))

theorem tsDelta_toNs (cycles : ℤ) (ts : Timespec64) :
    (tk.tsDelta cycles ts).toNs = ts.toNs - (tk.forwardNow cycles).xtime.toNs := by
  simp only [tsDelta, toNs]
  ring

/-- The timekeeper after `do_settimeofday64` has accepted `ts`. -/
def timeSet (cycles : ℤ) (ts : Timespec64) : Timekeeper :=
  (((tk.forwardNow cycles).setWallToMono (tk.wallToMonotonic.sub (tk.tsDelta cycles ts))).setXtime
    ts).updateClearNtp

theorem doSettimeofday64_cases (cycles : ℤ) (ts : Timespec64) :
    (¬ts.ValidStrict ∧ tk.doSettimeofday64 cycles ts = (false, tk)) ∨
    (ts.ValidStrict ∧ 0 < tk.wallToMonotonic.compare (tk.tsDelta cycles ts) ∧
      tk.doSettimeofday64 cycles ts = (false, (tk.forwardNow cycles).updateClearNtp)) ∨
    (ts.ValidStrict ∧ tk.wallToMonotonic.compare (tk.tsDelta cycles ts) ≤ 0 ∧
      tk.doSettimeofday64 cycles ts = (true, tk.timeSet cycles ts)) := by
  unfold doSettimeofday64
  by_cases hv : ts.ValidStrict
  · rw [if_neg (not_not.mpr hv)]
    by_cases hc : 0 < tk.wallToMonotonic.compare (tk.tsDelta cycles ts)
    · exact .inr (.inl ⟨hv, hc, if_pos hc⟩)
    · exact .inr (.inr ⟨hv, not_lt.mp hc, if_neg hc⟩)
  · exact .inl ⟨hv, if_pos hv⟩

variable {tk}

/-- The test passes a difference that is less than `wall_to_monotonic` when a carry is missed, and only
    then. -/
theorem compare_le_iff (h : tk.Ahead) (hfit : tk.Fresh cycles) (hv : ts.ValidStrict)
    (hc : tk.wallToMonotonic.compare (tk.tsDelta cycles ts) ≤ 0) :
    (tk.wallToMonotonic.sub (tk.tsDelta cycles ts)).toNs ≤ 0 ↔ ¬tk.CarryMissed cycles ts := by
  obtain ⟨-, hts0, hts, -⟩ := id hv
  have hahead := h.forwardNow hfit
  have hx0 : 0 ≤ (tk.forwardNow cycles).xtime.nsec := Int.ediv_nonneg hahead.nsec_nonneg (by positivity)
  have hx : (tk.forwardNow cycles).xtime.nsec < nsecPerSec :=
    Int.ediv_lt_of_lt_mul (by positivity) hahead.nsec_lt
  obtain ⟨hw0, hw⟩ := h.wtm_nsec
  have hd : (tk.tsDelta cycles ts).nsec = ts.nsec - (tk.forwardNow cycles).xtime.nsec := rfl
  rw [sub_toNs, CarryMissed, and_iff_right hv]
  unfold toNs
  unfold Timespec64.compare at hc
  unfold nsecPerSec at *
  split at hc
  · omega
  · split at hc <;> omega

theorem xtime_toNs_le (h : tk.Ahead) : 0 ≤ tk.xtime.toNs + tk.wallToMonotonic.toNs := by
  have hge := h.mono_nonneg
  rw [shifted_eq_wall] at hge
  have hdiv := ediv_nonneg hge (show (0 : ℤ) ≤ 2 ^ tk.shift by positivity)
  rwa [add_mul_ediv_right _ _ (by positivity), ← xtime_toNs] at hdiv

/-- `offs_real` is exact after a change to a time below the largest second. -/
theorem Ahead.offs_lt {d : Timespec64} (h : tk.Ahead)
    (hmax : tk.xtime.toNs + d.toNs < ktimeSecMax * nsecPerSec) :
    -(tk.wallToMonotonic.sub d).toNs < ktimeSecMax * nsecPerSec := by
  have hmono := xtime_toNs_le h
  rw [sub_toNs]
  linarith

theorem nsec_shifted {nsec : ℤ} (h0 : 0 ≤ nsec) (hlt : nsec < nsecPerSec) (tk : Timekeeper) :
    0 ≤ nsec * 2 ^ tk.shift ∧ nsec * 2 ^ tk.shift < tk.nsecps :=
  ⟨mul_nonneg h0 (by positivity), mul_lt_mul_of_pos_right hlt (by positivity)⟩

theorem timeSet_delta (tk : Timekeeper) (cycles : ℤ) (ts : Timespec64) :
    (tk.timeSet cycles ts).delta cycles = 0 := by
  show (cycles - cycles) % 2 ^ tk.bits = 0
  simp

section
variable (h : tk.Ahead) (hv : ts.ValidStrict)
include h hv

theorem timeSet_nsec (cycles : ℤ) :
    (tk.timeSet cycles ts).xtimeNsec = ts.nsec * 2 ^ tk.shift ∧ 0 ≤ ts.nsec * 2 ^ tk.shift ∧
      ts.nsec * 2 ^ tk.shift < tk.nsecps := by
  obtain ⟨-, h0, hlt, -⟩ := hv
  obtain ⟨hge, hps⟩ := nsec_shifted h0 hlt tk
  have hmax : ts.nsec * 2 ^ tk.shift < 2 ^ 64 := by linarith [nsecps_le h.shift_le]
  exact ⟨u64_eq hge hmax, hge, hps⟩

theorem timeSet_ticking (cycles : ℤ) : (tk.timeSet cycles ts).Ticking := by
  obtain ⟨heq, h0, hlt⟩ := timeSet_nsec h hv cycles
  exact { h with nsec_nonneg := heq ▸ h0, nsec_lt := heq ▸ hlt }

theorem timeSet_fits (cycles : ℤ) : (tk.timeSet cycles ts).Fresh cycles := by
  obtain ⟨heq, h0, hlt⟩ := timeSet_nsec h hv cycles
  rw [Fresh, timeSet_delta, heq]
  linarith [nsecps_le h.shift_le]

theorem timeSet_wall (cycles : ℤ) : (tk.timeSet cycles ts).wall 0 = ts.toNs * 2 ^ tk.shift := by
  unfold wall
  rw [(timeSet_nsec h hv cycles).1]
  show ts.sec * nsecPerSec * 2 ^ tk.shift + ts.nsec * 2 ^ tk.shift + 0 * _ = _
  rw [toNs]
  ring

/-- Monotonic time only loses what is less than a nanosecond. -/
theorem timeSet_shifted (hfit : tk.Fresh cycles) :
    (tk.timeSet cycles ts).shifted 0 = tk.shifted (tk.delta cycles) / 2 ^ tk.shift * 2 ^ tk.shift := by
  have hwtm : (tk.timeSet cycles ts).wallToMonotonic.toNs =
      tk.wallToMonotonic.toNs - (ts.toNs - (tk.forwardNow cycles).xtime.toNs) := by
    rw [← tsDelta_toNs, ← sub_toNs]
    rfl
  have hx : (tk.forwardNow cycles).xtime.toNs = tk.wall (tk.delta cycles) / 2 ^ tk.shift := by
    rw [xtime_toNs, forwardNow_wall h.toTicking hfit, add_zero]
    rfl
  rw [shifted_eq_wall, timeSet_wall h hv cycles, hwtm, hx, shifted_eq_wall,
    add_mul_ediv_right _ _ (by positivity)]
  show _ + _ * 2 ^ tk.shift = _
  ring

theorem timeSet_real (hfit : tk.Fresh cycles)
    (hwtm : (tk.wallToMonotonic.sub (tk.tsDelta cycles ts)).toNs ≤ 0) : (tk.timeSet cycles ts).Real := by
  have hoffs := (h.forwardNow hfit).offs_lt (d := tk.tsDelta cycles ts)
    (by rw [tsDelta_toNs, add_sub_cancel]; exact hv.toNs_lt)
  refine ⟨⟨timeSet_ticking h hv cycles, ?_, setNormalized_nsec _ _, hwtm,
    setWallToMono_offsReal (tk.forwardNow cycles) hoffs⟩, rfl⟩
  rw [timeSet_shifted h hv hfit]
  exact mul_nonneg (ediv_nonneg (h.shifted_nonneg cycles) (by positivity)) (by positivity)

/-- The clock reads `ts` at that instant. -/
theorem timeSet_reads (cycles : ℤ) : (tk.timeSet cycles ts).ktimeGetRealTs64 cycles = ts := by
  refine eq_of_toNs (setNormalized_nsec _ _) ⟨hv.2.1, hv.2.2.1⟩ ?_
  rw [ktimeGetRealTs64_toNs (timeSet_ticking h hv cycles) (timeSet_fits h hv cycles), timeSet_delta,
    timeSet_wall h hv cycles]
  exact mul_ediv_cancel _ (by positivity)

end

/-! ### `timekeeping_inject_offset` -/

/-- The timekeeper after `timekeeping_inject_offset` has accepted `ts`. -/
def offsetInjected (tk : Timekeeper) (cycles : ℤ) (ts : Timespec64) : Timekeeper :=
  (((tk.forwardNow cycles).xtimeAdd ts).setWallToMono (tk.wallToMonotonic.sub ts)).updateClearNtp

theorem injectOffset_cases (tk : Timekeeper) (cycles : ℤ) (ts : Timespec64) :
    tk.injectOffset cycles ts = (false, tk) ∨
    tk.injectOffset cycles ts = (false, (tk.forwardNow cycles).updateClearNtp) ∨
    (0 ≤ ts.nsec ∧ ts.nsec < nsecPerSec ∧ tk.wallToMonotonic.compare ts ≤ 0 ∧
      ((tk.forwardNow cycles).xtime.add ts).ValidStrict ∧
      tk.injectOffset cycles ts = (true, tk.offsetInjected cycles ts)) := by
  unfold injectOffset
  by_cases hn : ts.nsec < 0 ∨ nsecPerSec ≤ ts.nsec
  · exact .inl (if_pos hn)
  rw [if_neg hn]
  obtain ⟨h0, hlt⟩ := not_or.mp hn
  by_cases hc : 0 < tk.wallToMonotonic.compare ts ∨ ¬((tk.forwardNow cycles).xtime.add ts).ValidStrict
  · exact .inr (.inl (if_pos hc))
  obtain ⟨hcmp, hv⟩ := not_or.mp hc
  exact .inr (.inr ⟨not_lt.mp h0, not_le.mp hlt, not_lt.mp hcmp, not_not.mp hv, if_neg hc⟩)

section
variable (h : tk.Ahead) (hfit : tk.Fresh cycles) (h0 : 0 ≤ ts.nsec) (hlt : ts.nsec < nsecPerSec)
include h hfit h0 hlt

theorem offsetInjected_wall :
    (tk.offsetInjected cycles ts).wall 0 = (tk.forwardNow cycles).wall 0 + ts.toNs * 2 ^ tk.shift := by
  obtain ⟨hge, hps⟩ := nsec_shifted h0 hlt tk
  have hmax := nsecps_le h.shift_le
  have hahead := h.forwardNow hfit
  have hn0 := hahead.nsec_nonneg
  have hn : (tk.forwardNow cycles).xtimeNsec < tk.nsecps := hahead.nsec_lt
  have hu : u64 ((tk.forwardNow cycles).xtimeNsec + u64 (ts.nsec * 2 ^ tk.shift)) =
      (tk.forwardNow cycles).xtimeNsec + ts.nsec * 2 ^ tk.shift := by
    rw [u64_eq hge (by linarith), u64_eq (by linarith) (by linarith)]
  show ((tk.forwardNow cycles).xtimeAdd ts).wall 0 = _
  rw [xtimeAdd, normalizeXtime_wall]
  show ((tk.forwardNow cycles).xtimeSec + ts.sec) * nsecPerSec * 2 ^ tk.shift +
    u64 ((tk.forwardNow cycles).xtimeNsec + u64 (ts.nsec * 2 ^ tk.shift)) + 0 * tk.mult = 
    (tk.forwardNow cycles).xtimeSec * nsecPerSec * 2 ^ tk.shift + (tk.forwardNow cycles).xtimeNsec +
    0 * tk.mult + _
  rw [hu, toNs]
  ring

theorem offsetInjected_real (hc : tk.wallToMonotonic.compare ts ≤ 0)
    (hv : ((tk.forwardNow cycles).xtime.add ts).ValidStrict) : (tk.offsetInjected cycles ts).Real := by
  have hahead := h.forwardNow hfit
  have hoffs := hahead.offs_lt (d := ts) (by rw [← add_toNs]; exact hv.toNs_lt)
  have hshifted : (tk.offsetInjected cycles ts).shifted 0 = (tk.forwardNow cycles).shifted 0 := by
    rw [shifted_eq_wall, offsetInjected_wall h hfit h0 hlt, shifted_eq_wall]
    show _ + (tk.wallToMonotonic.sub ts).toNs * 2 ^ tk.shift = _ + tk.wallToMonotonic.toNs * 2 ^ tk.shift
    rw [sub_toNs]
    ring
  -- both times compared here are normalised, so the test is right
  have hle : (tk.wallToMonotonic.sub ts).toNs ≤ 0 := by
    have hnsec := h.wtm_nsec
    rw [sub_toNs]
    unfold Timespec64.compare at hc
    unfold toNs
    unfold nsecPerSec at *
    split_ifs at hc <;> omega
  exact ⟨⟨⟨h.shift_le, h.mult_nonneg, (normalizeXtime_nsec _).1, (normalizeXtime_nsec _).2⟩,
    hahead.mono_nonneg.trans_eq hshifted.symm, setNormalized_nsec _ _, hle,
    setWallToMono_offsReal ((tk.forwardNow cycles).xtimeAdd ts) hoffs⟩, rfl⟩

end

/-! ### Runs -/

/-- The timekeepers that settings of the clock lead to, when no carry is missed. -/
inductive Sets : Timekeeper → Prop
  | start {tk : Timekeeper} (h : tk.Real) : Sets tk
  | doSettimeofday64 {tk : Timekeeper} {cycles : ℤ} (h : Sets tk)
    (hfit : tk.delta cycles * tk.mult + tk.xtimeNsec < 2 ^ 64) (ts : Timespec64)
      (hcarry : ¬tk.CarryMissed cycles ts) :
    Sets (tk.doSettimeofday64 cycles ts).2
  | injectOffset {tk : Timekeeper} {cycles : ℤ} (h : Sets tk)
    (hfit : tk.delta cycles * tk.mult + tk.xtimeNsec < 2 ^ 64) (ts : Timespec64) :
      Sets (tk.injectOffset cycles ts).2

section
variable (h : tk.Real) (hfit : tk.Fresh cycles)
include h hfit

theorem timeSet_ktimeGet (hv : ts.ValidStrict) :
    (tk.timeSet cycles ts).ktimeGet cycles = tk.ktimeGet cycles := by
  rw [ktimeGet_shifted (timeSet_ticking h.toAhead hv cycles) rfl (timeSet_fits h.toAhead hv cycles),
    timeSet_delta, timeSet_shifted h.toAhead hv hfit, ktimeGet_shifted h.toTicking h.base_eq hfit]
  exact mul_ediv_cancel _ (by positivity)

theorem timeSet_now (hv : ts.ValidStrict) : 0 ≤ tk.now cycles - (tk.timeSet cycles ts).now cycles ∧
    tk.now cycles - (tk.timeSet cycles ts).now cycles < 2 ^ tk.shift := by
  have hnow : tk.now cycles = tk.shifted (tk.delta cycles) := by rw [now, shifted, h.base_eq]
  have hnow' : (tk.timeSet cycles ts).now cycles = (tk.timeSet cycles ts).shifted 0 := by
    rw [now, timeSet_delta]
    rfl
  have hp0 : (0 : ℤ) < 2 ^ tk.shift := by positivity
  have hdiv := emod_add_ediv_mul (tk.shifted (tk.delta cycles)) (2 ^ tk.shift)
  have hge := emod_nonneg (tk.shifted (tk.delta cycles)) hp0.ne'
  have hlt := emod_lt_of_pos (tk.shifted (tk.delta cycles)) hp0
  rw [hnow, hnow', timeSet_shifted h.toAhead hv hfit]
  constructor <;> linarith

theorem Real.doSettimeofday64 (hcarry : ¬tk.CarryMissed cycles ts) :
    (tk.doSettimeofday64 cycles ts).2.Real := by
  rcases tk.doSettimeofday64_cases cycles ts with ⟨-, heq⟩ | ⟨-, -, heq⟩ | ⟨hv, hc, heq⟩ <;> rw [heq]
  · exact h
  · exact (h.toAhead.forwardNow hfit).updateClearNtp
  · exact timeSet_real h.toAhead hv hfit ((compare_le_iff h.toAhead hfit hv hc).mpr hcarry)

theorem Real.injectOffset (ts : Timespec64) : (tk.injectOffset cycles ts).2.Real := by
  rcases tk.injectOffset_cases cycles ts with heq | heq | ⟨h0, hlt, hc, hv, heq⟩ <;> rw [heq]
  · exact h
  · exact (h.toAhead.forwardNow hfit).updateClearNtp
  · exact offsetInjected_real h.toAhead hfit h0 hlt hc hv

end

theorem Sets.real (h : Sets tk) : tk.Real := by
  induction h with
  | start h => exact h
  | doSettimeofday64 _ hfit ts hcarry ih => exact ih.doSettimeofday64 hfit hcarry
  | injectOffset _ hfit ts ih => exact ih.injectOffset hfit ts

/-- `tk'` reads the same time of day as `tk` from the reading `cycles` on. -/
def SameWall (tk tk' : Timekeeper) (cycles : ℤ) : Prop :=
  ∀ later, tk.delta cycles ≤ tk.delta later → tk.delta later * tk.mult + tk.xtimeNsec < 2 ^ 64 →
    tk'.ktimeGetRealTs64 later = tk.ktimeGetRealTs64 later

theorem Real.doSettimeofday64_rejected (h : tk.Real) (hno : (tk.doSettimeofday64 cycles ts).1 = false) :
    SameWall tk (tk.doSettimeofday64 cycles ts).2 cycles := by
  rcases tk.doSettimeofday64_cases cycles ts with ⟨-, heq⟩ | ⟨-, -, heq⟩ | ⟨-, -, heq⟩ <;>
    rw [heq] at hno ⊢
  · exact fun _ _ _ => rfl
  · exact fun later hon hfit => ktimeGetRealTs64_forwardNow h.toAhead hon hfit
  · cases hno

theorem Real.injectOffset_rejected (h : tk.Real) (hno : (tk.injectOffset cycles ts).1 = false) :
    SameWall tk (tk.injectOffset cycles ts).2 cycles := by
  rcases tk.injectOffset_cases cycles ts with heq | heq | ⟨-, -, -, -, heq⟩ <;> rw [heq] at hno ⊢
  · exact fun _ _ _ => rfl
  · exact fun later hon hfit => ktimeGetRealTs64_forwardNow h.toAhead hon hfit
  · cases hno

/-- Real time stays ahead of monotonic time for as long as no carry is missed, and falls behind it with
    the first call that misses one. A call that is rejected does not change the time of day; one that is
    accepted sets it and leaves monotonic time as it was, but for less than a nanosecond. -/
theorem settime_stays_ahead {tk : Timekeeper} (h : Sets tk) :
    (tk.wallToMonotonic.toNs ≤ 0 ∧ 0 ≤ tk.wallToMonotonic.nsec ∧ tk.wallToMonotonic.nsec < nsecPerSec ∧
      tk.offsReal = -tk.wallToMonotonic.toNs) ∧
    ∀ cycles ts, tk.delta cycles * tk.mult + tk.xtimeNsec < 2 ^ 64 →
    ((tk.doSettimeofday64 cycles ts).2.wallToMonotonic.toNs ≤ 0 ↔ ¬tk.CarryMissed cycles ts) ∧
    ((tk.doSettimeofday64 cycles ts).1 = false →
      SameWall tk (tk.doSettimeofday64 cycles ts).2 cycles) ∧
    ((tk.doSettimeofday64 cycles ts).1 = true →
      (tk.doSettimeofday64 cycles ts).2.ktimeGetRealTs64 cycles = ts ∧
      (tk.doSettimeofday64 cycles ts).2.ktimeGet cycles = tk.ktimeGet cycles ∧
      0 ≤ tk.now cycles - (tk.doSettimeofday64 cycles ts).2.now cycles ∧
      tk.now cycles - (tk.doSettimeofday64 cycles ts).2.now cycles < 2 ^ tk.shift) ∧
    (tk.injectOffset cycles ts).2.wallToMonotonic.toNs ≤ 0 ∧
    ((tk.injectOffset cycles ts).1 = false →
      SameWall tk (tk.injectOffset cycles ts).2 cycles) := by
  have hr := h.real
  refine ⟨⟨hr.wtm_le, hr.wtm_nsec.1, hr.wtm_nsec.2, hr.offsReal_eq⟩, fun cycles ts hfit => ?_⟩
  refine ⟨⟨fun hle hmissed => ?_, fun hcarry => (hr.doSettimeofday64 hfit hcarry).wtm_le⟩,
    hr.doSettimeofday64_rejected, fun hyes => ?_, (hr.injectOffset hfit ts).wtm_le,
    hr.injectOffset_rejected⟩
  · -- the call that misses a carry makes `wall_to_monotonic` positive
    rcases tk.doSettimeofday64_cases cycles ts with ⟨hv, -⟩ | ⟨-, hc, -⟩ | ⟨hv, hc, heq⟩
    · exact hv hmissed.1
    · have hsec := hmissed.2.1
      unfold Timespec64.compare at hc
      omega
    · rw [heq] at hle
      exact (compare_le_iff hr.toAhead hfit hv hc).mp hle hmissed
  rcases tk.doSettimeofday64_cases cycles ts with ⟨-, heq⟩ | ⟨-, -, heq⟩ | ⟨hv, -, heq⟩ <;>
    rw [heq] at hyes ⊢
  · cases hyes
  · cases hyes
  · exact ⟨timeSet_reads hr.toAhead hv cycles, timeSet_ktimeGet hr hfit hv, timeSet_now hr hfit hv⟩

/-! ### A clock one nanosecond ahead -/

/-- 1.5 s after the epoch, with real time one nanosecond ahead of monotonic time. -/
def tightTimekeeper : Timekeeper :=
  { bits := 56, shift := 0, mult := 1, cycleLast := 0, xtimeNsec := 500000000, base := 999999999,
    xtimeSec := 1
    wallToMonotonic := ⟨-1, 999999999⟩, offsReal := 1, cycleInterval := 4000000, xtimeInterval := 4000000
    xtimeRemainder := 0, ntpError := 0, ntpErrorShift := 32, ntpTick := 4000000 * 2 ^ 32, ntpErrMult := 0
    skipSecondOverflow := false, overflows := 0 }

theorem tightTimekeeper_sets : Sets tightTimekeeper :=
  .start ⟨⟨⟨by decide, by decide, by decide, by decide⟩, by decide, by decide, by decide, by decide⟩,
    by decide⟩

/-- Setting the clock forward by a second. -/
theorem settime_stays_ahead_tight :
    tightTimekeeper.delta 7 * tightTimekeeper.mult + tightTimekeeper.xtimeNsec < 2 ^ 64 ∧
    ¬tightTimekeeper.CarryMissed 7 ⟨2, 500000007⟩ ∧
    (tightTimekeeper.doSettimeofday64 7 ⟨2, 500000007⟩).2.wallToMonotonic.toNs ≤ 0 ∧
    (tightTimekeeper.doSettimeofday64 7 ⟨2, 500000007⟩).2.ktimeGetRealTs64 7 = ⟨2, 500000007⟩ := by
  have hfit : tightTimekeeper.delta 7 * tightTimekeeper.mult + tightTimekeeper.xtimeNsec <
    2 ^ 64 := by decide
  have hcarry : ¬tightTimekeeper.CarryMissed 7 ⟨2, 500000007⟩ := by decide
  have hall := (settime_stays_ahead tightTimekeeper_sets).2 7 ⟨2, 500000007⟩ hfit
  exact ⟨hfit, hcarry, hall.1.mpr hcarry, (hall.2.2.1 (by decide)).1⟩

/-- Setting the clock back by two nanoseconds is accepted, and real time falls behind monotonic time. -/
theorem settime_falls_behind :
    Sets tightTimekeeper ∧ (tightTimekeeper.doSettimeofday64 0 ⟨1, 499999998⟩).1 = true ∧
      0 < (tightTimekeeper.doSettimeofday64 0 ⟨1, 499999998⟩).2.wallToMonotonic.toNs :=
  ⟨tightTimekeeper_sets, by decide, by decide⟩

end Timekeeper

end LinuxNote.Timekeeping
