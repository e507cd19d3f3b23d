import LinuxNote.Lib.Word
import Mathlib.Data.Int.ModEq
import Mathlib.Tactic.Linarith
import Mathlib.Tactic.Ring

/-! `kernel/time/timecounter.c`: nanoseconds from a counter that wraps. The fraction that a conversion
    leaves is kept for the next one, so nothing is lost on the way. -/

namespace LinuxNote.Timekeeping
open Word

/-- `cyclecounter`; its `mask` has `bits` bits. -/
structure Cyclecounter where
  bits : ℕ
  mult : ℤ
  shift : ℕ
  bits_le : bits ≤ 64
  mult_pos : 0 < mult
  mult_lt : mult < 2 ^ 32
  shift_lt : shift < 32

/-- `timecounter`. Its `mask` takes the fraction, the low `shift` bits. -/
structure Timecounter where
  cycleLast : ℤ
  nsec : ℤ
  frac : ℤ
deriving DecidableEq

namespace Cyclecounter

variable (cc : Cyclecounter)

/-- `x & cc->mask` -/
def masked (x : ℤ) : ℤ := x % 2 ^ cc.bits

/-- `cc->mask / 2` -/
def halfMask : ℤ := (2 ^ cc.bits - 1) / 2

/-- `cyclecounter_cyc2ns`: nanoseconds and the fraction left. -/
def cyc2ns (cycles frac : ℤ) : ℤ × ℤ :=
  let ns := u64 (cycles * cc.mult + frac)
  (ns / 2 ^ cc.shift, ns % 2 ^ cc.shift)

/-- `cc_cyc2ns_backwards` -/
def cyc2nsBackwards (cycles frac : ℤ) : ℤ := u64 (u64 (cycles * cc.mult) - frac) / 2 ^ cc.shift

end Cyclecounter

namespace Timecounter

variable (cc : Cyclecounter)

/-- `timecounter_init` when the counter reads `cycles`. -/
def init (cycles startTstamp : ℤ) : Timecounter := ⟨cycles, startTstamp, 0⟩

/-- `timecounter_read_delta` when the counter reads `cycleNow`. -/
def readDelta (tc : Timecounter) (cycleNow : ℤ) : ℤ × Timecounter :=
  let (nsOffset, frac) := cc.cyc2ns (cc.masked (cycleNow - tc.cycleLast)) tc.frac
  (nsOffset, { tc with cycleLast := cycleNow, frac })

/-- `timecounter_read` when the counter reads `cycleNow`. -/
def read (tc : Timecounter) (cycleNow : ℤ) : ℤ × Timecounter :=
  let (nsec, tc) := tc.readDelta cc cycleNow
  let nsec := u64 (nsec + tc.nsec)
  (nsec, { tc with nsec })

/-- `timecounter_cyc2time` -/
def cyc2time (tc : Timecounter) (cycleTstamp : ℤ) : ℤ :=
  let delta := cc.masked (cycleTstamp - tc.cycleLast)
  if cc.halfMask < delta then
    u64 (tc.nsec - cc.cyc2nsBackwards (cc.masked (tc.cycleLast - cycleTstamp)) tc.frac)
  else u64 (tc.nsec + (cc.cyc2ns delta tc.frac).1)

/-! ### Reading -/

/-- The exact time in shifted nanoseconds, `cycles` after the start. -/
def exact (startTstamp cycles : ℤ) : ℤ := startTstamp * 2 ^ cc.shift + cycles * cc.mult

/-- The counter shows `x`, `cycles` after it showed `last`; before it, if they are negative. -/
def Shows (last cycles x : ℤ) : Prop := cc.masked (x - last) = cc.masked cycles

instance (last cycles x : ℤ) : Decidable (Shows cc last cycles x) :=
  inferInstanceAs (Decidable (_ = _))

/-- Time counters after reads less than a wrap of the counter apart; `total` cycles have elapsed. -/
inductive Reads (startTstamp : ℤ) : ℤ → Timecounter → Prop
  | init (cycles : ℤ) : Reads startTstamp 0 (init cycles startTstamp)
  | read {tc : Timecounter} {total elapsed cycleNow : ℤ} (h : Reads startTstamp total tc)
      (h0 : 0 ≤ elapsed)
    (hwrap : elapsed < 2 ^ cc.bits) (hnow : Shows cc tc.cycleLast elapsed cycleNow)
    (hfit : elapsed * cc.mult + tc.frac < 2 ^ 64) :
      Reads startTstamp (total + elapsed) (tc.read cc cycleNow).2

variable {cc}

variable {cycles time startTstamp total c : ℤ} {tc : Timecounter}

theorem Shows.masked_eq {last x : ℤ} (h : Shows cc last cycles x) (h0 : 0 ≤ cycles)
    (hlt : cycles < 2 ^ cc.bits) : cc.masked (x - last) = cycles :=
  Eq.trans h (Int.emod_eq_of_lt h0 hlt)

/-- The nanoseconds and the fraction together are the exact time. -/
structure Keeps (cc : Cyclecounter) (time : ℤ) (tc : Timecounter) : Prop where
  nsec_eq : tc.nsec = u64 (time / 2 ^ cc.shift)
  frac_eq : tc.frac = time % 2 ^ cc.shift

section
variable (h : Keeps cc time tc)
include h

theorem Keeps.frac_nonneg : 0 ≤ tc.frac := by
  rw [h.frac_eq]
  exact Int.emod_nonneg _ (by positivity)

/-- Elapsed time, added to the fraction, carries into the nanoseconds as it does in the exact time. -/
theorem Keeps.add (x : ℤ) :
    (x + tc.frac) / 2 ^ cc.shift + time / 2 ^ cc.shift = (time + x) / 2 ^ cc.shift ∧
      (x + tc.frac) % 2 ^ cc.shift = (time + x) % 2 ^ cc.shift := by
  have hsplit : time + x = x + tc.frac + time / 2 ^ cc.shift * 2 ^ cc.shift := by
    have hdiv := Int.emod_add_ediv_mul time (2 ^ cc.shift)
    rw [h.frac_eq]
    linarith
  rw [hsplit, Int.add_mul_ediv_right _ _ (by positivity), Int.add_mul_emod_self_right]
  exact ⟨rfl, rfl⟩

theorem Keeps.read {elapsed cycleNow : ℤ} (h0 : 0 ≤ elapsed)
    (hwrap : elapsed < 2 ^ cc.bits) (hnow : Shows cc tc.cycleLast elapsed cycleNow)
    (hfit : elapsed * cc.mult + tc.frac < 2 ^ 64) :
    Keeps cc (time + elapsed * cc.mult) (tc.read cc cycleNow).2 := by
  have hns : u64 (elapsed * cc.mult + tc.frac) = elapsed * cc.mult + tc.frac :=
    u64_eq (add_nonneg (mul_nonneg h0 cc.mult_pos.le) h.frac_nonneg) hfit
  obtain ⟨hdiv, hmod⟩ := h.add (elapsed * cc.mult)
  constructor
  · simp only [Timecounter.read, readDelta, Cyclecounter.cyc2ns, hnow.masked_eq h0 hwrap, hns, h.nsec_eq]
    rw [add_comm, u64_u64_add, add_comm, hdiv]
  simp only [Timecounter.read, readDelta, Cyclecounter.cyc2ns, hnow.masked_eq h0 hwrap, hns]
  exact hmod

end

theorem Reads.total_nonneg (h : Reads cc startTstamp total tc) : 0 ≤ total := by
  induction h with
  | init cycles => exact le_rfl
  | read _ h0 _ _ _ ih => exact add_nonneg ih h0

theorem exact_add (startTstamp a b : ℤ) :
    exact cc startTstamp (a + b) = exact cc startTstamp a + b * cc.mult := by
  simp only [exact]
  ring

theorem Reads.keeps (hs : 0 ≤ startTstamp) (hs64 : startTstamp < 2 ^ 64)
    (h : Reads cc startTstamp total tc) : Keeps cc (exact cc startTstamp total) tc := by
  induction h with
  | init cycles =>
    have hp : (2 : ℤ) ^ cc.shift ≠ 0 := by positivity
    constructor
    · rw [exact, zero_mul, add_zero, Int.mul_ediv_cancel _ hp, u64_eq hs hs64]
      rfl
    rw [exact, zero_mul, add_zero, Int.mul_emod_left]
    rfl
  | read _ h0 hwrap hnow hfit ih =>
    rw [exact_add]
    exact ih.read h0 hwrap hnow hfit

theorem Keeps.sum (h : Keeps cc time tc) (h0 : 0 ≤ time)
    (hlt : time < 2 ^ 64 * 2 ^ cc.shift) : tc.nsec * 2 ^ cc.shift + tc.frac = time := by
  have hq : time / 2 ^ cc.shift < 2 ^ 64 := Int.ediv_lt_of_lt_mul (by positivity) hlt
  rw [h.nsec_eq, h.frac_eq, u64_eq (Int.ediv_nonneg h0 (by positivity)) hq, add_comm]
  exact Int.emod_add_ediv_mul time (2 ^ cc.shift)

/-! ### Time stamps -/

/-- `t` nanoseconds are less than one away from `time`, which is in shifted ones. -/
def Near (cc : Cyclecounter) (time t : ℤ) : Prop := |t * 2 ^ cc.shift - time| < 2 ^ cc.shift

/-- The products for a stamp `cycles` away from the last reading fit in 64 bits. -/
def Fits (cc : Cyclecounter) (tc : Timecounter) (cycles : ℤ) : Prop :=
  |cycles| * cc.mult + (if 0 ≤ cycles then tc.frac else 0) < 2 ^ 64

/-- The stamp is so little in the past that the fraction is more than what is to be taken back. -/
def Borrows (cc : Cyclecounter) (tc : Timecounter) (cycles : ℤ) : Prop :=
  cycles < 0 ∧ -cycles * cc.mult < tc.frac

instance (tc : Timecounter) (cycles : ℤ) : Decidable (Fits cc tc cycles) :=
    inferInstanceAs (Decidable (_ < _))

instance (tc : Timecounter) (cycles : ℤ) : Decidable (Borrows cc tc cycles) :=
    inferInstanceAs (Decidable (_ ∧ _))

/-- The time of a stamp: rounded down from the last reading on, and up before it. -/
def stampTime (cc : Cyclecounter) (time cycles : ℤ) : ℤ :=
  if 0 ≤ cycles then (time + cycles * cc.mult) /
    2 ^ cc.shift else -(-(time + cycles * cc.mult) / 2 ^ cc.shift)

theorem stampTime_near (time cycles : ℤ) :
    Near cc (time + cycles * cc.mult) (stampTime cc time cycles) := by
  have hp : (0 : ℤ) < 2 ^ cc.shift := by positivity
  unfold Near stampTime
  generalize time + cycles * cc.mult = x
  rw [abs_lt]
  split
  · have hdiv := Int.emod_add_ediv_mul x (2 ^ cc.shift)
    have hge := Int.emod_nonneg x hp.ne'
    have hlt := Int.emod_lt_of_pos x hp
    constructor <;> linarith
  have hdiv := Int.emod_add_ediv_mul (-x) (2 ^ cc.shift)
  have hge := Int.emod_nonneg (-x) hp.ne'
  have hlt := Int.emod_lt_of_pos (-x) hp
  constructor <;> linarith

section
variable (h : Keeps cc time tc)
include h

theorem stampTime_le {a b : ℤ} (hab : a ≤ b) (ha : ¬Borrows cc tc a) :
    stampTime cc time a ≤ stampTime cc time b := by
  have hp : (0 : ℤ) < 2 ^ cc.shift := by positivity
  have hmul : a * cc.mult ≤ b * cc.mult := mul_le_mul_of_nonneg_right hab cc.mult_pos.le
  unfold stampTime
  split
  case isTrue ha0 =>
    rw [if_pos (ha0.trans hab)]
    exact Int.ediv_le_ediv hp (by linarith)
  case isFalse ha0 =>
    by_cases hb0 : 0 ≤ b
    · -- the last reading, rounded down, is between the two
      rw [if_pos hb0]
      have hfrac : tc.frac ≤ -a * cc.mult := not_lt.mp fun hlt => ha ⟨not_le.mp ha0, hlt⟩
      have hbm : 0 ≤ b * cc.mult := mul_nonneg hb0 cc.mult_pos.le
      have hdiv := Int.emod_add_ediv_mul time (2 ^ cc.shift)
      rw [← h.frac_eq] at hdiv
      have hlow : -(time / 2 ^ cc.shift) ≤ -(time + a * cc.mult) / 2 ^ cc.shift :=
        (Int.le_ediv_iff_mul_le hp).mpr (by linarith)
      have hhigh : time / 2 ^ cc.shift ≤ (time + b * cc.mult) / 2 ^ cc.shift :=
        Int.ediv_le_ediv hp (by linarith)
      linarith
    rw [if_neg hb0]
    have := Int.ediv_le_ediv hp (show -(time + b * cc.mult) ≤ -(time + a * cc.mult) by linarith)
    linarith

theorem cyc2time_backward (h0 : cycles < 0)
    (hle : -cycles ≤ cc.halfMask) (hc : Shows cc tc.cycleLast cycles c)
    (hfit : -cycles * cc.mult < 2 ^ 64) :
    tc.cyc2time cc c = u64 (time / 2 ^ cc.shift - u64 (-cycles * cc.mult - tc.frac) / 2 ^ cc.shift) := by
  have hlt : -cycles < 2 ^ cc.bits := by
    unfold Cyclecounter.halfMask at hle
    omega
  have hdelta : cc.masked (c - tc.cycleLast) = 2 ^ cc.bits + cycles := by
    rw [hc]
    unfold Cyclecounter.masked
    rw [← Int.add_emod_left]
    exact Int.emod_eq_of_lt (by linarith) (by linarith)
  have hback : cc.masked (tc.cycleLast - c) = -cycles := by
    have hneg : cc.masked (tc.cycleLast - c) = cc.masked (-cycles) := by
      rw [← neg_sub]
      exact Int.ModEq.neg hc
    rw [hneg]
    exact Int.emod_eq_of_lt (by linarith) hlt
  have hmul : u64 (-cycles * cc.mult) = -cycles * cc.mult :=
    u64_eq (mul_nonneg (by linarith) cc.mult_pos.le) hfit
  simp only [cyc2time, hdelta, hback, Cyclecounter.cyc2nsBackwards, hmul]
  rw [if_pos (by unfold Cyclecounter.halfMask at *; omega), h.nsec_eq]
  exact Int.emod_sub_emod ..

section
variable (hle : |cycles| ≤ cc.halfMask) (hc : Shows cc tc.cycleLast cycles c) (hfit : Fits cc tc cycles)
include hle hc hfit

theorem cyc2time_eq (hb : ¬Borrows cc tc cycles) :
    tc.cyc2time cc c = u64 (stampTime cc time cycles) := by
  unfold Fits at hfit
  unfold stampTime
  by_cases h0 : 0 ≤ cycles
  · rw [abs_of_nonneg h0] at hle hfit
    rw [if_pos h0] at hfit ⊢
    have hlt : cycles < 2 ^ cc.bits := by
      unfold Cyclecounter.halfMask at hle
      omega
    have hns : u64 (cycles * cc.mult + tc.frac) = cycles * cc.mult + tc.frac :=
      u64_eq (add_nonneg (mul_nonneg h0 cc.mult_pos.le) h.frac_nonneg) hfit
    simp only [cyc2time, Cyclecounter.cyc2ns, hc.masked_eq h0 hlt, hns]
    rw [if_neg (not_lt.mpr hle), h.nsec_eq, u64_u64_add, add_comm, (h.add _).1]
  have hneg : cycles < 0 := not_le.mp h0
  rw [abs_of_neg hneg] at hle hfit
  rw [if_neg h0, add_zero] at hfit
  rw [if_neg h0, cyc2time_backward h hneg hle hc hfit]
  have hfrac : tc.frac ≤ -cycles * cc.mult := not_lt.mp fun hlt => hb ⟨hneg, hlt⟩
  have hback : u64 (-cycles * cc.mult - tc.frac) = -cycles * cc.mult - tc.frac :=
    u64_eq (by linarith) (by linarith [h.frac_nonneg])
  -- the whole nanoseconds of the time leave the division
  have hsplit : -(time + cycles * cc.mult) = -cycles * cc.mult - tc.frac + -(time / 2 ^ cc.shift) *
    2 ^ cc.shift := by
    have hdiv := Int.emod_add_ediv_mul time (2 ^ cc.shift)
    rw [h.frac_eq]
    linarith
  rw [hback, hsplit, Int.add_mul_ediv_right _ _ (by positivity)]
  congr 1
  ring

/-- When the subtraction of the fraction wraps, the result is out by the whole range of the shifted
    type. -/
theorem cyc2time_borrows
    (hb : Borrows cc tc cycles) {t : ℤ} (hnear : Near cc (time + cycles * cc.mult) t) :
    tc.cyc2time cc c ≠ u64 t := by
  obtain ⟨hneg, hlt⟩ := hb
  unfold Fits at hfit
  rw [abs_of_neg hneg] at hle hfit
  rw [if_neg (not_le.mpr hneg), add_zero] at hfit
  have hp : (0 : ℤ) < 2 ^ cc.shift := by positivity
  have hD : 0 ≤ -cycles * cc.mult := mul_nonneg (by linarith) cc.mult_pos.le
  have hfrac : tc.frac < 2 ^ cc.shift := h.frac_eq ▸ Int.emod_lt_of_pos _ hp
  have hdiv := Int.emod_add_ediv_mul time (2 ^ cc.shift)
  rw [← h.frac_eq] at hdiv
  -- the exact time is in the nanosecond of the last reading
  have hshift : cc.shift ≠ 0 := by
    intro h0
    rw [h0] at hfrac
    linarith
  obtain ⟨hlo, hhi⟩ := abs_lt.mp hnear
  have htlo : time / 2 ^ cc.shift ≤ t := by
    have : time / 2 ^ cc.shift - 1 < t := lt_of_mul_lt_mul_right (by linarith) hp.le
    linarith
  have hthi : t ≤ time / 2 ^ cc.shift + 1 := by
    have : t < time / 2 ^ cc.shift + 2 := lt_of_mul_lt_mul_right (by linarith) hp.le
    linarith
  -- what is taken back
  have hpow : (2 : ℤ) ^ 64 = 2 ^ (64 - cc.shift) * 2 ^ cc.shift := by
    rw [← pow_add, Nat.sub_add_cancel (by have := cc.shift_lt; omega)]
  have hback : u64 (-cycles * cc.mult - tc.frac) / 2 ^ cc.shift = 2 ^ (64 - cc.shift) - 1 := by
    have hwrap : u64 (-cycles * cc.mult - tc.frac) = 2 ^ 64 + (-cycles * cc.mult - tc.frac) := by
      unfold u64
      rw [← Int.add_emod_left]
      have hmax : (2 : ℤ) ^ cc.shift ≤ 2 ^ 32 := pow_le_pow_right₀ (by norm_num) cc.shift_lt.le
      exact Int.emod_eq_of_lt (by linarith) (by linarith)
    rw [hwrap, hpow, add_comm, Int.add_mul_ediv_right _ _ hp.ne']
    have : (-cycles * cc.mult - tc.frac) / 2 ^ cc.shift = -1 := by
      rw [Int.ediv_eq_iff_of_pos hp]
      constructor <;> linarith
    linarith
  rw [cyc2time_backward h hneg hle hc hfit, hback]
  have hsmall : (2 : ℤ) ^ (64 - cc.shift) ≤ 2 ^ 63 := pow_le_pow_right₀ (by norm_num) (by omega)
  have hlarge : (2 : ℤ) ^ 33 ≤ 2 ^ (64 - cc.shift) :=
    pow_le_pow_right₀ (by norm_num) (by have := cc.shift_lt; omega)
  unfold u64
  omega

end

end

/-- The fraction carried from read to read makes the time exact. A stamp at most half a wrap away is
    converted to within a nanosecond, unless it is before the last reading by less than the fraction; and
    the stamps that are converted so are in order. -/
theorem timecounter_exact {startTstamp total : ℤ} {tc : Timecounter} (hs : 0 ≤ startTstamp)
    (hs64 : startTstamp < 2 ^ 64) (h : Reads cc startTstamp total tc) :
    (exact cc startTstamp total < 2 ^ 64 * 2 ^ cc.shift →
      tc.nsec * 2 ^ cc.shift + tc.frac = startTstamp * 2 ^ cc.shift + total * cc.mult) ∧
    (∀ elapsed cycleNow, 0 ≤ elapsed → elapsed < 2 ^ cc.bits → Shows cc tc.cycleLast elapsed cycleNow →
      elapsed * cc.mult + tc.frac < 2 ^ 64 →
      (tc.read cc cycleNow).1 = u64 (exact cc startTstamp (total + elapsed) / 2 ^ cc.shift)) ∧
    (∀ cycles c, Shows cc tc.cycleLast cycles c → |cycles| ≤ cc.halfMask → Fits cc tc cycles →
      ((∃ t, tc.cyc2time cc c = u64 t ∧ Near cc (exact cc startTstamp (total + cycles)) t) ↔
        ¬Borrows cc tc cycles)) ∧
    ∀ cycles c cycles' c',
    Shows cc tc.cycleLast cycles c → |cycles| ≤ cc.halfMask → Fits cc tc cycles →
    ¬Borrows cc tc cycles →
    Shows cc tc.cycleLast cycles' c' → |cycles'| ≤ cc.halfMask → Fits cc tc cycles' →
    ¬Borrows cc tc cycles' → cycles ≤ cycles' →
    ∃ t t', tc.cyc2time cc c = u64 t ∧ tc.cyc2time cc c' = u64 t' ∧ t ≤ t' ∧
    Near cc (exact cc startTstamp (total + cycles)) t ∧
    Near cc (exact cc startTstamp (total + cycles')) t' := by
  have hk := h.keeps hs hs64
  refine ⟨hk.sum ?_, ?_, fun cycles c hc hle hfit => ⟨?_, ?_⟩, ?_⟩
  · exact add_nonneg (mul_nonneg hs (by positivity)) (mul_nonneg h.total_nonneg cc.mult_pos.le)
  · intro elapsed cycleNow h0 hwrap hnow hfit
    exact ((Reads.read h h0 hwrap hnow hfit).keeps hs hs64).nsec_eq
  · rw [exact_add]
    rintro ⟨t, ht, hnear⟩ hb
    exact cyc2time_borrows hk hle hc hfit hb hnear ht
  · rw [exact_add]
    exact fun hb => ⟨_, cyc2time_eq hk hle hc hfit hb, stampTime_near _ _⟩
  intro cycles c cycles' c' hc hle hfit hb hc' hle' hfit' hb' hcc
  rw [exact_add, exact_add]
  exact ⟨_, _, cyc2time_eq hk hle hc hfit hb, cyc2time_eq hk hle' hc' hfit' hb', stampTime_le hk hcc hb,
    stampTime_near _ _, stampTime_near _ _⟩

/-! ### A counter of 4 GHz -/

section

def fastCounter : Cyclecounter := ⟨64, 1, 2, by decide, by decide, by decide, by decide⟩

/-- Read 7 cycles after the start at 1000 ns: one whole nanosecond and three quarters. -/
def fastRead : Timecounter := ⟨7, 1001, 3⟩

theorem fastRead_reads : Reads fastCounter 1000 7 fastRead := by
  have hinit : Reads fastCounter 1000 0 (init 0 1000) := .init 0
  have hnow : Shows fastCounter 0 7 7 := by decide
  exact .read hinit (by decide) (by decide) hnow (by decide)

/-- A stamp of five cycles before the reading. -/
theorem timecounter_exact_fast : ∃ t, fastRead.cyc2time fastCounter 2 = u64 t ∧
    Near fastCounter (exact fastCounter 1000 (7 + -5)) t :=
  ((timecounter_exact (by decide) (by decide) fastRead_reads).2.2.1 (-5) 2 (by decide) (by decide)
    (by decide)).mpr (by decide)

/-- A stamp of one cycle before the reading is put many years into the past. -/
theorem timecounter_stamp_wraps :
    Reads fastCounter 1000 7 fastRead ∧ Shows fastCounter fastRead.cycleLast (-1) 6 ∧
    |(-1 : ℤ)| ≤ fastCounter.halfMask ∧ Fits fastCounter fastRead (-1) ∧
    fastRead.cyc2time fastCounter 6 = 2 ^ 64 + 1001 - (2 ^ 62 - 1) ∧ ∀ t,
    fastRead.cyc2time fastCounter 6 = u64 t → ¬Near fastCounter (exact fastCounter 1000 (7 + -1)) t := by
  have hshows : Shows fastCounter fastRead.cycleLast (-1) 6 := by decide
  have hk := fastRead_reads.keeps (by decide) (by decide)
  refine ⟨fastRead_reads, hshows, by decide, by decide, by decide, fun t ht hnear => ?_⟩
  exact cyc2time_borrows hk (by decide) hshows (by decide) (by decide) hnear ht

end

end Timecounter

end LinuxNote.Timekeeping
