import LinuxNote.Lib.Word
import Mathlib.Algebra.BigOperators.Intervals
import Mathlib.Algebra.Order.BigOperators.Group.Finset
import Mathlib.Tactic.IntervalCases
import Mathlib.Tactic.Linarith

/-! Conversions of `kernel/time` on words: `scale64_check_overflow` of `timekeeping.c`, of `time.c` the
    jiffies of a time and the seconds of a date, and `clocks_calc_mult_shift` of `clocksource.c`. -/

namespace LinuxNote.Timekeeping
open Finset Word

/-! ### Scaling by a fraction -/

/-- `fls64` -/
def fls64 (x : ℕ) : ℕ := if x = 0 then 0 else x.log2 + 1

/-- `scale64_check_overflow`. `do_div` cuts its divisor to 32 bits; the outer `none` is a division by
    zero, the inner `-EOVERFLOW`. -/
def scale64CheckOverflow (mult div base : ℕ) : Option (Option ℕ) :=
  let tmp := base / div
  let rem := base % div
  if 64 - fls64 mult < fls64 tmp ∨ 64 - fls64 mult < fls64 rem then some none
  else if div % 2 ^ 32 = 0 then none
  else some (some ((tmp * mult % 2 ^ 64 + rem * mult % 2 ^ 64 / (div % 2 ^ 32)) % 2 ^ 64))

theorem fls64_le_iff {x n : ℕ} : fls64 x ≤ n ↔ x < 2 ^ n := by
  unfold fls64
  split
  · simp_all
  · rw [← Nat.log2_lt ‹_›, Nat.succ_le_iff]

/-- Two numbers whose lengths fit the word together have a product that fits. -/
theorem mul_lt_of_fls64 {x mult : ℕ} (hm : mult < 2 ^ 64) (h : ¬64 - fls64 mult < fls64 x) :
    x * mult < 2 ^ 64 := by
  have hlen := fls64_le_iff.mpr hm
  calc x * mult < 2 ^ fls64 x * 2 ^ fls64 mult :=
    Nat.mul_lt_mul'' (fls64_le_iff.mp le_rfl) (fls64_le_iff.mp le_rfl)
    _ = 2 ^ (fls64 x + fls64 mult) := (pow_add 2 _ _).symm
    _ ≤ 2 ^ 64 := Nat.pow_le_pow_right (by decide) (by omega)

/-- Dividing by less than half as much gives the same quotient only where nothing is left to divide. -/
theorem div_eq_div_iff_lt {x d div : ℕ} (h : d ≠ 0) (hd : 2 * d ≤ div) : x / d = x / div ↔ x < d := by
  have htwice : x / div ≤ x / d / 2 := by
    rw [Nat.div_div_eq_div_mul]
    exact Nat.div_le_div_left (by omega) (by omega)
  have hzero : x / d = 0 ↔ x < d := by simp [h]
  rw [← hzero]
  generalize x / d = q, x / div = p at *
  omega

/-- The new base is the exact quotient just where the divisor fits 32 bits, or what its low 32 bits
    divide is below them. Low bits of zero are a fault, and a product too long is refused. -/
theorem scale64CheckOverflow_exact_iff {mult div base : ℕ} (hm : mult ≤ div) (h0 : 0 < div)
    (hd : div < 2 ^ 64) (hb : base < 2 ^ 64) :
    (∀ new, scale64CheckOverflow mult div base = some (some new) → new = base * mult / div) ↔
    div < 2 ^ 32 ∨ base % div * mult < div % 2 ^ 32 ∨ div % 2 ^ 32 = 0 ∨
    64 - fls64 mult < fls64 (base / div) ∨ 64 - fls64 mult < fls64 (base % div) := by
  rw [scale64CheckOverflow]
  split_ifs with hov hz
  · simp [hov]
  · simp only [hz, true_or, or_true, iff_true]
    rintro new ⟨⟩
  have htmp := mul_lt_of_fls64 (hm.trans_lt hd) (not_or.mp hov).1
  have hrem := mul_lt_of_fls64 (hm.trans_lt hd) (not_or.mp hov).2
  have hsplit : base * mult / div = base / div * mult + base % div * mult / div := by
    conv_lhs => rw [← Nat.div_add_mod base div, Nat.add_mul, Nat.mul_assoc, Nat.mul_add_div h0]
  have hle : base * mult / div ≤ base :=
    Nat.div_le_of_le_mul (by rw [Nat.mul_comm]; exact Nat.mul_le_mul_right _ hm)
  have hcut := Nat.div_le_self (base % div * mult) (div % 2 ^ 32)
  have hsame : base % div * mult / (div % 2 ^ 32) = base % div * mult / div ↔
      div < 2 ^ 32 ∨ base % div * mult < div % 2 ^ 32 := by
    by_cases hlow : div < 2 ^ 32
    · simp only [hlow, Nat.mod_eq_of_lt, true_or]
    · rw [div_eq_div_iff_lt hz (by omega), or_iff_right hlow]
  simp only [hov, hz, or_false, Option.some.injEq, forall_eq', Nat.mod_eq_of_lt htmp,
    Nat.mod_eq_of_lt hrem, ← hsame]
  generalize base % div * mult / (div % 2 ^ 32) = p, base % div * mult / div = q,
    base * mult / div = r at *
  omega

theorem scale64CheckOverflow_wrong : scale64CheckOverflow 2 (2 ^ 32 + 1) 2 = some (some 4) ∧
    2 * 2 / (2 ^ 32 + 1) = 0 := by
  decide

theorem scale64CheckOverflow_exact_half : scale64CheckOverflow 1 2 7 = some (some 3) ∧ 3 = 7 * 1 / 2 :=
  ⟨by decide, (scale64CheckOverflow_exact_iff (by decide) (by decide) (by decide) (by decide)).mpr
    (.inl (by decide)) 3 (by decide)⟩

/-! ### Jiffies -/

section

variable (hz : ℕ)

def tickNsec : ℕ := (10 ^ 9 + hz / 2) / hz

/-- `SHIFT_HZ`: 4 from 12 Hz on, one more at each doubling. -/
def shiftHz : ℕ := (hz / 12).log2 + 4

/-- `SEC_JIFFIE_SC` -/
def secJiffieSc : ℕ :=
  if (10 ^ 9 * 4 / tickNsec hz * 2 ^ (31 - shiftHz hz - 2)).testBit 31 then 31 - shiftHz hz else 32
    - shiftHz hz

def secConversion : ℕ := (10 ^ 9 * 2 ^ secJiffieSc hz + tickNsec hz - 1) / tickNsec hz

/-- `NSEC_CONVERSION`; `NSEC_JIFFIE_SC` is `SEC_JIFFIE_SC` + 29. -/
def nsecConversion : ℕ := (2 ^ (secJiffieSc hz + 29) + tickNsec hz - 1) / tickNsec hz

/-- `SH_DIV` -/
def shDiv (nom den lsh : ℕ) : ℕ := nom / den * 2 ^ lsh + (nom % den * 2 ^ lsh + den / 2) / den

/-- `MAX_SEC_IN_JIFFIES` on 64 bits, where `MAX_JIFFY_OFFSET` is `2^62 - 2`. -/
def maxSecInJiffies : ℕ := shDiv ((2 ^ 62 - 2) / 2 ^ secJiffieSc hz * tickNsec hz) (10 ^ 9) 1 - 1

/-- `timespec64_to_jiffies` -/
def timespec64ToJiffies (sec nsec : ℕ) : ℕ :=
  let t := if maxSecInJiffies hz ≤ sec then (maxSecInJiffies hz, 0) else (sec, nsec + tickNsec hz - 1)
  (t.1 * secConversion hz % 2 ^ 64 + t.2 * nsecConversion hz % 2 ^ 64 / 2 ^ 29) % 2 ^ 64 /
    2 ^ secJiffieSc hz

/-- `jiffies_to_timespec64` -/
def jiffiesToTimespec64 (jiffies : ℕ) : ℕ × ℕ :=
  (jiffies * tickNsec hz % 2 ^ 64 / 10 ^ 9, jiffies * tickNsec hz % 2 ^ 64 % 10 ^ 9)

/-- What the constants of a supported frequency satisfy: seconds convert exactly, and the multiplier of
    the nanoseconds is rounded up by too little to reach the next tick within a second. -/
structure Scaled : Prop where
  tick : tickNsec hz * hz = 10 ^ 9
  sec : secConversion hz = hz * 2 ^ secJiffieSc hz
  nsec : 2 ^ (29 + secJiffieSc hz) ≤ tickNsec hz * nsecConversion hz
  error : (10 ^ 9 + tickNsec hz) * (tickNsec hz * nsecConversion hz - 2 ^ (29 + secJiffieSc hz)) <
    2 ^ (29 + secJiffieSc hz)
  secFits : maxSecInJiffies hz * secConversion hz < 2 ^ 63
  nsecFits : (10 ^ 9 + tickNsec hz) * nsecConversion hz < 2 ^ 63

end

/-- A multiplier `c` of `m / t` rounded up divides by `t` exactly while its error stays below one
    unit. -/
theorem mul_div_eq_div {n t c m : ℕ} (ht : 0 < t) (h : m ≤ t * c) (hr : n * (t * c - m) < m) :
    n * c / m = n / t := by
  apply Nat.div_eq_of_lt_le
  · calc n / t * m ≤ n / t * (t * c) := Nat.mul_le_mul_left _ h
      _ = n / t * t * c := (Nat.mul_assoc ..).symm
      _ ≤ n * c := Nat.mul_le_mul_right _ (Nat.div_mul_le_self n t)
  apply Nat.lt_of_mul_lt_mul_left (a := t)
  calc t * (n * c) = n * m + n *
    (t * c - m) := by rw [← Nat.mul_add, Nat.add_sub_cancel' h, Nat.mul_left_comm]
    _ < (n + 1) * m := by rw [Nat.add_one_mul]; omega
    _ ≤ (t * (n / t + 1)) * m := Nat.mul_le_mul_right _ (Nat.lt_mul_div_succ n ht)
    _ = t * ((n / t + 1) * m) := Nat.mul_assoc ..

theorem Scaled.tick_pos {hz : ℕ} (h : Scaled hz) : 0 < tickNsec hz :=
  Nat.pos_of_ne_zero fun h0 => by simpa [h0] using h.tick

/-- Neither product wraps, nor their sum, and the shifts leave the ticks of the time rounded up. -/
theorem Scaled.timespec64ToJiffies_eq {hz sec nsec : ℕ} (h : Scaled hz) (hs : sec < maxSecInJiffies hz)
    (hn : nsec < 10 ^ 9) :
    sec * secConversion hz + (nsec + tickNsec hz - 1) * nsecConversion hz < 2 ^ 64 ∧
      timespec64ToJiffies hz sec nsec = (sec * 10 ^ 9 + nsec + tickNsec hz - 1) / tickNsec hz := by
  have hpos := h.tick_pos
  have hle : nsec + tickNsec hz - 1 ≤ 10 ^ 9 + tickNsec hz := by omega
  have hsec := (Nat.mul_le_mul_right (secConversion hz) hs.le).trans_lt h.secFits
  have hnsec := (Nat.mul_le_mul_right (nsecConversion hz) hle).trans_lt h.nsecFits
  refine ⟨by omega, ?_⟩
  have hquot := mul_div_eq_div hpos h.nsec ((Nat.mul_le_mul_right _ hle).trans_lt h.error)
  have hmul : (sec * 10 ^ 9 + nsec + tickNsec hz - 1) = nsec + tickNsec hz - 1 + sec * hz *
    tickNsec hz := by
    rw [Nat.mul_assoc, Nat.mul_comm hz, h.tick]
    omega
  rw [hmul, Nat.add_mul_div_right _ _ hpos, ← hquot, Nat.pow_add, ← Nat.div_div_eq_div_mul,
    ← Nat.add_mul_div_right _ _ (Nat.two_pow_pos _), Nat.add_comm (_ / _)]
  rw [timespec64ToJiffies, if_neg hs.not_ge]
  dsimp only
  rw [Nat.mod_eq_of_lt (hsec.trans (by decide)), Nat.mod_eq_of_lt (hnsec.trans (by decide)),
    Nat.mod_eq_of_lt (by omega), h.sec, ← Nat.mul_assoc]

/-- A time in range becomes its ticks rounded up, in words that do not overflow. Ticks become the time
    that gives them back unless their nanoseconds leave the word. -/
theorem timespec64ToJiffies_exact_iff {hz : ℕ} (hhz : hz ∈ [100, 250, 1000]) :
    (∀ sec < maxSecInJiffies hz, ∀ nsec < 10 ^ 9,
      sec * secConversion hz + (nsec + tickNsec hz - 1) * nsecConversion hz < 2 ^ 64 ∧
        timespec64ToJiffies hz sec nsec = (sec * 10 ^ 9 + nsec + tickNsec hz - 1) / tickNsec hz) ∧
    ∀ j, (jiffiesToTimespec64 hz j).1 < maxSecInJiffies hz →
      (timespec64ToJiffies hz (jiffiesToTimespec64 hz j).1 (jiffiesToTimespec64 hz j).2 = j ↔
        j * tickNsec hz < 2 ^ 64) := by
  have h : Scaled hz := by
    simp only [List.mem_cons, List.not_mem_nil, or_false] at hhz
    rcases hhz with rfl | rfl | rfl <;> constructor <;> decide +kernel
  refine ⟨fun sec hs nsec hn => h.timespec64ToJiffies_eq hs hn, fun j hj => ?_⟩
  have hle := Nat.le_of_dvd (by decide) ⟨hz, h.tick.symm⟩
  have hpos := h.tick_pos
  rw [(h.timespec64ToJiffies_eq hj
    (show (jiffiesToTimespec64 hz j).2 < _ from Nat.mod_lt _ (by decide))).2, jiffiesToTimespec64,
    Nat.div_add_mod', Nat.add_sub_assoc hpos]
  constructor
  · intro heq
    have := Nat.div_mul_le_self (j * tickNsec hz % 2 ^ 64 + (tickNsec hz - 1)) (tickNsec hz)
    rw [heq] at this
    omega
  · intro hlt
    rw [Nat.mod_eq_of_lt hlt, Nat.add_comm, Nat.add_mul_div_right _ _ hpos, Nat.div_eq_of_lt (by omega),
      Nat.zero_add]

/-- The nanoseconds of 4611686018428 ticks of 4 ms wrap to 2448384: one tick is read back. -/
theorem timespec64ToJiffies_wraps :
    jiffiesToTimespec64 250 4611686018428 = (0, 2448384) ∧ 0 < maxSecInJiffies 250 ∧
      timespec64ToJiffies 250 0 2448384 = 1 := by
  refine ⟨?_, ?_, ?_⟩ <;> decide +kernel

theorem timespec64ToJiffies_exact_hour : timespec64ToJiffies 250 3600 1 = 900001 ∧
    timespec64ToJiffies 250 (jiffiesToTimespec64 250 900001).1 (jiffiesToTimespec64 250 900001).2 =
      900001 := by
  have h := timespec64ToJiffies_exact_iff (show 250 ∈ [100, 250, 1000] by decide)
  exact ⟨(h.1 3600 (by decide +kernel) 1 (by decide)).2,
    (h.2 900001 (by decide +kernel)).mpr (by decide)⟩

/-! ### Dates -/

/-- `mktime64`. What is an `unsigned int` wraps at 32 bits; the rest does not leave 64. -/
def mktime64 (year0 mon0 day hour min sec : ℤ) : ℤ :=
  let mon := u32 (mon0 - 2)
  let (mon, year) := if s32 mon ≤ 0 then (u32 (mon + 12), u32 (year0 - 1)) else (mon, year0)
  (((u32 (year / 4 - year / 100 + year / 400 + u32 (367 * mon) / 12 + day) + u32 (year * 365) - 719499) *
    24 + hour) * 60 + min) * 60 + sec

/-- The days of a month, by the Gregorian leap rule. -/
def monthDays (year mon : ℕ) : ℕ :=
  if mon = 2 then if year % 4 = 0 ∧ (year % 100 ≠ 0 ∨ year % 400 = 0) then 29 else 28
  else if mon = 4 ∨ mon = 6 ∨ mon = 9 ∨ mon = 11 then 30 else 31

/-- The days from 1970-01-01 to a date. -/
def daysSinceEpoch (year mon day : ℕ) : ℕ :=
  ∑ y ∈ Ico 1970 year, ∑ m ∈ Ico 1 13, monthDays y m + ∑ m ∈ Ico 1 mon, monthDays year m + (day - 1)

/-- `day` of `mon` is a date of the calendar, in a year whose days are counted in a word. -/
structure IsDate (year mon day : ℕ) : Prop where
  year_ge : 1970 ≤ year
  year_lt : year * 366 < 2 ^ 32
  mon_ge : 1 ≤ mon
  mon_le : mon ≤ 12
  day_ge : 1 ≤ day
  day_le : day ≤ monthDays year mon

/-- From March on, the months have the lengths that `367 * mon / 12` steps by. -/
theorem sum_monthDays (year : ℕ) {mon : ℕ} (hm : 1 ≤ mon) (hm' : mon ≤ 13) :
    ∑ m ∈ Ico 1 mon, monthDays year m = if mon ≤ 2 then 31 * (mon - 1) else 367 * (mon - 2) / 12 + 1 +
      monthDays year 2 := by
  interval_cases mon <;> simp [sum_Ico_succ_top, monthDays] <;> omega

/-- The days of `n` years from 1970 on; up to 1969 there are 477 leap years. -/
theorem sum_yearDays (n : ℕ) :
    ∑ y ∈ Ico 1970 (1970 + n), ∑ m ∈ Ico 1 13, monthDays y m + 477 + (1969 + n) / 100 = 365 * n +
      (1969 + n) / 4 + (1969 + n) / 400 := by
  induction n with
  | zero => rfl
  | succ n ih =>
    rw [← Nat.add_assoc, sum_Ico_succ_top (by omega), sum_monthDays _ (by decide) (by decide),
      if_neg (by decide)]
    generalize ∑ y ∈ Ico 1970 (1970 + n), ∑ m ∈ Ico 1 13, monthDays y m = years at *
    simp only [monthDays, if_true]
    split_ifs <;> omega

/-- No word wraps. The year and the month are counted from March, so a year's leap day comes after its
    other days. -/
theorem IsDate.mktime64_eq {year mon day : ℕ} (h : IsDate year mon day) (hour min sec : ℤ) :
    mktime64 year mon day hour min sec = 86400 * daysSinceEpoch year mon day + 3600 * hour + 60 *
      min + sec := by
  obtain ⟨hy, hy', hm, hm', hd, hd'⟩ := h
  have hday : day ≤ 31 := hd'.trans (by unfold monthDays; split_ifs <;> omega)
  have hwords : ∀ y m : ℤ, 0 ≤ y → y * 366 < 2 ^ 32 → 1 ≤ m → m ≤ 12 →
      u32 (y / 4 - y / 100 + y / 400 + u32 (367 * m) / 12 + day) + u32 (y * 365) =
        y / 4 - y / 100 + y / 400 + 367 * m / 12 + day + y * 365 := by
    intro y m _ _ _ _
    rw [u32_eq (x := 367 * m) (by omega) (by omega), u32_eq (by omega) (by omega),
      u32_eq (by omega) (by omega)]
  rw [daysSinceEpoch, sum_monthDays _ hm (by omega), mktime64]
  obtain ⟨n, rfl⟩ := Nat.exists_eq_add_of_le hy
  by_cases hlate : mon ≤ 2
  · have hbefore : s32 (u32 (mon - 2)) ≤ 0 := by
      obtain rfl | rfl : mon = 1 ∨ mon = 2 := by omega
      all_goals decide
    have hmon : u32 (u32 (mon - 2) + 12) = mon + 10 := by unfold u32; omega
    have hyear : u32 ((1970 + n : ℕ) - 1) = 1969 + n := by unfold u32; omega
    have hdays : 367 * ((mon : ℤ) + 10) / 12 = 305 + 31 * mon := by omega
    simp only [hlate, hbefore, if_true, hmon, hyear]
    rw [hwords _ _ (by omega) (by omega) (by omega) (by omega), hdays]
    have hyears := sum_yearDays n
    generalize ∑ y ∈ Ico 1970 (1970 + n), ∑ m ∈ Ico 1 13, monthDays y m = years at *
    clear hbefore hmon hyear hdays hwords hd'
    omega
  have hmon : u32 (mon - 2) = mon - 2 := u32_eq (by omega) (by omega)
  have hafter : ¬s32 (mon - 2) ≤ 0 := by rw [s32_eq] <;> omega
  have hdays : 367 * ((mon : ℤ) - 2) / 12 = (367 * (mon - 2) / 12 : ℕ) := by omega
  simp only [hlate, hmon, hafter, if_false]
  rw [hwords _ _ (by omega) (by omega) (by omega) (by omega), hdays]
  have hyears := sum_yearDays (n + 1)
  rw [← Nat.add_assoc, sum_Ico_succ_top (by omega), sum_monthDays _ (by decide) (by decide),
    if_neg (by decide)] at hyears
  generalize ∑ y ∈ Ico 1970 (1970 + n), ∑ m ∈ Ico 1 13, monthDays y m = years at *
  generalize monthDays (1970 + n) 2 = february, 367 * (mon - 2) / 12 = months at *
  clear hmon hafter hdays hwords hd'
  omega

/-- What is left in one term of a sum is below the next. -/
theorem sum_add_lt {f : ℕ → ℕ} {a i j r : ℕ} (ha : a ≤ i) (hij : i < j) (hr : r < f i) :
    ∑ k ∈ Ico a i, f k + r < ∑ k ∈ Ico a j, f k := by
  have hle : ∑ k ∈ Ico a (i + 1), f k ≤ ∑ k ∈ Ico a j, f k :=
    sum_le_sum_of_subset (Ico_subset_Ico_right hij)
  rw [sum_Ico_succ_top ha] at hle
  omega

theorem IsDate.daysSinceEpoch_lt {year mon day year' mon' day' : ℕ} (h : IsDate year mon day)
    (h' : IsDate year' mon' day') (hlt : year < year' ∨ year = year' ∧
      (mon < mon' ∨ mon = mon' ∧ day < day')) :
    daysSinceEpoch year mon day < daysSinceEpoch year' mon' day' := by
  obtain ⟨hy, -, hm, hm', hd, hd'⟩ := h
  have hd0 := h'.day_ge
  unfold daysSinceEpoch
  obtain hlt | ⟨rfl, hlt | ⟨rfl, hlt⟩⟩ := hlt
  · have hmonth := sum_add_lt (f := monthDays year) (j := 13) (r := day - 1) hm (by omega) (by omega)
    have hyear := sum_add_lt (f := fun y => ∑ m ∈ Ico 1 13, monthDays y m) hy hlt hmonth
    omega
  · have hmonth := sum_add_lt (f := monthDays year) (r := day - 1) hm hlt (by omega)
    omega
  · omega

/-- Seconds are counted by the Gregorian calendar, so a later date has more of them. -/
theorem mktime64_counts_days {year mon day : ℕ} (h : IsDate year mon day) (hour min sec : ℕ) :
    mktime64 year mon day hour min sec =
      86400 * daysSinceEpoch year mon day + 3600 * hour + 60 * min + sec ∧
    ∀ {year' mon' day' : ℕ}, IsDate year' mon' day' →
    (year < year' ∨ year = year' ∧ (mon < mon' ∨ mon = mon' ∧ day < day')) →
    mktime64 year mon day hour min sec < mktime64 year' mon' day' hour min sec := by
  refine ⟨h.mktime64_eq _ _ _, fun h' hlt => ?_⟩
  have hdays := h.daysSinceEpoch_lt h' hlt
  rw [h.mktime64_eq, h'.mktime64_eq]
  omega

theorem mktime64_counts_days_leap :
    mktime64 2000 2 29 24 0 60 = 86400 * daysSinceEpoch 2000 2 29 + 3600 * 24 + 60 * 0 + 60 ∧
    mktime64 2000 2 29 24 0 60 < mktime64 2000 3 1 24 0 60 := by
  have h := mktime64_counts_days (show IsDate 2000 2 29 by constructor <;> decide) 24 0 60
  exact ⟨h.1, h.2 (show IsDate 2000 3 1 by constructor <;> decide) (by decide)⟩

/-! ### The multiplier of a clock source -/

/-- The first loop of `clocks_calc_mult_shift`, which takes the length of `tmp` off `sftacc`. -/
def spareBits (tmp : ℕ) : ℕ → ℕ
  | 0 => 0
  | sftacc + 1 => if tmp = 0 then sftacc + 1 else spareBits (tmp / 2) sftacc

/-- `to * 2^shift / from`, rounded. -/
def multFor (src dst shift : ℕ) : ℕ := (dst * 2 ^ shift + src / 2) / src

/-- The second loop, with `tmp` from the round before: `mult` and `shift`. -/
def tryShifts (src dst sftacc : ℕ) : ℕ → ℕ → ℕ × ℕ
  | 0, tmp => (tmp % 2 ^ 32, 0)
  | sft + 1, _ =>
    let tmp := (dst * 2 ^ (sft + 1) + src / 2) % 2 ^ 64 / src
    if tmp / 2 ^ sftacc = 0 then (tmp % 2 ^ 32, sft + 1) else tryShifts src dst sftacc sft tmp

/-- `clocks_calc_mult_shift`, from `src` to `dst`. -/
def clocksCalcMultShift (src dst maxsec : ℕ) : ℕ × ℕ :=
  tryShifts src dst (spareBits (maxsec * src / 2 ^ 32) 32) 32 (maxsec * src / 2 ^ 32)

theorem spareBits_spec :
    ∀ {tmp sftacc : ℕ}, tmp < 2 ^ sftacc → (tmp + 1) * 2 ^ spareBits tmp sftacc ≤ 2 ^ sftacc
  | tmp, 0, h => by simp_all [spareBits]
  | tmp, sftacc + 1, h => by
    rw [spareBits]
    split
    · simp [*]
    rw [pow_succ] at h ⊢
    have ih := spareBits_spec (show tmp / 2 < 2 ^ sftacc by omega)
    have hhalf :=
      Nat.mul_le_mul_right (2 ^ spareBits (tmp / 2) sftacc) (show tmp + 1 ≤ 2 * (tmp / 2 + 1) by omega)
    rw [Nat.mul_assoc] at hhalf
    omega

/-- What is asked of a shift: its multiplier fits 32 bits, and no count up to `cycles` overflows with
    it. -/
def Fits (src dst cycles shift : ℕ) : Prop :=
  multFor src dst shift < 2 ^ 32 ∧ ∀ c ≤ cycles, c * multFor src dst shift < 2 ^ 64

/-- The multiplier is that of its shift, which fits, and no larger one does. -/
def Best (src dst cycles : ℕ) (res : ℕ × ℕ) : Prop :=
  res.1 = multFor src dst res.2 ∧ Fits src dst cycles res.2 ∧ ∀ s, res.2 < s → s ≤ 32 →
    ¬Fits src dst cycles s

section

variable {src dst maxsec : ℕ} (h0 : 0 < src) (hs : src < 2 ^ 32) (hd : dst < 2 ^ 32)
  (hm : maxsec < 2 ^ 32)

include hs hm in
/-- The bit-length test is enough. -/
theorem fits_of_lt {shift : ℕ} (h : multFor src dst shift < 2 ^ spareBits (maxsec * src / 2 ^ 32) 32) :
    Fits src dst (maxsec * src) shift := by
  have hcycles : maxsec * src < 2 ^ 32 * 2 ^ 32 := Nat.mul_lt_mul'' hm hs
  have hspec := spareBits_spec (Nat.div_lt_of_lt_mul hcycles)
  refine ⟨h.trans_le ((Nat.le_mul_of_pos_left _ (Nat.succ_pos _)).trans hspec), fun c hc => ?_⟩
  generalize 2 ^ spareBits (maxsec * src / 2 ^ 32) 32 = p at *
  have hlt : maxsec * src < 2 ^ 32 * (maxsec * src / 2 ^ 32 + 1) := Nat.lt_mul_div_succ _ (by decide)
  calc c * multFor src dst shift ≤ maxsec * src * p := Nat.mul_le_mul hc h.le
    _ < 2 ^ 32 * (maxsec * src / 2 ^ 32 + 1) * p := Nat.mul_lt_mul_of_pos_right hlt (by omega)
    _ ≤ 2 ^ 64 := by rw [Nat.mul_assoc]; exact Nat.mul_le_mul_left (2 ^ 32) hspec

include hs hd in
/-- The loop stops at the largest shift that passes the test. At its end the multiplier is still that of
    shift 1. -/
theorem tryShifts_spec (sftacc : ℕ) : ∀ {n : ℕ} (tmp : ℕ), n ≤ 32 →
    ∃ shift ≤ n, (∀ s, shift < s → s ≤ n → ¬multFor src dst s < 2 ^ sftacc) ∧
    (0 < shift ∧ multFor src dst shift < 2 ^ sftacc ∧ tryShifts src dst sftacc n tmp =
        (multFor src dst shift % 2 ^ 32, shift) ∨ shift = 0 ∧ tryShifts src dst sftacc n tmp =
        (if n = 0 then tmp % 2 ^ 32 else multFor src dst 1 % 2 ^ 32, 0))
  | 0, tmp, _ => ⟨0, le_rfl, by omega, .inr ⟨rfl, rfl⟩⟩
  | n + 1, tmp, hn => by
    have hpow : 2 ^ (n + 1) ≤ 2 ^ 32 := Nat.pow_le_pow_right (by decide) hn
    have hword : dst * 2 ^ (n + 1) + src / 2 < 2 ^ 64 := by nlinarith [Nat.div_le_self src 2]
    have hround : (dst * 2 ^ (n + 1) + src / 2) % 2 ^ 64 / src = multFor src dst (n + 1) := by
      rw [Nat.mod_eq_of_lt hword, multFor]
    simp only [tryShifts, hround, Nat.div_eq_zero_iff_lt (Nat.two_pow_pos _)]
    by_cases htest : multFor src dst (n + 1) < 2 ^ sftacc
    · exact ⟨n + 1, le_rfl, by omega, .inl ⟨by omega, htest, if_pos htest⟩⟩
    obtain ⟨shift, hle, hno, hres⟩ :=
      tryShifts_spec sftacc (multFor src dst (n + 1)) (Nat.le_of_succ_le hn)
    refine ⟨shift, by omega, fun s hlt hs' => ?_, ?_⟩
    · obtain hs' | rfl := Nat.of_le_succ hs'
      · exact hno s hlt hs'
      · exact htest
    rw [if_neg htest]
    refine hres.imp id fun hres => ⟨hres.1, hres.2.trans ?_⟩
    obtain rfl | hn := Nat.eq_zero_or_pos n
    · rfl
    · simp [hn.ne']

include h0 hs hd hm in
/-- The pair stored is the best one just where the largest shift that fits, at least 1, passes the
    bit-length test. -/
theorem clocksCalcMultShift_best_iff : Best src dst (maxsec * src) (clocksCalcMultShift src dst maxsec) ↔
    ∃ shift, 0 < shift ∧ shift ≤ 32 ∧ multFor src dst shift < 2 ^ spareBits (maxsec * src / 2 ^ 32) 32 ∧
      ∀ s, shift < s → s ≤ 32 → ¬Fits src dst (maxsec * src) s := by
  obtain ⟨shift, hle, hno, ⟨hpos, htest, heq⟩ | ⟨rfl, heq⟩⟩ :=
    tryShifts_spec hs hd (spareBits (maxsec * src / 2 ^ 32) 32) (maxsec * src / 2 ^ 32) le_rfl
  · have hfits := fits_of_lt hs hm htest
    rw [clocksCalcMultShift, heq, Nat.mod_eq_of_lt hfits.1]
    refine ⟨fun h => ⟨shift, hpos, hle, htest, h.2.2⟩, fun ⟨s, _, hs32, htest', hlast⟩ => ?_⟩
    obtain hlt | rfl | hlt := lt_trichotomy shift s
    · exact absurd htest' (hno s hlt hs32)
    · exact ⟨rfl, hfits, hlast⟩
    · exact absurd hfits (hlast shift hlt hle)
  rw [clocksCalcMultShift, heq]
  refine ⟨?_, fun ⟨s, hpos, hs32, htest, _⟩ => absurd htest (hno s hpos hs32)⟩
  rintro ⟨hmult, hfits, hlast⟩
  -- a multiplier of shift 1 that is right for shift 0 as well makes shift 1 fit
  have hcut : multFor src dst 1 < 2 ^ 32 := by
    by_contra hge
    have hmul := (Nat.le_div_iff_mul_le h0).mp (not_lt.mp hge)
    obtain rfl : src = 1 := by omega
    simp [multFor] at hmult hge
    omega
  rw [if_neg (by decide), Nat.mod_eq_of_lt hcut] at hmult
  rw [Fits, ← hmult] at hfits
  exact absurd hfits (hlast 1 one_pos (by decide))

end

/-- A clock of 1 GHz kept for ten minutes would fit a shift of 24. -/
theorem clocksCalcMultShift_not_best : clocksCalcMultShift (10 ^ 9) (10 ^ 9) 600 = (2 ^ 23, 23) ∧
    Fits (10 ^ 9) (10 ^ 9) (600 * 10 ^ 9) 24 := by
  refine ⟨by decide +kernel, by decide, fun c hc => ?_⟩
  calc c * multFor (10 ^ 9) (10 ^ 9) 24 ≤ 600 * 10 ^ 9 * multFor (10 ^ 9) (10 ^ 9) 24 :=
    Nat.mul_le_mul_right _ hc
    _ < 2 ^ 64 := by decide

/-- The power management timer of ACPI, kept for ten minutes. -/
theorem clocksCalcMultShift_best_acpi :
    Best 3579545 (10 ^ 9) (600 * 3579545) (clocksCalcMultShift 3579545 (10 ^ 9) 600) := by
  refine (clocksCalcMultShift_best_iff (by decide) (by decide) (by decide) (by decide)).mpr
    ⟨23, by decide, by decide, by decide, fun s h h' hfits => ?_⟩
  -- the multiplier of a larger shift has more than 32 bits
  have hlarge : ∀ s ∈ List.range' 24 9, ¬multFor 3579545 (10 ^ 9) s < 2 ^ 32 := by decide
  exact hlarge s (List.mem_range'_1.mpr (by omega)) hfits.1

end LinuxNote.Timekeeping
