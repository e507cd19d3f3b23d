import LinuxNote.Lib.Word

/-! The timekeeper, `kernel/time/timekeeping.c`. Time is the sum of `xtime_sec`, of `xtime_nsec` in
    nanoseconds shifted by `shift`, and of the cycles since `cycle_last` times `mult`;
    `wall_to_monotonic` leads from there to monotonic time. -/

namespace LinuxNote.Timekeeping
open Word

def nsecPerSec : ℤ := 1000000000

/-- `ilog2`, which is `fls64` less one. -/
def ilog2 (x : ℤ) : ℤ := if x = 0 then -1 else x.toNat.log2

/-! ### `timespec64` -/

structure Timespec64 where
  sec : ℤ
  nsec : ℤ
deriving DecidableEq

namespace Timespec64

/-- `KTIME_MAX` -/
def ktimeMax : ℤ := 2 ^ 63 - 1

/-- `KTIME_SEC_MAX` -/
def ktimeSecMax : ℤ := ktimeMax / nsecPerSec

/-- `set_normalized_timespec64`; its two loops move whole seconds of `nsec` to `sec`. -/
def setNormalized (sec nsec : ℤ) : Timespec64 := ⟨sec + nsec / nsecPerSec, nsec % nsecPerSec⟩

/-- `timespec64_add` -/
def add (a b : Timespec64) : Timespec64 := setNormalized (a.sec + b.sec) (a.nsec + b.nsec)

/-- `timespec64_sub` -/
def sub (a b : Timespec64) : Timespec64 := setNormalized (a.sec - b.sec) (a.nsec - b.nsec)

/-- `timespec64_compare` -/
def compare (a b : Timespec64) : ℤ :=
  if a.sec < b.sec then -1 else if b.sec < a.sec then 1 else a.nsec - b.nsec

/-- `timespec64_valid_strict` -/
def ValidStrict (a : Timespec64) : Prop := 0 ≤ a.sec ∧ 0 ≤ a.nsec ∧ a.nsec < nsecPerSec ∧
    a.sec < ktimeSecMax

instance (a : Timespec64) : Decidable a.ValidStrict :=
  inferInstanceAs (Decidable (0 ≤ a.sec ∧ 0 ≤ a.nsec ∧ a.nsec < nsecPerSec ∧ a.sec < ktimeSecMax))

/-- `timespec64_to_ktime`, which saturates as `ktime_set` does. -/
def toKtime (a : Timespec64) : ℤ := if ktimeSecMax ≤ a.sec then ktimeMax else a.sec * nsecPerSec + a.nsec

/-- `timespec64_to_ns` -/
def toNs (a : Timespec64) : ℤ := a.sec * nsecPerSec + a.nsec

end Timespec64

/-! ### The timekeeper -/

class Config where
  /-- `NTP_INTERVAL_LENGTH` -/
  ntpIntervalLength : ℤ
  interval_pos : 0 < ntpIntervalLength
  interval_le : ntpIntervalLength ≤ nsecPerSec

/-- A registered clock source; its `mask` has `bits` bits. -/
structure Clocksource where
  mult : ℤ
  shift : ℕ
  bits : ℕ
  mult_pos : 0 < mult
  mult_lt : mult < 2 ^ 32
  shift_le : shift ≤ 32
  bits_le : bits ≤ 64

/-- `timekeeper` with `tkr_mono`. `overflows` counts the calls of `second_overflow`. -/
structure Timekeeper where
  bits : ℕ
  shift : ℕ
  mult : ℤ
  cycleLast : ℤ
  xtimeNsec : ℤ
  base : ℤ
  xtimeSec : ℤ
  wallToMonotonic : Timespec64
  offsReal : ℤ
  cycleInterval : ℤ
  xtimeInterval : ℤ
  xtimeRemainder : ℤ
  ntpError : ℤ
  ntpErrorShift : ℕ
  ntpTick : ℤ
  ntpErrMult : ℤ
  skipSecondOverflow : Bool
  overflows : ℕ

namespace Timekeeper

variable (tk : Timekeeper)

/-- `(u64)NSEC_PER_SEC << shift` -/
def nsecps : ℤ := nsecPerSec * 2 ^ tk.shift

/-- `clocksource_delta` from `cycle_last`. -/
def delta (cycles : ℤ) : ℤ := (cycles - tk.cycleLast) % 2 ^ tk.bits

/-- The last update is so recent that the nanoseconds fit their variable. -/
abbrev Fresh (cycles : ℤ) : Prop := tk.delta cycles * tk.mult + tk.xtimeNsec < 2 ^ 64

/-- `timekeeping_cycles_to_ns` -/
def cyclesToNs (cycles : ℤ) : ℤ := u64 (tk.delta cycles * tk.mult + tk.xtimeNsec) / 2 ^ tk.shift

/-- `ktime_get` when the counter reads `cycles`. -/
def ktimeGet (cycles : ℤ) : ℤ := tk.base + tk.cyclesToNs cycles

/-- `ktime_get_real_ts64` when the counter reads `cycles`. -/
def ktimeGetRealTs64 (cycles : ℤ) : Timespec64 := .setNormalized tk.xtimeSec (tk.cyclesToNs cycles)

/-- `tk_normalize_xtime` -/
def normalizeXtime : Timekeeper :=
  { tk with xtimeNsec := tk.xtimeNsec % tk.nsecps, xtimeSec := tk.xtimeSec + tk.xtimeNsec / tk.nsecps }

/-- `tk_xtime` -/
def xtime : Timespec64 := ⟨tk.xtimeSec, tk.xtimeNsec / 2 ^ tk.shift⟩

/-- `tk_set_xtime` -/
def setXtime (ts : Timespec64) : Timekeeper :=
  { tk with xtimeSec := ts.sec, xtimeNsec := u64 (ts.nsec * 2 ^ tk.shift) }

/-- `tk_xtime_add` -/
def xtimeAdd (ts : Timespec64) : Timekeeper :=
  normalizeXtime { tk with
    xtimeSec := tk.xtimeSec + ts.sec
    xtimeNsec := u64 (tk.xtimeNsec + u64 (ts.nsec * 2 ^ tk.shift)) }

/-- `tk_set_wall_to_mono` -/
def setWallToMono (wtm : Timespec64) : Timekeeper :=
  { tk with
    wallToMonotonic := wtm, offsReal := (Timespec64.setNormalized (-wtm.sec) (-wtm.nsec)).toKtime }

/-- `tk_update_ktime_data` -/
def updateKtimeData : Timekeeper :=
  { tk with base := (tk.xtimeSec + tk.wallToMonotonic.sec) * nsecPerSec + tk.wallToMonotonic.nsec }

/-! ### `tk_setup_internals` -/

variable [Config]

/-- `tk_setup_internals` when the new clock reads `cycles`; `changed` if there was a clock before. -/
def setupInternals (clock : Clocksource) (cycles : ℤ) (changed : Bool) : Timekeeper :=
  let ntpinterval := u64 (Config.ntpIntervalLength * 2 ^ clock.shift)
  let tmp := u64 (ntpinterval + clock.mult / 2) / clock.mult
  let interval := if tmp = 0 then 1 else tmp
  let xtimeInterval := u64 (interval * clock.mult)
  { tk with
    bits := clock.bits
    cycleLast := cycles
    cycleInterval := interval
    xtimeInterval
    xtimeRemainder := s64 (ntpinterval - xtimeInterval)
    xtimeNsec :=
      if changed then
        if clock.shift < tk.shift then tk.xtimeNsec / 2 ^ (tk.shift - clock.shift)
        else u64 (tk.xtimeNsec * 2 ^ (clock.shift - tk.shift))
      else tk.xtimeNsec
    shift := clock.shift
    ntpError := 0
    ntpErrorShift := 32 - clock.shift
    ntpTick := u64 (ntpinterval * 2 ^ (32 - clock.shift))
    mult := clock.mult
    ntpErrMult := 0
    skipSecondOverflow := false }

end Timekeeper

/-! ### `timekeeping_advance` -/

inductive Mode
  | tick
  | freq
deriving DecidableEq

/-- What `second_overflow` answers. -/
inductive Leap
  | insert
  | none
  | delete
deriving DecidableEq

def Leap.toInt : Leap → ℤ
  | insert => -1
  | none => 0
  | delete => 1

/-- What NTP says during a call. The tick length may change with the seconds, so it is given twice. -/
structure Ntp where
  tickLengthBefore : ℤ
  tickLength : ℤ
  secondOverflow : ℕ → ℤ → Leap
  before_nonneg : 0 ≤ tickLengthBefore
  before_lt : tickLengthBefore < 2 ^ 64
  tick_nonneg : 0 ≤ tickLength
  tick_lt : tickLength < 2 ^ 64

/-- A shift by a negative number, or a loop that takes more rounds than it ever should. -/
inductive Undefined
  | shift
  | rounds
deriving DecidableEq

namespace Timekeeper

variable (ntp : Ntp) (tk : Timekeeper)

/-- A round of `accumulate_nsecs_to_secs`. -/
def accumulateSec : Timekeeper :=
  let tk := { tk with xtimeNsec := tk.xtimeNsec - tk.nsecps, xtimeSec := tk.xtimeSec + 1 }
  if tk.skipSecondOverflow then { tk with skipSecondOverflow := false }
  else
    let leap := (ntp.secondOverflow tk.overflows tk.xtimeSec).toInt
    let tk := { tk with overflows := tk.overflows + 1 }
    if leap ≠ 0 then
      { tk with xtimeSec := tk.xtimeSec + leap }.setWallToMono (tk.wallToMonotonic.sub ⟨leap, 0⟩)
    else tk

def accumulateSecs : ℕ → Timekeeper → Timekeeper
  | 0, tk => tk
  | rounds + 1, tk =>
    if tk.nsecps ≤ tk.xtimeNsec then accumulateSecs rounds (tk.accumulateSec ntp) else tk

/-- `accumulate_nsecs_to_secs` -/
def accumulateNsecsToSecs : Timekeeper :=
  accumulateSecs ntp (tk.xtimeNsec / tk.nsecps).toNat tk

/-- `logarithmic_accumulation` -/
def logarithmicAccumulation (offset shift : ℤ) : Except Undefined (Timekeeper × ℤ) :=
  if shift < 0 then .error .shift
  else
    let interval := u64 (tk.cycleInterval * 2 ^ shift.toNat)
    if offset < interval then .ok (tk, offset)
    else
      let tk := { tk with
        cycleLast := u64 (tk.cycleLast + interval)
        xtimeNsec := u64 (tk.xtimeNsec + u64 (tk.xtimeInterval * 2 ^ shift.toNat)) }
      let tk := tk.accumulateNsecsToSecs ntp
      .ok ({ tk with
        ntpError := s64 (tk.ntpError + u64 (tk.ntpTick * 2 ^ shift.toNat) -
          (tk.xtimeInterval + tk.xtimeRemainder) * 2 ^ (tk.ntpErrorShift + shift.toNat)) },
          offset - interval)

/-- The loop of `timekeeping_advance`. -/
def accumulate : ℕ → ℤ → Timekeeper → ℤ → Except Undefined (Timekeeper × ℤ)
  | 0, _, _, _ => .error .rounds
  | rounds + 1, shift, tk, offset =>
    if tk.cycleInterval ≤ offset then
      match tk.logarithmicAccumulation ntp offset shift with
      | .error e => .error e
      | .ok (tk, offset) =>
        let shift := if offset < u64 (tk.cycleInterval * 2 ^ shift.toNat) then shift - 1 else shift
        accumulate rounds shift tk offset
    else .ok (tk, offset)

/-- `timekeeping_apply_adjustment` -/
def applyAdjustment (offset multAdj : ℤ) : Timekeeper :=
  if multAdj = 0 then tk
  else if 0 < multAdj ∧ u32 (tk.mult + multAdj) < multAdj then tk
  else
    { tk with
      mult := u32 (tk.mult + multAdj)
      xtimeInterval := u64 (tk.xtimeInterval + tk.cycleInterval * multAdj)
      xtimeNsec := u64 (tk.xtimeNsec - offset * multAdj) }

/-- The multiplier that `timekeeping_adjust` asks for. -/
def newMult : ℤ :=
  let mult :=
    if tk.ntpTick = ntp.tickLength then u32 (tk.mult - tk.ntpErrMult)
    else u32 (u64 (ntp.tickLength / 2 ^ tk.ntpErrorShift - tk.xtimeRemainder) / tk.cycleInterval)
  u32 (mult + if 0 < tk.ntpError then 1 else 0)

/-- The end of `timekeeping_adjust`: nanoseconds below 0 borrow a second. -/
def borrowSecond : Timekeeper :=
  if s64 tk.xtimeNsec < 0 then
    { tk with
      xtimeNsec := u64 (tk.xtimeNsec + tk.nsecps)
      xtimeSec := tk.xtimeSec - 1
      skipSecondOverflow := true }
  else tk

/-- `timekeeping_adjust` -/
def adjust (offset : ℤ) : Timekeeper :=
  let mult := tk.newMult ntp
  let tk := { tk with ntpTick := ntp.tickLength, ntpErrMult := if 0 < tk.ntpError then 1 else 0 }
  (tk.applyAdjustment offset (s32 (mult - tk.mult))).borrowSecond

/-- The first shift of the loop. -/
def firstShift (offset : ℤ) : ℤ :=
  min (max 0 (ilog2 offset - ilog2 tk.cycleInterval)) (64 - (ilog2 ntp.tickLengthBefore + 1) - 1)

/-- The accumulation of `timekeeping_advance`, up to `timekeeping_adjust`. -/
def accumulated (cycles : ℤ) : Except Undefined (Timekeeper × ℤ) :=
  let offset := tk.delta cycles
  accumulate ntp (offset.toNat + 65) (tk.firstShift ntp offset) tk offset

/-- `timekeeping_advance` when the counter reads `cycles`. -/
def advance (mode : Mode) (cycles : ℤ) (tk : Timekeeper) : Except Undefined Timekeeper :=
  if tk.delta cycles < tk.cycleInterval ∧ mode = .tick then .ok tk
  else
    match tk.accumulated ntp cycles with
    | .error e => .error e
    | .ok (tk, offset) => .ok ((tk.adjust ntp offset).accumulateNsecsToSecs ntp).updateKtimeData

/-! ### Setting the clock -/

/-- `timekeeping_forward_now` -/
def forwardNow (cycles : ℤ) : Timekeeper :=
  normalizeXtime { tk with
    cycleLast := cycles
    xtimeNsec := u64 (tk.xtimeNsec + u64 (tk.delta cycles * tk.mult)) }

/-- `timekeeping_update` with `TK_CLEAR_NTP`. -/
def updateClearNtp : Timekeeper := updateKtimeData { tk with ntpError := 0 }

/-- `do_settimeofday64` when the counter reads `cycles`; the answer is whether it is accepted, or
    `-EINVAL`. -/
def doSettimeofday64 (cycles : ℤ) (ts : Timespec64) : Bool × Timekeeper :=
  if ¬ts.ValidStrict then (false, tk)
  else
    let tk := tk.forwardNow cycles
    let xt := tk.xtime
    let tsDelta : Timespec64 := ⟨ts.sec - xt.sec, ts.nsec - xt.nsec⟩
    if 0 < tk.wallToMonotonic.compare tsDelta then (false, tk.updateClearNtp)
    else
      let tk := tk.setWallToMono (tk.wallToMonotonic.sub tsDelta)
      (true, (tk.setXtime ts).updateClearNtp)

/-- `timekeeping_inject_offset` when the counter reads `cycles`. -/
def injectOffset (cycles : ℤ) (ts : Timespec64) : Bool × Timekeeper :=
  if ts.nsec < 0 ∨ nsecPerSec ≤ ts.nsec then (false, tk)
  else
    let tk := tk.forwardNow cycles
    if 0 < tk.wallToMonotonic.compare ts ∨ ¬(tk.xtime.add ts).ValidStrict then (false, tk.updateClearNtp)
    else
      let tk := tk.xtimeAdd ts
      (true, (tk.setWallToMono (tk.wallToMonotonic.sub ts)).updateClearNtp)

end Timekeeper

end LinuxNote.Timekeeping
