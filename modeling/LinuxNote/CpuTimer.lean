import Mathlib.Order.Bounds.Defs
import Mathlib.Tactic.Ring

/-! Interval timers on CPU time, `kernel/time/posix-cpu-timers.c`. -/

namespace LinuxNote.CpuTimer

/-- The first loop of `bump_cpu_timer`: the doubled increment, and `i`. -/
def doubleIncr (delta : ℕ) : ℕ → ℕ → ℕ → ℕ × ℕ
  | 0, incr, i => (incr, i)
  | fuel + 1, incr, i =>
    if incr < (delta + 2 ^ 64 - incr) % 2 ^ 64 then doubleIncr delta fuel (incr * 2 % 2 ^ 64)
      (i + 1) else (incr, i)

/-- The second loop, with the rounds from below `n` to go, on `expires` and `it_overrun`. -/
def addIncr : (n : ℕ) → (incr delta : ℕ) → ℕ × ℤ → ℕ × ℤ
  | 0, _, _, timer => timer
  | i + 1, incr, delta, (expires, overrun) =>
    if delta < incr then addIncr i (incr / 2) delta (expires, overrun)
    else addIncr i (incr / 2) (delta - incr) ((expires + incr) % 2 ^ 64, overrun + 2 ^ i)

/-- `bump_cpu_timer`; a word is doubled less than 64 times. -/
def bumpCpuTimer (incr now : ℕ) (timer : ℕ × ℤ) : ℕ × ℤ :=
  if incr = 0 then timer
  else if now < timer.1 then timer
  else
    let delta := (now + incr + 2 ^ 64 - timer.1) % 2 ^ 64
    let loop := doubleIncr delta 64 incr 0
    addIncr (loop.2 + 1) loop.1 delta timer

/-- The increment is doubled as long as twice of it is below `delta`. -/
theorem doubleIncr_spec {delta : ℕ} (hd : delta < 2 ^ 64) :
    ∀ (fuel i : ℕ) {incr : ℕ}, 0 < incr → incr ≤ delta → delta < incr * 2 ^ fuel →
    ∃ n, doubleIncr delta fuel incr i = (incr * 2 ^ n, i + n) ∧ (n ≠ 0 → incr * 2 ^ n < delta) ∧
    delta ≤ incr * 2 ^ (n + 1)
  | 0, i, incr, _, hle, hfuel => by omega
  | fuel + 1, i, incr, h0, hle, hfuel => by
    rw [doubleIncr]
    split
    · rw [Nat.mod_eq_of_lt (by omega)]
      rw [pow_succ', ← mul_assoc] at hfuel
      obtain ⟨n, heq, hlt, hge⟩ := doubleIncr_spec hd fuel (i + 1) (by omega) (by omega) hfuel
      rw [mul_assoc, ← pow_succ'] at heq hlt hge
      refine ⟨n + 1, heq.trans (by rw [add_right_comm, add_assoc]), fun _ => ?_, hge⟩
      by_cases hn : n = 0
      · subst hn
        omega
      · exact hlt hn
    · exact ⟨0, by simp, by simp, by omega⟩

/-- Division by `g` in binary. The remainder is `g` just where all rounds subtract. -/
theorem addIncr_spec {g : ℕ} (h0 : 0 < g) : ∀ {n d e : ℕ} {o : ℤ}, d ≤ g * 2 ^ n → e + d < 2 ^ 64 →
    ∃ q r : ℕ, d = q * g + r ∧ r ≤ g ∧ (r = g ↔ d = g * 2 ^ n) ∧
      addIncr n (g * 2 ^ n / 2) d (e, o) = (e + q * g, o + q)
  | 0, d, e, o, hd, _ => ⟨0, d, by simp, by omega, by simp, by simp [addIncr]⟩
  | n + 1, d, e, o, hd, hmax => by
    have htwice : g * 2 ^ (n + 1) = 2 * (g * 2 ^ n) := by ring
    have hpos : 0 < g * 2 ^ n := Nat.mul_pos h0 (Nat.two_pow_pos n)
    rw [addIncr, htwice, Nat.mul_div_cancel_left _ two_pos]
    split
    · obtain ⟨q, r, hqr, hr, hiff, heq⟩ := addIncr_spec h0 (n := n) (o := o) (by omega) hmax
      exact ⟨q, r, hqr, hr, by omega, heq⟩
    rw [Nat.mod_eq_of_lt (by omega)]
    obtain ⟨q, r, hqr, hr, hiff, heq⟩ :=
      addIncr_spec h0 (n := n) (d := d - g * 2 ^ n) (e := e + g * 2 ^ n) (o := o + 2 ^ n)
        (by omega) (by omega)
    have hsum : (2 ^ n + q) * g = g * 2 ^ n + q * g := by ring
    refine ⟨2 ^ n + q, r, by omega, hr, by omega, heq.trans ?_⟩
    rw [hsum, Nat.cast_add, Nat.cast_pow, Nat.cast_ofNat, add_assoc, add_assoc]

/-- The timer goes to its first expiry after `now`, with the overruns counted, unless `now` is `2 ^ n -
    1` increments behind and `n` is not zero. -/
theorem bumpCpuTimer_exact_iff (incr now e : ℕ) (o : ℤ) (h0 : 0 < incr) :
    if now < e then bumpCpuTimer incr now (e, o) = (e, o)
    else now + incr < 2 ^ 64 → ((∃ k : ℕ, IsLeast {k | 1 ≤ k ∧ now < e + k * incr} k ∧
        bumpCpuTimer incr now (e, o) = (e + k * incr, o + k)) ↔
      ∀ n ≠ 0, now + incr - e ≠ incr * 2 ^ n) := by
  rw [bumpCpuTimer, if_neg h0.ne']
  split_ifs with hnow
  · rfl
  intro hmax
  simp only [show (now + incr + 2 ^ 64 - e) % 2 ^ 64 = now + incr - e by omega]
  generalize hd : now + incr - e = delta
  obtain ⟨n, hloop, hlt, hge⟩ :=
    doubleIncr_spec (show delta < 2 ^ 64 by omega) 64 0 h0 (by omega) (by omega)
  obtain ⟨q, r, hqr, hr, hiff, heq⟩ := addIncr_spec h0 (o := o) hge (show e + delta < 2 ^ 64 by omega)
  rw [pow_succ, ← mul_assoc, Nat.mul_div_cancel _ two_pos] at heq
  simp only [hloop, zero_add, heq]
  have hlast : r = incr ↔ ∃ m ≠ 0, delta = incr * 2 ^ m := by
    refine hiff.trans ⟨fun h => ⟨n + 1, by omega, h⟩, ?_⟩
    rintro ⟨m, hm, rfl⟩
    rw [Nat.mul_le_mul_left_iff h0, Nat.pow_le_pow_iff_right one_lt_two] at hge
    rw [Nat.mul_lt_mul_left h0, Nat.pow_lt_pow_iff_right one_lt_two] at hlt
    rw [show m = n + 1 by omega]
  constructor
  · rintro ⟨k, ⟨⟨-, hk⟩, -⟩, hres⟩ m hm hbad
    have hr := hlast.mpr ⟨m, hm, hbad⟩
    have hexp := (Prod.mk.inj hres).1
    omega
  intro hall
  have hne : r ≠ incr := fun h => (hlast.mp h).elim fun m hm => hall m hm.1 hm.2
  refine ⟨q, ⟨⟨Nat.pos_of_ne_zero ?_, by omega⟩, fun j ⟨_, hj⟩ => ?_⟩, rfl⟩
  · rintro rfl
    omega
  by_contra hlt
  have hstep := Nat.mul_le_mul_right incr (not_le.mp hlt)
  rw [Nat.succ_mul] at hstep
  omega

/-- One increment late, the timer is set to `now`. -/
theorem bumpCpuTimer_not_after : bumpCpuTimer 5 15 (10, 0) = (15, 1) := by decide

theorem bumpCpuTimer_exact_third : ∃ k : ℕ, IsLeast {k | 1 ≤ k ∧ 20 < 10 + k * 5} k ∧
    bumpCpuTimer 5 20 (10, 0) = (10 + k * 5, 0 + (k : ℤ)) := by
  have h := bumpCpuTimer_exact_iff 5 20 10 0 (by decide)
  rw [if_neg (by decide)] at h
  refine (h (by decide)).mpr fun n _ (heq : 15 = 5 * 2 ^ n) => ?_
  rcases n with _ | _ | n <;> omega

end LinuxNote.CpuTimer
