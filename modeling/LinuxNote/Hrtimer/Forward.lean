import LinuxNote.Hrtimer.Wakeups
import Mathlib.Tactic.Linarith
import Mathlib.Tactic.Ring

/-! Forwarding a timer that has expired past `now`, by whole intervals. -/

namespace LinuxNote.Hrtimer
open Word Function

/-- The loop of `__ktime_divns`, which halves the divisor until it fits 32 bits. -/
def narrow (div sft : ℕ) : ℕ × ℕ := if div / 2 ^ 32 = 0 then (div, sft) else narrow (div / 2) (sft + 1)

/-- `ktime_divns` of a time that is not negative; `__ktime_divns` where words have 32 bits. -/
def ktimeDivns (wide : Bool) (kt div : ℕ) : ℕ :=
  if wide then kt / div
  else
    let (div, sft) := narrow div 0
    kt / 2 ^ sft / div

theorem narrow_spec (div sft : ℕ) :
    ∃ n, narrow div sft = (div / 2 ^ n, sft + n) ∧ (n ≠ 0 → 2 ^ 31 ≤ div / 2 ^ n) := by
  fun_induction narrow div sft with
  | case1 => exact ⟨0, by simp⟩
  | case2 div sft hbig ih =>
    obtain ⟨n, heq, h⟩ := ih
    rw [Nat.div_div_eq_div_mul, ← pow_succ'] at heq h
    refine ⟨n + 1, by rw [heq]; ring_nf, fun _ => ?_⟩
    by_cases hn : n = 0
    · subst hn
      omega
    · exact h hn

/-- Shifting both sides makes the quotient at most one too large. -/
theorem ktimeDivns_near (wide : Bool) {kt div : ℕ} (hkt : kt < 2 ^ 63) (h0 : 0 < div) :
    ktimeDivns wide kt div = kt / div ∨ ktimeDivns wide kt div = kt / div + 1 := by
  rw [ktimeDivns]
  split_ifs
  · exact .inl rfl
  obtain ⟨n, heq, h⟩ := narrow_spec div 0
  simp only [heq, Nat.zero_add]
  by_cases hn : n = 0
  · subst hn
    simp
  have hc := h hn
  have hdown : div / 2 ^ n * 2 ^ n ≤ div := Nat.div_mul_le_self div (2 ^ n)
  have hup : div < 2 ^ n * (div / 2 ^ n + 1) := Nat.lt_mul_div_succ div (Nat.two_pow_pos n)
  have hwide : 2 ^ 31 * 2 ≤ div := (Nat.mul_le_mul hc (Nat.le_self_pow hn 2)).trans hdown
  have hq : kt / div + 1 ≤ div / 2 ^ n := (Nat.div_lt_of_lt_mul (by omega)).trans_le hc
  generalize div / 2 ^ n = c at *
  have hlo : kt / div ≤ kt / 2 ^ n / c := by
    rw [Nat.div_div_eq_div_mul, Nat.mul_comm]
    exact Nat.div_le_div_left hdown (Nat.mul_pos (by omega) (Nat.two_pow_pos n))
  have hhi : kt / 2 ^ n / c < kt / div + 2 := by
    rw [Nat.div_div_eq_div_mul, Nat.div_lt_iff_lt_mul (Nat.mul_pos (Nat.two_pow_pos n) (by omega))]
    calc kt < div * (kt / div + 1) := Nat.lt_mul_div_succ kt h0
      _ ≤ 2 ^ n * (c + 1) * (kt / div + 1) := Nat.mul_le_mul_right _ hup.le
      _ ≤ (kt / div + 2) * (2 ^ n * c) := by
        generalize kt / div = q at *
        nlinarith [Nat.two_pow_pos n]
  omega

namespace CpuBase

variable {τ : Type} [DecidableEq τ] (b : CpuBase τ) (t : τ) (wide : Bool)

/-- `hrtimer_add_expires`, or `hrtimer_add_expires_ns`, by the addition that it uses. -/
def addExpires (add : ℤ → ℤ) : CpuBase τ := b.withTimes t (add (b.expires t)) (add (b.softexpires t))

/-- `hrtimer_forward`: the overruns, and the timers after it. -/
def hrtimerForward (now interval resolution : ℤ) : ℕ × CpuBase τ :=
  let delta := s64 (now - b.expires t)
  if delta < 0 then (0, b)
  else if b.enqueued t then (0, b)
  else
    let interval := max interval resolution
    if interval ≤ delta then
      let orun := ktimeDivns wide delta.toNat interval.toNat
      let b := b.addExpires t fun e => s64 (e + s64 (interval * orun))
      if now < b.expires t then (orun, b) else (orun + 1, b.addExpires t (ktimeAddSafe · interval))
    else (1, b.addExpires t (ktimeAddSafe · interval))

/-- A timer that is not queued is forwarded to the first of its expiries after `now`: the number of
    intervals is right for every expiry, and the new expiry when the old one is not negative. -/
theorem hrtimerForward_exact {e resolution : ℤ} (now : ℤ) (n : ℕ) (hr : 0 < resolution)
    (hn : resolution ≤ n) (hidle : b.enqueued t = false) (he : b.expires t = e) (he' : -2 ^ 63 ≤ e)
    (hd : -2 ^ 63 ≤ now - e) (hd' : now - e < 2 ^ 63) (hmax : e + n * ((now - e) / n + 1) < 2 ^ 63)
    {orun : ℕ} {b' : CpuBase τ} (hres : b.hrtimerForward t wide now n resolution = (orun, b')) :
    if now < e then orun = 0 ∧ b' = b
    else 1 ≤ orun ∧ e + n * (orun - 1) ≤ now ∧ now < e + n * orun ∧
      (0 ≤ e → b'.expires t = e + n * orun) := by
  obtain ⟨rfl, rfl⟩ := Prod.ext_iff.mp hres.symm
  clear hres
  subst he
  have hdelta : s64 (now - b.expires t) = now - b.expires t :=
    Int.bmod_eq_of_le_mul_two (by omega) (by omega)
  by_cases hlt : now < b.expires t
  · simp [hlt, hrtimerForward, hdelta]
  obtain ⟨d, hd0⟩ := Int.eq_ofNat_of_zero_le (show 0 ≤ now - b.expires t by omega)
  obtain rfl : now = b.expires t + d := by omega
  rw [hd0] at hmax hd' hdelta
  have hnear := ktimeDivns_near wide (mod_cast hd') (show 0 < n by omega)
  have hq : (n * (d / n : ℕ) : ℤ) ≤ d := mod_cast Nat.mul_div_le d n
  have hq' : (d : ℤ) < n * (d / n : ℕ) + n := mod_cast Nat.lt_mul_div_succ d (b := n) (by omega)
  have h0 : 0 ≤ (n * (d / n : ℕ) : ℤ) := mod_cast Nat.zero_le _
  have hsmall : d < n → d / n = 0 := Nat.div_eq_of_lt
  rw [← Int.natCast_ediv, mul_add_one] at hmax
  simp only [hrtimerForward, hd0, hdelta, max_eq_left hn, hidle, Int.toNat_natCast, Nat.cast_le,
    addExpires, withTimes, update_self, not_lt.mpr (Int.natCast_nonneg d), if_false,
    Bool.false_eq_true, hlt]
  generalize d / n = q at *
  have hsafe : 0 ≤ b.expires t → ktimeAddSafe (b.expires t + n * q) n = b.expires t + (n * q + n) := by
    intro h
    have hres : s64 (b.expires t + n * q + n) = b.expires t + n * q + n :=
      Int.bmod_eq_of_le_mul_two (by omega) (by omega)
    simp only [ktimeAddSafe, hres]
    rw [if_neg (by omega), add_assoc]
  have hsum : ∀ {x : ℤ}, 0 ≤ x → x ≤ n * q + n → s64 (b.expires t + s64 x) = b.expires t + x := by
    intro x h0 hx
    rw [s64, s64, Int.add_bmod_bmod]
    exact Int.bmod_eq_of_le_mul_two (by omega) (by omega)
  by_cases hfar : n ≤ d
  · obtain heq | heq := hnear
    · rw [heq, hsum h0 (by omega)]
      simpa [hfar, hq, hq', not_lt.mpr hq, mul_add_one] using hsafe
    rw [heq, Nat.cast_succ, mul_add_one, hsum (by omega) le_rfl]
    simp [hfar, hq, hq', mul_add_one]
  · obtain rfl := hsmall (not_le.mp hfar)
    simpa [hfar, not_le.mp hfar] using hsafe

/-- A timer alone, due at `e`. -/
def dueAt (e : ℤ) : CpuBase Unit := (State.init ⟨0, 0, 0⟩ (fun _ => e) fun _ => e).base

theorem hrtimerForward_negative : ((dueAt (-5)).hrtimerForward () true 3 10 1).1 = 1 ∧
    ((dueAt (-5)).hrtimerForward () true 3 10 1).2.expires () = ktimeMax := by
  decide

/-- An interval of more than eight seconds is shifted twice on 32 bits, so that a time just short of
    five intervals gives 5: the quotient is one too large, and the result is right. -/
theorem hrtimerForward_exact_shifted : ktimeDivns false (5 * 2 ^ 33 + 3) (2 ^ 33 + 1) = 5 ∧
    ∃ b', (dueAt 2).hrtimerForward () false (5 * 2 ^ 33 + 5) (2 ^ 33 + 1 : ℕ) 1 = (5, b') ∧
      b'.expires () = 2 + (2 ^ 33 + 1 : ℕ) * (5 : ℕ) := by
  have hdiv : ktimeDivns false (5 * 2 ^ 33 + 3) (2 ^ 33 + 1) = 5 := by simp [ktimeDivns, narrow]
  refine ⟨hdiv, ?_⟩
  obtain ⟨⟨orun, b'⟩, hres⟩ : ∃ p,
      (dueAt 2).hrtimerForward () false (5 * 2 ^ 33 + 5) (2 ^ 33 + 1 : ℕ) 1 = p := ⟨_, rfl⟩
  have h := (dueAt 2).hrtimerForward_exact () false (e := 2) (5 * 2 ^ 33 + 5) (2 ^ 33 + 1) one_pos
    (by decide) rfl rfl (by decide) (by decide) (by decide) (by decide) hres
  rw [if_neg (by decide)] at h
  obtain ⟨h1, h2, h3, h4⟩ := h
  obtain rfl : orun = 5 := by
    push_cast at h2 h3
    omega
  exact ⟨b', hres, h4 (by decide)⟩

end CpuBase

end LinuxNote.Hrtimer
