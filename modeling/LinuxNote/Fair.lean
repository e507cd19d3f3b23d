import Mathlib.Algebra.Order.Field.Rat
import Mathlib.Tactic.Linarith
import Mathlib.Tactic.Ring

/-! Scaling a time by a quotient of weights, `kernel/sched/fair.c`. -/

namespace LinuxNote.Fair

/-- `load_weight` -/
structure LoadWeight where
  weight : ℕ
  invWeight : ℕ

/-- `scale_load_down`, where words have 64 bits (`wide`) or 32. -/
def scaleLoadDown (wide : Bool) (w : ℕ) : ℕ := if wide then w / 2 ^ 10 else w

/-- What `__update_inv_weight` stores: `WMULT_CONST / w`. -/
def newInvWeight (wide : Bool) (w : ℕ) : ℕ :=
  if wide ∧ 2 ^ 32 - 1 ≤ w then 1 else if w = 0 then 2 ^ 32 - 1 else (2 ^ 32 - 1) / w

/-- The loops `while (fact >> 32)`. -/
def shrink (fact : ℕ) (shift : ℤ) : ℕ × ℤ := if fact / 2 ^ 32 = 0 then (fact, shift) else shrink
    (fact / 2) (shift - 1)

/-- `fact` and `shift` of `__calc_delta`. -/
def factor (wide : Bool) (weight : ℕ) (lw : LoadWeight) : ℕ × ℤ :=
  let (fact, shift) := shrink (scaleLoadDown wide weight) 32
  let inv := if lw.invWeight = 0 then newInvWeight wide (scaleLoadDown wide lw.weight) else lw.invWeight
  shrink (fact % 2 ^ 32 * inv) shift

/-- `__calc_delta` -/
def calcDelta (wide : Bool) (deltaExec weight : ℕ) (lw : LoadWeight) : ℕ :=
  let (fact, shift) := factor wide weight lw
  deltaExec * fact / 2 ^ shift.toNat % 2 ^ 64

theorem shrink_spec (fact : ℕ) (shift : ℤ) : ∃ s : ℕ, shrink fact shift = (fact / 2 ^ s, shift - s) ∧
    (s = 0 ∨ 2 ^ 31 ≤ fact / 2 ^ s) := by
  fun_induction shrink fact shift with
  | case1 => exact ⟨0, by simp, .inl rfl⟩
  | case2 fact shift hbig ih =>
    obtain ⟨s, heq, h⟩ := ih
    rw [Nat.div_div_eq_div_mul, ← pow_succ'] at heq h
    refine ⟨s + 1, by rw [heq, Nat.cast_succ, sub_sub, add_comm 1], .inr ?_⟩
    obtain rfl | h := h
    · omega
    · exact h

variable {w l : ℕ} (h0 : 0 < l)
include h0

/-- With the rounded reciprocal the factor is at most `w / l`, and not much smaller. -/
theorem shrink_inv (hw : w < 2 ^ 32) :
    ∃ s fact : ℕ, s ≤ 32 ∧ shrink (w * ((2 ^ 32 - 1) / l)) 32 = (fact, 32 - (s : ℤ)) ∧
    fact * (2 ^ s * l) ≤ w * 2 ^ 32 ∧ w * 2 ^ 32 ≤ fact * (2 ^ s * l) + w * (l + 2) := by
  obtain ⟨s, heq, hs⟩ := shrink_spec (w * ((2 ^ 32 - 1) / l)) 32
  have hdown : w * ((2 ^ 32 - 1) / l) * l ≤ w * 2 ^ 32 := by
    rw [mul_assoc]
    exact Nat.mul_le_mul_left w ((Nat.div_mul_le_self ..).trans (by decide))
  have hup : w * 2 ^ 32 ≤ (w * ((2 ^ 32 - 1) / l) + w) * l := by
    rw [← mul_add_one, mul_assoc, mul_comm _ l]
    exact Nat.mul_le_mul_left w (Nat.lt_mul_div_succ _ h0)
  generalize w * ((2 ^ 32 - 1) / l) = fact at *
  have hcut := Nat.mul_le_mul_right l (Nat.div_mul_le_self fact (2 ^ s))
  have hcut' :=
    Nat.mul_le_mul_right l (Nat.lt_mul_of_div_lt (Nat.lt_succ_self (fact / 2 ^ s)) (Nat.two_pow_pos s))
  rw [mul_assoc] at hcut hcut'
  -- the bits that are cut off are worth little, as 31 remain
  have hlast : s ≤ 32 ∧ 2 ^ s * l ≤ 2 * w + l := by
    obtain rfl | hs := hs
    · omega
    have hmul := Nat.mul_le_mul_right (2 ^ s * l) hs
    refine ⟨?_, by omega⟩
    by_contra hbig
    have := Nat.mul_le_mul (Nat.pow_le_pow_right two_pos (not_le.mp hbig)) h0
    omega
  refine ⟨s, _, hlast.1, heq, by omega, ?_⟩
  rw [Nat.succ_mul, Nat.succ_mul] at hcut'
  rw [add_mul] at hup
  rw [mul_add]
  omega

/-- The result is the exact quotient, rounded down with a relative error that the reciprocal allows. -/
theorem calcDelta_near (wide : Bool) (deltaExec weight : ℕ) (lw : LoadWeight)
    (hw : scaleLoadDown wide weight = w) (hl : scaleLoadDown wide lw.weight = l) (hl' : l < 2 ^ 32 - 1)
    (hle : w = 1024 ∨ w ≤ l) (hinv : lw.invWeight = 0 ∨ lw.invWeight = newInvWeight wide l)
    (hfit : (deltaExec * w / l : ℚ) < 2 ^ 64) :
    0 ≤ (factor wide weight lw).2 ∧ (factor wide weight lw).2 ≤ 32 ∧
    (calcDelta wide deltaExec weight lw : ℚ) ≤ deltaExec * w / l ∧
    (deltaExec * w / l : ℚ) * (1 - (l + 2) / 2 ^ 32) - 1 ≤ calcDelta wide deltaExec weight lw := by
  obtain ⟨s, fact, hs, hshrink, hup, hlow⟩ := shrink_inv h0 (show w < 2 ^ 32 by omega)
  have hfactor : factor wide weight lw = (fact, 32 - (s : ℤ)) := by
    have hnew : newInvWeight wide l = (2 ^ 32 - 1) / l := by
      rw [newInvWeight, if_neg (by omega), if_neg h0.ne']
    have hinv' : (if lw.invWeight = 0 then newInvWeight wide l else lw.invWeight) =
      (2 ^ 32 - 1) / l := by
      rw [hnew] at hinv ⊢
      split_ifs with h
      · rfl
      · exact hinv.resolve_left h
    rw [factor, hw, hl, hinv', shrink, if_pos (by omega)]
    dsimp only
    rw [Nat.mod_eq_of_lt (by omega), hshrink]
  have hcalc : calcDelta wide deltaExec weight lw = deltaExec * fact / 2 ^ (32 - s) % 2 ^ 64 := by
    simp only [calcDelta, hfactor, show (32 - (s : ℤ)).toNat = 32 - s by omega]
  have hpow : 2 ^ s * 2 ^ (32 - s) = 2 ^ 32 := by rw [← pow_add, Nat.add_sub_cancel' hs]
  have hle := Nat.div_mul_le_self (deltaExec * fact) (2 ^ (32 - s))
  have hlt :=
    Nat.lt_mul_of_div_lt (Nat.lt_succ_self (deltaExec * fact / 2 ^ (32 - s))) (Nat.two_pow_pos (32 - s))
  generalize deltaExec * fact / 2 ^ (32 - s) = res at *
  have hup' : res * l ≤ deltaExec * w := by
    refine Nat.le_of_mul_le_mul_right (c := 2 ^ 32) ?_ (by decide)
    calc res * l * 2 ^ 32 = res * 2 ^ (32 - s) * (2 ^ s * l) := by rw [← hpow]; ring
      _ ≤ deltaExec * fact * (2 ^ s * l) := Nat.mul_le_mul_right _ hle
      _ ≤ deltaExec * w * 2 ^ 32 := by nlinarith
  have hlow' : deltaExec * w * 2 ^ 32 ≤ (res + 1) * l * 2 ^ 32 + deltaExec * w * (l + 2) := by
    calc deltaExec * w * 2 ^ 32 ≤ deltaExec * fact * (2 ^ s * l) + deltaExec * w *
      (l + 2) := by nlinarith
      _ ≤ (res + 1) * 2 ^ (32 - s) * (2 ^ s * l) + deltaExec * w * (l + 2) := by gcongr
      _ = _ := by rw [← hpow]; ring
  have hpos : (0 : ℚ) < l := Nat.cast_pos.mpr h0
  have hres : (res : ℚ) ≤ deltaExec * w / l := (le_div_iff₀ hpos).mpr (mod_cast hup')
  rw [hcalc, Nat.mod_eq_of_lt (mod_cast hres.trans_lt hfit), hfactor]
  refine ⟨by dsimp only; omega, by dsimp only; omega, hres, ?_⟩
  have hlow'' : (deltaExec * w * 2 ^ 32 : ℚ) ≤ (res + 1) * l * 2 ^ 32 + deltaExec * w * (l + 2) :=
    mod_cast hlow'
  rw [div_mul_eq_mul_div, sub_le_iff_le_add, div_le_iff₀ hpos]
  linarith

omit h0 in
theorem calcDelta_near_half : (calcDelta true 3000 (2 ^ 20) ⟨2 ^ 21, 0⟩ : ℚ) ≤ 3000 * 1024 / 2048 := by
  have h := calcDelta_near (w := 1024) (l := 2048) (by decide) true 3000 (2 ^ 20) ⟨2 ^ 21, 0⟩ rfl rfl
    (by decide) (.inl rfl) (.inl rfl) (by norm_num)
  exact mod_cast h.2.2.1

end LinuxNote.Fair
