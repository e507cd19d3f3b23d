import Mathlib.Algebra.Order.BigOperators.Group.Finset
import Mathlib.Tactic.Ring

/-! Numbers as strings of digits with `m` bits each, and sums over arrays of slots. -/

namespace LinuxNote.Radix
open Finset Nat Function

/-- The digit with `m` bits that starts at bit `s`. -/
def digit (m s i : ℕ) : ℕ := i / 2 ^ s % 2 ^ m

section
variable {m s i j o : ℕ}

theorem digit_lt (m s i : ℕ) : digit m s i < 2 ^ m := Nat.mod_lt _ (Nat.two_pow_pos m)

/-- What is left above a digit. -/
theorem div_eq (m s i : ℕ) : i / 2 ^ s = 2 ^ m * (i / 2 ^ (s + m)) + digit m s i := by
  rw [digit, Nat.pow_add, ← Nat.div_div_eq_div_mul, Nat.div_add_mod]

theorem digit_mul_le (m s i : ℕ) : digit m s i * 2 ^ s ≤ i :=
  (mul_le_mul_right _ (mod_le ..)).trans (div_mul_le_self i (2 ^ s))

/-- Among the numbers below the next power, the ones below `2 ^ s` have digit zero. -/
theorem digit_eq_zero_iff (h : i < 2 ^ (s + m)) : digit m s i = 0 ↔ i < 2 ^ s := by
  have hup : i / 2 ^ (s + m) = 0 := Nat.div_eq_of_lt h
  have hdiv := div_eq m s i
  rw [hup, mul_zero, zero_add] at hdiv
  rw [← hdiv, Nat.div_eq_zero_iff]
  have := Nat.two_pow_pos s
  omega

/-- Put the digit `o` in place, and zeros below it. -/
def withDigit (m s i o : ℕ) : ℕ := (2 ^ m * (i / 2 ^ (s + m)) + o) * 2 ^ s

theorem withDigit_div (m s i o : ℕ) : withDigit m s i o / 2 ^ s = 2 ^ m * (i / 2 ^ (s + m)) + o :=
  Nat.mul_div_cancel _ (Nat.two_pow_pos s)

theorem digit_withDigit (i s : ℕ) (h : o < 2 ^ m) : digit m s (withDigit m s i o) = o := by
  rw [digit, withDigit_div, Nat.mul_add_mod, Nat.mod_eq_of_lt h]

theorem withDigit_up (i s : ℕ) (h : o < 2 ^ m) : withDigit m s i o / 2 ^ (s + m) = i / 2 ^ (s + m) := by
  have hdiv := withDigit_div m s i o
  rw [Nat.pow_add, ← Nat.div_div_eq_div_mul, ← Nat.pow_add, hdiv, Nat.mul_add_div (Nat.two_pow_pos m),
    div_eq_of_lt h, add_zero]

/-- The numbers between `i` and a later block of its level. -/
theorem mem_block (ho : o ≤ 2 ^ m) (hij : i ≤ j) (hj : j < withDigit m s i o) :
    i / 2 ^ (s + m) = j / 2 ^ (s + m) ∧ digit m s i ≤ digit m s j ∧ digit m s j < o := by
  have hpos := Nat.two_pow_pos s
  have hdi := div_eq m s i
  have hdj := div_eq m s j
  have hle : i / 2 ^ s ≤ j / 2 ^ s := Nat.div_le_div_right hij
  have hlt : j / 2 ^ s < 2 ^ m * (i / 2 ^ (s + m)) + o := by
    rw [div_lt_iff_lt_mul hpos]
    exact hj
  have hup : i / 2 ^ (s + m) ≤ j / 2 ^ (s + m) := Nat.div_le_div_right hij
  have hdown : j / 2 ^ (s + m) ≤ i / 2 ^ (s + m) := by
    by_contra hgt
    have : 2 ^ m * (i / 2 ^ (s + m) + 1) ≤ 2 ^ m * (j / 2 ^ (s + m)) := mul_le_mul_left _ (by omega)
    rw [mul_add, mul_one] at this
    omega
  have heq := le_antisymm hup hdown
  rw [heq] at hdi hlt
  exact ⟨heq, by omega, by omega⟩

theorem lt_withDigit (h : digit m s i < o) : i < withDigit m s i o := by
  have hdiv := div_eq m s i
  rw [withDigit, ← Nat.div_lt_iff_lt_mul (Nat.two_pow_pos s)]
  omega

/-- The end of a block is where the next one of the level above starts. -/
theorem withDigit_carry (m s i : ℕ) : withDigit m s i (2 ^ m) = withDigit m (s + m) i
    (digit m (s + m) i + 1) := by
  have hup := div_eq m (s + m) i
  have hend : 2 ^ m * (i / 2 ^ (s + m)) + 2 ^ m = 2 ^ m * (i / 2 ^ (s + m) + 1) := by ring
  have hpow : 2 ^ (s + m) = 2 ^ m * 2 ^ s := by rw [pow_add, mul_comm]
  rw [withDigit, withDigit, hend, ← add_assoc, ← hup, hpow, mul_comm (2 ^ m) (_ + 1), mul_assoc]

end

/-! ### Slots -/

/-- The sum of the weights of the first `n` slots. -/
def tally {α : Type*} (w : α → ℕ) (n : ℕ) (f : ℕ → α) : ℕ := ∑ k ∈ Finset.range n, w (f k)

section
variable {α : Type*} {w : α → ℕ} {n o : ℕ} {f : ℕ → α}

theorem tally_update (h : o < n) (a : α) : tally w n (update f o a) + w (f o) = tally w n f + w a := by
  have hmem : o ∈ range n := mem_range.mpr h
  have hrest : ∑ k ∈ (range n).erase o, w (update f o a k) = ∑ k ∈ (range n).erase o, w (f k) := by
    refine sum_congr rfl fun k hk => ?_
    rw [update_of_ne (ne_of_mem_erase hk)]
  rw [tally, tally, ← add_sum_erase _ _ hmem, ← add_sum_erase _ _ hmem, hrest, update_self]
  omega

theorem tally_eq_zero_iff : tally w n f = 0 ↔ ∀ k < n, w (f k) = 0 := by
  simp [tally, sum_eq_zero_iff]

theorem tally_const {a : α} (h : w a = 0) : tally w n (fun _ => a) = 0 :=
  tally_eq_zero_iff.mpr fun _ _ => h

/-- When one slot has all the weight, the others have none. -/
theorem tally_eq_self (h : o < n) (ho : tally w n f = w (f o)) : ∀ k < n, k ≠ o → w (f k) = 0 := by
  intro k hk hne
  have hmem : o ∈ range n := mem_range.mpr h
  rw [tally, ← add_sum_erase _ _ hmem] at ho
  have hzero : ∑ k ∈ (range n).erase o, w (f k) = 0 := by omega
  exact sum_eq_zero_iff.mp hzero k (mem_erase.mpr ⟨hne, mem_range.mpr hk⟩)

end

end LinuxNote.Radix
