import Mathlib.Data.Nat.Bitwise

/-! Machine words as integers: what is left of a number in a type of 32 or 64 bits. -/

namespace LinuxNote.Word
open Int Nat

def u64 (x : ℤ) : ℤ := x % 2 ^ 64

def u32 (x : ℤ) : ℤ := x % 2 ^ 32

def s64 (x : ℤ) : ℤ := x.bmod (2 ^ 64)

def s32 (x : ℤ) : ℤ := x.bmod (2 ^ 32)

theorem u64_eq {x : ℤ} (h0 : 0 ≤ x) (h : x < 2 ^ 64) : u64 x = x := emod_eq_of_lt h0 h

theorem u32_eq {x : ℤ} (h0 : 0 ≤ x) (h : x < 2 ^ 32) : u32 x = x := emod_eq_of_lt h0 h

theorem s32_eq {x : ℤ} (h0 : -2 ^ 31 ≤ x) (h : x < 2 ^ 31) : s32 x = x := by
  exact bmod_eq_of_le_mul_two (by omega) (by omega)

/-- A sum may be cut before or after the last addition. -/
theorem u64_u64_add (x y : ℤ) : u64 (u64 x + y) = u64 (x + y) := emod_add_emod x (2 ^ 64) y

/-- Clearing the low bits goes down to a multiple. -/
theorem and_high_bits (x : ℕ) {k w : ℕ} (hk : k ≤ w) :
    x &&& (2 ^ w - 1 - (2 ^ k - 1)) = x % 2 ^ w / 2 ^ k * 2 ^ k := by
  have hlow : 2 ^ k - 1 < 2 ^ w :=
    (Nat.sub_lt (Nat.two_pow_pos k) Nat.one_pos).trans_le (Nat.pow_le_pow_right (by decide) hk)
  refine eq_of_testBit_eq fun i => ?_
  rw [Nat.sub_sub, Nat.add_comm 1, Nat.testBit_and, Nat.testBit_two_pow_sub_succ hlow,
    Nat.testBit_two_pow_sub_one, testBit_mul_two_pow, testBit_div_two_pow, testBit_mod_two_pow]
  by_cases hi : k ≤ i
  · simp [hi, not_lt.mpr hi, Bool.and_comm]
  · simp [hi, not_le.mp hi]

end LinuxNote.Word
