import Mathlib.Data.Nat.Digits.Defs

/-! Counting with digits, lowest first, and the cells that hold the digits. A carry turns a run of full
    digits into zeros, a borrow turns a run of zeros into full digits, and each cell knows whether a
    further one is in use. -/

namespace LinuxNote.Odometer
open Nat List

variable {b k x : ℕ} {ds u v : List ℕ}

/-- Digits to the base `b`, the highest one not zero. -/
structure Canon (b : ℕ) (ds : List ℕ) : Prop where
  lt : ∀ d ∈ ds, d < b
  top : ds.getLast? ≠ some 0

theorem canon_nil : Canon b [] := ⟨by simp, by simp⟩

/-- A list starts with a run of a digit, and goes on with another one. -/
theorem exists_run (x : ℕ) (ds : List ℕ) : ∃ k u, ds = replicate k x ++ u ∧ u.head? ≠ some x := by
  induction ds with
  | nil => exact ⟨0, [], rfl, by simp⟩
  | cons d ds ih =>
    by_cases hd : d = x
    · obtain ⟨k, u, rfl, hu⟩ := ih
      exact ⟨k + 1, u, by rw [hd]; rfl, hu⟩
    · exact ⟨0, d :: ds, rfl, by simpa using hd⟩

/-- A number below is zero only without digits. -/
theorem Canon.exists_borrow (h : Canon b ds) (hne : ds ≠ []) :
    ∃ k d u, ds = replicate k 0 ++ d :: u ∧ 0 < d := by
  obtain ⟨k, u, rfl, hu⟩ := exists_run 0 ds
  cases u with
  | nil =>
    cases k with
    | zero => exact absurd rfl hne
    | succ k => exact absurd (by rw [replicate_succ']; simp) h.top
  | cons d u => exact ⟨k, d, u, rfl, pos_of_ne_zero (by simpa using hu)⟩

/-- One more behind a run of zeros is one more behind the run of full digits that counts up to it. -/
theorem ofDigits_carry (hb : 0 < b) (h : ofDigits b u = ofDigits b v + 1) :
    ofDigits b (replicate k 0 ++ u) = ofDigits b (replicate k (b - 1) ++ v) + 1 := by
  induction k with
  | zero => exact h
  | succ k ih =>
    rw [replicate_succ, replicate_succ, cons_append, cons_append, ofDigits_cons, ofDigits_cons,
      ih, mul_add]
    omega

theorem ofDigits_head_succ (d : ℕ) : ofDigits b ((d + 1) :: u) = ofDigits b (d :: u) + 1 := by
  rw [ofDigits_cons, ofDigits_cons]
  omega

theorem Canon.ofDigits_pos (h : Canon b ds) (hb : 0 < b) (hne : ds ≠ []) : 0 < ofDigits b ds := by
  obtain ⟨k, d, u, rfl, hd⟩ := h.exists_borrow hne
  obtain ⟨d, rfl⟩ : ∃ e, d = e + 1 := exists_eq_succ_of_ne_zero (by omega)
  rw [ofDigits_carry hb (ofDigits_head_succ d)]
  exact succ_pos _

theorem getLast?_append_of_ne (hne : u ≠ []) : (v ++ u).getLast? = u.getLast? := by
  rw [getLast?_append, getLast?_eq_some_getLast hne]
  rfl

theorem canon_replicate_append (hx : x < b) (hu : Canon b u) (hne : u ≠ []) :
    Canon b (replicate k x ++ u) := by
  refine ⟨fun d hd => ?_, ?_⟩
  · rcases mem_append.mp hd with hd | hd
    · rw [eq_of_mem_replicate hd]
      exact hx
    · exact hu.lt d hd
  · rw [getLast?_append_of_ne hne]
    exact hu.top

theorem canon_replicate (hx : x < b) (h0 : x ≠ 0) : Canon b (replicate k x) := by
  rcases k with _ | k
  · exact canon_nil
  rw [replicate_succ']
  exact canon_replicate_append hx ⟨by simpa using hx, by simpa using h0⟩ (by simp)

/-- Another first digit that is not zero. -/
theorem Canon.head {d e : ℕ} (h : Canon b (replicate k x ++ d :: u)) (he : e < b)
    (hne : u = [] → e ≠ 0) : Canon b (e :: u) := by
  refine ⟨fun c hc => ?_, ?_⟩
  · rcases mem_cons.mp hc with rfl | hc
    · exact he
    · exact h.lt c (by simp [hc])
  have htop := h.top
  rcases u with _ | ⟨c, u⟩
  · simpa using hne rfl
  rw [getLast?_append_of_ne (by simp)] at htop
  rwa [getLast?_cons_cons] at htop ⊢

/-! ### Cells -/

section
variable {β : Type*} (enc : ℕ → Bool → β)

/-- The cells of a number: each with its digit and whether there is a further one. -/
def cells : List ℕ → List β
  | [] => []
  | d :: ds => enc d (!ds.isEmpty) :: cells ds

theorem cells_replicate_append (hne : u ≠ []) : cells enc (replicate k x ++ u) = replicate k
    (enc x true) ++ cells enc u := by
  induction k with
  | zero => rfl
  | succ k ih =>
    have hmore : (replicate k x ++ u).isEmpty = false :=
      isEmpty_eq_false_iff.mpr (append_ne_nil_of_right_ne_nil _ hne)
    rw [replicate_succ, cons_append, cells, ih, hmore]
    rfl

theorem cells_replicate : cells enc (replicate (k + 1) x) = replicate k
    (enc x true) ++ [enc x false] := by
  rw [replicate_succ', cells_replicate_append enc (by simp)]
  rfl

end

end LinuxNote.Odometer
