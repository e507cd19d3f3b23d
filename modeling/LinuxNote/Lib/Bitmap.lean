import Mathlib.Order.MinMax

/-! Bitmaps as functions from positions, and the search for the next position with a property. A search
    that skips whole blocks with the help of a second bitmap finds the same position. -/

namespace LinuxNote.Bitmap

variable {p : ℕ → Bool} {size start r k n : ℕ}

/-- Look at `left` positions from `i` on. -/
def scan (p : ℕ → Bool) : ℕ → ℕ → ℕ
  | 0, i => i
  | left + 1, i => if p i then i else scan p left (i + 1)

/-- The first position in `[start, size)` with `p`, and `size` when there is none. -/
def findNext (p : ℕ → Bool) (size start : ℕ) : ℕ :=
  if start < size then scan p (size - start) start else size

/-- `r` is where a search from `start` ends. -/
structure IsNext (p : ℕ → Bool) (size start r : ℕ) : Prop where
  ge : start ≤ r
  le : r ≤ size
  skip : ∀ i, start ≤ i → i < r → p i = false
  hit : r < size → p r = true

theorem isNext_scan (p : ℕ → Bool) (left i : ℕ) : IsNext p (i + left) i (scan p left i) := by
  induction left generalizing i with
  | zero =>
    exact ⟨le_rfl, le_rfl, fun j hij hj => absurd hj (not_lt.mpr hij), fun h => absurd h (lt_irrefl _)⟩
  | succ left ih =>
    rw [scan]
    split
    case isTrue hp =>
      exact ⟨le_rfl, Nat.le_add_right .., fun j hij hj => absurd hj (not_lt.mpr hij), fun _ => hp⟩
    case isFalse hp =>
      have hnext := ih (i + 1)
      have hle := hnext.le
      refine ⟨(Nat.le_succ i).trans hnext.ge, by omega, fun j hij hj => ?_,
        fun hlt => hnext.hit (by omega)⟩
      rcases eq_or_lt_of_le hij with rfl | hij
      · exact eq_false_of_ne_true hp
      · exact hnext.skip j hij hj

theorem isNext_findNext (p : ℕ → Bool) (h : start ≤ size) :
    IsNext p size start (findNext p size start) := by
  rw [findNext]
  split
  case isTrue hlt =>
    have hscan := isNext_scan p (size - start) start
    rwa [Nat.add_sub_cancel' h] at hscan
  case isFalse hlt =>
    exact ⟨h, le_rfl, fun i hi hi' => absurd (hi.trans_lt hi') hlt, fun h => absurd h (lt_irrefl _)⟩

theorem findNext_of_le (h : size ≤ start) : findNext p size start = size := by
  rw [findNext, if_neg (not_lt.mpr h)]

theorem findNext_le {i : ℕ} (hi : start ≤ i) (hlt : i < size) (hp : p i = true) :
    findNext p size start ≤ i := by
  by_contra hgt
  rw [(isNext_findNext p (hi.trans hlt.le)).skip i hi (not_le.mp hgt)] at hp
  cases hp

theorem IsNext.unique {r' : ℕ} (h : IsNext p size start r) (h' : IsNext p size start r') : r = r' := by
  by_contra hne
  rcases lt_or_gt_of_ne hne with hlt | hlt
  · have := h'.skip r h.ge hlt
    rw [h.hit (hlt.trans_le h'.le)] at this
    cases this
  have := h.skip r' h'.ge hlt
  rw [h'.hit (hlt.trans_le h.le)] at this
  cases this

theorem IsNext.eq (h : IsNext p size start r) : findNext p size start = r :=
  (isNext_findNext p (h.ge.trans h.le)).unique h

/-- The search over `n` blocks of `k` positions may start at the first block that `q` does not rule
    out. -/
theorem isNext_blocks {q : ℕ → Bool} (hk : 0 < k)
    (hq : ∀ w, q w = false → ∀ b < k, p (k * w + b) = false) (h : start < k * n) :
    IsNext p (k * n) start (findNext p (k * n) (max start (k * findNext q n (start / k)))) := by
  have hw : start / k ≤ n := (Nat.div_lt_iff_lt_mul hk).mpr (by rwa [Nat.mul_comm]) |>.le
  have hnext := isNext_findNext q hw
  generalize findNext q n (start / k) = w at hnext ⊢
  have hlater := isNext_findNext p (max_le h.le (Nat.mul_le_mul_left k hnext.le))
  refine ⟨(le_max_left ..).trans hlater.ge, hlater.le, fun i hi hlt => ?_, hlater.hit⟩
  rcases lt_or_ge i (k * w) with hin | hout
  · have hblock := hq (i / k) (hnext.skip _ (Nat.div_le_div_right hi)
      ((Nat.div_lt_iff_lt_mul hk).mpr (by rwa [Nat.mul_comm]))) (i % k) (Nat.mod_lt _ hk)
    rwa [Nat.div_add_mod] at hblock
  · exact hlater.skip i (max_le hi hout) hlt

end LinuxNote.Bitmap
