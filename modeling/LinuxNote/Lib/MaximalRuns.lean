import Mathlib.Data.Nat.Find
import Mathlib.Order.MinMax

/-! Maximal runs of the positions below `n` that have a property, and what is worth remembering of a set
    of runs: the run at either edge and a longest one. The summary is kept up to date when positions
    leave one of the runs, and when new positions join them. -/

namespace LinuxNote.MaximalRuns
open Nat

variable {p q : ℕ → Prop} {n s e t a b j l r len start : ℕ}

/-- `[s, e)` is a run of positions with `p` that goes on neither to the left nor to the right. -/
structure IsRun (p : ℕ → Prop) (n s e : ℕ) : Prop where
  lt : s < e
  le : e ≤ n
  mem : ∀ j, s ≤ j → j < e → p j
  left : ∀ j, j + 1 = s → ¬p j
  right : e < n → ¬p e

/-! ### Runs and intervals -/

theorem exists_start (hp : p j) : ∃ s ≤ j, (∀ k, s ≤ k → k ≤ j → p k) ∧ ∀ k, k + 1 = s → ¬p k := by
  classical
  have hex : ∃ s ≤ j, ∀ k, s ≤ k → k ≤ j → p k := ⟨j, le_rfl, fun k hjk hkj => le_antisymm hjk hkj ▸ hp⟩
  obtain ⟨hs, hmem⟩ := Nat.find_spec hex
  refine ⟨Nat.find hex, hs, hmem, fun k hk hpk => ?_⟩
  refine Nat.find_min hex (m := k) (by omega) ⟨by omega, fun i hki hij => ?_⟩
  rcases eq_or_lt_of_le hki with rfl | hlt
  · exact hpk
  · exact hmem i (by omega) hij

theorem exists_stop (hp : p j) (hj : j < n) : ∃ e, j < e ∧ e ≤ n ∧ (∀ k, j ≤ k → k < e → p k) ∧
    (e < n → ¬p e) := by
  classical
  have hn : j < n ∧ (n < n → ¬p n) := ⟨hj, fun h => absurd h (lt_irrefl n)⟩
  have hex : ∃ e, j < e ∧ (e < n → ¬p e) := ⟨n, hn⟩
  obtain ⟨hje, hright⟩ := Nat.find_spec hex
  refine ⟨Nat.find hex, hje, Nat.find_min' hex hn, fun k hjk hk => ?_, hright⟩
  rcases eq_or_lt_of_le hjk with rfl | hlt
  · exact hp
  by_contra hpk
  exact Nat.find_min hex hk ⟨hlt, fun _ => hpk⟩

/-- Every position with `p` is in a run. -/
theorem exists_isRun (hp : p j) (hj : j < n) : ∃ s e, IsRun p n s e ∧ s ≤ j ∧ j < e := by
  obtain ⟨s, hs, hbefore, hleft⟩ := exists_start hp
  obtain ⟨e, hje, hen, hafter, hright⟩ := exists_stop hp hj
  refine ⟨s, e, ⟨by omega, hen, fun k hsk hke => ?_, hleft, hright⟩, hs, hje⟩
  rcases le_total k j with hk | hk
  · exact hbefore k hsk hk
  · exact hafter k hk hke

namespace IsRun

/-- An interval with `p` that touches a run does not go beyond it to the left. -/
theorem start_le (h : IsRun p n s e) (hsb : s ≤ b) (hmem : ∀ j, a ≤ j → j < b → p j) : s ≤ a := by
  by_contra has
  exact h.left (s - 1) (by omega) (hmem _ (by omega) (by omega))

/-- An interval with `p` that touches a run does not go beyond it to the right. -/
theorem le_stop (h : IsRun p n s e) (hae : a ≤ e) (hmem : ∀ j, a ≤ j → j < b → p j) (hb : b ≤ n) :
    b ≤ e := by
  by_contra hlt
  exact h.right (by omega) (hmem e hae (by omega))

/-- Runs that touch are equal. -/
theorem unique {s' e' : ℕ} (h : IsRun p n s e) (h' : IsRun p n s' e') (hs : s ≤ e') (hs' : s' ≤ e) :
    s = s' ∧ e = e' :=
  ⟨le_antisymm (h.start_le hs h'.mem) (h'.start_le hs' h.mem),
    le_antisymm (h'.le_stop hs h.mem h.le) (h.le_stop hs' h'.mem h'.le)⟩

/-- A run of which every position stays is a run of what stays. -/
theorem of_subset (h : IsRun p n s e) (hsub : ∀ j < n, q j → p j) (hmem : ∀ j, s ≤ j → j < e → q j) :
    IsRun q n s e := by
  have hle := h.le
  have hlt := h.lt
  exact ⟨hlt, hle, hmem, fun j hj hq => h.left j hj (hsub j (by omega) hq),
    fun hen hq => h.right hen (hsub e hen hq)⟩

end IsRun

/-! ### The runs at the edges -/

/-- The first `l` positions have `p`, and no more than these. -/
structure LeftEdge (p : ℕ → Prop) (n l : ℕ) : Prop where
  le : l ≤ n
  mem : ∀ j < l, p j
  stop : l < n → ¬p l

/-- The last `r` positions have `p`, and no more than these. -/
structure RightEdge (p : ℕ → Prop) (n r : ℕ) : Prop where
  le : r ≤ n
  mem : ∀ j < n, n - r ≤ j → p j
  stop : ∀ j, j + 1 + r = n → ¬p j

theorem isRun_zero_iff : IsRun p n 0 e ↔ LeftEdge p n e ∧ 0 < e := by
  constructor
  · intro h
    exact ⟨⟨h.le, fun j hj => h.mem j (zero_le j) hj, h.right⟩, h.lt⟩
  rintro ⟨h, hpos⟩
  exact ⟨hpos, h.le, fun j _ hj => h.mem j hj, fun j hj => absurd hj (succ_ne_zero j), h.stop⟩

theorem isRun_end_iff : IsRun p n s n ↔ RightEdge p n (n - s) ∧ s < n := by
  constructor
  · intro h
    have hlt := h.lt
    exact ⟨⟨by omega, fun j hj hs => h.mem j (by omega) hj, fun j hj => h.left j (by omega)⟩, hlt⟩
  rintro ⟨h, hlt⟩
  exact ⟨hlt, le_rfl, fun j hs hj => h.mem j hj (by omega), fun j hj => h.stop j (by omega),
    fun h => absurd h (lt_irrefl n)⟩

theorem LeftEdge.unique {l' : ℕ} (h : LeftEdge p n l) (h' : LeftEdge p n l') : l = l' := by
  have hle := h.le
  have hle' := h'.le
  rcases lt_trichotomy l l' with hlt | heq | hlt
  · exact absurd (h'.mem l hlt) (h.stop (by omega))
  · exact heq
  · exact absurd (h.mem l' hlt) (h'.stop (by omega))

theorem RightEdge.unique {r' : ℕ} (h : RightEdge p n r) (h' : RightEdge p n r') : r = r' := by
  have hle := h.le
  have hle' := h'.le
  rcases lt_trichotomy r r' with hlt | heq | hlt
  · exact absurd (h'.mem (n - r - 1) (by omega) (by omega)) (h.stop _ (by omega))
  · exact heq
  · exact absurd (h.mem (n - r' - 1) (by omega) (by omega)) (h'.stop _ (by omega))

/-! ### Summaries -/

/-- What is remembered of the runs in `K`: the lengths of those at the edges, and the length and the
    start of a longest one. -/
structure Summary (K : ℕ → ℕ → Prop) (n left right len start : ℕ) : Prop where
  left_eq : ∀ e, K 0 e → left = e
  left_zero : (∀ e, ¬K 0 e) → left = 0
  right_eq : ∀ s, K s n → right = n - s
  right_zero : (∀ s, ¬K s n) → right = 0
  le_len : ∀ s e, K s e → e ≤ s + len
  at_start : len ≠ 0 → K start (start + len)

/-- The run `[s, t)` is new, and the runs that are gone are parts of it. The new summary has the longer
    one of the longest runs, and either of them when they are equally long. -/
theorem Summary.add {K K' : ℕ → ℕ → Prop} {len' start' : ℕ} (h : Summary K n l r len start) (hst : s < t)
    (htn : t ≤ n) (hnew : K' s t) (hold : ∀ x y, K' x y → K x y ∨ x = s ∧ y = t)
    (hkeep : ∀ x y, K x y → K' x y ∨ s ≤ x ∧ y ≤ t ∧ y + s < t + x)
    (hleft : ∀ y, K' 0 y → s = 0 → y = t) (hright : ∀ x, K' x n → t = n → x = s)
    (hlen : len' = t - s ∧ start' = s ∧ len ≤ t - s ∨ len' = len ∧ start' = start ∧ t - s ≤ len) :
    Summary K' n (if s = 0 then t - s else l) (if t = n then t - s else r) len' start' where
  left_eq y hy := by
    split
    case isTrue hs => rw [hleft y hy hs, hs, Nat.sub_zero]
    case isFalse hs =>
      rcases hold 0 y hy with hy | ⟨hy, -⟩
      · exact h.left_eq y hy
      · exact absurd hy.symm hs
  left_zero hnone := by
    by_cases hs : s = 0
    · exact absurd (hs ▸ hnew) (hnone t)
    rw [if_neg hs]
    refine h.left_zero fun y hy => ?_
    rcases hkeep 0 y hy with hy | ⟨hs', -⟩
    · exact hnone y hy
    · exact hs (le_zero.mp hs')
  right_eq x hx := by
    split
    case isTrue ht => rw [hright x hx ht, ht]
    case isFalse ht =>
      rcases hold x n hx with hx | ⟨-, hx⟩
      · exact h.right_eq x hx
      · exact absurd hx.symm ht
  right_zero hnone := by
    by_cases ht : t = n
    · exact absurd (ht ▸ hnew) (hnone s)
    rw [if_neg ht]
    refine h.right_zero fun x hx => ?_
    rcases hkeep x n hx with hx | ⟨-, hnt, -⟩
    · exact hnone x hx
    · exact ht (le_antisymm htn hnt)
  le_len x y hxy := by
    rcases hold x y hxy with hxy | ⟨rfl, rfl⟩
    · have := h.le_len x y hxy
      rcases hlen with ⟨rfl, -, hle⟩ | ⟨rfl, -⟩ <;> omega
    · rcases hlen with ⟨rfl, -⟩ | ⟨rfl, -, hle⟩ <;> omega
  at_start hne := by
    rcases hlen with ⟨rfl, rfl, -⟩ | ⟨rfl, rfl, hle⟩
    · rwa [Nat.add_sub_cancel' hst.le]
    rcases hkeep _ _ (h.at_start hne) with hrun | ⟨-, -, hshort⟩
    · exact hrun
    · omega

/-- The summary of all the runs, in terms of the edges. -/
theorem summary_isRun_iff : Summary (IsRun p n) n l r len start ↔ LeftEdge p n l ∧ RightEdge p n r ∧
    (∀ s e, IsRun p n s e → e ≤ s + len) ∧ (len ≠ 0 → IsRun p n start (start + len)) := by
  constructor
  · intro h
    refine ⟨?_, ?_, h.le_len, h.at_start⟩
    · by_cases hrun : ∃ e, IsRun p n 0 e
      · obtain ⟨e, he⟩ := hrun
        rw [h.left_eq e he]
        exact (isRun_zero_iff.mp he).1
      rw [h.left_zero (not_exists.mp hrun)]
      refine ⟨zero_le n, fun j hj => absurd hj (not_lt_zero j), fun hn hp => hrun ?_⟩
      obtain ⟨s, e, he, hs, -⟩ := exists_isRun hp hn
      exact ⟨e, le_zero.mp hs ▸ he⟩
    by_cases hrun : ∃ s, IsRun p n s n
    · obtain ⟨s, hs⟩ := hrun
      rw [h.right_eq s hs]
      exact (isRun_end_iff.mp hs).1
    rw [h.right_zero (not_exists.mp hrun)]
    refine ⟨zero_le n, fun j hj hnj => absurd hj (by omega), fun j hj hp => hrun ?_⟩
    obtain ⟨s, e, he, -, hje⟩ := exists_isRun (n := n) hp (by omega)
    have hen := he.le
    exact ⟨s, (show e = n by omega) ▸ he⟩
  rintro ⟨hl, hr, hlen, hstart⟩
  refine ⟨fun e he => hl.unique (isRun_zero_iff.mp he).1, fun hnone => ?_,
    fun s hs => hr.unique (isRun_end_iff.mp hs).1, fun hnone => ?_, hlen, hstart⟩
  · by_contra hne
    exact hnone l (isRun_zero_iff.mpr ⟨hl, Nat.pos_of_ne_zero hne⟩)
  by_contra hne
  have hle := hr.le
  refine hnone (n - r) (isRun_end_iff.mpr ⟨?_, by omega⟩)
  rwa [Nat.sub_sub_self hle]

/-! ### Positions leave -/

section
variable (hab : a < b) (hb : b ≤ n) (hq : ∀ j < n, q j ↔ p j ∧ ¬(a ≤ j ∧ j < b))
include hab hb hq

theorem LeftEdge.remove (h : LeftEdge p n l) : LeftEdge q n (min l a) := by
  refine ⟨by omega, fun j hj => (hq j (by omega)).mpr ⟨h.mem j (by omega), by omega⟩,
    fun hlt hstop => ?_⟩
  obtain ⟨hp, hout⟩ := (hq _ hlt).mp hstop
  rcases le_total l a with hla | hal
  · rw [min_eq_left hla] at hlt hp
    exact h.stop hlt hp
  rw [min_eq_right hal] at hout
  exact hout ⟨le_rfl, hab⟩

theorem RightEdge.remove (h : RightEdge p n r) : RightEdge q n (min r (n - b)) := by
  refine ⟨by omega, fun j hj hnj => (hq j hj).mpr ⟨h.mem j hj (by omega), by omega⟩,
    fun j hj hstop => ?_⟩
  obtain ⟨hp, hout⟩ := (hq j (by omega)).mp hstop
  rcases le_total r (n - b) with hrb | hbr
  · rw [min_eq_left hrb] at hj
    exact h.stop j hj hp
  · exact hout ⟨by omega, by omega⟩

/-- An interval of positions is gone that does not start inside the remembered run. -/
theorem Summary.remove (h : Summary (IsRun p n) n l r len start) (hmem : ∀ j, a ≤ j → j < b → p j)
    (hout : ¬(start ≤ a ∧ a < start + len)) :
    Summary (IsRun q n) n (min l a) (min r (n - b)) len start := by
  obtain ⟨hl, hr, hlen, hstart⟩ := summary_isRun_iff.mp h
  have hsub : ∀ j < n, q j → p j := fun j hj hqj => ((hq j hj).mp hqj).1
  refine summary_isRun_iff.mpr ⟨hl.remove hab hb hq, hr.remove hab hb hq, fun s e hrun => ?_,
    fun hne => ?_⟩
  · -- a run that is left is part of one that was there
    have hse := hrun.lt
    have hen := hrun.le
    have hfree : ∀ j, s ≤ j → j < e → p j := fun j hs he => hsub j (by omega) (hrun.mem j hs he)
    obtain ⟨x, y, hxy, hx, hy⟩ := exists_isRun (n := n) (hfree s le_rfl hse) (by omega)
    have hey := hxy.le_stop hy.le hfree hen
    have := hlen x y hxy
    omega
  -- the interval is part of one run, so it meets the remembered one only if it starts in it
  have hrun := hstart hne
  have hle := hrun.le
  refine hrun.of_subset hsub fun j hs he => (hq j (by omega)).mpr ⟨hrun.mem j hs he, fun hj => hout ?_⟩
  exact ⟨hrun.start_le (by omega) hmem, by omega⟩

end

/-! ### Positions join -/

section
variable (hq : ∀ j < n, q j ↔ p j ∨ a ≤ j ∧ j < b) (hrun : IsRun q n s t) (hsa : s ≤ a) (hbt : b ≤ t)
include hq hrun hsa hbt

/-- The only new run is the one around the new positions. -/
theorem isRun_of_join {x y : ℕ} (h : IsRun q n x y) : IsRun p n x y ∨ x = s ∧ y = t := by
  have hxy := h.lt
  have hyn := h.le
  by_cases hmeet : x < b ∧ a < y
  · exact .inr (h.unique hrun (by omega) (by omega))
  refine .inl ⟨hxy, hyn, fun j hx hy => ?_, fun j hj hp => ?_, fun hlt hp => ?_⟩
  · rcases (hq j (by omega)).mp (h.mem j hx hy) with hp | hin
    · exact hp
    · exact absurd ⟨by omega, by omega⟩ hmeet
  · exact h.left j hj ((hq j (by omega)).mpr (.inl hp))
  · exact h.right hlt ((hq y hlt).mpr (.inl hp))

/-- A run is still one, or it is part of the run around the new positions. -/
theorem isRun_join {x y : ℕ} (h : IsRun p n x y) : IsRun q n x y ∨ s ≤ x ∧ y ≤ t ∧ y + s < t + x := by
  have hxy := h.lt
  have hyn := h.le
  have hmem : ∀ j, x ≤ j → j < y → q j := fun j hx hy => (hq j (by omega)).mpr (.inl (h.mem j hx hy))
  by_cases htouch : x ≤ t ∧ s ≤ y
  · have hsx := hrun.start_le htouch.2 hmem
    have hyt := hrun.le_stop htouch.1 hmem hyn
    by_cases heq : x = s ∧ y = t
    · rw [heq.1, heq.2]
      exact .inl hrun
    · exact .inr ⟨hsx, hyt, by omega⟩
  refine .inl ⟨hxy, hyn, hmem, fun j hj hqj => ?_, fun hlt hqy => ?_⟩
  · rcases (hq j (by omega)).mp hqj with hp | hin
    · exact h.left j hj hp
    · exact htouch ⟨by omega, by omega⟩
  rcases (hq y hlt).mp hqy with hp | hin
  · exact h.right hlt hp
  · exact htouch ⟨by omega, by omega⟩

/-- New positions join, and `[s, t)` is the run they are in then. -/
theorem Summary.join {len' start' : ℕ} (h : Summary (IsRun p n) n l r len start)
    (hlen : len' = t - s ∧ start' = s ∧ len ≤ t - s ∨ len' = len ∧ start' = start ∧ t - s ≤ len) :
    Summary (IsRun q n) n (if s = 0 then t - s else l) (if t = n then t - s else r) len' start' :=
  h.add hrun.lt hrun.le hrun (fun _ _ => isRun_of_join hq hrun hsa hbt)
    (fun _ _ => isRun_join hq hrun hsa hbt) (fun _ hy hs => (hy.unique hrun (zero_le t) (by omega)).2)
    (fun _ hx ht => (hx.unique hrun (by have := hx.lt; omega) (by have := hrun.lt; omega)).1) hlen

end

end LinuxNote.MaximalRuns
