import Mathlib.Data.List.Basic
import Mathlib.Tactic.Linarith

/-! Ordered lists of half-open intervals, and the partial map from points to attributes that such a list
    stands for. The intervals are read off the elements of the list by two functions `lo` and `hi`; the
    point map is the first interval that contains the point. -/

namespace LinuxNote.Intervals
open List Option Nat

section

variable {ρ α β : Type*} [LinearOrder β] (lo hi : ρ → β) (attr : ρ → α)

/-- Intervals in ascending order, none reaching into a later one. -/
def Ordered (l : List ρ) : Prop := l.Pairwise fun r s => hi r ≤ lo s

/-- The attribute the list gives to a point: that of the first interval containing it. -/
def attrAt : List ρ → β → Option α
  | [], _ => none
  | r :: l, a => if lo r ≤ a ∧ a < hi r then some (attr r) else attrAt l a

end

variable {ρ α β : Type*} [LinearOrder β] {lo hi : ρ → β} {attr : ρ → α}

@[simp] theorem attrAt_nil (a : β) : attrAt lo hi attr [] a = none := rfl

theorem attrAt_cons (r : ρ) (l : List ρ) (a : β) : attrAt lo hi attr (r :: l) a = if lo r ≤ a ∧
    a < hi r then some (attr r) else attrAt lo hi attr l a := rfl

theorem attrAt_append (l l' : List ρ) (a : β) :
    attrAt lo hi attr (l ++ l') a = (attrAt lo hi attr l a).or (attrAt lo hi attr l' a) := by
  induction l with
  | nil => simp
  | cons r l ih =>
    simp only [cons_append, attrAt_cons]
    split
    · rfl
    · exact ih

variable {l : List ρ} {a : β} {r : ρ}

/-- A point has no attribute when no interval contains it. -/
theorem attrAt_eq_none_iff : attrAt lo hi attr l a = none ↔ ∀ r ∈ l, ¬(lo r ≤ a ∧ a < hi r) := by
  induction l with
  | nil => simp
  | cons r l ih =>
    rw [attrAt_cons, forall_mem_cons, ← ih]
    split
    case isTrue hr => exact iff_of_false (some_ne_none _) fun h => h.1 hr
    case isFalse hr => exact (and_iff_right hr).symm

theorem attrAt_eq_none_of_hi_le (h : ∀ r ∈ l, hi r ≤ a) : attrAt lo hi attr l a = none :=
  attrAt_eq_none_iff.mpr fun r hr hc => absurd hc.2 (not_lt.mpr (h r hr))

theorem attrAt_eq_none_of_lt_lo (h : ∀ r ∈ l, a < lo r) : attrAt lo hi attr l a = none :=
  attrAt_eq_none_iff.mpr fun r hr hc => absurd (h r hr) (not_lt.mpr hc.1)

/-- Changing only what an attribute is read as changes the map pointwise. -/
theorem attrAt_map_of_eq {f : ρ → ρ} {g : α → α} (hlo : ∀ r ∈ l, lo (f r) = lo r)
    (hhi : ∀ r ∈ l, hi (f r) = hi r) (hattr : ∀ r ∈ l, attr (f r) = g (attr r)) (a : β) :
    attrAt lo hi attr (l.map f) a = (attrAt lo hi attr l a).map g := by
  induction l with
  | nil => rfl
  | cons r l ih =>
    have hr := mem_cons_self (a := r) (l := l)
    rw [map_cons, attrAt_cons, attrAt_cons, hlo r hr, hhi r hr, hattr r hr]
    split
    · rfl
    exact ih (fun s hs => hlo s (mem_cons_of_mem _ hs)) (fun s hs => hhi s (mem_cons_of_mem _ hs))
      (fun s hs => hattr s (mem_cons_of_mem _ hs))

/-! ### Ordered lists -/

@[simp] theorem ordered_nil : Ordered lo hi ([] : List ρ) := Pairwise.nil

theorem ordered_cons : Ordered lo hi (r :: l) ↔ (∀ s ∈ l, hi r ≤ lo s) ∧ Ordered lo hi l := pairwise_cons

theorem ordered_append {l' : List ρ} :
    Ordered lo hi (l ++ l') ↔ Ordered lo hi l ∧ Ordered lo hi l' ∧ ∀ r ∈ l, ∀ s ∈ l', hi r ≤ lo s :=
    pairwise_append

@[simp] theorem ordered_singleton (r : ρ) : Ordered lo hi [r] := pairwise_singleton ..

/-- In an ordered list the interval containing a point is the one the map reads. -/
theorem attrAt_eq_some_of_mem (hl : Ordered lo hi l) (hr : r ∈ l)
    (h1 : lo r ≤ a) (h2 : a < hi r) : attrAt lo hi attr l a = some (attr r) := by
  induction l with
  | nil => simp at hr
  | cons s l ih =>
    rw [attrAt_cons]
    rcases mem_cons.mp hr with rfl | hr
    · rw [if_pos ⟨h1, h2⟩]
    have hsr := (ordered_cons.mp hl).1 r hr
    rw [if_neg (by rintro ⟨_, h⟩; exact absurd h (not_lt.mpr (hsr.trans h1)))]
    exact ih (ordered_cons.mp hl).2 hr

/-! ### Changing the map on an interval -/

section
variable {γ : Type*} (lo₀ hi₀ : β)

/-- Give the attribute `v` to the points of `[lo₀, hi₀)` that have none. -/
def addOn (v : γ) (m : β → Option γ) (a : β) : Option γ :=
  (m a).or (if lo₀ ≤ a ∧ a < hi₀ then some v else none)

/-- Take the attributes of the points of `[lo₀, hi₀)` away. -/
def eraseOn (m : β → Option γ) (a : β) : Option γ := if lo₀ ≤ a ∧ a < hi₀ then none else m a

/-- Change the attributes of the points of `[lo₀, hi₀)`. -/
def mapOn (g : γ → γ) (m : β → Option γ) (a : β) : Option γ :=
  if lo₀ ≤ a ∧ a < hi₀ then (m a).map g else m a

/-- Give each point of `[lo₀, hi₀)` a value of its own. -/
def setOn (v : β → γ) (m : β → Option γ) (a : β) : Option γ :=
  if lo₀ ≤ a ∧ a < hi₀ then some (v a) else m a

end

section
variable {lo₀ hi₀ : β} {L M R : List ρ}

section
variable (hL : ∀ r ∈ L, hi r ≤ lo₀) (hM : ∀ r ∈ M, lo₀ ≤ lo r ∧ hi r ≤ hi₀) (hR : ∀ r ∈ R, hi₀ ≤ lo r)
include hL hM hR

/-- A list cut at both ends of `[lo₀, hi₀)`, read outside and inside of it. -/
theorem attrAt_three (a : β) : attrAt lo hi attr (L ++ M ++ R) a = if lo₀ ≤ a ∧
    a < hi₀ then attrAt lo hi attr M a else attrAt lo hi attr (L ++ R) a := by
  rw [attrAt_append, attrAt_append, attrAt_append]
  split
  · rename_i ha
    rw [attrAt_eq_none_of_hi_le fun r hr => (hL r hr).trans ha.1,
      attrAt_eq_none_of_lt_lo fun r hr => ha.2.trans_le (hR r hr), none_or, or_none]
  · rename_i ha
    rw [attrAt_eq_none_iff.mpr fun r hr hc => ha ⟨(hM r hr).1.trans hc.1, hc.2.trans_le (hM r hr).2⟩,
      or_none]

/-- Leaving out the middle part takes its attributes away. -/
theorem attrAt_erase_middle (a : β) : attrAt lo hi attr (L ++ R) a = eraseOn lo₀ hi₀
    (attrAt lo hi attr (L ++ M ++ R)) a := by
  have h : attrAt lo hi attr (L ++ [] ++ R) a = _ := attrAt_three hL (by simp) hR a
  rw [append_nil, attrAt_nil] at h
  rw [eraseOn, attrAt_three hL hM hR, h]
  split <;> rfl

/-- Changing the middle part changes its attributes only. -/
theorem attrAt_map_middle {f : ρ → ρ} {g : α → α}
    (hlo : ∀ r ∈ M, lo (f r) = lo r) (hhi : ∀ r ∈ M, hi (f r) = hi r)
    (hattr : ∀ r ∈ M, attr (f r) = g (attr r)) (a : β) :
    attrAt lo hi attr (L ++ M.map f ++ R) a = mapOn lo₀ hi₀ g (attrAt lo hi attr (L ++ M ++ R)) a := by
  have hM' : ∀ r ∈ M.map f, lo₀ ≤ lo r ∧ hi r ≤ hi₀ := by
    intro r hr
    obtain ⟨s, hs, rfl⟩ := mem_map.mp hr
    rw [hlo s hs, hhi s hs]
    exact hM s hs
  rw [mapOn, attrAt_three hL hM' hR, attrAt_three hL hM hR, attrAt_map_of_eq hlo hhi hattr]
  split <;> rfl

end

/-! ### Values that depend on the point -/

section

variable (lo hi) in
/-- The value at a point of the first interval containing it. -/
def valueAt (val : ρ → β → α) (l : List ρ) (a : β) : Option α := (attrAt lo hi val l a).map (· a)

variable {val : ρ → β → α} {M' : List ρ} {v : β → α}

@[simp] theorem valueAt_nil (a : β) : valueAt lo hi val [] a = none := rfl

theorem valueAt_cons (r : ρ) (l : List ρ) (a : β) : valueAt lo hi val (r :: l) a = if lo r ≤ a ∧
    a < hi r then some (val r a) else valueAt lo hi val l a := by
  rw [valueAt, attrAt_cons]
  split <;> rfl

theorem valueAt_append (l l' : List ρ) (a : β) :
    valueAt lo hi val (l ++ l') a = (valueAt lo hi val l a).or (valueAt lo hi val l' a) := by
  rw [valueAt, attrAt_append, map_or]
  rfl

/-- Setting the values of an interval in the middle part sets them in the whole. -/
theorem valueAt_set_middle (hL : ∀ r ∈ L, hi r ≤ lo₀)
    (h : ∀ a, valueAt lo hi val M' a = setOn lo₀ hi₀ v (valueAt lo hi val M) a) (a : β) :
    valueAt lo hi val (L ++ M' ++ R) a = setOn lo₀ hi₀ v (valueAt lo hi val (L ++ M ++ R)) a := by
  rw [valueAt_append, valueAt_append, h, setOn, setOn]
  split
  · rename_i ha
    have hnone : valueAt lo hi val L a = none := by
      rw [valueAt, attrAt_eq_none_of_hi_le fun r hr => (hL r hr).trans ha.1]
      rfl
    rw [hnone, none_or, some_or]
  · rw [valueAt_append, valueAt_append]

/-- Leaving out the middle part takes its values away. -/
theorem valueAt_erase_middle (hL : ∀ r ∈ L, hi r ≤ lo₀) (hM : ∀ r ∈ M, lo₀ ≤ lo r ∧ hi r ≤ hi₀)
    (hR : ∀ r ∈ R, hi₀ ≤ lo r) (a : β) :
    valueAt lo hi val (L ++ R) a = eraseOn lo₀ hi₀ (valueAt lo hi val (L ++ M ++ R)) a := by
  rw [valueAt, attrAt_erase_middle hL hM hR, eraseOn, eraseOn, valueAt]
  split <;> rfl

end

end

/-! ### Maximal intervals of a set -/

/-- `[s, e)` is a non-empty interval inside `S`, and no larger interval inside `S` contains it. -/
structure IsMaximal (S : Set ℕ) (s e : ℕ) : Prop where
  nonempty : s < e
  inside : ∀ a, s ≤ a → a < e → a ∈ S
  maximal : ∀ s' e', s' ≤ s → e ≤ e' → (∀ a, s' ≤ a → a < e' → a ∈ S) → s' = s ∧ e' = e

/-- Maximal means that the points next to both ends are outside. -/
theorem isMaximal_iff {S : Set ℕ} {s e : ℕ} :
    IsMaximal S s e ↔ s < e ∧ (∀ a, s ≤ a → a < e → a ∈ S) ∧ (∀ a, a + 1 = s → a ∉ S) ∧ e ∉ S := by
  constructor
  · rintro ⟨hne, hin, hmax⟩
    refine ⟨hne, hin, ?_, ?_⟩
    · rintro a rfl ha
      have := hmax a e (le_succ a) (le_refl e) fun b hb hbe => by
        rcases eq_or_lt_of_le hb with rfl | hb
        · exact ha
        · exact hin b hb hbe
      omega
    intro he
    have := hmax s (e + 1) (le_refl s) (le_succ e) fun b hb hbe => by
      rcases eq_or_lt_of_le (le_of_lt_succ hbe) with rfl | hbe
      · exact he
      · exact hin b hb hbe
    omega
  rintro ⟨hne, hin, hleft, hright⟩
  refine ⟨hne, hin, fun s' e' hs he hall => ⟨?_, ?_⟩⟩
  · by_contra h
    exact hleft (s - 1) (by omega) (hall (s - 1) (by omega) (by omega))
  by_contra h
  exact hright (hall e (by omega) (by omega))

end LinuxNote.Intervals
