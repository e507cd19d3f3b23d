import LinuxNote.SwapSlots.Basic
import Mathlib.Order.Interval.Finset.Nat

/-! The counters of the slot map are those of its bytes, and stay so when a range of slots is taken or
given back. -/

namespace LinuxNote.SwapSlots
open Finset Config Nat Function

open SwapCount (Byte swapHasCache swapMapBad)

namespace SlotMap

variable {m m' : SlotMap} {offset n s : ℕ} {b : Byte}

/-- Slots behind the end count as used. -/
def Used (m : SlotMap) (s : ℕ) : Prop := m.max ≤ s ∨ m.swapMap s ≠ 0#8

instance (m : SlotMap) : DecidablePred m.Used :=
    fun s => inferInstanceAs (Decidable (m.max ≤ s ∨ m.swapMap s ≠ 0#8))

/-- The slot can be handed out. -/
def Free (m : SlotMap) (s : ℕ) : Prop := s < m.max ∧ m.swapMap s = 0#8

/-- The slots handed out. -/
def usedSlots (m : SlotMap) : Finset ℕ :=
  (Finset.range m.max).filter fun s => m.swapMap s ≠ 0#8 ∧ m.swapMap s ≠ swapMapBad

def goodSlots (m : SlotMap) : Finset ℕ := (Finset.range m.max).filter fun s => m.swapMap s ≠ swapMapBad

theorem mem_usedSlots : s ∈ m.usedSlots ↔ s < m.max ∧ m.swapMap s ≠ 0#8 ∧ m.swapMap s ≠ swapMapBad := by
  rw [usedSlots, mem_filter, mem_range]

theorem mem_goodSlots : s ∈ m.goodSlots ↔ s < m.max ∧ m.swapMap s ≠ swapMapBad := by
  rw [goodSlots, mem_filter, mem_range]

theorem Free.not_used (h : m.Free s) : ¬m.Used s := by
  rintro (hs | hs)
  · exact absurd h.1 (by omega)
  · exact hs h.2

theorem free_of_not_used (h : ¬m.Used s) : m.Free s := by
  rw [Used, not_or, not_not] at h
  exact ⟨by omega, h.2⟩

/-- The good slots that are not handed out are the free ones. -/
theorem usedSlots_card (m : SlotMap) : m.usedSlots.card = m.goodSlots.card ↔ ∀ s, ¬m.Free s := by
  have hsub : m.usedSlots ⊆ m.goodSlots := by
    intro s hs
    rw [mem_usedSlots] at hs
    exact mem_goodSlots.mpr ⟨hs.1, hs.2.2⟩
  constructor
  · rintro hcard s ⟨hs, hzero⟩
    have hgood : s ∈ m.goodSlots := mem_goodSlots.mpr ⟨hs, by rw [hzero]; decide⟩
    rw [← eq_of_subset_of_card_le hsub hcard.ge] at hgood
    exact (mem_usedSlots.mp hgood).2.1 hzero
  intro hfree
  refine congrArg card (Subset.antisymm hsub fun s hs => ?_)
  rw [mem_goodSlots] at hs
  exact mem_usedSlots.mpr ⟨hs.1, fun hzero => hfree s ⟨hs.1, hzero⟩, hs.2⟩

/-- `n` slots from `offset` on are free in `m` and handed out in `m'`, which is otherwise the same. -/
structure Fills (m m' : SlotMap) (offset n : ℕ) : Prop where
  max_eq : m'.max = m.max
  stop_le : offset + n ≤ m.max
  outside : ∀ s, ¬(offset ≤ s ∧ s < offset + n) → m'.swapMap s = m.swapMap s
  before : ∀ s, offset ≤ s → s < offset + n → m.swapMap s = 0#8
  after : ∀ s, offset ≤ s → s < offset + n → m'.swapMap s ≠ 0#8 ∧ m'.swapMap s ≠ swapMapBad

theorem fills_fill (hstop : offset + n ≤ m.max)
    (hfree : ∀ s, offset ≤ s → s < offset + n → m.swapMap s = 0#8) (hb : b ≠ 0#8 ∧ b ≠ swapMapBad) :
    Fills m (m.fill offset n b) offset n := by
  refine ⟨rfl, hstop, fun s hs => if_neg hs, hfree, fun s h1 h2 => ?_⟩
  simp only [fill, if_pos (And.intro h1 h2)]
  exact hb

theorem fill_fills (hstop : offset + n ≤ m.max)
    (hcache : ∀ s, offset ≤ s → s < offset + n → m.swapMap s = swapHasCache) :
    Fills (m.fill offset n 0#8) m offset n := by
  refine ⟨rfl, hstop, fun _ hs => (if_neg hs).symm, fun _ h1 h2 => if_pos ⟨h1, h2⟩, fun s h1 h2 => ?_⟩
  rw [hcache s h1 h2]
  decide

section
variable (h : Fills m m' offset n)
include h

theorem Fills.used_iff : m'.Used s ↔ m.Used s ∨ offset ≤ s ∧ s < offset + n := by
  rw [Used, Used, h.max_eq]
  by_cases hin : offset ≤ s ∧ s < offset + n
  · exact iff_of_true (.inr (h.after s hin.1 hin.2).1) (.inr hin)
  · rw [h.outside s hin, or_iff_left hin]

theorem Fills.free_iff : m'.Free s ↔ m.Free s ∧ ¬(offset ≤ s ∧ s < offset + n) := by
  constructor
  · intro hs
    have hnot := mt h.used_iff.mpr hs.not_used
    rw [not_or] at hnot
    exact ⟨free_of_not_used hnot.1, hnot.2⟩
  · rintro ⟨hs, hin⟩
    exact free_of_not_used (mt h.used_iff.mp (not_or.mpr ⟨hs.not_used, hin⟩))

theorem Fills.usedSlots_eq : m'.usedSlots = m.usedSlots ∪ Ico offset (offset + n) := by
  ext s
  rw [mem_union, mem_Ico, mem_usedSlots, mem_usedSlots, h.max_eq]
  by_cases hin : offset ≤ s ∧ s < offset + n
  · have hstop := h.stop_le
    exact iff_of_true ⟨by omega, h.after s hin.1 hin.2⟩ (.inr hin)
  · rw [h.outside s hin, or_iff_left hin]

theorem Fills.usedSlots_card : m'.usedSlots.card = m.usedSlots.card + n := by
  rw [h.usedSlots_eq, card_union_of_disjoint, card_Ico]
  · omega
  rw [disjoint_left]
  intro s hs hin
  rw [mem_Ico] at hin
  exact (mem_usedSlots.mp hs).2.1 (h.before s hin.1 hin.2)

theorem Fills.goodSlots_eq : m'.goodSlots = m.goodSlots := by
  ext s
  rw [mem_goodSlots, mem_goodSlots, h.max_eq]
  by_cases hin : offset ≤ s ∧ s < offset + n
  · rw [h.before s hin.1 hin.2]
    exact and_congr_right fun _ => iff_of_true (h.after s hin.1 hin.2).2 (by decide)
  · rw [h.outside s hin]

end

/-! ### Counters -/

/-- The counters fit the bytes. Slot 0 is the header of the area. -/
structure Sound (m : SlotMap) : Prop where
  header : m.swapMap 0 = swapMapBad
  inside : ∀ s, m.Free s → m.lowestBit ≤ s ∧ s ≤ m.highestBit
  highest_lt : m.highestBit < m.max
  not_full : m.highestBit ≠ 0 → ∃ s, m.Free s
  inuse_eq : m.inusePages = m.usedSlots.card
  pages_eq : m.pages = m.goodSlots.card

@[simp] theorem swapRangeAlloc_swapMap : (m.swapRangeAlloc offset n).swapMap = m.swapMap := by
  rw [swapRangeAlloc]
  split <;> rfl

@[simp] theorem swapRangeAlloc_max : (m.swapRangeAlloc offset n).max = m.max := by
  rw [swapRangeAlloc]
  split <;> rfl

theorem Sound.pos (h : m.Sound) (hs : m.Free s) : 0 < s := by
  rcases Nat.eq_zero_or_pos s with rfl | hpos
  · have hzero := hs.2
    rw [h.header] at hzero
    exact absurd hzero (by decide)
  · exact hpos

/-- `swap_range_alloc` -/
theorem Sound.alloc (h : m.Sound) (hn : 0 < n) (hf : Fills m (m.fill offset n b) offset n) :
    ((m.fill offset n b).swapRangeAlloc offset n).Sound := by
  have hstop := hf.stop_le
  have hpos := h.pos ⟨by omega, hf.before offset le_rfl (by omega)⟩
  have hhigh := h.highest_lt
  have hinuse :
    m.inusePages + n = (m.fill offset n b).usedSlots.card := by rw [hf.usedSlots_card, h.inuse_eq]
  have hpages : m.pages = (m.fill offset n b).goodSlots.card := by rw [hf.goodSlots_eq, h.pages_eq]
  have hheader : (m.fill offset n b).swapMap 0 = swapMapBad := by
    rw [hf.outside 0 (by omega), h.header]
  have hfull := usedSlots_card (m.fill offset n b)
  rw [← hinuse, ← hpages] at hfull
  rw [swapRangeAlloc]
  split
  · next heq =>
    have hnone := hfull.mp heq
    exact ⟨hheader, fun s hs => absurd hs (hnone s), by show 0 < m.max; omega, fun hne => absurd rfl hne,
      hinuse, hpages⟩
  next hne =>
  have hsome : ∃ s, (m.fill offset n b).Free s := by
    by_contra hnone
    exact hne (hfull.mpr (not_exists.mp hnone))
  refine ⟨hheader, fun s hs => ?_, ?_, fun _ => hsome, hinuse, hpages⟩
  · obtain ⟨hs, hout⟩ := hf.free_iff.mp hs
    obtain ⟨hlow, hhigh⟩ := h.inside s hs
    show (if offset = m.lowestBit then m.lowestBit + n else m.lowestBit) ≤ s ∧
      s ≤ if offset + n - 1 = m.highestBit then m.highestBit - n else m.highestBit
    constructor <;> split <;> omega
  · show (if offset + n - 1 = m.highestBit then m.highestBit - n else m.highestBit) < m.max
    split <;> omega

/-- `swap_range_free` -/
theorem Sound.free (h : m.Sound) (hn : 0 < n) (hf : Fills (m.fill offset n 0#8) m offset n) :
    ((m.fill offset n 0#8).swapRangeFree offset n).Sound := by
  have hstop : offset + n ≤ m.max := hf.stop_le
  have hhigh := h.highest_lt
  have hpos : offset ≠ 0 := by
    rintro rfl
    exact (hf.after 0 le_rfl (by omega)).2 h.header
  have hoffset : (m.fill offset n 0#8).Free offset :=
    ⟨by show offset < m.max; omega, hf.before offset le_rfl (by omega)⟩
  refine ⟨?_, fun s hs => ?_, ?_, fun _ => ⟨offset, hoffset⟩, ?_, ?_⟩
  · exact (hf.outside 0 (by omega)).symm.trans h.header
  · show (if offset < m.lowestBit then offset else m.lowestBit) ≤ s ∧
      s ≤ if m.highestBit < offset + n - 1 then offset + n - 1 else m.highestBit
    by_cases hin : offset ≤ s ∧ s < offset + n
    · constructor <;> split <;> omega
    obtain ⟨hlow, hhigh⟩ := h.inside s (hf.free_iff.mpr ⟨hs, hin⟩)
    constructor <;> split <;> omega
  · show (if m.highestBit < offset + n - 1 then offset + n - 1 else m.highestBit) < m.max
    split <;> omega
  · have hcard := hf.usedSlots_card
    rw [← h.inuse_eq] at hcard
    show m.inusePages - n = (m.fill offset n 0#8).usedSlots.card
    omega
  · exact h.pages_eq.trans (congrArg card hf.goodSlots_eq)

/-! ### Used slots of a cluster -/

variable [Config]

/-- The used slots of a cluster. -/
def count (m : SlotMap) (idx : ℕ) : ℕ :=
  ((Finset.Ico (idx * Config.swapfileCluster) ((idx + 1) * Config.swapfileCluster)).filter m.Used).card

/-- The clusters of the area, the last one perhaps with slots behind the end. -/
def nrClusters (m : SlotMap) : ℕ := (m.max + Config.swapfileCluster - 1) / Config.swapfileCluster

theorem mem_cluster {idx : ℕ} : s ∈ Ico (idx * swapfileCluster) ((idx + 1) * swapfileCluster) ↔
    s / swapfileCluster = idx := by
  rw [mem_Ico, Nat.div_eq_iff cluster_pos]
  have hsucc : (idx + 1) * swapfileCluster = idx * swapfileCluster + swapfileCluster :=
    succ_mul idx _
  have hpos := cluster_pos
  omega

theorem lt_nrClusters_iff {idx : ℕ} : idx < m.nrClusters ↔ idx * swapfileCluster < m.max := by
  rw [nrClusters, lt_iff_add_one_le, le_div_iff_mul_le cluster_pos, succ_mul]
  have hpos := cluster_pos
  omega

theorem cluster_lt (hs : s < m.max) : s / swapfileCluster < m.nrClusters :=
  lt_nrClusters_iff.mpr (lt_of_le_of_lt (div_mul_le_self s _) hs)

theorem count_ne_zero (hs : m.Used s) : m.count (s / swapfileCluster) ≠ 0 := by
  rw [count, Finset.card_ne_zero]
  exact ⟨s, mem_filter.mpr ⟨mem_cluster.mpr rfl, hs⟩⟩

theorem free_of_count {idx : ℕ} (hzero : m.count idx = 0) (hs : s / swapfileCluster = idx) : m.Free s :=
  free_of_not_used fun hused => count_ne_zero hused (by rw [hs, hzero])

theorem count_lt (hs : m.Free s) : m.count (s / swapfileCluster) < swapfileCluster := by
  refine lt_of_lt_of_eq (card_lt_card (filter_ssubset.mpr ⟨s, mem_cluster.mpr rfl, hs.not_used⟩)) ?_
  rw [Nat.card_Ico, Nat.succ_mul, Nat.add_sub_cancel_left]

theorem count_le {idx : ℕ} : m.count idx ≤ swapfileCluster := by
  refine le_of_le_of_eq (card_filter_le _ _) ?_
  rw [Nat.card_Ico, Nat.succ_mul, Nat.add_sub_cancel_left]

@[simp] theorem swapRangeAlloc_count : (m.swapRangeAlloc offset n).count = m.count := by
  rw [swapRangeAlloc]
  split <;> rfl

@[simp] theorem swapRangeAlloc_nrClusters : (m.swapRangeAlloc offset n).nrClusters = m.nrClusters := by
  rw [nrClusters, swapRangeAlloc_max, nrClusters]

/-- The slots are all of one cluster. -/
theorem Fills.count_eq {idx : ℕ} (h : Fills m m' offset n)
    (hin : ∀ s, offset ≤ s → s < offset + n → s / swapfileCluster = idx) :
    m'.count = update m.count idx (m.count idx + n) := by
  funext i
  by_cases hi : i = idx
  · rw [hi, update_self, count, count]
    have hunion : (Ico (idx * swapfileCluster) ((idx + 1) * swapfileCluster)).filter m'.Used =
        (Ico (idx * swapfileCluster) ((idx + 1) * swapfileCluster)).filter m.Used ∪
          Ico offset (offset + n) := by
      ext s
      have hrange : s / swapfileCluster = idx ∧ offset ≤ s ∧ s < offset + n ↔ offset ≤ s ∧
        s < offset + n :=
        and_iff_right_of_imp fun hs => hin s hs.1 hs.2
      rw [mem_union, mem_filter, mem_filter, mem_cluster, h.used_iff, mem_Ico, and_or_left, hrange]
    rw [hunion, card_union_of_disjoint, Nat.card_Ico, Nat.add_sub_cancel_left]
    rw [disjoint_left]
    intro s hs hrange
    rw [mem_Ico] at hrange
    rcases (mem_filter.mp hs).2 with hs | hs
    · exact absurd h.stop_le (by omega)
    · exact hs (h.before s hrange.1 hrange.2)
  rw [update_of_ne hi, count, count]
  refine congrArg card (filter_congr fun s hs => ?_)
  rw [h.used_iff, or_iff_left]
  rintro ⟨h1, h2⟩
  exact hi ((mem_cluster.mp hs).symm.trans (hin s h1 h2))

/-- The count of a slot in use does not matter. -/
theorem Sound.recount (h : m.Sound) (hs : s ∈ m.usedSlots) (hb : b ≠ 0#8 ∧ b ≠ swapMapBad) :
    (m.fill s 1 b).Sound ∧ (m.fill s 1 b).usedSlots = m.usedSlots ∧ (m.fill s 1 b).count = m.count := by
  obtain ⟨hlt, hne⟩ := mem_usedSlots.mp hs
  have hother : ∀ {c : Byte}, b ≠ c → m.swapMap s ≠ c → ∀ t, (m.fill s 1 b).swapMap t = c ↔
    m.swapMap t = c := by
    intro c hbc hsc t
    simp only [fill]
    split
    · next hin =>
      obtain rfl : t = s := by omega
      exact iff_of_false hbc hsc
    · rfl
  have hzero := hother hb.1 hne.1
  have hbad := hother hb.2 hne.2
  have hfree : ∀ t, (m.fill s 1 b).Free t ↔ m.Free t := fun t => and_congr_right fun _ => hzero t
  have hused : (m.fill s 1 b).usedSlots = m.usedSlots := by
    ext t
    rw [mem_usedSlots, mem_usedSlots, Ne, Ne, hzero, hbad]
    rfl
  have hgood : (m.fill s 1 b).goodSlots = m.goodSlots := by
    ext t
    rw [mem_goodSlots, mem_goodSlots, Ne, hbad]
    rfl
  refine ⟨⟨(hbad 0).mpr h.header, fun t ht => h.inside t ((hfree t).mp ht), h.highest_lt,
    fun hhigh => ?_, ?_, ?_⟩, hused, ?_⟩
  · obtain ⟨t, ht⟩ := h.not_full hhigh
    exact ⟨t, (hfree t).mpr ht⟩
  · rw [hused]
    exact h.inuse_eq
  · rw [hgood]
    exact h.pages_eq
  funext idx
  refine congrArg card (filter_congr fun t _ => ?_)
  exact or_congr_right (not_congr (hzero t))

end SlotMap

end LinuxNote.SwapSlots
