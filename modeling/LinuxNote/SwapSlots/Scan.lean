import LinuxNote.SwapSlots.Area

/-! `scan_swap_map_slots` ends, hands out slots that were free, and comes back without a slot in two
    cases only: if no slot is free, and if it started at the one free slot of a solid state area without
    looking at it. -/

namespace LinuxNote.SwapSlots
open Config Nat List

open SwapCount (Byte swapMapBad)

namespace SwapInfo

variable [Config] {si si' : SwapInfo} {usage : Byte} {nr : ℤ} {cpu rounds : ℕ} {st : Scan}

/-! ### Latency -/

omit [Config] in
theorem tick_le {r : ℕ} (hr : r ≤ latencyLimit) : tick r ≤ latencyLimit := by
  rw [tick]
  split <;> omega

omit [Config] in
theorem iterate_tick_le {r : ℕ} (hr : r ≤ latencyLimit) (n : ℕ) : tick^[n] r ≤ latencyLimit := by
  induction n generalizing r with
  | zero => exact hr
  | succ n ih => exact ih (tick_le hr)

/-! ### More slots -/

theorem Inv.nextSlot (h : si.Inv) (cpu : ℕ) (nr : ℤ) (st : Scan) :
    ∃ r si', si.nextSlot cpu nr st = .ok (r, si') ∧ si'.Inv ∧ si'.toSlotMap = si.toSlotMap ∧
    si'.solidState = si.solidState ∧ ∀ st', r = some st' → si'.Free st'.offset ∧ st'.slots = st.slots ∧
    st'.latencyRation + 1 = st.latencyRation := by
  rw [SwapInfo.nextSlot]
  by_cases hdone : (st.slots.length : ℤ) = nr ∨ si.highestBit ≤ st.offset ∨ st.latencyRation = 0
  · exact ⟨none, si, if_pos hdone, h, rfl, rfl, by simp⟩
  rw [if_neg hdone]
  rw [not_or, not_or] at hdone
  have hlat : st.latencyRation - 1 + 1 = st.latencyRation := succ_pred hdone.2.2
  by_cases hssd : si.solidState = true
  · obtain ⟨l, htracks⟩ := h.tracks hssd
    obtain ⟨p, r, hrun, hfree⟩ := trySsdCluster_spec htracks cpu
    rw [if_pos hssd, hrun]
    rcases r with _ | offset
    · exact ⟨none, _, rfl, h.congr h.next_le, rfl, rfl, by simp⟩
    refine ⟨_, _, rfl, h.congr h.next_le, rfl, rfl, ?_⟩
    rintro st' ⟨rfl⟩
    exact ⟨hfree offset rfl, rfl, hlat⟩
  rw [if_neg hssd]
  by_cases hnext : si.clusterNr ≠ 0 ∧ si.swapMap (st.offset + 1) = 0#8
  · refine ⟨_, _, if_pos hnext, h.congr h.next_le, rfl, rfl, ?_⟩
    rintro st' ⟨rfl⟩
    have hhigh := h.sound.highest_lt
    exact ⟨⟨by show st.offset + 1 < si.max; omega, hnext.2⟩, rfl, hlat⟩
  · exact ⟨none, si, if_neg hnext, h, rfl, rfl, by simp⟩

/-- From `checks` the call adds slots to those it has, at least one if it has none. -/
def Serves (cpu : ℕ) (usage : Byte) (nr : ℤ) (rounds : ℕ) (st : Scan) (si : SwapInfo) : Prop :=
  ∃ slots si', scanFrom cpu usage nr rounds .checks st si = .ok (st.slots ++ slots, si') ∧
    Took usage si si' slots ∧ (st.slots = [] → slots ≠ [])

section
variable (hu : usage ≠ 0#8 ∧ usage ≠ swapMapBad)
include hu

section
variable (h : si.Inv) (hfree : si.Free st.offset)
include h hfree

/-- A free slot that may be used is taken, and the search goes on from there. -/
theorem serves_of_free (hconflict : ¬(si.solidState ∧ si.conflict st.offset))
    (hmore : ∀ st' si', si'.Inv → si'.Free st'.offset → st'.slots ≠ [] →
      st'.latencyRation + 1 = st.latencyRation → Serves cpu usage nr rounds st' si') :
    Serves cpu usage nr (rounds + 1) st si := by
  have hin := h.sound.inside st.offset hfree
  have hpos := h.sound.pos hfree
  obtain ⟨si1, htake, htook⟩ := h.takeSlot hu hfree fun hssd => by
    rw [Bool.eq_false_iff]
    exact fun hc => hconflict ⟨hssd, hc⟩
  obtain ⟨r, si2, hnext, hinv, hmap, hssd, hgo⟩ :=
    htook.inv.nextSlot cpu nr { st with slots := st.slots ++ [st.offset] }
  rw [Serves, scanFrom]
  simp only [if_neg hconflict, if_neg (show si.highestBit ≠ 0 by omega),
    if_neg (show ¬si.highestBit < st.offset by omega), hfree.2, ne_eq, not_true, if_false, htake, hnext]
  rcases r with _ | st'
  · refine ⟨[st.offset], si2, rfl, ?_, by simp⟩
    exact htook.append hu.1 (hinv.took_nil hmap hssd)
  obtain ⟨hfree', hslots, hlat⟩ := hgo st' rfl
  obtain ⟨slots, si3, hrun, htook', -⟩ := hmore st' si2 hinv hfree' (by simp [hslots]) hlat
  refine ⟨st.offset :: slots, si3, hrun.trans ?_, htook.append hu.1 (htook'.congr_left hmap hssd),
    by simp⟩
  rw [hslots, append_assoc]
  rfl

/-- With slots in hand, a conflict ends the call. The latency ration bounds the rounds. -/
theorem serves_more (hslots : st.slots ≠ []) (hrounds : st.latencyRation < rounds) :
    Serves cpu usage nr rounds st si := by
  induction rounds generalizing st si with
  | zero => omega
  | succ rounds ih =>
    by_cases hconflict : si.solidState ∧ si.conflict st.offset
    · refine ⟨[], si.dropCluster cpu, ?_, Inv.took_nil (h.congr h.next_le) rfl rfl,
        fun hnil => absurd hnil hslots⟩
      simp only [scanFrom, if_pos hconflict, if_pos hslots, append_nil]
    · exact serves_of_free hu h hfree hconflict fun st' si' h' hfree' hslots' hlat =>
        ih h' hfree' hslots' (by omega)

theorem serves_first (hslots : st.slots = []) (hrounds : st.latencyRation + 1 < rounds) :
    Serves cpu usage nr rounds st si := by
  obtain ⟨rounds, rfl⟩ : ∃ k, rounds = k + 2 := ⟨rounds - 2, by omega⟩
  by_cases hconflict : si.solidState ∧ si.conflict st.offset
  · obtain ⟨l, htracks⟩ := h.tracks hconflict.1
    -- the first free cluster is never in conflict
    rcases l with _ | ⟨idx, l⟩
    · have hempty := htracks.isEmpty_iff.mpr rfl
      simp [conflict, hempty] at hconflict
    obtain ⟨p, hrun⟩ := tryCluster_null
      (show Clusters.Tracks (si.dropCluster cpu).clusters _ _ (idx :: l) from htracks)
      dropCluster_flags 1
    have hserves : Serves cpu usage nr (rounds + 1)
        { st with offset := idx * swapfileCluster, scanBase := idx * swapfileCluster }
        { si with percpuCluster := p } := by
      refine serves_of_free hu (h.congr h.next_le) (free_of_head htracks) (fun hc => ?_)
        fun st' si' h' hfree' hslots' hlat => serves_more hu h' hfree' hslots' ?_
      · exact absurd hc.2 (by simp [conflict, htracks.first_eq.2, Nat.mul_div_cancel _ cluster_pos])
      have : st'.latencyRation + 1 = st.latencyRation := hlat
      omega
    obtain ⟨slots, si', hrun', htook, hne⟩ := hserves
    refine ⟨slots, si', ?_, htook.congr_left rfl rfl, hne⟩
    rw [scanFrom, if_pos hconflict]
    simp only [hslots, ne_eq, not_true, if_false, scanSwapMapTrySsdCluster, hrun]
    rw [hslots] at hrun'
    exact hrun'
  · exact serves_of_free hu h hfree hconflict fun st' si' h' hfree' hslots' hlat =>
      serves_more hu h' hfree' hslots' (by omega)

end

/-! ### The searches -/

omit [Config] hu in
/-- A free slot that the loops do not find is between `scan_base` and the slot they start behind. -/
theorem scanOn_spec (h : si.Sound) (hbase : st.scanBase ≤ si.max)
    (hlat : st.latencyRation ≤ latencyLimit) : match si.scanOn st with
    | some st' => si.Free st'.offset ∧ st'.slots = st.slots ∧ st'.latencyRation ≤ latencyLimit
    | none => ∀ s, si.Free s → st.scanBase ≤ s ∧ s ≤ st.offset := by
  have hhigh := h.highest_lt
  rw [scanOn]
  cases hup : si.firstFree (st.offset + 1) (si.highestBit + 1) with
  | some offset =>
    obtain ⟨hstop, hzero⟩ := firstFree_some hup
    exact ⟨⟨by show offset < si.max; omega, hzero⟩, rfl, iterate_tick_le hlat _⟩
  | none =>
    cases hlow : si.firstFree si.lowestBit st.scanBase with
    | some offset =>
      obtain ⟨hstop, hzero⟩ := firstFree_some hlow
      exact ⟨⟨lt_of_lt_of_le hstop hbase, hzero⟩, rfl, iterate_tick_le (iterate_tick_le hlat _) _⟩
    | none =>
      intro s hs
      obtain ⟨hlowest, hhighest⟩ := h.inside s hs
      constructor
      · by_contra hlt
        exact firstFree_none hlow hlowest (by omega) hs.2
      by_contra hlt
      exact firstFree_none hup (by omega) (by omega) hs.2

omit hu in
/-- The call ends with slots that were free. If it has none, every free slot is one that it missed. -/
def Brings (run : Except Bug (List ℕ × SwapInfo)) (usage : Byte) (si : SwapInfo) (missed : ℕ → Prop) :
    Prop :=
  ∃ slots si', run = .ok (slots, si') ∧ Took usage si si' slots ∧
    (slots = [] → ∀ s, si.Free s → missed s)

omit hu in
theorem Brings.imp {run : Except Bug (List ℕ × SwapInfo)} {missed missed' : ℕ → Prop}
    (h : Brings run usage si missed) (hmap : si.toSlotMap = si'.toSlotMap)
    (hssd : si.solidState = si'.solidState) (hmiss : ∀ s, si.Free s → missed s → missed' s) :
    Brings run usage si' missed' := by
  obtain ⟨slots, si1, hrun, htook, hall⟩ := h
  refine ⟨slots, si1, hrun, htook.congr_left hmap hssd, fun hnil s hs => ?_⟩
  rw [← hmap] at hs
  exact hmiss s hs (hall hnil s hs)

omit hu in
theorem Serves.brings (h : Serves cpu usage nr rounds st si) (hslots : st.slots = [])
    {missed : ℕ → Prop} : Brings (scanFrom cpu usage nr rounds .checks st si) usage si missed := by
  obtain ⟨slots, si', hrun, htook, hne⟩ := h
  rw [hslots, nil_append] at hrun
  exact ⟨slots, si', hrun, htook, fun hnil => absurd hnil (hne hslots)⟩

theorem scan_brings (h : si.Inv) (hslots : st.slots = []) (hbase : st.scanBase ≤ si.max)
    (hlat : st.latencyRation ≤ latencyLimit) (hrounds : latencyLimit + 2 < rounds) :
    Brings (scanFrom cpu usage nr rounds .scan st si) usage si fun s => st.scanBase ≤ s ∧
    s ≤ st.offset := by
  obtain ⟨rounds, rfl⟩ : ∃ k, rounds = k + 1 := ⟨rounds - 1, by omega⟩
  have hspec := scanOn_spec h.sound hbase hlat
  rw [scanFrom]
  rcases hscan : si.scanOn st with _ | st'
  · rw [hscan] at hspec
    exact ⟨[], si, by rw [hslots], h.took_nil rfl rfl, fun _ => hspec⟩
  rw [hscan] at hspec
  obtain ⟨hfree, hslots', hlat'⟩ := hspec
  have hserves : Serves cpu usage nr rounds st' si :=
    serves_first hu h hfree (hslots'.trans hslots) (by omega)
  exact hserves.brings (hslots'.trans hslots)

/-! ### Rotating disks -/

omit hu in
/-- Behind `highest_bit` the search starts anew at `lowest_bit`. -/
theorem scanFrom_clip (hrot : si.solidState = false) (hhigh : si.highestBit ≠ 0)
    (hlt : si.highestBit < st.offset) (hlow : si.lowestBit ≤ si.highestBit) :
    scanFrom cpu usage nr (rounds + 1) .checks st si =
      scanFrom cpu usage nr (rounds + 1) .checks { st with
        offset := si.lowestBit, scanBase := si.lowestBit } si := by
  simp only [scanFrom, hrot, Bool.false_eq_true, false_and, if_false, if_neg hhigh, if_pos hlt,
    if_neg hlow.not_gt]

section
variable (h : si.Inv) (hrot : si.solidState = false) (hslots : st.slots = [])
  (hbase : si.swapMap st.offset ≠ 0#8 → st.scanBase = st.offset)
include h hrot hslots hbase

/-- A rotating disk looks at the slot itself first, and then at all others. -/
theorem checks_brings_of_le (hle : st.offset ≤ si.highestBit)
    (hhigh : si.highestBit ≠ 0) (hlat : st.latencyRation ≤ latencyLimit)
    (hrounds : latencyLimit + 3 < rounds) :
    Brings (scanFrom cpu usage nr rounds .checks st si) usage si fun _ => False := by
  have hmax := h.sound.highest_lt
  by_cases hzero : si.swapMap st.offset = 0#8
  · have hserves : Serves cpu usage nr rounds st si :=
      serves_first hu h ⟨by omega, hzero⟩ hslots (by omega)
    exact hserves.brings hslots
  obtain ⟨rounds, rfl⟩ : ∃ k, rounds = k + 1 := ⟨rounds - 1, by omega⟩
  have hbase := hbase hzero
  have hgo : scanFrom cpu usage nr (rounds + 1) .checks st si =
    scanFrom cpu usage nr rounds .scan st si := by
    simp only [scanFrom, hrot, Bool.false_eq_true, false_and, if_false, if_neg hhigh, if_neg hle.not_gt,
      ne_eq, hzero, not_false_eq_true, if_true, hslots]
  rw [hgo]
  refine (scan_brings hu h hslots (by omega) hlat (by omega)).imp rfl rfl fun s hs hmiss => ?_
  obtain rfl : s = st.offset := by omega
  exact hzero hs.2

theorem checks_brings (hlat : st.latencyRation ≤ latencyLimit) (hrounds : latencyLimit + 3 < rounds) :
    Brings (scanFrom cpu usage nr rounds .checks st si) usage si fun _ => False := by
  obtain ⟨rounds, rfl⟩ : ∃ k, rounds = k + 1 := ⟨rounds - 1, by omega⟩
  by_cases hhigh : si.highestBit = 0
  · refine ⟨[], si, ?_, h.took_nil rfl rfl, fun _ s hs => ?_⟩
    · simp only [scanFrom, hrot, Bool.false_eq_true, false_and, if_false, if_pos hhigh, hslots]
    have hpos := h.sound.pos hs
    have hin := h.sound.inside s hs
    omega
  obtain ⟨f, hf⟩ := h.sound.not_full hhigh
  have hin := h.sound.inside f hf
  by_cases hlt : si.highestBit < st.offset
  · rw [scanFrom_clip hrot hhigh hlt (by omega)]
    exact checks_brings_of_le hu h hrot hslots (fun _ => rfl) (le_trans hin.1 hin.2) hhigh hlat hrounds
  · exact checks_brings_of_le hu h hrot hslots hbase (by omega) hhigh hlat hrounds

end

omit hu in
/-- The search for an empty cluster. The slots behind `last_in_cluster - SWAPFILE_CLUSTER` have been seen
    to be free. -/
theorem findCluster_spec (h : si.Sound) {offset last lat : ℕ} (hle : offset ≤ last)
    (hlast : last < offset + swapfileCluster)
    (hseen : ∀ s, last < s + swapfileCluster → s < offset → si.swapMap s = 0#8)
    (hlat : lat ≤ latencyLimit) (hpos : 0 < rounds) (hrounds : si.highestBit + 2 - offset ≤ rounds) :
    ∃ r lat', si.findCluster rounds offset last lat = .ok (r, lat') ∧ lat' ≤ latencyLimit ∧
    ∀ s, r = some s → si.Free s := by
  induction rounds generalizing offset last lat with
  | zero => omega
  | succ rounds ih =>
    rw [findCluster]
    by_cases hend : last ≤ si.highestBit
    · rw [if_pos hend]
      by_cases hzero : si.swapMap offset = 0#8
      · rw [if_neg (not_not.mpr hzero)]
        have hseen' : ∀ s, last < s + swapfileCluster → s < offset + 1 → si.swapMap s = 0#8 := by
          intro s h1 h2
          rcases Nat.lt_succ_iff_lt_or_eq.mp h2 with h2 | rfl
          · exact hseen s h1 h2
          · exact hzero
        split
        case isTrue hfound =>
          refine ⟨_, _, rfl, hlat, ?_⟩
          rintro s ⟨rfl⟩
          have hhigh := h.highest_lt
          exact ⟨by omega, hseen' _ (by omega) (by omega)⟩
        case isFalse hfound => exact ih (by omega) (by omega) hseen' (tick_le hlat) (by omega) (by omega)
      · rw [if_pos hzero]
        exact ih (by omega) (by omega) (fun s h1 h2 => by omega) (tick_le hlat) (by omega) (by omega)
    · exact ⟨none, lat, if_neg hend, hlat, by simp⟩

/-! ### The call -/

theorem scanSwapMapSlots_brings (cpu : ℕ) (nr : ℤ) (h : si.Inv) :
    Brings (si.scanSwapMapSlots cpu usage nr) usage si fun s => si.solidState ∧ s = si.clusterNext := by
  rw [scanSwapMapSlots]
  generalize (if swapBatch < nr then swapBatch else nr) = nr
  by_cases hssd : si.solidState = true
  · obtain ⟨l, htracks⟩ := h.tracks hssd
    obtain ⟨p, r, hrun, hfree⟩ := trySsdCluster_spec htracks cpu
    simp only [if_pos hssd, hrun]
    rcases r with _ | offset
    · refine (scan_brings hu (h.congr h.next_le) rfl h.next_le le_rfl (by omega)).imp rfl rfl
        fun s _ hmiss => ?_
      exact ⟨hssd, le_antisymm hmiss.2 hmiss.1⟩
    have hserves : Serves cpu usage nr (latencyLimit + 4) ⟨offset, offset, latencyLimit, []⟩
        { si with percpuCluster := p } :=
      serves_first hu (h.congr h.next_le) (hfree offset rfl) rfl (by show latencyLimit + 1 < _; omega)
    exact (hserves.brings rfl).imp rfl rfl fun s _ hmiss => hmiss
  have hrot : si.solidState = false := by simpa using hssd
  have hnone : ∀ {si' : SwapInfo} (s : ℕ), si'.Free s → False → si.solidState = true ∧
    s = si.clusterNext :=
    fun _ _ hfalse => hfalse.elim
  rw [if_neg hssd]
  split
  case isTrue hnr =>
    by_cases hfew : si.pages - si.inusePages < swapfileCluster
    · rw [if_pos hfew]
      exact Brings.imp (checks_brings hu (h.congr h.next_le) hrot rfl (fun _ => rfl) (by exact le_rfl)
        (lt_succ_self _)) rfl rfl hnone
    have hpos := cluster_pos
    obtain ⟨r, lat, hfind, hlat, hfree⟩ := findCluster_spec h.sound
      (show si.lowestBit ≤ si.lowestBit + swapfileCluster - 1 by omega) (by omega)
      (fun s h1 h2 => by omega) le_rfl (succ_pos (si.highestBit + 1)) (sub_le _ _)
    rw [if_neg hfew, hfind]
    rcases r with _ | offset
    · exact Brings.imp (checks_brings hu (h.congr h.next_le) hrot rfl (fun _ => rfl) (by exact hlat)
        (lt_succ_self _)) rfl rfl hnone
    have hoffset := hfree offset rfl
    refine (checks_brings hu (h.congr (le_of_lt hoffset.1)) hrot rfl (fun hne => ?_) hlat
      (lt_succ_self _)).imp rfl rfl hnone
    exact absurd hoffset.2 hne
  case isFalse hnr =>
    exact Brings.imp (checks_brings hu (h.congr h.next_le) hrot rfl (fun _ => rfl) (by exact le_rfl)
        (lt_succ_self _)) rfl rfl hnone

end

end SwapInfo

end LinuxNote.SwapSlots
