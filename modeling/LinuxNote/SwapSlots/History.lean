import LinuxNote.SwapSlots.Scan

/-! Slots of a swap area over whole histories. -/

namespace LinuxNote.SwapSlots
open Finset Config List

open SwapCount (Byte swapHasCache swapMapBad)
open ThreadedQueue

section
variable [Config]

/-- What `swapon` starts with: slot 0 is the header of the area, and the other slots are free or bad. -/
def freshMap (bad : ℕ → Bool) (max : ℕ) : SlotMap :=
  let m : SlotMap := ⟨fun s => if s = 0 ∨ bad s then swapMapBad else 0#8, max, 0, 0, 1, max - 1⟩
  { m with pages := m.goodSlots.card }

/-- The area after `swapon`. The free clusters are put on the list in the given order. -/
def freshArea (bad : ℕ → Bool) (max next : ℕ) (solidState : Bool) (order : List ℕ) : SwapInfo :=
  { freshMap bad max with
    clusterNext := next
    clusterNr := 0
    solidState
    clusters := if solidState then .setup (freshMap bad max).count order
      else ⟨fun _ => ⟨0, .clear⟩, ⟨clusterNull, clusterNull⟩⟩
    percpuCluster := fun _ => ⟨clusterNull, 0⟩ }

/-- Histories of an area, with the slots that are handed out. Between the calls, the count of a slot that
    is in use may change. Slots are given back by those who have them. -/
inductive Runs : SwapInfo → Finset ℕ → Prop
  | swapon {bad : ℕ → Bool} {max next : ℕ} {order : List ℕ} (solidState : Bool)
      (hpages : (freshMap bad max).pages ≠ 0) (hnext : next ≤ max - 1) (hnodup : order.Nodup)
      (horder : ∀ i, i ∈ order ↔ i < (freshMap bad max).nrClusters) :
      Runs (freshArea bad max next solidState order) ∅
  | scan {si si' : SwapInfo} {out : Finset ℕ} {usage : Byte} {slots : List ℕ} (h : Runs si out)
      (cpu : ℕ) (nr : ℤ) (hu : usage ≠ 0#8 ∧ usage ≠ swapMapBad)
      (hrun : si.scanSwapMapSlots cpu usage nr = .ok (slots, si')) : Runs si' (out ∪ slots.toFinset)
  | allocCluster {si si' : SwapInfo} {out : Finset ℕ} {offset : ℕ} (h : Runs si out)
      (hrun : si.swapAllocCluster = .ok (some offset, si')) :
      Runs si' (out ∪ (range' offset swapfileCluster).toFinset)
  | allocNoCluster {si si' : SwapInfo} {out : Finset ℕ} (h : Runs si out)
      (hrun : si.swapAllocCluster = .ok (none, si')) : Runs si' out
  | entryFree {si si' : SwapInfo} {out : Finset ℕ} {offset : ℕ} (h : Runs si out) (hmem : offset ∈ out)
      (hrun : si.swapEntryFree offset = .ok si') : Runs si' (out \ Finset.Ico offset (offset + 1))
  | freeCluster {si si' : SwapInfo} {out : Finset ℕ} (h : Runs si out) (hssd : si.solidState) (idx : ℕ)
      (hmem : ∀ s, idx * swapfileCluster ≤ s → s < idx * swapfileCluster + swapfileCluster →
        s ∈ out ∧ si.swapMap s = swapHasCache) (hrun : si.swapFreeCluster idx = .ok si') :
      Runs si' (out \ Finset.Ico (idx * swapfileCluster) (idx * swapfileCluster + swapfileCluster))
  | recount {si : SwapInfo} {out : Finset ℕ} {s : ℕ} {b : Byte} (h : Runs si out) (hmem : s ∈ out)
      (hb : b ≠ 0#8 ∧ b ≠ swapMapBad) : Runs { si with toSlotMap := si.fill s 1 b } out

variable {si si' : SwapInfo} {usage : Byte} {out : Finset ℕ} {slots : List ℕ} {bad : ℕ → Bool}
  {max offset n : ℕ}

/-! ### The start -/

omit [Config] in
theorem freshMap_swapMap (bad : ℕ → Bool) (max s : ℕ) :
    (freshMap bad max).swapMap s = if s = 0 ∨ bad s then swapMapBad else 0#8 := rfl

omit [Config] in
theorem freshMap_sound (hpages : (freshMap bad max).pages ≠ 0) : (freshMap bad max).Sound := by
  -- a good slot is a free one
  have hfree : ∀ s ∈ (freshMap bad max).goodSlots, (freshMap bad max).Free s := by
    intro s hs
    obtain ⟨hlt, hgood⟩ := SlotMap.mem_goodSlots.mp hs
    refine ⟨hlt, ?_⟩
    rw [freshMap_swapMap] at hgood ⊢
    split at hgood
    · exact absurd rfl hgood
    · next hnot => rw [if_neg hnot]
  obtain ⟨s, hs⟩ : (freshMap bad max).goodSlots.Nonempty := card_ne_zero.mp hpages
  have hlt : s < max := (hfree s hs).1
  refine ⟨rfl, fun t ht => ?_, ?_, fun _ => ⟨s, hfree s hs⟩, ?_, rfl⟩
  · have hzero := ht.2
    have hmax : t < max := ht.1
    rw [freshMap_swapMap] at hzero
    split at hzero
    · exact absurd hzero (by decide)
    next hnot =>
    show 1 ≤ t ∧ t ≤ max - 1
    omega
  · show max - 1 < max
    omega
  refine (card_eq_zero.mpr ?_).symm
  rw [eq_empty_iff_forall_notMem]
  intro t ht
  obtain ⟨-, hne, hgood⟩ := SlotMap.mem_usedSlots.mp ht
  rw [freshMap_swapMap] at hne hgood
  split at hne
  · next hbad => exact hgood (if_pos hbad)
  · exact hne rfl

/-! ### Steps -/

theorem SwapInfo.Took.usedSlots_eq (h : Took usage si si' slots)
    (hu : usage ≠ 0#8 ∧ usage ≠ swapMapBad) : si'.usedSlots = si.usedSlots ∪ slots.toFinset := by
  ext s
  rw [mem_union, mem_toFinset, SlotMap.mem_usedSlots, SlotMap.mem_usedSlots, h.max_eq, h.map_eq]
  split
  case isTrue hs => exact iff_of_true ⟨(h.free s hs).1, hu⟩ (.inr hs)
  case isFalse hs => rw [or_iff_left hs]

theorem SwapInfo.Gave.usedSlots_eq (h : si.Gave si' offset n) :
    si'.usedSlots = si.usedSlots \ Ico offset (offset + n) := by
  ext s
  rw [mem_sdiff, mem_Ico, SlotMap.mem_usedSlots, SlotMap.mem_usedSlots, h.max_eq, h.map_eq]
  split
  case isTrue hs => exact iff_of_false (fun hne => hne.2.1 rfl) fun hnot => hnot.2 hs
  case isFalse hs => rw [and_iff_left hs]

/-- The slots handed out are those in use, and the area is sound. -/
theorem Runs.inv (h : Runs si out) : si.Inv ∧ out = si.usedSlots := by
  induction h with
  | swapon solidState hpages hnext hnodup horder =>
    have hsound := freshMap_sound hpages
    refine ⟨⟨hsound, ?_, fun hssd => ?_, fun hrot => ?_⟩, (card_eq_zero.mp hsound.inuse_eq.symm).symm⟩
    · exact hnext.trans (Nat.sub_le ..)
    · subst hssd
      exact ⟨_, Clusters.setup_tracks hnodup horder⟩
    subst hrot
    rfl
  | scan h cpu nr hu hrun ih =>
    obtain ⟨hinv, rfl⟩ := ih
    obtain ⟨slots, si', hrun', htook, -⟩ := SwapInfo.scanSwapMapSlots_brings hu cpu nr hinv
    rw [hrun] at hrun'
    cases hrun'
    exact ⟨htook.inv, (htook.usedSlots_eq hu).symm⟩
  | allocCluster h hrun ih =>
    obtain ⟨hinv, rfl⟩ := ih
    rcases hinv.swapAllocCluster with hrun' | ⟨offset, si', hrun', htook⟩
    · rw [hrun] at hrun'
      cases hrun'
    rw [hrun] at hrun'
    cases hrun'
    exact ⟨htook.inv, (htook.usedSlots_eq (by decide)).symm⟩
  | allocNoCluster h hrun ih =>
    obtain ⟨hinv, rfl⟩ := ih
    rcases hinv.swapAllocCluster with hrun' | ⟨offset, si', hrun', htook⟩
    · rw [hrun] at hrun'
      cases hrun'
      exact ⟨hinv, rfl⟩
    · rw [hrun] at hrun'
      cases hrun'
  | @entryFree si si' out offset h hmem hrun ih =>
    obtain ⟨hinv, rfl⟩ := ih
    have hcache : si.swapMap offset = swapHasCache := by
      by_contra hne
      rw [SwapInfo.swapEntryFree, if_pos hne] at hrun
      cases hrun
    obtain ⟨si', hrun', hgave⟩ := hinv.swapEntryFree (SlotMap.mem_usedSlots.mp hmem).1 hcache
    rw [hrun] at hrun'
    cases hrun'
    exact ⟨hgave.inv, hgave.usedSlots_eq.symm⟩
  | @freeCluster si si' out h hssd idx hmem hrun ih =>
    obtain ⟨hinv, rfl⟩ := ih
    have hpos := cluster_pos
    have hlast := hmem (idx * swapfileCluster + swapfileCluster - 1) (by omega) (by omega)
    have hlt := (SlotMap.mem_usedSlots.mp hlast.1).1
    obtain ⟨si', hrun', hgave⟩ := hinv.swapFreeCluster hssd (by omega) fun s h1 h2 => (hmem s h1 h2).2
    rw [hrun] at hrun'
    cases hrun'
    exact ⟨hgave.inv, hgave.usedSlots_eq.symm⟩
  | recount h hmem hb ih =>
    obtain ⟨hinv, rfl⟩ := ih
    obtain ⟨hsound, hused, hcount⟩ := hinv.sound.recount hmem hb
    refine ⟨⟨hsound, hinv.next_le, fun hssd => ?_, hinv.rotating⟩, hused.symm⟩
    rw [hcount]
    exact hinv.tracks hssd

/-- In every state the counters, the cluster counts and the list of free clusters fit the slots. Each
    call of `scan_swap_map_slots` ends, its slots are handed out to nobody, and if there are none then no
    slot is free, unless the area has clusters and the slot at `cluster_next` is free. -/
theorem runs_account (h : Runs si out) :
    (∀ s, si.Free s → si.lowestBit ≤ s ∧ s ≤ si.highestBit) ∧ si.inusePages = si.usedSlots.card ∧
    (si.solidState →
      (∀ i < si.nrClusters, ((si.clusters.info i).flags = .free ↔ si.count i = 0) ∧
        ((si.clusters.info i).flags ≠ .free → (si.clusters.info i).data = si.count i)) ∧
      ∃ l, Queued (fun i => (si.clusters.info i).data) si.clusters.free.head.next?
          si.clusters.free.tail.next? l ∧
        ∀ i, i ∈ l ↔ i < si.nrClusters ∧ (si.clusters.info i).flags = .free) ∧
    (∀ cpu usage nr, usage ≠ 0#8 ∧ usage ≠ swapMapBad →
      ∃ slots si', si.scanSwapMapSlots cpu usage nr = .ok (slots, si') ∧ slots.Nodup ∧
      (∀ s ∈ slots, s < si.max ∧ s ∉ out) ∧
      (slots = [] → ((∀ s, ¬si.Free s) ↔ ¬(si.solidState ∧ si.Free si.clusterNext)))) ∧
    ∃ r si', si.swapAllocCluster = .ok (r, si') ∧
    ∀ offset, r = some offset → ∀ s, offset ≤ s → s < offset + swapfileCluster →
      s < si.max ∧ s ∉ out := by
  obtain ⟨hinv, rfl⟩ := h.inv
  have hfresh : ∀ s, si.Free s → s < si.max ∧ s ∉ si.usedSlots := fun s hs =>
    ⟨hs.1, fun hmem => (SlotMap.mem_usedSlots.mp hmem).2.1 hs.2⟩
  refine ⟨hinv.sound.inside, hinv.sound.inuse_eq, fun hssd => ?_, fun cpu usage nr hu => ?_, ?_⟩
  · obtain ⟨l, htracks⟩ := hinv.tracks hssd
    exact ⟨fun i hi => ⟨htracks.free_iff i hi, htracks.count_eq i hi⟩, l, htracks.queue, htracks.mem_iff⟩
  · obtain ⟨slots, si', hrun, htook, hmiss⟩ := SwapInfo.scanSwapMapSlots_brings hu cpu nr hinv
    refine ⟨slots, si', hrun, htook.nodup, fun s hs => hfresh s (htook.free s hs),
      fun hnil => ⟨fun hnone => ?_, ?_⟩⟩
    · exact fun hnext => hnone _ hnext.2
    intro hnext s hs
    obtain ⟨hssd, rfl⟩ := hmiss hnil s hs
    exact hnext ⟨hssd, hs⟩
  rcases hinv.swapAllocCluster with hrun | ⟨offset, si', hrun, htook⟩
  · exact ⟨none, si, hrun, by simp⟩
  refine ⟨some offset, si', hrun, ?_⟩
  rintro offset ⟨rfl⟩ s h1 h2
  exact hfresh s (htook.free s (mem_range'_1.mpr ⟨h1, h2⟩))

end

/-! ### An area of three clusters -/

@[reducible] def fourSlots : Config := ⟨4, 64, true, by decide⟩

section
local instance fourConfig : Config := fourSlots

/-- Three clusters of four slots. -/
def threeClusters : SwapInfo := freshArea (fun _ => false) 12 1 true (List.range 3)

/-- Slots of the second cluster and all of the third one are handed out. One slot and the third cluster
    are given back, and another CPU takes that cluster slot by slot. -/
def history : Option (List ℕ × Option ℕ × Bool × List Byte × List ℕ) := do
  let (slots, si) ← (threeClusters.scanSwapMapSlots 0 swapHasCache 3).toOption
  let (offset, si) ← si.swapAllocCluster.toOption
  let si ← (si.swapEntryFree 5).toOption
  let si' ← (si.swapFreeCluster 2).toOption
  let (slots', _) ← (si'.scanSwapMapSlots 1 swapHasCache 4).toOption
  return (slots, offset, si.solidState, (range' 8 4).map si.swapMap, slots')

theorem runs_account_clusters : ∃ si out, Runs si out ∧ out = {4, 6, 8, 9, 10, 11} ∧
    (∀ s, si.Free s → si.lowestBit ≤ s ∧ s ≤ si.highestBit) ∧ si.inusePages = si.usedSlots.card := by
  have hrun : history = some ([4, 5, 6], some 8, true, replicate 4 swapHasCache, [8, 9, 10, 11]) := by
    decide +kernel
  have hok : ∀ {α : Type} {x : Except Bug α} {a : α}, x.toOption = some a → x = .ok a := by
    rintro α (_ | _) a ⟨⟩
    rfl
  simp only [history, Option.bind_eq_bind, Option.bind_eq_some_iff, Option.pure_def, Option.some.injEq,
    Prod.mk.injEq] at hrun
  obtain ⟨⟨_, _⟩, h1, ⟨_, _⟩, h2, si, h3, _, h4, ⟨_, _⟩, h5, rfl, rfl, hssd, hmap, rfl⟩ := hrun
  have hu : swapHasCache ≠ 0#8 ∧ swapHasCache ≠ swapMapBad := by decide
  have hstart : Runs threeClusters ∅ :=
    .swapon true (by decide) (by decide) (by decide) fun _ => List.mem_range
  have hgiven := ((hstart.scan 0 3 hu (hok h1)).allocCluster (hok h2)).entryFree (by decide) (hok h3)
  have hagain := (hgiven.freeCluster hssd 2 (fun s h h' => ?_) (hok h4)).scan 1 4 hu (hok h5)
  · exact ⟨_, _, hagain, by decide, (runs_account hagain).1, (runs_account hagain).2.1⟩
  have hs : s ∈ range' 8 4 := mem_range'_1.mpr ⟨h, h'⟩
  exact ⟨(by decide : ∀ s ∈ range' 8 4, s ∈ _) s hs, eq_of_mem_replicate (hmap ▸ mem_map_of_mem hs)⟩

end

/-! ### An area of two slots -/

@[reducible] def linux : Config := ⟨256, 64, false, by decide⟩

section
local instance linuxConfig : Config := linux

/-- Two slots behind the header, on a solid state disk. -/
def smallArea : SwapInfo := freshArea (fun _ => false) 3 1 true [0]

set_option maxRecDepth 20000 in
/-- Both slots are handed out, the second one first. It is given back, and then not found: `cluster_next`
    is at it. -/
theorem runs_miss_free_slot :
    ∃ si out, Runs si out ∧ (∃ si', si.scanSwapMapSlots 0 swapHasCache 1 = .ok ([], si')) ∧
    si.Free 2 := by
  have hu : swapHasCache ≠ 0#8 ∧ swapHasCache ≠ swapMapBad := by decide
  have hone : (freshMap (fun _ => false) 3).nrClusters = 1 := rfl
  have h : Runs smallArea ∅ := .swapon true (by decide) (by decide) (by decide) fun i => by simp [hone]
  refine ⟨_, _, .entryFree (.scan (.scan h 0 1 hu rfl) 0 1 hu rfl) (show 2 ∈ _ by decide) rfl,
    ⟨_, rfl⟩, ?_⟩
  exact ⟨by decide, by decide⟩

end

end LinuxNote.SwapSlots
