import LinuxNote.SwapSlots.Clusters
import LinuxNote.SwapSlots.Slots

/-! A swap area in which the slots and the clusters agree, and what its operations do to it. -/

namespace LinuxNote.SwapSlots
open Function List Config SlotMap Nat

open SwapCount (Byte swapHasCache swapMapBad)

namespace SwapInfo

variable [Config] {si si' si'' : SwapInfo} {usage : Byte} {cpu offset idx : ℕ} {slots slots' l : List ℕ}

/-- The counters, `cluster_info` and the list of free clusters fit the bytes of the slots. -/
structure Inv (si : SwapInfo) : Prop where
  sound : si.toSlotMap.Sound
  next_le : si.clusterNext ≤ si.max
  tracks : si.solidState → ∃ l, si.clusters.Tracks si.nrClusters si.count l
  rotating : si.solidState = false → si.clusters.free.isEmpty

/-- The slots were free in `si` and have `usage` in `si'`. -/
structure Took (usage : Byte) (si si' : SwapInfo) (slots : List ℕ) : Prop where
  inv : si'.Inv
  max_eq : si'.max = si.max
  solidState_eq : si'.solidState = si.solidState
  nodup : slots.Nodup
  free : ∀ s ∈ slots, si.Free s
  map_eq : ∀ s, si'.swapMap s = if s ∈ slots then usage else si.swapMap s

theorem Inv.took_nil (h : si'.Inv) (hmap : si'.toSlotMap = si.toSlotMap)
    (hssd : si'.solidState = si.solidState) : Took usage si si' [] :=
  ⟨h, by rw [hmap], hssd, nodup_nil, fun s hs => absurd hs not_mem_nil, fun s => by simp [hmap]⟩

theorem Took.append (hu : usage ≠ 0#8) (h : Took usage si si' slots) (h' : Took usage si' si'' slots') :
    Took usage si si'' (slots ++ slots') := by
  -- what is free afterwards was free before and has not been taken
  have hfree : ∀ s, si'.Free s → si.Free s ∧ s ∉ slots := by
    rintro s ⟨hs, hzero⟩
    rw [h.map_eq] at hzero
    split at hzero
    · exact absurd hzero hu
    · next hnot => exact ⟨⟨h.max_eq ▸ hs, hzero⟩, hnot⟩
  refine ⟨h'.inv, h'.max_eq.trans h.max_eq, h'.solidState_eq.trans h.solidState_eq, ?_, fun s hs => ?_,
    fun s => ?_⟩
  · rw [nodup_append]
    refine ⟨h.nodup, h'.nodup, ?_⟩
    rintro s hs t ht rfl
    exact (hfree s (h'.free s ht)).2 hs
  · rcases mem_append.mp hs with hs | hs
    · exact h.free s hs
    · exact (hfree s (h'.free s hs)).1
  rw [h'.map_eq, h.map_eq]
  simp only [mem_append]
  split_ifs <;> tauto

/-- Other fields than the slot map do not matter at the start. -/
theorem Took.congr_left (h : Took usage si si' slots) (hmap : si.toSlotMap = si''.toSlotMap)
    (hssd : si.solidState = si''.solidState) : Took usage si'' si' slots :=
  ⟨h.inv, by rw [h.max_eq, hmap], h.solidState_eq.trans hssd, h.nodup, fun s hs => hmap ▸ h.free s hs,
    fun s => by rw [h.map_eq, hmap]⟩

variable {m : SlotMap} {start stop s : ℕ}

omit [Config] in
theorem firstFree_some (h : m.firstFree start stop = some s) : s < stop ∧ m.swapMap s = 0#8 := by
  have hzero := find?_some h
  have hmem := mem_of_find?_eq_some h
  rw [mem_range'_1] at hmem
  exact ⟨by omega, by simpa using hzero⟩

omit [Config] in
theorem firstFree_none (h : m.firstFree start stop = none) (hstart : start ≤ s) (hstop : s < stop) :
    m.swapMap s ≠ 0#8 := by
  have hall := find?_eq_none.mp h s (mem_range'_1.mpr ⟨hstart, by omega⟩)
  simpa using hall

/-! ### `scan_swap_map_try_ssd_cluster` -/

/-- All slots of a free cluster are free. -/
theorem free_of_head (htracks : si.clusters.Tracks si.nrClusters si.count (idx :: l)) :
    si.Free (idx * swapfileCluster) := by
  have hmem := (htracks.mem_iff idx).mp mem_cons_self
  exact free_of_count ((htracks.free_iff idx hmem.1).mp hmem.2) (Nat.mul_div_cancel idx cluster_pos)

/-- A CPU without a cluster takes the first free one. -/
theorem tryCluster_null (htracks : si.clusters.Tracks si.nrClusters si.count l)
    (hnull : (si.percpuCluster cpu).index.flags = .nextNull) (rounds : ℕ) :
    ∃ p, si.tryCluster cpu (rounds + 1) =
      .ok (l.head?.map (· * swapfileCluster), { si with percpuCluster := p }) := by
  rcases l with _ | ⟨idx, l⟩
  · refine ⟨si.percpuCluster, ?_⟩
    rw [tryCluster, cpuCluster]
    simp only [hnull, if_true, htracks.isEmpty_iff.mpr rfl]
    rfl
  have hfree := free_of_head htracks
  have hempty : si.clusters.free.isEmpty ≠ true := mt htracks.isEmpty_iff.mp (by simp)
  have hfirst := htracks.first_eq.2
  have hdata : si.clusters.free.head.data = idx := hfirst
  have hcluster : si.cpuCluster cpu = some ⟨si.clusters.free.head, idx * swapfileCluster⟩ := by
    simp only [cpuCluster, hnull, if_true, if_neg hempty, hfirst]
  have hstop : idx * swapfileCluster < min si.max ((idx + 1) * swapfileCluster) := by
    refine lt_min hfree.1 ?_
    rw [succ_mul]
    exact Nat.lt_add_of_pos_right cluster_pos
  obtain ⟨k, hk⟩ := Nat.exists_eq_succ_of_ne_zero (Nat.sub_ne_zero_of_lt hstop)
  refine ⟨(si.setPercpu cpu ⟨si.clusters.free.head, idx * swapfileCluster + 1⟩).percpuCluster, ?_⟩
  simp only [tryCluster, hcluster, hdata, firstFree, hk, range'_succ, find?_cons_of_pos, hfree.2,
    decide_true]
  rfl

omit [Config] in
theorem dropCluster_flags : ((si.dropCluster cpu).percpuCluster cpu).index.flags = .nextNull := by
  simp only [dropCluster, setPercpu, update_self, clusterNull]

/-- What the CPU finds is a free slot. -/
theorem trySsdCluster_spec (htracks : si.clusters.Tracks si.nrClusters si.count l) (cpu : ℕ) :
    ∃ p r, si.scanSwapMapTrySsdCluster cpu = .ok (r, { si with percpuCluster := p }) ∧
      ∀ s, r = some s → si.Free s := by
  have hhead : ∀ s, l.head?.map (· * swapfileCluster) = some s → si.Free s := by
    rcases l with _ | ⟨idx, l⟩
    · simp
    rintro s ⟨rfl⟩
    exact free_of_head htracks
  by_cases hnull : (si.percpuCluster cpu).index.flags = .nextNull
  · obtain ⟨p, hrun⟩ := tryCluster_null htracks hnull 1
    exact ⟨p, _, hrun, hhead⟩
  have hcluster :
    si.cpuCluster cpu = some (si.percpuCluster cpu) := by simp only [cpuCluster, if_neg hnull]
  rw [scanSwapMapTrySsdCluster, tryCluster]
  simp only [hcluster]
  cases hfirst : si.firstFree (si.percpuCluster cpu).next
      (min si.max (((si.percpuCluster cpu).index.data + 1) * swapfileCluster)) with
  | some s =>
    obtain ⟨hstop, hzero⟩ := firstFree_some hfirst
    exact ⟨_, some s, rfl, by rintro s ⟨rfl⟩; exact ⟨(lt_min_iff.mp hstop).1, hzero⟩⟩
  | none =>
    obtain ⟨p, hrun⟩ := tryCluster_null
      (show Clusters.Tracks ((si.setPercpu cpu (si.percpuCluster cpu)).dropCluster cpu).clusters _ _
        l from htracks) dropCluster_flags 0
    exact ⟨p, _, hrun, hhead⟩

/-- Other fields of the area, and the clusters of the CPUs, have no part in the invariant. -/
theorem Inv.congr (h : si.Inv) {next nr : ℕ} {p : ℕ → PercpuCluster} (hnext : next ≤ si.max) :
    Inv { si with clusterNext := next, clusterNr := nr, percpuCluster := p } :=
  ⟨h.sound, hnext, h.tracks, h.rotating⟩

/-! ### One slot -/

theorem Inv.took_one (h : si'.Inv) (hmax : si'.max = si.max) (hssd : si'.solidState = si.solidState)
    (hmap : si'.swapMap = (si.fill offset 1 usage).swapMap) (hfree : si.Free offset) :
    Took usage si si' [offset] := by
  refine ⟨h, hmax, hssd, nodup_singleton offset, fun s hs => ?_, fun s => ?_⟩
  · rw [mem_singleton.mp hs]
    exact hfree
  rw [hmap]
  refine if_congr ?_ rfl rfl
  rw [mem_singleton]
  omega

theorem Inv.takeSlot (h : si.Inv) (hu : usage ≠ 0#8 ∧ usage ≠ swapMapBad) (hfree : si.Free offset)
    (hconflict : si.solidState → si.conflict offset = false) :
    ∃ si', si.takeSlot usage offset = .ok si' ∧ Took usage si si' [offset] := by
  have hone : ∀ s, offset ≤ s → s < offset + 1 → s = offset := fun s h1 h2 => by omega
  have hfills := fills_fill hfree.1 (fun s h1 h2 => hone s h1 h2 ▸ hfree.2) hu
  have hsound := h.sound.alloc one_pos hfills
  have hcount := hfills.count_eq fun s h1 h2 => by rw [hone s h1 h2]
  have hnext : offset + 1 ≤ ((si.fill offset 1 usage).swapRangeAlloc offset 1).max := by
    rw [swapRangeAlloc_max]
    exact hfree.1
  rw [SwapInfo.takeSlot]
  by_cases hssd : si.solidState = true
  · obtain ⟨l, htracks⟩ := h.tracks hssd
    -- a free cluster is used only if it is the first of the list
    have hfirst (hclear : (si.clusters.info (offset / swapfileCluster)).flags = .free) :
        l.head? = some (offset / swapfileCluster) := by
      have hmem := (htracks.mem_iff _).mpr ⟨cluster_lt hfree.1, hclear⟩
      rcases l with _ | ⟨idx, l⟩
      · cases hmem
      have hempty : si.clusters.free.isEmpty = false := by
        rw [Bool.eq_false_iff]
        exact mt htracks.isEmpty_iff.mp (by simp)
      have hno := hconflict hssd
      simp only [conflict, hempty, hclear, htracks.first_eq.2] at hno
      rw [head?_cons, Option.some.injEq]
      by_contra hne
      simp [Ne.symm hne] at hno
    obtain ⟨cs, l', hrun, htracks'⟩ := htracks.inc (cluster_lt hfree.1) (count_lt hfree) hfirst
    rw [← hcount] at htracks'
    rw [if_pos hssd, hrun]
    refine ⟨_, rfl,
      Inv.took_one ⟨hsound, hnext, fun _ => ⟨l', ?_⟩, fun hrot => absurd hssd (by simpa using hrot)⟩
      swapRangeAlloc_max rfl swapRangeAlloc_swapMap hfree⟩
    rw [swapRangeAlloc_nrClusters, swapRangeAlloc_count]
    exact htracks'
  rw [if_neg hssd]
  exact ⟨_, rfl,
    Inv.took_one ⟨hsound, hnext, fun h' => absurd h' hssd, h.rotating⟩ swapRangeAlloc_max rfl
    swapRangeAlloc_swapMap hfree⟩

/-- `n` slots of `si` are handed out, and nothing else is changed. -/
structure Gave (si si' : SwapInfo) (offset n : ℕ) : Prop where
  inv : si'.Inv
  max_eq : si'.max = si.max
  map_eq : ∀ s, si'.swapMap s = if offset ≤ s ∧ s < offset + n then 0#8 else si.swapMap s

theorem Inv.swapEntryFree (h : si.Inv) (hs : offset < si.max)
    (hcache : si.swapMap offset = swapHasCache) :
    ∃ si', si.swapEntryFree offset = .ok si' ∧ Gave si si' offset 1 := by
  have hone : ∀ s, offset ≤ s → s < offset + 1 → s = offset := fun s h1 h2 => by omega
  have hfills := fill_fills hs fun s h1 h2 => hone s h1 h2 ▸ hcache
  have hsound := h.sound.free one_pos hfills
  have hcount := hfills.count_eq fun s h1 h2 => by rw [hone s h1 h2]
  rw [SwapInfo.swapEntryFree, if_neg (not_not.mpr hcache)]
  by_cases hssd : si.solidState = true
  · obtain ⟨l, htracks⟩ := h.tracks hssd
    obtain ⟨cs, l', hrun, htracks'⟩ := htracks.dec (cluster_lt hs)
      (count_ne_zero (.inr (by rw [hcache]; decide)))
    rw [hcount, update_self, Nat.add_sub_cancel, update_idem, update_eq_self] at htracks'
    rw [if_pos hssd, hrun]
    exact ⟨_, rfl,
      ⟨hsound, h.next_le, fun _ => ⟨l', htracks'⟩, fun hrot => absurd hssd (by simpa using hrot)⟩, rfl,
      fun s => rfl⟩
  · rw [if_neg hssd]
    exact ⟨_, rfl, ⟨hsound, h.next_le, fun h' => absurd h' hssd, h.rotating⟩, rfl, fun s => rfl⟩

/-! ### Clusters -/

theorem mem_cluster_div (h1 : idx * swapfileCluster ≤ s)
    (h2 : s < idx * swapfileCluster + swapfileCluster) : s / swapfileCluster = idx := by
  rw [← mem_cluster, Finset.mem_Ico, succ_mul]
  exact ⟨h1, h2⟩

/-- A cluster of free slots becomes a cluster of slots in the swap cache. -/
theorem Inv.swapAllocCluster (h : si.Inv) :
    si.swapAllocCluster = .ok (none, si) ∨ ∃ offset si', si.swapAllocCluster = .ok (some offset, si') ∧
        Took swapHasCache si si' (range' offset swapfileCluster) := by
  rw [SwapInfo.swapAllocCluster]
  by_cases hnone : thpSwap = false ∨ si.clusters.free.isEmpty = true
  · exact .inl (if_pos hnone)
  have hempty : si.clusters.free.isEmpty ≠ true := fun he => hnone (.inr he)
  have hssd : si.solidState = true := by
    by_contra hrot
    exact hempty (h.rotating (by simpa using hrot))
  obtain ⟨l, htracks⟩ := h.tracks hssd
  rcases l with _ | ⟨idx, l⟩
  · exact absurd (htracks.isEmpty_iff.mpr rfl) hempty
  obtain ⟨halloc, htracks'⟩ := htracks.take (Nat.pos_iff_ne_zero.mp cluster_pos) (f := .huge) (by decide)
  have hmem := (htracks.mem_iff idx).mp mem_cons_self
  have hfree : ∀ s, idx * swapfileCluster ≤ s → s < idx * swapfileCluster + swapfileCluster →
    si.Free s := fun s h1 h2 =>
    free_of_count ((htracks.free_iff idx hmem.1).mp hmem.2) (mem_cluster_div h1 h2)
  have hpos := cluster_pos
  have hstop : idx * swapfileCluster + swapfileCluster ≤ si.max := by
    have hlast := (hfree (idx * swapfileCluster + swapfileCluster - 1) (by omega) (by omega)).1
    omega
  have hfills := fills_fill (b := swapHasCache) hstop (fun s h1 h2 => (hfree s h1 h2).2) (by decide)
  have hcount := hfills.count_eq fun s h1 h2 => mem_cluster_div h1 h2
  rw [(htracks.free_iff idx hmem.1).mp hmem.2, zero_add] at hcount
  rw [← hcount] at htracks'
  rw [if_neg hnone]
  simp only [htracks.first_eq.2, halloc, update_idem]
  refine .inr ⟨_, _, rfl, ⟨h.sound.alloc hpos hfills, ?_, fun _ => ⟨l, ?_⟩,
    fun hrot => absurd hssd (by simpa using hrot)⟩, swapRangeAlloc_max, rfl, nodup_range',
    fun s hs => ?_, fun s => ?_⟩
  · rw [swapRangeAlloc_max]
    exact h.next_le
  · rw [swapRangeAlloc_nrClusters, swapRangeAlloc_count]
    exact htracks'
  · rw [mem_range'_1] at hs
    exact hfree s hs.1 hs.2
  rw [swapRangeAlloc_swapMap]
  simp only [mem_range'_1]
  rfl

theorem Inv.swapFreeCluster (h : si.Inv) (hssd : si.solidState)
    (hstop : idx * swapfileCluster + swapfileCluster ≤ si.max)
    (hcache : ∀ s, idx * swapfileCluster ≤ s → s < idx * swapfileCluster + swapfileCluster →
      si.swapMap s = swapHasCache) :
    ∃ si', si.swapFreeCluster idx = .ok si' ∧ Gave si si' (idx * swapfileCluster) swapfileCluster := by
  have hpos := cluster_pos
  have hfills := fill_fills hstop hcache
  have hcount := hfills.count_eq fun s h1 h2 => mem_cluster_div h1 h2
  -- all slots of the cluster were in use
  have hself := congrFun hcount idx
  rw [update_self] at hself
  have hle : si.count idx ≤ swapfileCluster := count_le
  have hzero : (si.fill (idx * swapfileCluster) swapfileCluster 0#8).count idx = 0 := by omega
  obtain ⟨l, htracks⟩ := h.tracks hssd
  have hidx : idx < si.nrClusters := lt_nrClusters_iff.mpr (by omega)
  obtain ⟨cs, hrun, htracks'⟩ :=
    htracks.give hidx (mt (htracks.free_iff idx hidx).mp (by omega)) (f := .clear)
  rw [hcount, update_idem, update_eq_self_iff.mpr hzero.symm] at htracks'
  rw [SwapInfo.swapFreeCluster]
  simp only [hrun]
  exact ⟨_, rfl, ⟨h.sound.free hpos hfills, h.next_le, fun _ => ⟨_, htracks'⟩,
    fun hrot => absurd hssd (by simpa using hrot)⟩, rfl, fun s => rfl⟩

end SwapInfo

end LinuxNote.SwapSlots
