import LinuxNote.Memblock.Double

/-! Which block a search returns. The free ranges come in address order, so the first range upwards with
    room has the lowest aligned address, and the first one downwards the highest. `memblock_double_array`
    makes two such searches for its new array, above and below the area that is waiting to be
    reserved. -/

namespace LinuxNote.Memblock
open Intervals Outcome List Nat Except Option Region

/-! ### Aligned addresses -/

section
variable {x a k : ℕ} (hk : k < 64) (ha : 2 ^ k ∣ a)
include hk ha

theorem le_roundDown (hx : x ≤ physAddrMax) (h : a ≤ x) : a ≤ roundDown x (2 ^ k) := by
  obtain ⟨q, rfl⟩ := ha
  rw [roundDown_eq x hk, mod_eq_of_lt (lt_of_le_sub_one (by decide) hx), mul_comm]
  exact mul_le_mul_right _ ((le_div_iff_mul_le (Nat.two_pow_pos k)).mpr (by rwa [mul_comm]))

/-- With an aligned address to go to, `round_up` does not wrap and goes no further. -/
theorem roundUp_le (hx : 0 < x) (h : x ≤ a) (hmax : a ≤ physAddrMax) :
    x ≤ roundUp x (2 ^ k) ∧ roundUp x (2 ^ k) ≤ a := by
  have hpos := Nat.two_pow_pos k
  obtain ⟨q, rfl⟩ := ha
  have hx' : psub x 1 = x - 1 := by simp only [psub, physAddrMax] at *; omega
  have hq : (x - 1) / 2 ^ k < q := by
    rw [div_lt_iff_lt_mul hpos, mul_comm]
    omega
  have hle : ((x - 1) / 2 ^ k + 1) * 2 ^ k ≤ 2 ^ k * q := by
    rw [mul_comm]
    exact mul_le_mul_left _ hq
  have hlow : x - 1 < ((x - 1) / 2 ^ k + 1) * 2 ^ k := lt_mul_of_div_lt (lt_succ_self _) hpos
  rw [roundUp_eq x hk, hx', mod_eq_of_lt (by simp only [physAddrMax] at hmax; omega)]
  omega

end

/-! ### The first range with room -/

variable {next : ℕ → Option (Range × ℕ)} {candidate : Range → Option ℕ} {n : ℕ}

/-- A search over a loop that ends returns the first candidate. -/
theorem findLoop_run :
    ∀ {n m idx c : ℕ} {tr : List (Range × ℕ)}, Generator.run (untilMax next) m idx = some tr →
      findLoop next candidate n idx = .ok c → c = ((tr.map Prod.fst).findSome? candidate).getD 0
  | 0, _, _, _, _, _, h => nomatch h
  | _ + 1, 0, _, _, _, h, _ => nomatch h
  | n + 1, m + 1, idx, c, tr, hrun, h => by
    rw [findLoop] at h
    rw [Generator.run] at hrun
    rcases hnext : untilMax next idx with _ | p
    · rw [hnext] at h hrun
      cases hrun
      exact (ok.inj h).symm
    simp only [hnext, map_eq_some_iff] at h hrun
    obtain ⟨tr, htr, rfl⟩ := hrun
    cases hc : candidate p.1 with
    | some c' =>
      rw [hc] at h
      simpa [hc] using (ok.inj h).symm
    | none =>
      rw [hc] at h
      simpa [hc] using findLoop_run htr h

theorem findLoop_none {mb : MemblockState} {idx : ℕ} (h : next idx = none) :
    findLoop next candidate (maxRanges mb) idx = .ok 0 := by
  rw [maxRanges, findLoop, untilMax, h]

/-- The first candidate of ranges in the order `R` is the extreme element of `B` by `S`, when it is in
    `B` and each element of `B` has a range with a candidate, where the candidates from that range and
    those before it are not beyond the element. -/
theorem first_extreme {L : List Range} {R : Range → Range → Prop} {S : ℕ → ℕ → Prop} {B : Set ℕ} {c : ℕ}
    (hL : L.Pairwise R) (hfirst : c = (L.findSome? candidate).getD 0) (hsound : c ≠ 0 → c ∈ B)
    (hroom : ∀ a ∈ B, ∃ x ∈ L, candidate x ≠ none ∧ ∀ y c, y = x ∨ R y x → candidate y = some c →
      c ≠ 0 ∧ S c a) : (c = 0 ↔ B = ∅) ∧ (c ≠ 0 → c ∈ B ∧ ∀ ⦃a⦄, a ∈ B → S c a) := by
  have hbound : ∀ a ∈ B, c ≠ 0 ∧ S c a := by
    intro a ha
    obtain ⟨x, hx, hxc, hbefore⟩ := hroom a ha
    rcases hfind : L.findSome? candidate with _ | d
    · exact absurd (findSome?_eq_none_iff.mp hfind x hx) hxc
    obtain ⟨l1, y, l2, rfl, hy, hnone⟩ := findSome?_eq_some_iff.mp hfind
    obtain rfl : c = d := by rw [hfirst, hfind]; rfl
    refine hbefore y c ?_ hy
    rcases mem_append.mp hx with hx | hx
    · exact absurd (hnone x hx) hxc
    rcases mem_cons.mp hx with rfl | hx
    · exact .inl rfl
    · exact .inr ((pairwise_cons.mp (pairwise_append.mp hL).2.1).1 x hx)
  refine ⟨⟨fun hc => Set.eq_empty_of_forall_notMem fun a ha => (hbound a ha).1 hc, fun hempty => ?_⟩,
    fun hc => ⟨hsound hc, fun a ha => (hbound a ha).2⟩⟩
  by_contra hc
  exact Set.notMem_empty c (hempty ▸ hsound hc)

section
variable {env : Env} {nid : ℤ} {flags : Flags} {mb : MemblockState} {lo hi size a k : ℕ}

/-- The aligned addresses at which a block has room. -/
def blocks (env : Env) (nid : ℤ) (flags : Flags) (mb : MemblockState) (lo hi size align : ℕ) : Set ℕ :=
  {a | align ∣ a ∧ FreeBlock env nid flags mb lo hi size a}

/-- The free ranges, upwards. -/
abbrev ranges (env : Env) (nid : ℤ) (flags : Flags) (mb : MemblockState) : List Range :=
  allMeetings (wanted env nid flags) mb.memory.regions (areas mb.reserved.regions)

variable (hm : WellFormed mb.memory) (hr : WellFormed mb.reserved)
include hm hr

/-- A free block lies in one of the ranges. -/
theorem FreeBlock.exists_range (h₀ : 0 < size) (h : FreeBlock env nid flags mb lo hi size a) :
    ∃ x ∈ ranges env nid flags mb, clamp x.start lo hi ≤ a ∧ a + size ≤ clamp x.stop lo hi := by
  obtain ⟨m, hmem, hw, hbase, hstop⟩ := h.region
  have hfit := hm.good.fits m hmem
  obtain ⟨g, hg, hga, hag⟩ := exists_area (zero_le a) (by omega) (h.free a le_rfl (by omega))
  have hend : a + size ≤ g.2 := by
    rcases (area_bounds g hg).2 with heq | ⟨r, hrmem, hrbase⟩
    · omega
    -- the region after the area is not empty, so the block would meet it
    by_contra hlt
    have hfree := h.free g.2 hag.le (by omega)
    have hout := attrAt_eq_none_iff.mp hfree r hrmem
    rcases hr.live with hp | ⟨d, hd, hdstop⟩
    · have := hp r hrmem
      simp only [stop] at hout
      omega
    rw [hd, mem_singleton] at hrmem
    subst hrmem
    simp only [stop] at hdstop
    omega
  have hlo := h.lower
  have hhi := h.upper
  refine ⟨meet m g, mem_allMeetings.mpr ⟨m, hmem, hw, g, hg, ⟨by omega, by omega⟩, rfl⟩, ?_⟩
  simp only [meet, clamp, rend_eq hfit]
  omega

variable (ha : mb.memory.cnt ≤ intMax) (hb : mb.reserved.cnt ≤ intMax) (h₀ : 0 < size) (hk : k < 64)
  (hlo₀ : 0 < lo)
include ha hb h₀ hk hlo₀

/-- The upward search returns the lowest address, and 0 only when there is none. -/
theorem findRangeBottomUp_least (hlo : lo ≤ physAddrMax) :
    ∃ c, findRangeBottomUp env mb lo hi size (2 ^ k) nid flags = .ok c ∧
    (c = 0 ↔ blocks env nid flags mb lo hi size (2 ^ k) = ∅) ∧
    (c ≠ 0 → IsLeast (blocks env nid flags mb lo hi size (2 ^ k)) c) := by
  have hspec : Ensures (findRangeBottomUp env mb lo hi size (2 ^ k) nid flags) _ _ :=
    findRangeBottomUp_spec hm.good hr.good h₀ hlo
  obtain ⟨c, hc, hsound⟩ := hspec.returns
  obtain ⟨up, -, hup, -, hmap, -⟩ := forEach_meetings env nid flags hm hr ha hb
  have hfirst := findLoop_run (hup _ (lt_succ_self _)) hc
  rw [hmap] at hfirst
  refine ⟨c, hc, first_extreme (allMeetings_wellFormed (wanted env nid flags) hm hr).1 hfirst
    (fun h => ⟨(hsound h).2 k hk rfl, (hsound h).1⟩) ?_⟩
  rintro a ⟨hdvd, hfree⟩
  obtain ⟨m, hmem, -, -, hstop⟩ := hfree.region
  have hfit := hm.good.fits m hmem
  have hupper := hfree.upper
  -- from a range that starts at or below the block, the candidate is not above it
  have hround : ∀ y : Range, clamp y.start lo hi ≤ a → 0 < roundUp (clamp y.start lo hi) (2 ^ k) ∧
      roundUp (clamp y.start lo hi) (2 ^ k) ≤ a := by
    intro y hy
    have hpos : 0 < clamp y.start lo hi := by simp only [clamp]; omega
    have := roundUp_le hk hdvd hpos hy (by omega)
    omega
  obtain ⟨x, hx, hxa, hax⟩ := hfree.exists_range hm hr h₀
  refine ⟨x, hx, ?_, fun y c hyx hy => ?_⟩
  · have := hround x hxa
    rw [bottomUpCandidate, if_pos (by omega)]
    exact some_ne_none _
  have hstart : y.start ≤ x.start := hyx.elim (fun heq => heq ▸ le_rfl) fun h => h.1.le
  have hya := hround y (by simp only [clamp] at *; omega)
  simp only [bottomUpCandidate] at hy
  split at hy
  · cases hy
    exact ⟨by omega, hya.2⟩
  · cases hy

/-- The downward search returns the highest address, and 0 only when there is none. -/
theorem findRangeTopDown_greatest (hhi : hi ≤ physAddrMax) :
    ∃ c, findRangeTopDown env mb lo hi size (2 ^ k) nid flags = .ok c ∧
    (c = 0 ↔ blocks env nid flags mb lo hi size (2 ^ k) = ∅) ∧
    (c ≠ 0 → IsGreatest (blocks env nid flags mb lo hi size (2 ^ k)) c) := by
  have hspec : Ensures (findRangeTopDown env mb lo hi size (2 ^ k) nid flags) _ _ :=
    findRangeTopDown_spec hm.good hr.good h₀
  obtain ⟨c, hc, hsound⟩ := hspec.returns
  obtain ⟨up, down, -, hdown, hmap, hrev⟩ := forEach_meetings env nid flags hm hr ha hb
  have hfirst := findLoop_run (hdown _ (lt_succ_self _)) hc
  rw [hrev, hmap] at hfirst
  refine ⟨c, hc, first_extreme (S := fun c a => a ≤ c)
    (pairwise_reverse.mpr (allMeetings_wellFormed (wanted env nid flags) hm hr).1) hfirst
    (fun h => ⟨(hsound h).2 k hk rfl, (hsound h).1⟩) ?_⟩
  rintro a ⟨hdvd, hfree⟩
  have hlower := hfree.lower
  -- in a range that ends at or above the block's end, the candidate is not below the block
  have hround : ∀ y : Range, a + size ≤ clamp y.stop lo hi →
    a ≤ roundDown (clamp y.stop lo hi - size) (2 ^ k) := by
    intro y hy
    have hmax : clamp y.stop lo hi ≤ hi := min_le_right ..
    exact le_roundDown hk hdvd (by omega) (by omega)
  obtain ⟨x, hx, hxa, hax⟩ := hfree.exists_range hm hr h₀
  refine ⟨x, mem_reverse.mpr hx, ?_, fun y c hyx hy => ?_⟩
  · have := hround x hax
    rw [topDownCandidate, if_neg (by omega), if_pos (by omega)]
    exact some_ne_none _
  have hstop : x.stop ≤ y.stop := hyx.elim (fun heq => heq ▸ le_rfl) fun h => h.2
  have hya := hround y (by simp only [clamp] at *; omega)
  simp only [topDownCandidate] at hy
  split at hy
  · cases hy
  split at hy
  · cases hy
    exact ⟨by omega, hya⟩
  · cases hy

omit hlo₀ in
/-- Both searches, from a start as `memblock_find_in_range_node` passes it: what they return is the
    highest and the lowest aligned address with room, or 0 exactly when there is none. -/
theorem findRange_extremal {start stop : ℕ} (hstart : start ≤ physAddrMax) (hstop : stop ≤ physAddrMax) :
    (∃ c, findRangeTopDown env mb (max start env.pageSize) stop size (2 ^ k) nid flags = .ok c ∧
      (c = 0 ↔ blocks env nid flags mb (max start env.pageSize) stop size (2 ^ k) = ∅) ∧
      (c ≠ 0 → IsGreatest (blocks env nid flags mb (max start env.pageSize) stop size (2 ^ k)) c)) ∧
    ∃ c, findRangeBottomUp env mb (max start env.pageSize) stop size (2 ^ k) nid flags = .ok c ∧
      (c = 0 ↔ blocks env nid flags mb (max start env.pageSize) stop size (2 ^ k) = ∅) ∧
      (c ≠ 0 → IsLeast (blocks env nid flags mb (max start env.pageSize) stop size (2 ^ k)) c) := by
  have hpos : 0 < max start env.pageSize := Nat.lt_of_lt_of_le (Nat.two_pow_pos _) (le_max_right ..)
  exact ⟨findRangeTopDown_greatest hm hr ha hb h₀ hk hpos hstop,
    findRangeBottomUp_least hm hr ha hb h₀ hk hpos (max_le hstart (pageSize_le env))⟩

end

/-- A byte of memory at the first address that a search may return. -/
theorem evenMemory_block (hn : 2048 < n) :
    4096 ∈ blocks plainEnv numaNoNode 0 ⟨evenMemory n, touchingReserved⟩ (max 0 plainEnv.pageSize)
    (2 ^ 33) 1 (2 ^ 0) := by
  refine ⟨one_dvd _, ⟨⟨4096, 1, 0, 0⟩, ?_, by decide, le_rfl, le_rfl⟩, fun a h1 h2 => ?_,
    by decide, by decide⟩
  · exact mem_map.mpr ⟨2048, mem_range.mpr hn, rfl⟩
  obtain rfl : a = 4096 := by omega
  show attrs touchingReserved.regions 4096 = none
  decide

/-- With one region more than an `int` counts the downward search finds nothing. -/
theorem findRange_missed : WellFormed (evenMemory (2 ^ 31 + 1)) ∧ WellFormed touchingReserved ∧
    4096 ∈ blocks plainEnv numaNoNode 0 ⟨evenMemory (2 ^ 31 + 1), touchingReserved⟩
    (max 0 plainEnv.pageSize) (2 ^ 33) 1 (2 ^ 0) ∧
    findRangeTopDown plainEnv ⟨evenMemory (2 ^ 31 + 1), touchingReserved⟩ (max 0 plainEnv.pageSize)
    (2 ^ 33) 1 (2 ^ 0) numaNoNode 0 = .ok 0 := by
  refine ⟨wellFormed_evenMemory (by decide) (by decide), wellFormed_touchingReserved,
    evenMemory_block (by decide), ?_⟩
  exact findLoop_none (nextMemRangeRev_evenMemory _)

/-- With 4096 such regions it finds the highest one. -/
theorem findRange_extremal_even : ∃ c,
    findRangeTopDown plainEnv ⟨evenMemory 4096, touchingReserved⟩ (max 0 plainEnv.pageSize) (2 ^ 33) 1
    (2 ^ 0) numaNoNode 0 = .ok c ∧
    IsGreatest (blocks plainEnv numaNoNode 0 ⟨evenMemory 4096, touchingReserved⟩
      (max 0 plainEnv.pageSize) (2 ^ 33) 1 (2 ^ 0)) c := by
  have hcnt : (evenMemory 4096).cnt ≤ intMax := by simp [evenMemory, evenBytes, MemblockType.cnt, intMax]
  obtain ⟨⟨c, hc, hzero, hgreatest⟩, -⟩ :=
    @findRange_extremal plainEnv numaNoNode 0 ⟨evenMemory 4096, touchingReserved⟩ 1 0
      (wellFormed_evenMemory (by decide) (by decide)) wellFormed_touchingReserved hcnt
      (by decide) Nat.one_pos (by decide) 0 (2 ^ 33) (Nat.zero_le _) (by decide)
  refine ⟨c, hc, hgreatest fun h => ?_⟩
  have hmem := evenMemory_block (n := 4096) (by decide)
  rw [hzero.mp h] at hmem
  exact hmem

/-! ### The place of a new reserved array -/

section
variable {env : Env} {mb mb' : MemblockState} {start stop size len k d : ℕ} (hm : WellFormed mb.memory)
  (hr : WellFormed mb.reserved)
include hm hr

/-- The search that `memblock_find_in_range` returns from. Both may take mirrored memory, but none that
    is `nomap`. -/
theorem findInRange_ok {c : ℕ} (h₀ : 0 < len) (hstart : start ≤ physAddrMax)
    (h : findInRange env mb start stop len (2 ^ k) = .ok c) :
    ∃ flags, flags &&& memblockNomap = 0 ∧ (c = 0 → flags = memblockNone) ∧
      findInRangeNode env mb len (2 ^ k) start stop numaNoNode flags = .ok c := by
  obtain ⟨ret, hret, -⟩ := (findInRangeNode_spec hm.good hr.good h₀ hstart :
    Ensures (findInRangeNode env mb len (2 ^ k) start stop numaNoNode (chooseMemblockFlags env))
    _ _).returns
  simp only [findInRange, hret] at h
  change (if ret = 0 ∧ _ then _ else ok ret) = ok c at h
  rw [chooseMemblockFlags] at h hret
  split at h
  case isTrue hmirror =>
    rw [if_pos hmirror] at hret
    split at h
    · exact ⟨memblockNone, by decide, fun _ => rfl, h⟩
    rename_i honce
    exact ⟨memblockMirror, by decide, fun hc => absurd ⟨(ok.inj h).trans hc, by decide⟩ honce,
      hret.trans h⟩
  case isFalse hmirror =>
    rw [if_neg hmirror] at hret
    rw [if_neg fun hagain => hagain.2 rfl] at h
    exact ⟨memblockNone, by decide, fun _ => rfl, hret.trans h⟩

section
variable (ha : mb.memory.cnt ≤ intMax) (hb : mb.reserved.cnt ≤ intMax) (h₀ : 0 < len) (hk : k < 64)
  (hstart : start ≤ physAddrMax) (hstop : stop ≤ physAddrMax)
include ha hb h₀ hk hstart hstop

/-- `memblock_find_in_range_node` returns 0 only when there is no room. -/
theorem findInRangeNode_zero {nid : ℤ} {flags : Flags}
    (h : findInRangeNode env mb len (2 ^ k) start stop nid flags = .ok 0) :
    blocks env nid flags mb (max start env.pageSize) (searchEnd env stop) len (2 ^ k) = ∅ := by
  have hlo := max_le hstart (pageSize_le env)
  have hend : searchEnd env stop ≤ physAddrMax := by
    rw [searchEnd]
    split
    · exact env.currentLimit_le
    · exact hstop
  have hpos : 0 < max start env.pageSize := lt_of_lt_of_le (Nat.two_pow_pos _) (le_max_right ..)
  obtain ⟨c, hc, hzero, -⟩ :
    ∃ c, findRangeTopDown env mb _ (max _ (searchEnd env stop)) len (2 ^ k) nid flags = .ok c ∧ _ :=
    findRangeTopDown_greatest hm hr ha hb h₀ hk hpos (max_le hlo hend)
  -- whatever the upward search did, the downward one found nothing
  have hnone : c = 0 := by
    simp only [findInRangeNode, hc] at h
    split at h
    · cases hup : findRangeBottomUp env mb (max (max start env.pageSize) env.kernelEnd)
          (max (max start env.pageSize) (searchEnd env stop)) len (2 ^ k) nid flags with
      | error e =>
        rw [hup] at h
        cases h
      | ok ret =>
        rw [hup] at h
        change (if ret ≠ 0 then ok ret else ok c) = ok 0 at h
        split at h
        · exact absurd (ok.inj h) ‹_›
        · exact ok.inj h
    · exact ok.inj h
  refine Set.eq_empty_of_forall_notMem fun a hmem => Set.notMem_empty a ?_
  rw [← hzero.mp hnone]
  exact ⟨hmem.1, hmem.2.region, hmem.2.free, hmem.2.lower, hmem.2.upper.trans (le_max_right ..)⟩

end

/-- What `memblock_find_in_range` returns has room. -/
theorem findInRange_mem {c : ℕ} (h₀ : 0 < len) (hk : k < 64) (hstart : start ≤ physAddrMax)
    (h : findInRange env mb start stop len (2 ^ k) = .ok c) (hc : c ≠ 0) :
    c ∈ blocks env numaNoNode memblockNone mb (max start env.pageSize) (searchEnd env stop) len
    (2 ^ k) := by
  obtain ⟨flags, hflags, -, hok⟩ := findInRange_ok hm hr h₀ hstart h
  obtain ⟨hfree, hdvd⟩ := (findInRangeNode_spec hm.good hr.good h₀ hstart).of_ok hok hc
  obtain ⟨m, hm, hw, hin⟩ := hfree.region
  refine ⟨hdvd k hk rfl, ⟨m, hm, ?_, hin⟩, hfree.free, hfree.lower, hfree.upper⟩
  simp_all [wanted, skips, memblockNone]

/-- The new array of `memblock.reserved` goes where nothing is reserved. It is apart from the area that
    is waiting to be reserved if that does not start at 0 or the search above it succeeds; for an area
    that starts at 0 it is not so otherwise. -/
theorem doubleArray_avoids (hslab : env.slabIsAvailable = false) (hs : start + size ≤ physAddrMax)
    (h : doubleArray (d + 1) env .reserved start size mb = .ok (.ok, mb')) :
    ∃ addr len, len = allocSize env (2 * mb.reserved.max) ∧
      newArrayAddr env mb .reserved start size (2 * mb.reserved.max) = .ok addr ∧
      moveArray (doubleArray d env) env .reserved addr mb = .ok (.ok, mb') ∧
      (∀ a, addr ≤ a → a < addr + len → attrs mb.reserved.regions a = none) ∧
      (start ≠ 0 ∨ findInRange env mb (start + size) env.currentLimit len env.pageSize ≠ .ok 0 →
        start + size ≤ addr ∨ addr + len ≤ start) ∧
      (mb.memory.cnt ≤ intMax → mb.reserved.cnt ≤ intMax → start + size ≤ addr ∨ addr + len ≤ start →
        start ≠ 0 ∨ findInRange env mb (start + size) env.currentLimit len env.pageSize ≠ .ok 0) := by
  have hmax : 0 < 2 * mb.reserved.max := by
    have := hr.bounded
    have := List.length_pos_of_ne_nil hr.nonempty
    simp only [MemblockType.cnt] at *
    omega
  have hlen := allocSize_pos env hmax
  obtain ⟨addr, haddr, hplaced⟩ := (newArrayAddr_spec hm.good hr.good .reserved hmax hs).returns
  rw [doubleArray] at h
  split at h
  · cases h
  change (newArrayAddr env mb .reserved start size (2 * mb.reserved.max) >>= fun addr => _) = _ at h
  rw [haddr] at h
  change (if addr = 0 then _ else _) = _ at h
  split at h
  · cases h
  rename_i hne
  split at h
  · cases h
  obtain ⟨⟨flags, hblock⟩, havoid⟩ := (hplaced hne).1 hslab
  -- the address is from the first search, or from the second one
  have hpadd : padd start size = start + size := by simp only [padd, physAddrMax] at *; omega
  obtain ⟨c, hc, -⟩ := (findInRange_spec hm.good hr.good hlen hs :
    Ensures (findInRange env mb (start + size) env.currentLimit (allocSize env (2 * mb.reserved.max))
      env.pageSize) _ _).returns
  have hsearch := haddr
  rw [newArrayAddr, if_neg (by simp [hslab])] at hsearch
  simp only [if_true, hpadd, hc] at hsearch
  change (if c = 0 ∧ size ≠ 0 then _ else Except.ok c) = Except.ok addr at hsearch
  refine ⟨addr, _, rfl, haddr, h, hblock.free, fun hcase => ?_, fun ha hb hapart => ?_⟩
  · rcases hcase with hstart | hfirst
    · exact havoid rfl hstart
    rw [hc] at hfirst
    rw [if_neg fun hzero => hfirst (congrArg Except.ok hzero.1)] at hsearch
    cases hsearch
    have := (findInRange_mem hm hr hlen env.pageShift_lt hs hc hne).2.lower
    exact .inl (by omega)
  by_contra hcase
  obtain ⟨hstart, hfirst⟩ := not_or.mp hcase
  obtain rfl := not_not.mp hstart
  rw [not_not, hc] at hfirst
  cases hfirst
  split at hsearch
  · -- a block above the area would have been found by the first search
    obtain ⟨flags, -, hflags, hok⟩ := findInRange_ok hm hr hlen hs hc
    obtain rfl := hflags rfl
    have hnone := findInRangeNode_zero hm hr ha hb hlen env.pageShift_lt hs env.currentLimit_le hok
    obtain ⟨hdvd, hfree⟩ := findInRange_mem hm hr hlen env.pageShift_lt (Nat.zero_le _) hsearch hne
    have hlower := hfree.lower
    have hupper := hfree.upper
    -- the end 0 stands for `current_limit`
    have hend : searchEnd env (min 0 env.currentLimit) = searchEnd env env.currentLimit := by
      rw [searchEnd, searchEnd, ite_self, Nat.zero_min]
      exact if_pos rfl
    rw [hend] at hupper
    have hmem : addr ∈ blocks env numaNoNode memblockNone mb (max (0 + size) env.pageSize)
      (searchEnd env env.currentLimit) (allocSize env (2 * mb.reserved.max)) (2 ^ env.pageShift) :=
      ⟨hdvd, hfree.region, hfree.free, by omega, hupper⟩
    rw [hnone] at hmem
    exact hmem
  · exact hne (Except.ok.inj hsearch).symm

end

/-- A megabyte of memory from 0 on, of which nothing is reserved yet. -/
def lowMemory : MemblockState :=
  ⟨⟨[⟨0, 0x100000, 0, 0⟩], 128, 0x100000, none, false⟩, ⟨[⟨0, 0, 64, 0⟩], 128, 0, none, false⟩⟩

theorem wellFormed_lowMemory : WellFormed lowMemory.memory ∧ WellFormed lowMemory.reserved := by
  refine ⟨⟨?_, .inl ?_, ?_, ?_, by decide, rfl⟩, ⟨?_, .inr ⟨64, 0, rfl⟩, ?_, ?_, by decide, rfl⟩⟩ <;>
    simp [lowMemory, good_cons, good_nil, Proper, Minimal, stop, physAddrMax]

/-- While `[0, 0xff000)` is waiting to be reserved, the new array of the reserved regions is put at
    `0xfe000`. -/
theorem doubleArray_overlaps : (WellFormed lowMemory.memory ∧ WellFormed lowMemory.reserved) ∧
    allocSize plainEnv (2 * lowMemory.reserved.max) = 0x2000 ∧
    (doubleArray 1 plainEnv .reserved 0 0xff000 lowMemory).map (fun p => (p.1, p.2.reserved.loc)) =
      .ok (.ok, some 0xfe000) :=
  ⟨wellFormed_lowMemory, by decide, by decide +kernel⟩

/-- For an area that starts at `0x1000` it does not meet the area. -/
theorem doubleArray_avoids_low : ∃ mb', doubleArray 1 plainEnv .reserved 0x1000 0xe000 lowMemory = .ok
    (.ok, mb') ∧ ∃ addr len, moveArray (doubleArray 0 plainEnv) plainEnv .reserved addr lowMemory =
      .ok (.ok, mb') ∧ (0x1000 + 0xe000 ≤ addr ∨ addr + len ≤ 0x1000) := by
  obtain ⟨mb', h⟩ : ∃ mb', doubleArray 1 plainEnv .reserved 0x1000 0xe000 lowMemory = .ok (.ok, mb') :=
    ⟨_, rfl⟩
  obtain ⟨addr, len, -, -, hmove, -, hapart, -⟩ :=
    doubleArray_avoids wellFormed_lowMemory.1 wellFormed_lowMemory.2 rfl (by decide) h
  exact ⟨mb', h, addr, len, hmove, hapart (.inl (by decide))⟩

end LinuxNote.Memblock
