import LinuxNote.Memblock.Add

/-! The walk of `memblock_isolate_range`, and the loops that run over the regions it isolated. The walk
    splits the regions that cross a boundary of `[base, stop)` and records the indices of those inside.
    Its result is a cut of the region array into three: the regions below `base`, the regions inside the
    range and the regions from `stop` on. -/

namespace LinuxNote.Memblock
open Cursor List Region

/-- Split the region at `idx` at the address `c`: the entry keeps the top half and the bottom half is
    inserted before it. -/
def splitRegion (t : MemblockType) (idx : ℕ) (rgn : Region) (c : ℕ) : Except Fault MemblockType :=
  insertRegion { t with
      regions := t.regions.set idx { rgn with base := c, size := psub rgn.size (psub c rgn.base) }
      totalSize := psub t.totalSize (psub c rgn.base) }
    idx rgn.base (psub c rgn.base) rgn.nid rgn.flags

/-- The loop of `memblock_isolate_range` from index `idx`, with the recorded `*start_rgn` and
    `*end_rgn`. -/
def isolateLoop (base stop : ℕ) : ℕ → ℕ → ℕ → ℕ → MemblockType → Except Fault (ℕ × ℕ × MemblockType)
  | 0, _, _, _, _ => .error .fuel
  | n + 1, idx, startRgn, endRgn, t =>
    match t.regions[idx]? with
    | none => .ok (startRgn, endRgn, t)
    | some rgn =>
      if rgn.base ≥ stop then .ok (startRgn, endRgn, t)
      else if rgn.rend ≤ base then isolateLoop base stop n (idx + 1) startRgn endRgn t
      else if rgn.base < base then do
        -- intersects from below: go on with the new top half
        let t ← splitRegion t idx rgn base
        isolateLoop base stop n (idx + 1) startRgn endRgn t
      else if rgn.rend > stop then do
        -- intersects from above: redo the current index, now the bottom half
        let t ← splitRegion t idx rgn stop
        isolateLoop base stop n idx startRgn endRgn t
      else isolateLoop base stop n (idx + 1) (if endRgn = 0 then idx else startRgn) (idx + 1) t

/-- The walk of `memblock_isolate_range`; no region is looked at more than four times. -/
def isolateWalk (t : MemblockType) (base stop : ℕ) : Except Fault (ℕ × ℕ × MemblockType) :=
  isolateLoop base stop (4 * t.cnt + 1) 0 0 0 t

/-- The loop of `memblock_remove_range`, deleting the regions `i` to `startRgn` downwards; the argument
    is `i + 1`. -/
def removeRegions (maxNumNodes : ℤ) (startRgn : ℕ) : ℕ → MemblockType → MemblockType
  | 0, t => t
  | i + 1, t =>
    if i ≥ startRgn then removeRegions maxNumNodes startRgn i (removeRegion maxNumNodes t i) else t

/-- The loops of `memblock_set_node` and `memblock_setclr_flag`: `f` on each of the `n` regions from
    index `i` on. -/
def updateRegions (f : Region → Region) (i : ℕ) : ℕ → MemblockType → MemblockType
  | 0, t => t
  | n + 1, t => updateRegions f (i + 1) n { t with regions := t.regions.modify i f }

/-! ### Splitting one region -/

def lowPart (r : Region) (c : ℕ) : Region := { r with size := c - r.base }
def highPart (r : Region) (c : ℕ) : Region := { r with base := c, size := r.stop - c }

variable {pre rest l L M R : List Region} {r : Region} {c d : ℕ} {t : MemblockType}

/-- Splitting a region keeps the order, the map and the total. -/
theorem good_split (h : Good (pre ++ r :: rest)) (h1 : r.base < c) (h2 : c < r.stop) :
    Good (pre ++ lowPart r c :: highPart r c :: rest) ∧
    SameMap (pre ++ r :: rest) (pre ++ lowPart r c :: highPart r c :: rest) := by
  obtain ⟨hpre, hrs, hpr⟩ := good_append.mp h
  obtain ⟨hr, hrl, hrest⟩ := good_cons.mp hrs
  have hlow : (lowPart r c).stop = c := by simp only [lowPart, stop] at *; omega
  have hhigh : (highPart r c).stop = r.stop := by simp only [highPart, stop] at *; omega
  have htop : Good (highPart r c :: rest) := good_cons.mpr ⟨hhigh ▸ hr, hhigh ▸ hrl, hrest⟩
  refine ⟨good_append.mpr ⟨hpre, good_cons.mpr ⟨by omega, ?_, htop⟩, ?_⟩, ?_, ?_⟩
  · intro s hs
    rcases mem_cons.mp hs with rfl | hs
    · exact hlow.le
    · have := hrl s hs; omega
  · intro s hs u hu
    have hsr := hpr s hs r (mem_cons_self ..)
    rcases mem_cons.mp hu with rfl | hu
    · exact hsr
    rcases mem_cons.mp hu with rfl | hu
    · exact hsr.trans h1.le
    · exact hpr s hs u (mem_cons_of_mem _ hu)
  · intro a
    have hlowAt : ∀ l, attrs (lowPart r c :: l) a = if r.base ≤ a ∧
      a < c then some r.attr else attrs l a := by
      intro l; rw [attrs_cons, hlow]; rfl
    have hhighAt : ∀ l, attrs (highPart r c :: l) a = if c ≤ a ∧
      a < r.stop then some r.attr else attrs l a := by
      intro l; rw [attrs_cons, hhigh]; rfl
    rw [attrs_append, attrs_append, hlowAt, hhighAt, attrs_cons]
    congr 1
    split_ifs <;> first | rfl | omega
  · simp only [sizes_append, sizes_cons, lowPart, highPart, stop] at *; omega

theorem proper_split (h : Proper (pre ++ r :: rest)) (h1 : r.base < c) (h2 : c < r.stop) :
    Proper (pre ++ lowPart r c :: highPart r c :: rest) := by
  rw [proper_append, proper_cons] at h
  refine proper_append.mpr ⟨h.1, proper_cons.mpr ⟨?_, proper_cons.mpr ⟨?_, h.2.2⟩⟩⟩
  · simp only [lowPart]; omega
  · simp only [highPart]; omega

/-- Neighbours that could be merged touch only at one of the two boundaries. -/
def CutMinimal (base stop : ℕ) (l : List Region) : Prop :=
  l.IsChain fun r s => Mergeable r s → s.base = base ∨ s.base = stop

/-- A split at a boundary makes no other mergeable neighbours. -/
theorem cutMinimal_split {base stop : ℕ}
    (h : CutMinimal base stop (pre ++ r :: rest)) (hc : c = base ∨ c = stop) (h2 : c < r.stop) :
    CutMinimal base stop (pre ++ lowPart r c :: highPart r c :: rest) := by
  have hstop : (highPart r c).stop = r.stop := by simp only [highPart, Region.stop] at *; omega
  rw [CutMinimal, isChain_append] at h ⊢
  obtain ⟨hpre, hrest, hjoin⟩ := h
  rw [isChain_cons] at hrest
  refine ⟨hpre, isChain_cons_cons.mpr ⟨fun _ => hc, isChain_cons.mpr ⟨?_, hrest.2⟩⟩, ?_⟩
  · rintro s hs ⟨h1, h2, h3⟩
    exact hrest.1 s hs ⟨hstop ▸ h1, h2, h3⟩
  intro x hx y hy
  cases hy
  exact hjoin x hx r (by simp)

theorem splitRegion_spec
    (ht : t.regions = pre ++ r :: rest) (hg : Good t.regions) (hT : TotalOk t) (h1 : r.base < c)
    (h2 : c < r.stop) (hcap : t.cnt < t.max) : splitRegion t pre.length r c = .ok { t with
      regions := pre ++ lowPart r c :: highPart r c :: rest
      totalSize := sizes (pre ++ lowPart r c :: highPart r c :: rest) % 2 ^ 64 } := by
  have hr : r.stop ≤ physAddrMax := hg.fits r (by simp [ht])
  have hsame := (good_split (ht ▸ hg) h1 h2).2.sizes
  have hd : psub c r.base = c - r.base := by simp only [psub, stop, physAddrMax] at *; omega
  have hd' : psub r.size (c - r.base) = r.stop - c := by
    simp only [psub, stop, physAddrMax] at *; omega
  unfold splitRegion
  rw [hd, hd', ht, set_cursor, insertRegion_cursor _ _ _ _ rfl,
    if_pos (by simp only [MemblockType.cnt, ht, length_append, length_cons] at *; omega)]
  simp only [TotalOk, ht] at hT
  rw [hsame]
  have hsum : padd (psub t.totalSize (c - r.base)) (c - r.base) = sizes (pre ++ r :: rest) % 2 ^ 64 := by
    simp only [padd, psub, stop, physAddrMax] at *; omega
  rw [hsum]; rfl

/-! ### The walk -/

/-- The number of regions that the address `c` cuts in two. -/
def cuts (c : ℕ) (l : List Region) : ℕ := l.countP fun r => r.base < c ∧ c < r.stop

theorem cuts_cons (c : ℕ) (r : Region) (l : List Region) :
    cuts c (r :: l) = cuts c l + if r.base < c ∧ c < r.stop then 1 else 0 := by
  simp [cuts, countP_cons]

theorem cuts_le_one (hl : Good l) (c : ℕ) : cuts c l ≤ 1 := by
  induction l with
  | nil => simp [cuts]
  | cons r l ih =>
    obtain ⟨-, hrl, hl'⟩ := good_cons.mp hl
    rw [cuts_cons]
    split
    · -- a second region cut by `c` would start above it
      have : cuts c l = 0 := by
        rw [cuts, countP_eq_zero]
        intro s hs
        have := hrl s hs
        simp; omega
      omega
    · exact ih hl'

/-- What the walk records: nothing, or the first and one past the last index inside. -/
def marks (L M : List Region) : ℕ × ℕ := if M = [] then (0, 0) else (L.length, L.length + M.length)

theorem marks_nil (L : List Region) : marks L [] = (0, 0) := rfl

/-- The region list `l`, cut at both boundaries into the parts below, inside and above. -/
structure Isolated (base stop : ℕ) (l L M R : List Region) : Prop where
  good : Good (L ++ M ++ R)
  proper : Proper (L ++ M ++ R)
  same : SameMap l (L ++ M ++ R)
  minimal : CutMinimal base stop (L ++ M ++ R)
  below : ∀ r ∈ L, r.stop ≤ base
  inside : ∀ r ∈ M, base ≤ r.base ∧ r.stop ≤ stop
  above : ∀ r ∈ R, stop ≤ r.base

variable {base stop k : ℕ}

/-- The type with its regions replaced and its total kept up. -/
def withRegions (t : MemblockType) (l : List Region) : MemblockType :=
  { t with regions := l, totalSize := sizes l % 2 ^ 64 }

theorem withRegions_self (hT : TotalOk t) : withRegions t t.regions = t :=
  totalOk_self rfl hT

/-- The state of the walk: `L` and `M` are behind it, below and inside the range, `rest` is ahead,
    and the splits that may still come leave at most `k` regions. -/
structure Walk (base stop k : ℕ) (rest L M : List Region) (t : MemblockType) : Prop where
  regions : t.regions = L ++ M ++ rest
  good : Good (L ++ M ++ rest)
  proper : Proper (L ++ M ++ rest)
  minimal : CutMinimal base stop (L ++ M ++ rest)
  total : TotalOk t
  below : ∀ r ∈ L, r.stop ≤ base
  inside : ∀ r ∈ M, base ≤ r.base ∧ r.stop ≤ stop
  room : t.cnt + cuts base rest + cuts stop rest ≤ k
  fits : k ≤ t.max

/-- A region that starts below `base` has nothing isolated before it. -/
theorem Walk.inside_eq_nil (h : Walk base stop k (r :: rest) L M t) (hr : r.base < base) : M = [] := by
  rcases M with _ | ⟨m, M⟩
  · rfl
  have h1 := (good_append.mp h.good).2.2 m (by simp) r (by simp)
  have h2 := (h.inside m (by simp)).1
  simp only [Region.stop] at h1
  omega

theorem Walk.skip (h : Walk base stop k (r :: rest) L [] t) (hr : r.stop ≤ base) :
    Walk base stop k rest (L ++ [r]) [] t := by
  refine ⟨by simpa using h.regions, by simpa using h.good, by simpa using h.proper,
    by simpa using h.minimal, h.total, ?_, by simp, ?_, h.fits⟩
  · exact forall_mem_append.mpr ⟨h.below, by simpa using hr⟩
  · have := h.room; rw [cuts_cons, cuts_cons] at this; omega

theorem Walk.record (h : Walk base stop k (r :: rest) L M t) (h1 : base ≤ r.base) (h2 : r.stop ≤ stop) :
    Walk base stop k rest L (M ++ [r]) t := by
  refine ⟨by simpa using h.regions, by simpa using h.good, by simpa using h.proper,
    by simpa using h.minimal, h.total, h.below, ?_, ?_, h.fits⟩
  · exact forall_mem_append.mpr ⟨h.inside, by simpa using ⟨h1, h2⟩⟩
  · have := h.room; rw [cuts_cons, cuts_cons] at this; omega

theorem cuts_lowPart (l : List Region) (hc : r.base < c) (hcd : d ≤ r.base ∨ c ≤ d) :
    cuts d (lowPart r c :: l) = cuts d l := by
  rw [cuts_cons, if_neg, add_zero]
  simp only [lowPart, stop]; omega

theorem cuts_highPart (l : List Region) (hc : c < r.stop) (hdc : c < d) :
    cuts d (highPart r c :: l) = cuts d l + if d < r.stop then 1 else 0 := by
  rw [cuts_cons]
  congr 2
  apply propext
  simp only [highPart, stop] at *; omega

theorem cuts_highPart_self (r : Region) (c : ℕ) (l : List Region) :
    ∀ d ≤ c, cuts d (highPart r c :: l) = cuts d l := by
  intro d hd
  rw [cuts_cons, if_neg (by simp only [highPart]; omega), add_zero]

/-- After a split from below the walk stands on the top half. -/
theorem Walk.splitLow (h : Walk base stop k (r :: rest) L [] t) (hb : base < stop) (h1 : r.base < base)
    (h2 : base < r.stop) : Walk base stop k (highPart r base :: rest) (L ++ [lowPart r base]) []
    (withRegions t (L ++ lowPart r base :: highPart r base :: rest)) := by
  have hg : Good (L ++ r :: rest) := by simpa using h.good
  have hp : Proper (L ++ r :: rest) := by simpa using h.proper
  have hm : CutMinimal base stop (L ++ r :: rest) := by simpa using h.minimal
  refine ⟨by simp [withRegions], by simpa using (good_split hg h1 h2).1,
    by simpa using proper_split hp h1 h2, by simpa using cutMinimal_split hm (.inl rfl) h2, rfl, ?_,
    by simp, ?_, h.fits⟩
  · refine forall_mem_append.mpr ⟨h.below, ?_⟩
    simp only [mem_singleton, forall_eq, lowPart, Region.stop]; omega
  have := h.room
  rw [cuts_cons, cuts_cons, if_pos ⟨h1, h2⟩] at this
  rw [cuts_highPart_self _ _ _ base le_rfl, cuts_highPart _ h2 hb]
  simp only [MemblockType.cnt, withRegions, h.regions, length_append, length_cons, length_nil] at *
  split_ifs at * <;> omega

/-- After a split from above the walk stands on the bottom half, still to be recorded. -/
theorem Walk.splitHigh (h : Walk base stop k (r :: rest) L M t) (hb : base ≤ r.base) (h1 : r.base < stop)
    (h2 : stop < r.stop) : Walk base stop k (lowPart r stop :: highPart r stop :: rest) L M
    (withRegions t (L ++ M ++ lowPart r stop :: highPart r stop :: rest)) := by
  refine ⟨rfl, (good_split h.good h1 h2).1, proper_split h.proper h1 h2,
    cutMinimal_split h.minimal (.inr rfl) h2, rfl, h.below, h.inside, ?_, h.fits⟩
  have := h.room
  rw [cuts_cons, cuts_cons, if_neg (by omega), if_pos ⟨h1, h2⟩] at this
  rw [cuts_lowPart _ h1 (.inl hb), cuts_lowPart _ h1 (.inr le_rfl),
    cuts_highPart_self _ _ _ base (by omega), cuts_highPart_self _ _ _ stop le_rfl]
  simp only [MemblockType.cnt, withRegions, h.regions, length_append, length_cons] at *
  omega

/-- The steps the walk may still take: one a region, one more for a split from below and two more for a
    split from above. -/
def steps (base stop : ℕ) (l : List Region) : ℕ := l.length + cuts base l + 2 * cuts stop l

/-- The walk from a state on, as the cut of the regions it ends with. -/
def WalkEnds (base stop k n : ℕ) (L M : List Region) (t : MemblockType) : Prop :=
  ∃ L' M' R', isolateLoop base stop n (L ++ M).length (marks L M).1 (marks L M).2 t =
      .ok ((marks L' M').1, (marks L' M').2, withRegions t (L' ++ M' ++ R')) ∧
    Isolated base stop t.regions L' M' R' ∧ (L' ++ M' ++ R').length ≤ k

/-- A walk whose regions were split by this step ends as the walk after the step does. -/
theorem WalkEnds.of_split {L0 M0 : List Region} {m n : ℕ}
    (h : WalkEnds base stop k n L0 M0 (withRegions t l)) (hl : SameMap t.regions l)
    (heq : isolateLoop base stop m (L ++ M).length (marks L M).1 (marks L M).2 t =
      isolateLoop base stop n (L0 ++ M0).length (marks L0 M0).1 (marks L0 M0).2 (withRegions t l)) :
    WalkEnds base stop k m L M t := by
  obtain ⟨L', M', R', h1, h2, h3⟩ := h
  exact ⟨L', M', R', heq.trans h1, { h2 with same := hl.trans h2.same }, h3⟩

/-- The walk ends with the regions cut at both boundaries and the part inside recorded. -/
theorem walk_ends (hb : base < stop) : ∀ (n : ℕ) (rest L M : List Region) (t : MemblockType),
    Walk base stop k rest L M t → steps base stop rest < n → WalkEnds base stop k n L M t := by
  intro n
  induction n with
  | zero => intro rest L M t _ hn; omega
  | succ n ih =>
    intro rest L M t h hn
    have hstay : ∀ R, (∀ r ∈ R, stop ≤ r.base) → R = rest →
      (Isolated base stop t.regions L M R ∧ (L ++ M ++ R).length ≤ k) ∧
      withRegions t (L ++ M ++ R) = t := by
      rintro R hR rfl
      refine ⟨⟨{ h with same := h.regions ▸ SameMap.refl _, above := hR }, ?_⟩, ?_⟩
      · have := h.room; rw [MemblockType.cnt, h.regions] at this; omega
      · rw [← h.regions, withRegions_self h.total]
    rcases rest with _ | ⟨r, rest⟩
    · have hend : t.regions[(L ++ M).length]? = none := by
        rw [h.regions, append_nil, getElem?_cursor_end]
      obtain ⟨h1, h2⟩ := hstay [] (by simp) rfl
      refine ⟨L, M, [], ?_, h1⟩
      rw [isolateLoop, hend, h2]
    have hget : t.regions[(L ++ M).length]? = some r := by rw [h.regions, getElem?_cursor]
    have hr : r.stop ≤ physAddrMax := h.good.fits r (by simp)
    have hpr : 0 < r.size := h.proper r (by simp)
    have hrs : r.base + r.size = r.stop := rfl
    have hrl := (good_cons.mp (good_append.mp h.good).2.1).2.1
    rw [steps, cuts_cons, cuts_cons, length_cons] at hn
    by_cases h1 : stop ≤ r.base
    · obtain ⟨h1', h2⟩ := hstay (r :: rest) (forall_mem_cons.mpr ⟨h1, fun s hs => by
        have := hrl s hs; omega⟩) rfl
      refine ⟨L, M, r :: rest, ?_, h1'⟩
      simp only [isolateLoop, hget, ge_iff_le, if_pos h1, h2]
    by_cases h2 : r.stop ≤ base
    · obtain rfl := h.inside_eq_nil (by omega)
      rw [append_nil] at hget
      have := ih rest _ _ t (h.skip h2) (by rw [steps]; omega)
      simpa only [WalkEnds, isolateLoop, hget, ge_iff_le, if_neg h1, rend_eq hr, if_pos h2,
        append_nil, length_append, length_singleton, marks_nil] using this
    by_cases h3 : r.base < base
    · -- intersects from below: the bottom half joins the regions below
      obtain rfl := h.inside_eq_nil h3
      rw [append_nil] at hget
      have hw := h.splitLow hb h3 (by omega)
      have hreg : t.regions = L ++ r :: rest := by simpa using h.regions
      have hsplit := splitRegion_spec hreg (by simpa [hreg] using h.good) h.total h3 (by omega) (by
          have hroom := h.room
          have := h.fits
          rw [cuts_cons, if_pos (by omega)] at hroom
          omega)
      refine (ih _ _ _ _ hw ?_).of_split (hreg ▸ (good_split (by simpa using h.good) h3 (by omega)).2) ?_
      · rw [steps, cuts_highPart_self _ _ _ base le_rfl, cuts_highPart _ (by omega) hb, length_cons]
        split_ifs at * <;> omega
      simp only [isolateLoop, hget, ge_iff_le, if_neg h1, rend_eq hr, if_neg h2, if_pos h3,
        append_nil, length_append, length_singleton, marks_nil]
      rw [hsplit]; rfl
    by_cases h4 : stop < r.stop
    · -- intersects from above: the bottom half is looked at next
      have hw := h.splitHigh (by omega) (by omega) h4
      have hsplit := splitRegion_spec h.regions (h.regions ▸ h.good) h.total (by omega) h4 (by
          have hroom := h.room
          have := h.fits
          rw [cuts_cons, cuts_cons, if_neg (by omega), if_pos (by omega)] at hroom
          omega)
      refine (ih _ _ _ _ hw ?_).of_split (h.regions ▸ (good_split h.good (by omega) h4).2) ?_
      · rw [steps, cuts_lowPart _ (by omega) (.inl (by omega)),
          cuts_lowPart _ (by omega) (.inr le_rfl), cuts_highPart_self _ _ _ base (by omega),
          cuts_highPart_self _ _ _ stop le_rfl, length_cons, length_cons]
        rw [if_neg (by omega), if_pos (by omega)] at hn
        omega
      · simp only [isolateLoop, hget, ge_iff_le, if_neg h1, rend_eq hr, if_neg h2, if_neg h3,
          gt_iff_lt, if_pos h4]
        rw [hsplit]; rfl
    rw [length_append] at hget
    have hw := h.record (by omega) (by omega)
    have := ih rest _ _ t hw (by rw [steps]; omega)
    have hmarks : marks L (M ++ [r]) =
      (if (marks L M).2 = 0 then (L ++ M).length else (marks L M).1, (L ++ M).length + 1) := by
      rcases M with _ | ⟨m, M⟩
      · simp [marks]
      · simp [marks]; omega
    simpa only [WalkEnds, isolateLoop, hget, ge_iff_le, if_neg h1, rend_eq hr, if_neg h2, if_neg h3,
      gt_iff_lt, if_neg h4, hmarks, ← append_assoc, length_append, length_singleton] using this

/-! ### The loops over the isolated regions -/

/-- Deleting the isolated regions leaves the parts below and above, or the dummy entry. -/
theorem removeRegions_spec (maxNumNodes : ℤ) : ∀ (M : List Region)
    (t : MemblockType), t.regions = L ++ M ++ R → Good t.regions → TotalOk t → (M = [] → L ++ R ≠ []) →
    removeRegions maxNumNodes L.length (L.length + M.length) t = if L ++ R = [] then { t with
        regions := [⟨0, 0, maxNumNodes, memblockNone⟩], totalSize := 0 }
      else withRegions t (L ++ R) := by
  intro M
  induction M using reverseRecOn with
  | nil =>
    intro t ht _ hT hne
    have hreg : t.regions = L ++ R := by simpa using ht
    rw [if_neg (hne rfl), ← hreg, withRegions_self hT]
    rcases L with _ | ⟨x, L⟩ <;> simp [removeRegions]
  | append_singleton M m ih =>
    intro t ht hg hT _
    have hreg : t.regions = (L ++ M) ++ m :: R := by simpa using ht
    have hlen : L.length + (M ++ [m]).length = (L.length + M.length) + 1 := by simp; omega
    have hget : t.regions[L.length + M.length]? = some m := by
      rw [hreg, ← length_append, getElem?_cursor]
    have herase : t.regions.eraseIdx (L.length + M.length) = L ++ M ++ R := by
      rw [hreg, ← length_append, eraseIdx_cursor]
    have htot : psub t.totalSize m.size = sizes (L ++ M ++ R) % 2 ^ 64 := by
      have := sizes_le hg
      rw [hT]
      simp only [hreg, sizes_append, sizes_cons, psub, physAddrMax] at *
      omega
    rw [hlen, removeRegions, if_pos (by omega), removeRegion, hget, herase]
    simp only [Option.map_some, Option.getD_some, htot]
    by_cases hE : L ++ M ++ R = []
    · -- the last region goes: the dummy entry takes its place
      obtain ⟨rfl, rfl, rfl⟩ : L = [] ∧ M = [] ∧ R = [] := by simpa using hE
      simp [removeRegions]
    rw [if_neg hE]
    refine ih (withRegions t (L ++ M ++ R)) rfl ?_ rfl ?_
    · rw [hreg] at hg
      have := good_append.mp hg
      refine good_append.mpr ⟨this.1, (good_cons.mp this.2.1).2.2, fun r hr s hs => ?_⟩
      exact this.2.2 r hr s (mem_cons_of_mem _ hs)
    · rintro rfl
      simpa using hE

theorem updateRegions_spec (f : Region → Region) (hf : ∀ r, (f r).size = r.size) :
    ∀ (M L : List Region) (t : MemblockType), t.regions = L ++ M ++ R → TotalOk t →
    updateRegions f L.length M.length t = withRegions t (L ++ M.map f ++ R) := by
  intro M
  induction M with
  | nil =>
    intro L t ht hT
    have hreg : t.regions = L ++ R := by simpa using ht
    simp [updateRegions, ← hreg, withRegions_self hT]
  | cons m M ih =>
    intro L t ht hT
    have hreg : t.regions = L ++ m :: (M ++ R) := by simpa using ht
    have hmod : t.regions.modify L.length f = (L ++ [f m]) ++ M ++ R := by
      rw [hreg, modify_cursor]; simp
    rw [length_cons, updateRegions, hmod]
    have := ih (L ++ [f m]) { t with regions := (L ++ [f m]) ++ M ++ R } rfl (by
      simp only [TotalOk, hreg, sizes_append, sizes_cons, hf] at *
      rw [hT]; congr 1; simp only [sizes_nil]; omega)
    simpa [withRegions] using this

end LinuxNote.Memblock
