import LinuxNote.Memblock.Region

/-! The walk of `memblock_add_range` over the regions of a type. It is made twice: once with `insert`
    false, to count the pieces of the new area that no region covers yet, and once with `insert` true, to
    insert them. Inserting moves the rest of the array up under the walk. Both walks are described by one
    function on region lists, `fill`, which puts the missing pieces of `[base, stop)` between the
    regions, and by its number of pieces `gaps`. -/

namespace LinuxNote.Memblock
open Intervals Cursor List Option Region

/-- The part of `memblock_add_range` after the loop: insert the remaining portion. -/
def addTail (insert : Bool) (stop : ℕ) (nid : ℤ) (flags : Flags) (idx base nrNew : ℕ)
    (t : MemblockType) : Except Fault (ℕ × MemblockType) :=
  if base < stop then
    if insert then do
      let t ← insertRegion t idx base (psub stop base) nid flags
      .ok (nrNew + 1, t)
    else .ok (nrNew + 1, t)
  else .ok (nrNew, t)

/-- The `for_each_memblock_type` loop of `memblock_add_range`, from index `idx` on. -/
def addLoop (insert : Bool) (stop : ℕ) (nid : ℤ) (flags : Flags) :
    ℕ → ℕ → ℕ → ℕ → MemblockType → Except Fault (ℕ × MemblockType)
  | 0, _, _, _, _ => .error .fuel
  | n + 1, idx, base, nrNew, t =>
    match t.regions[idx]? with
    | none => addTail insert stop nid flags idx base nrNew t
    | some rgn =>
      if rgn.base ≥ stop then addTail insert stop nid flags idx base nrNew t
      else if rgn.rend ≤ base then addLoop insert stop nid flags n (idx + 1) base nrNew t
      else if rgn.base > base then
        -- `rgn` separates the lower part of the new area
        if insert then do
          let t ← insertRegion t idx base (psub rgn.base base) nid flags
          addLoop insert stop nid flags n (idx + 1 + 1) (min rgn.rend stop) (nrNew + 1) t
        else addLoop insert stop nid flags n (idx + 1) (min rgn.rend stop) (nrNew + 1) t
      else addLoop insert stop nid flags n (idx + 1) (min rgn.rend stop) nrNew t

/-- One round of `memblock_add_range`: the number of pieces, and the type after the round. -/
def addPass (insert : Bool) (t : MemblockType) (base stop : ℕ) (nid : ℤ) (flags : Flags) :
    Except Fault (ℕ × MemblockType) :=
  addLoop insert stop nid flags (t.cnt + 1) 0 base 0 t

section
variable (nid : ℤ) (flags : Flags) (stop : ℕ)

/-- The piece `[base, c)` of the new area, when it is not empty. -/
def piece (base c : ℕ) : List Region :=
  if base < c then [⟨base, c - base, nid, flags⟩] else []

/-- The regions with the uncovered pieces of `[base, stop)` put between them. -/
def fill : ℕ → List Region → List Region
  | base, [] => piece nid flags base stop
  | base, r :: l =>
    if stop ≤ r.base then piece nid flags base stop ++ r :: l
    else if r.stop ≤ base then r :: fill base l
    else piece nid flags base r.base ++ r :: fill (min r.stop stop) l

/-- The number of uncovered pieces of `[base, stop)`. -/
def gaps : ℕ → List Region → ℕ
  | base, [] => if base < stop then 1 else 0
  | base, r :: l =>
    if stop ≤ r.base then (if base < stop then 1 else 0)
    else if r.stop ≤ base then gaps base l
    else (if base < r.base then 1 else 0) + gaps (min r.stop stop) l

end

variable {nid : ℤ} {flags : Flags} {stop : ℕ}

variable {base c : ℕ} {s : Region} {l pre rest : List Region} {t : MemblockType}

theorem piece_bounds (h : s ∈ piece nid flags base c) : base ≤ s.base ∧ 0 < s.size ∧ s.stop ≤ c := by
  unfold piece at h
  split at h <;> simp at h
  subst h
  simp only [stop]
  omega

theorem length_piece (base c : ℕ) : (piece nid flags base c).length = if base < c then 1 else 0 := by
  unfold piece; split <;> rfl

theorem attrs_piece (base c a : ℕ) : attrs (piece nid flags base c) a = if base ≤ a ∧ a < c then some
    (nid, flags) else none := by
  unfold piece
  split
  · simp only [attrs, attrAt_cons, attrAt_nil, stop, attr]
    congr 2
    apply propext; omega
  · rw [if_neg (by omega)]; rfl

theorem good_piece (hc : c ≤ physAddrMax) : Good (piece nid flags base c) := by
  unfold piece
  split
  · refine good_cons.mpr ⟨?_, by simp, good_nil⟩
    simp only [stop]; omega
  · exact good_nil

theorem length_fill (base : ℕ) (l : List Region) :
    (fill nid flags stop base l).length = l.length + gaps stop base l := by
  induction l generalizing base with
  | nil => simp [fill, gaps, length_piece]
  | cons r l ih =>
    unfold fill gaps
    split
    · simp only [length_append, length_cons, length_piece]; omega
    split
    · simp only [length_cons, ih]; omega
    · simp only [length_append, length_cons, length_piece, ih]; omega

/-- A region after the walk was there before it, or is a piece of the new area. -/
theorem mem_fill (hs : s ∈ fill nid flags stop base l) :
    s ∈ l ∨ base ≤ s.base ∧ 0 < s.size ∧ s.stop ≤ stop := by
  induction l generalizing base with
  | nil => exact .inr (piece_bounds hs)
  | cons r l ih =>
    unfold fill at hs
    split at hs
    · rcases mem_append.mp hs with h | h
      · exact .inr (piece_bounds h)
      · exact .inl h
    split at hs
    · rcases mem_cons.mp hs with rfl | h
      · simp
      · exact (ih h).imp_left (mem_cons_of_mem _)
    rcases mem_append.mp hs with h | h
    · have := piece_bounds h
      exact .inr (by omega)
    rcases mem_cons.mp h with rfl | h
    · simp
    refine (ih h).imp (mem_cons_of_mem _) ?_
    simp only [Region.stop] at *
    omega

/-- Filling keeps the regions in order. -/
theorem good_fill (hl : Good l) (hstop : stop ≤ physAddrMax) : Good (fill nid flags stop base l) := by
  induction l generalizing base with
  | nil => exact good_piece hstop
  | cons r l ih =>
    obtain ⟨hr, hrl, hl'⟩ := good_cons.mp hl
    unfold fill
    split
    · refine good_append.mpr ⟨good_piece hstop, hl, fun s hs u hu => ?_⟩
      have := (piece_bounds hs).2.2
      rcases mem_cons.mp hu with rfl | hu
      · omega
      have := hrl u hu
      have : r.base ≤ r.stop := Nat.le_add_right ..
      omega
    split
    · refine good_cons.mpr ⟨hr, fun s hs => ?_, ih hl'⟩
      rcases mem_fill hs with h | h
      · exact hrl s h
      · omega
    have hrs : r.base ≤ r.stop := Nat.le_add_right ..
    have hcons : ∀ s ∈ fill nid flags stop (min r.stop stop) l, r.stop ≤ s.base := by
      intro s hs
      rcases mem_fill hs with h | h
      · exact hrl s h
      · simp only [Region.stop] at *; omega
    refine good_append.mpr ⟨good_piece (by omega), good_cons.mpr ⟨hr, hcons, ih hl'⟩, ?_⟩
    intro s hs u hu
    have := (piece_bounds hs).2.2
    rcases mem_cons.mp hu with rfl | hu
    · exact this
    · exact (this.trans hrs).trans (hcons u hu)

theorem proper_fill (hl : Proper l) : Proper (fill nid flags stop base l) := by
  intro s hs
  rcases mem_fill hs with h | h
  · exact hl s h
  · exact h.2.1

/-- The map after filling: covered addresses keep their attributes, the uncovered ones of `[base, stop)`
    get the new ones. -/
theorem attrs_fill (hl : Good l) (a : ℕ) : attrs (fill nid flags stop base l) a =
      (attrs l a).or (if base ≤ a ∧ a < stop then some (nid, flags) else none) := by
  induction l generalizing base with
  | nil => simp [fill, attrs_piece]
  | cons r l ih =>
    obtain ⟨-, hrl, hl'⟩ := good_cons.mp hl
    have hrs : r.base ≤ r.stop := Nat.le_add_right ..
    -- an address below `r` is in no later region
    have hnone : a < r.base → attrs (r :: l) a = none := fun h =>
      attrAt_eq_none_of_lt_lo fun s hs => by
        rcases mem_cons.mp hs with rfl | hs
        · exact h
        · exact h.trans_le (hrs.trans (hrl s hs))
    unfold fill
    split
    · rw [attrs_append, attrs_piece]
      by_cases ha : base ≤ a ∧ a < stop
      · rw [if_pos ha, hnone (by omega)]; rfl
      · rw [if_neg ha, none_or, or_none]
    split
    · rw [attrs_cons, attrs_cons]
      split
      · rfl
      · exact ih hl'
    rw [attrs_append, attrs_piece]
    by_cases hp : base ≤ a ∧ a < r.base
    · rw [if_pos hp, hnone hp.2, if_pos (by omega)]; rfl
    rw [if_neg hp, none_or, attrs_cons, attrs_cons]
    split
    · rfl
    rw [ih hl']
    congr 2
    apply propext; omega

/-- No uncovered piece means that filling changes nothing. -/
theorem fill_eq_self (h : gaps stop base l = 0) : fill nid flags stop base l = l := by
  induction l generalizing base with
  | nil =>
    have : ¬base < stop := by simpa [gaps] using h
    simp [fill, piece, this]
  | cons r l ih =>
    unfold gaps at h
    unfold fill
    split
    · rename_i hr
      rw [if_pos hr] at h
      have : ¬base < stop := by simpa using h
      simp [piece, this]
    rename_i hr
    rw [if_neg hr] at h
    split
    · rename_i hb
      rw [if_pos hb] at h
      rw [ih h]
    rename_i hb
    rw [if_neg hb] at h
    have : ¬base < r.base := by intro hlt; simp [hlt] at h
    rw [ih (by omega)]
    simp [piece, this]

theorem gaps_le_of_stop_le (l : List Region) (h : stop ≤ base) : gaps stop base l = 0 := by
  induction l generalizing base with
  | nil => simp [gaps]; omega
  | cons r l ih =>
    unfold gaps
    split
    · simp; omega
    split
    · exact ih h
    · rw [ih (by omega), if_neg (by omega)]

/-- An area that no region overlaps is one piece. -/
theorem gaps_le_one (h : ∀ r ∈ l, r.stop ≤ base ∨ stop ≤ r.base) : gaps stop base l ≤ 1 := by
  induction l with
  | nil => simp only [gaps]; split <;> omega
  | cons r l ih =>
    unfold gaps
    split
    · split <;> omega
    rw [if_pos ((h r (mem_cons_self ..)).resolve_right (by assumption))]
    exact ih fun s hs => h s (mem_cons_of_mem _ hs)

/-- There is at most one piece before each region and one after the last. -/
theorem gaps_le (base : ℕ) (l : List Region) : gaps stop base l ≤ l.length + 1 := by
  induction l generalizing base with
  | nil => simp only [gaps]; split <;> simp
  | cons r l ih =>
    have h1 := ih base
    have h2 := ih (min r.stop stop)
    unfold gaps
    simp only [length_cons]
    split_ifs <;> omega

/-! ### The two rounds compute `fill` -/

/-- The total is the sum of the sizes, up to what `phys_addr_t` holds. -/
def TotalOk (t : MemblockType) : Prop := t.totalSize = sizes t.regions % 2 ^ 64

theorem totalOk_insert (r : Region) (h : t.regions = pre ++ rest) (ht : TotalOk t) :
    TotalOk { t with regions := pre ++ r :: rest, totalSize := padd t.totalSize r.size } := by
  simp only [TotalOk, h, sizes_append, sizes_cons, padd] at *
  omega

theorem insertRegion_cursor (base size : ℕ) (nid : ℤ) (flags : Flags) (h : t.regions = pre ++ rest) :
    insertRegion t pre.length base size nid flags = if t.cnt < t.max then .ok { t with
        regions := pre ++ ⟨base, size, nid, flags⟩ :: rest
        totalSize := padd t.totalSize size }
      else .error .bugInsert := by
  unfold insertRegion
  by_cases hc : t.cnt < t.max
  · rw [if_neg (by omega), if_pos hc, h, insertIdx_cursor]
  · rw [if_pos (by omega), if_neg hc]

/-- The counting round: nothing moves and the pieces are counted. -/
theorem addLoop_count : ∀ (rest pre : List Region) (n base nrNew : ℕ) (t : MemblockType),
    t.regions = pre ++ rest → Good rest → rest.length < n →
    addLoop false stop nid flags n pre.length base nrNew t = .ok (nrNew + gaps stop base rest, t)
  | [], pre, n + 1, base, nrNew, t, ht, _, _ => by
    rw [addLoop, ht, append_nil, getElem?_cursor_end]
    simp only [addTail, gaps]
    split <;> simp
  | r :: rest, pre, n + 1, base, nrNew, t, ht, hg, hn => by
    obtain ⟨hr, -, hg'⟩ := good_cons.mp hg
    have ih := fun base nrNew => addLoop_count rest (pre ++ [r]) n base nrNew t
      (by simpa using ht) hg' (by simpa using hn)
    simp only [length_append, length_singleton] at ih
    rw [addLoop, ht, getElem?_cursor]
    simp only [rend_eq hr, Bool.false_eq_true, if_false, ge_iff_le, gt_iff_lt, gaps]
    split
    · simp only [addTail]; split <;> simp
    split
    · exact ih _ _
    split
    · rw [ih]; congr 2; omega
    · rw [ih]; congr 2; omega

/-- A piece put in at the walk's index, with the capacity check of `memblock_insert_region`. -/
theorem insertRegion_piece
    (ht : t.regions = pre ++ rest) (hT : TotalOk t) (hlt : base < c) (hc : c ≤ physAddrMax) :
    insertRegion t pre.length base (psub c base) nid flags = if t.cnt < t.max then .ok { t with
        regions := pre ++ ⟨base, c - base, nid, flags⟩ :: rest
        totalSize := sizes (pre ++ ⟨base, c - base, nid, flags⟩ :: rest) % 2 ^ 64 }
      else .error .bugInsert := by
  have hsub : psub c base = c - base := by simp only [psub, physAddrMax] at *; omega
  have hsum := totalOk_insert ⟨base, c - base, nid, flags⟩ ht hT
  rw [insertRegion_cursor _ _ _ _ ht, hsub]
  simp only [TotalOk] at hsum
  rw [hsum]

/-- A type whose regions and total are what they are. -/
theorem totalOk_self (ht : t.regions = l) (hT : TotalOk t) :
    { t with regions := l, totalSize := sizes l % 2 ^ 64 } = t := by
  subst ht
  rw [← hT]

/-- The remaining portion goes in at the walk's index. -/
theorem addTail_insert {nrNew : ℕ}
    (ht : t.regions = pre ++ rest) (hT : TotalOk t) (hs : stop ≤ physAddrMax) (hcap : t.cnt ≤ t.max) :
    addTail true stop nid flags pre.length base nrNew t =
    if (pre ++ (piece nid flags base stop ++ rest)).length ≤ t.max then
        .ok (nrNew + (if base < stop then 1 else 0), { t with
          regions := pre ++ (piece nid flags base stop ++ rest)
          totalSize := sizes (pre ++ (piece nid flags base stop ++ rest)) % 2 ^ 64 })
      else .error .bugInsert := by
  have hlen : t.cnt = pre.length + rest.length := by simp [MemblockType.cnt, ht]
  by_cases hb : base < stop
  · simp only [addTail, piece, if_pos hb, if_true, singleton_append]
    rw [insertRegion_piece ht hT hb hs]
    by_cases hc : t.cnt < t.max
    · rw [if_pos hc, if_pos (by simp; omega)]; rfl
    · rw [if_neg hc, if_neg (by simp; omega)]; rfl
  · simp only [addTail, piece, if_neg hb, nil_append, add_zero]
    rw [if_pos (by simp; omega), totalOk_self ht hT]

/-- The inserting round: it runs out of entries and stops at the `BUG_ON`, or it fills. -/
theorem addLoop_insert : ∀ (rest pre : List Region) (n base nrNew : ℕ) (t : MemblockType),
    t.regions = pre ++ rest → Good rest → rest.length < n → stop ≤ physAddrMax → TotalOk t →
    t.cnt ≤ t.max → addLoop true stop nid flags n pre.length base nrNew t =
    if (pre ++ fill nid flags stop base rest).length ≤ t.max then
        .ok (nrNew + gaps stop base rest, { t with
          regions := pre ++ fill nid flags stop base rest
          totalSize := sizes (pre ++ fill nid flags stop base rest) % 2 ^ 64 })
      else .error .bugInsert
  | [], pre, n + 1, base, nrNew, t, ht, _, _, hs, hT, hcap => by
    rw [addLoop, ht, append_nil, getElem?_cursor_end]
    have h : addTail true stop nid flags pre.length base nrNew t = _ := addTail_insert ht hT hs hcap
    simp only [append_nil] at h
    exact h
  | r :: rest, pre, n + 1, base, nrNew, t, ht, hg, hn, hs, hT, hcap => by
    obtain ⟨hr, -, hg'⟩ := good_cons.mp hg
    have hlen : t.cnt = pre.length + (rest.length + 1) := by simp [MemblockType.cnt, ht]
    rw [addLoop, ht, getElem?_cursor]
    simp only [rend_eq hr, if_true, ge_iff_le, gt_iff_lt, gaps, fill]
    split
    · exact addTail_insert ht hT hs hcap
    -- the walk moves past `r` and nothing is inserted
    have hskip : ∀ base nrNew, addLoop true stop nid flags n (pre.length + 1) base nrNew t =
          if (pre ++ r :: fill nid flags stop base rest).length ≤ t.max then
            .ok (nrNew + gaps stop base rest, { t with
              regions := pre ++ r :: fill nid flags stop base rest
              totalSize := sizes (pre ++ r :: fill nid flags stop base rest) % 2 ^ 64 })
          else .error .bugInsert := by
      intro base nrNew
      have := addLoop_insert rest (pre ++ [r]) n base nrNew t (by simpa using ht) hg'
        (by simpa using hn) hs hT hcap
      simpa only [append_assoc, singleton_append, length_append, length_singleton] using this
    split
    · exact hskip _ _
    by_cases hb : base < r.base
    · -- the piece below `r` goes in first, and `r` moves up by one
      rw [if_pos hb, if_pos hb, insertRegion_piece ht hT hb (by simp only [Region.stop] at hr; omega)]
      simp only [piece, if_pos hb, singleton_append]
      by_cases hc : t.cnt < t.max
      · rw [if_pos hc]
        have := addLoop_insert rest (pre ++ [⟨base, r.base - base, nid, flags⟩, r]) n
          (min r.stop stop) (nrNew + 1) { t with
            regions := pre ++ ⟨base, r.base - base, nid, flags⟩ :: r :: rest
            totalSize := sizes (pre ++ ⟨base, r.base - base, nid, flags⟩ :: r :: rest) % 2 ^ 64 }
          (by simp) hg' (by simpa using hn) hs rfl (by
            simp only [MemblockType.cnt, length_append, length_cons] at *; omega)
        simp only [append_assoc, cons_append, nil_append, length_append, length_cons, length_nil] at this
        simp only [bind, Except.bind, length_append, length_cons]
        rw [this]
        simp only [add_assoc]
      rw [if_neg hc, if_neg (by
        simp only [length_append, length_cons, length_fill]; omega)]
      rfl
    · rw [if_neg hb, if_neg hb, hskip]
      simp only [piece, if_neg hb, nil_append, zero_add]

end LinuxNote.Memblock
