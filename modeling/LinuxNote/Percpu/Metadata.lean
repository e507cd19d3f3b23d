import LinuxNote.Percpu.Blocks

/-! The metadata of a whole chunk: an area covers a part of its first and of its last block and all of
    the blocks between, and after the update of the hints every block is exact again. -/

namespace LinuxNote.Percpu
open Function Nat

variable {map : ℕ → Bool} {c : Chunk} {x n s e sOff eOff i j : ℕ}

theorem bitmapSet_iff {y m k : ℕ} : bitmapSet map y m k = false ↔ map k = false ∧
    ¬(y ≤ k ∧ k < y + m) := by
  rw [bitmapSet]
  by_cases hin : y ≤ k ∧ k < y + m
  · simp [hin]
  · simp [hin]

theorem bitmapClear_iff {y m k : ℕ} : bitmapClear map y m k = false ↔ map k = false ∨ y ≤ k ∧
    k < y + m := by
  rw [bitmapClear]
  by_cases hin : y ≤ k ∧ k < y + m
  · simp [hin]
  · simp [hin]

section
variable {md : ℕ → BlockMd} {stop : ℕ} {sBlock eBlock : BlockMd} {f : BlockMd → BlockMd}

theorem updateBlocks_start : updateBlocks md s e stop sBlock eBlock f s = sBlock := by
  rw [updateBlocks]
  by_cases h : s = e
  · rw [if_neg (not_not.mpr h), update_self]
  · rw [if_pos h, updateBetween, if_neg (by omega), update_of_ne h, update_self]

theorem updateBlocks_end (h : s ≠ e) :
    updateBlocks md s e stop sBlock eBlock f e = if s + 1 ≤ e ∧ e < stop then f eBlock else eBlock := by
  rw [updateBlocks, if_pos h, updateBetween, update_self]

theorem updateBlocks_between (hs : s < i) (hi : i < stop) (he : i ≠ e) (hse : s ≠ e) :
    updateBlocks md s e stop sBlock eBlock f i = f (md i) := by
  rw [updateBlocks, if_pos hse, updateBetween, if_pos ⟨hs, hi⟩, update_of_ne he, update_of_ne hs.ne']

theorem updateBlocks_outside (hs : i ≠ s) (he : i ≠ e) (hi : ¬(s + 1 ≤ i ∧ i < stop)) :
    updateBlocks md s e stop sBlock eBlock f i = md i := by
  rw [updateBlocks]
  by_cases h : s = e
  · rw [if_neg (not_not.mpr h), update_of_ne hs]
  · rw [if_pos h, updateBetween, if_neg hi, update_of_ne he, update_of_ne hs]

end

section
variable [Config]

theorem blockBits_pos : 0 < blockBits := Nat.two_pow_pos _

/-- The metadata of every block of the chunk is exact. -/
def ExactBlocks (c : Chunk) : Prop := ∀ i < c.nrBlocks, Exact (indexAllocMap c i) (c.mdBlocks i)

/-! ### Blocks of an area -/

/-- The bits `[x, x + n)` start at `sOff` in block `s` and end at `eOff` in block `e`. -/
structure Covers (x n s e sOff eOff : ℕ) : Prop where
  first : x = s * blockBits + sOff
  last : x + n = e * blockBits + eOff
  sOff_lt : sOff < blockBits
  eOff_pos : 0 < eOff
  eOff_le : eOff ≤ blockBits
  le : s ≤ e
  lt : s = e → sOff < eOff

theorem covers (hn : 0 < n) :
    Covers x n (offToBlockIndex x) (offToBlockIndex (x + n - 1)) (offToBlockOff x)
      (offToBlockOff (x + n - 1) + 1) := by
  have hx := div_add_mod' x blockBits
  have hlast := div_add_mod' (x + n - 1) blockBits
  have hle : x / blockBits ≤ (x + n - 1) / blockBits := Nat.div_le_div_right (by omega)
  refine ⟨hx.symm, ?_, mod_lt _ blockBits_pos, succ_pos _, mod_lt _ blockBits_pos, hle, fun heq => ?_⟩
  · rw [offToBlockIndex, offToBlockOff]
    omega
  rw [offToBlockIndex, offToBlockIndex] at heq
  rw [offToBlockOff, offToBlockOff]
  rw [heq] at hx
  omega

theorem mul_block_le {k : ℕ} (h : i < k) : i * blockBits + blockBits ≤ k * blockBits := by
  rw [← succ_mul]
  exact mul_le_mul_right _ h

section
variable (h : Covers x n s e sOff eOff)
include h

/-- Which bits of block `i` belong to the area. -/
theorem Covers.mem_iff (hj : j < blockBits) :
    x ≤ i * blockBits + j ∧ i * blockBits + j < x + n ↔ s ≤ i ∧ i ≤ e ∧ (i = s → sOff ≤ j) ∧
    (i = e → j < eOff) := by
  obtain ⟨hfirst, hlast, hs, hpos, heo, hse, hlt⟩ := h
  have hbefore : i < s → i * blockBits + blockBits ≤ s * blockBits := mul_block_le
  have hafter : s < i → s * blockBits + blockBits ≤ i * blockBits := mul_block_le
  have hbefore' : i < e → i * blockBits + blockBits ≤ e * blockBits := mul_block_le
  have hafter' : e < i → e * blockBits + blockBits ≤ i * blockBits := mul_block_le
  constructor
  · rintro ⟨hx, hxn⟩
    refine ⟨by omega, by omega, ?_, ?_⟩
    · rintro rfl
      omega
    rintro rfl
    omega
  rintro ⟨hsi, hie, hstart, hstop⟩
  constructor
  · rcases eq_or_lt_of_le hsi with rfl | hlt'
    · have := hstart rfl
      omega
    have := hafter hlt'
    omega
  rcases eq_or_lt_of_le hie with rfl | hlt'
  · have := hstop rfl
    omega
  have := hbefore' hlt'
  omega

/-- The part of the area in a block that it reaches, as an interval of the block. -/
theorem Covers.part_iff (hs : s ≤ i) (he : i ≤ e) (hj : j < blockBits) :
    x ≤ i * blockBits + j ∧ i * blockBits + j < x + n ↔
      (if i = s then sOff else 0) ≤ j ∧ j < if i = e then eOff else blockBits := by
  rw [h.mem_iff hj]
  constructor
  · rintro ⟨-, -, hstart, hstop⟩
    constructor
    · split_ifs with heq
      · exact hstart heq
      · exact zero_le j
    split_ifs with heq
    · exact hstop heq
    · exact hj
  · rintro ⟨hstart, hstop⟩
    exact ⟨hs, he, fun heq => by rwa [if_pos heq] at hstart, fun heq => by rwa [if_pos heq] at hstop⟩

theorem Covers.part_lt (i : ℕ) : (if i = s then sOff else 0) < if i = e then eOff else blockBits := by
  have hlt := h.lt
  have hsOff := h.sOff_lt
  have hpos := h.eOff_pos
  split_ifs <;> omega

theorem Covers.part_le (i : ℕ) : (if i = e then eOff else blockBits) ≤ blockBits := by
  have hle := h.eOff_le
  split_ifs <;> omega

/-- What an allocation does to a block. -/
theorem Covers.takes (hmap : c.allocMap = bitmapSet map x n)
    (hfree : ∀ k, x ≤ k → k < x + n → map k = false) (hs : s ≤ i) (he : i ≤ e) :
    Takes (fun j => map (i * blockBits + j)) (indexAllocMap c i) (if i = s then sOff else 0)
      (if i = e then eOff else blockBits) := by
  refine ⟨h.part_lt i, h.part_le i, fun j hj hjs => ?_, fun j hj => ?_⟩
  · have hin := (h.part_iff hs he (hjs.trans_le (h.part_le i))).mpr ⟨hj, hjs⟩
    exact hfree _ hin.1 hin.2
  · rw [indexAllocMap, hmap, bitmapSet_iff, h.part_iff hs he hj]

/-- What a free does to a block. -/
theorem Covers.gives (hmap : c.allocMap = bitmapClear map x n) (hs : s ≤ i) (he : i ≤ e) :
    Gives (fun j => map (i * blockBits + j)) (indexAllocMap c i) (if i = s then sOff else 0)
    (if i = e then eOff else blockBits) := by
  refine ⟨h.part_lt i, h.part_le i, fun j hj => ?_⟩
  rw [indexAllocMap, hmap, bitmapClear_iff, h.part_iff hs he hj]

/-- An area inside the map ends in a block of the chunk. -/
theorem Covers.lt_nrBlocks (hle : x + n ≤ c.mapBits) : e < c.nrBlocks := by
  by_contra hge
  have hmul : c.nrBlocks * blockBits ≤ e * blockBits := mul_le_mul_right _ (by omega)
  have hlast := h.last
  have hpos := h.eOff_pos
  rw [Chunk.mapBits] at hle
  omega

/-- The other blocks keep their bits. -/
theorem Covers.outside (hout : ¬(s ≤ i ∧ i ≤ e)) (hj : j < blockBits) :
    ¬(x ≤ i * blockBits + j ∧ i * blockBits + j < x + n) := by
  rw [h.mem_iff hj]
  exact fun hin => hout ⟨hin.1, hin.2.1⟩

end

/-! ### Allocation -/

/-- After an allocation every block is exact again. -/
theorem exact_allocMdBlocks (hn : 0 < n) (hmap : c.allocMap = bitmapSet map x n)
    (hfree : ∀ k, x ≤ k → k < x + n → map k = false)
    (h : Exact (fun j => map (i * blockBits + j)) (c.mdBlocks i)) :
    Exact (indexAllocMap c i) (allocMdBlocks c x n i) := by
  have hcov : Covers x n _ _ _ _ := covers hn
  rw [allocMdBlocks]
  generalize offToBlockIndex x = s at *
  generalize offToBlockIndex (x + n - 1) = e at *
  generalize offToBlockOff (x + n - 1) + 1 = eOff at *
  have hse := hcov.le
  have hle := hcov.eOff_le
  by_cases hin : s ≤ i ∧ i ≤ e
  · have htakes := hcov.takes hmap hfree hin.1 hin.2
    by_cases hs : i = s
    · subst hs
      rw [updateBlocks_start]
      rw [if_pos rfl] at htakes
      refine h.allocStartBlock htakes (by simp only [beq_iff_eq]) ?_
      by_cases he : i = e
      · have hfirst := hcov.first
        have hlast := hcov.last
        rw [← he] at hlast
        rw [if_pos he]
        omega
      · rw [if_neg he]
        exact .inl rfl
    have hne : s ≠ e := by omega
    rw [if_neg hs] at htakes
    by_cases he : i = e
    · subst he
      rw [if_pos rfl] at htakes
      rw [updateBlocks_end hne]
      by_cases hB : eOff = blockBits
      · rw [if_pos hB, if_pos (by omega)]
        exact exact_full (htakes.full rfl hB) _
      rw [if_neg hB, if_neg (by omega)]
      exact h.allocEndBlock htakes (by omega)
    rw [if_neg he] at htakes
    rw [updateBlocks_between (by omega) (by split_ifs <;> omega) he hne]
    exact exact_full (htakes.full rfl rfl) _
  rw [updateBlocks_outside (by omega) (by omega) (by split_ifs <;> omega)]
  refine h.congr fun j hj => ?_
  rw [indexAllocMap, hmap, bitmapSet, if_neg (hcov.outside hin hj)]

/-! ### Free -/

/-- After a free every block is exact again. -/
theorem exact_freeMdBlocks (hn : 0 < n) (hmap : c.allocMap = bitmapClear map x n)
    (hle : x + n ≤ c.mapBits) (h : ∀ i < c.nrBlocks,
      Exact (fun j => map (i * blockBits + j)) (c.mdBlocks i)) (hi : i < c.nrBlocks) :
    Exact (indexAllocMap c i) (freeMdBlocks c x n
      (freeStart (indexAllocMap c (offToBlockIndex x)) (offToBlockOff x)
        (c.mdBlocks (offToBlockIndex x)))
      (freeStop (indexAllocMap c (offToBlockIndex (x + n - 1))) (offToBlockOff (x + n - 1) + 1)
        (c.mdBlocks (offToBlockIndex (x + n - 1)))) i) := by
  have hcov : Covers x n _ _ _ _ := covers hn
  rw [freeMdBlocks]
  generalize offToBlockIndex x = s at *
  generalize offToBlockIndex (x + n - 1) = e at *
  have hse := hcov.le
  have he : e < c.nrBlocks := hcov.lt_nrBlocks hle
  have hgives := fun i hs he => hcov.gives (i := i) hmap hs he
  have hgiveS := hgives s le_rfl hse
  have hgiveE := hgives e hse le_rfl
  rw [if_pos rfl] at hgiveS hgiveE
  have hstart := (h s (hse.trans_lt he)).freeStart hgiveS
  have hstop := (h e he).freeStop hgiveE
  have hB : ∀ m : ℕ → Bool, blockBits ≤ blockBits ∧ blockBits ≤ blockBits ∧
      (∀ j, blockBits ≤ j → j < blockBits → m j = false) ∧
      (blockBits < blockBits → m blockBits = true) :=
    fun m =>
      ⟨le_rfl, le_rfl, fun j hj hlt => absurd hlt (not_lt.mpr hj), fun h => absurd h (lt_irrefl _)⟩
  by_cases hin : s ≤ i ∧ i ≤ e
  · by_cases hs : i = s
    · subst hs
      rw [updateBlocks_start]
      by_cases heq : i = e
      · subst heq
        rw [if_pos rfl] at hgiveS ⊢
        exact (h i hi).blockUpdate hgiveS hstart hstop
      · rw [if_neg heq] at hgiveS ⊢
        exact (h i hi).blockUpdate hgiveS hstart (hB _)
    have hne : s ≠ e := by omega
    by_cases heq : i = e
    · subst heq
      rw [if_neg hs] at hgiveE
      rw [updateBlocks_end hne, if_neg (by omega)]
      exact (h i hi).blockUpdate hgiveE ⟨le_rfl, fun j _ hj => absurd hj (not_lt_zero j),
        fun j hj => absurd hj (succ_ne_zero j)⟩ hstop
    have hgive := hgives i hin.1 hin.2
    rw [if_neg hs, if_neg heq] at hgive
    rw [updateBlocks_between (by omega) (by omega) heq hne]
    exact exact_empty fun j hj => (hgive.iff j hj).mpr (.inr ⟨zero_le j, hj⟩)
  rw [updateBlocks_outside (by omega) (by omega) (by omega)]
  refine (h i hi).congr fun j hj => ?_
  rw [indexAllocMap, hmap, bitmapClear, if_neg (hcov.outside hin hj)]

end

end LinuxNote.Percpu
