import LinuxNote.Percpu.Metadata

/-! Where an area fits. When the metadata is exact, an offset that `pcpu_find_block_fit` returns has a
    fitting place within a block's length, and so the scan of `pcpu_alloc_area` ends inside the map. -/

namespace LinuxNote.Percpu
open Bitmap MaximalRuns Nat List Bool

variable {map populated : ℕ → Bool} {c : Chunk}
  {x a n f align start left i blockOff bitOff bits rounds : ℕ} {popOnly : Bool}

/-! ### Alignment -/

theorem le_alignUp (ha : 0 < a) : x ≤ alignUp x a := by
  have := lt_div_mul_add ha (a := x + (a - 1))
  rw [alignUp]
  omega

theorem dvd_alignUp : a ∣ alignUp x a := Nat.dvd_mul_left ..

/-! ### The scan for a zero area -/

theorem area_iff :
    (x &&& a == 0 && (range n).all fun k => !map (x + k)) = true ↔ x &&& a = 0 ∧ ∀ k, x ≤ k → k < x + n →
    map k = false := by
  rw [and_eq_true, beq_iff_eq, all_eq_true]
  refine and_congr_right fun _ => ⟨fun h k hk hlt => ?_, fun h k hk => ?_⟩
  · have := h (k - x) (mem_range.mpr (by omega))
    rwa [Nat.add_sub_cancel' hk, not_eq_true'] at this
  rw [not_eq_true']
  exact h _ (by omega) (by have := mem_range.mp hk; omega)

/-- The scan finds the first place. -/
theorem bitmapFindNextZeroArea_spec {size : ℕ} (hf : start ≤ f) (hsize : f + n ≤ size) (hm : f &&& a = 0)
    (hfit : ∀ k, f ≤ k → k < f + n → map k = false) :
    ∃ x, bitmapFindNextZeroArea map size start n a = some x ∧ start ≤ x ∧ x ≤ f ∧ x &&& a = 0 ∧
      ∀ k, x ≤ k → k < x + n → map k = false := by
  have hnext := isNext_findNext (fun i => i &&& a == 0 && (range n).all fun k => !map (i + k))
    (by omega : start ≤ size + 1 - n)
  have hle := findNext_le (p := fun i => i &&& a == 0 && (range n).all fun k => !map (i + k)) hf
    (by omega : f < size + 1 - n) (area_iff.mpr ⟨hm, hfit⟩)
  obtain ⟨hmask, hfree⟩ := area_iff.mp (hnext.hit (by omega))
  exact ⟨_, if_pos (by omega), hnext.ge, hle, hmask, hfree⟩

section
variable [Config]

/-! ### Regions by the metadata -/

/-- An area of `n` bits fits at `f`. -/
structure Fits (c : Chunk) (n align f : ℕ) : Prop where
  aligned : align ∣ f
  le : f + n ≤ c.mapBits
  free : ∀ k, f ≤ k → k < f + n → c.allocMap k = false

/-- The region, in block `i` or behind, has a place. -/
structure FitsIn (c : Chunk) (n align i start bits : ℕ) : Prop where
  ge : i * blockBits ≤ start
  place : ∃ f, start ≤ f ∧ f ≤ start + blockBits ∧ f + n ≤ start + bits ∧ Fits c n align f

theorem mapBits_ge (hi : i < c.nrBlocks) : i * blockBits + blockBits ≤ c.mapBits := mul_block_le hi

/-- The bits of a block, by their place in the chunk. -/
theorem free_of_block {lo hi : ℕ} (h : ∀ j, lo ≤ j → j < hi → indexAllocMap c i j = false) :
    ∀ k, i * blockBits + lo ≤ k → k < i * blockBits + hi → c.allocMap k = false := by
  intro k hlo hhi
  have := h (k - i * blockBits) (by omega) (by omega)
  rwa [indexAllocMap, Nat.add_sub_cancel' (by omega)] at this

theorem dvd_block (halign : align ∣ blockBits) (hx : align ∣ x) : align ∣ i * blockBits + x :=
  Nat.dvd_add (Nat.dvd_trans halign (Nat.dvd_mul_left ..)) hx

/-! ### Populated pages -/

section
variable (hexact : ExactBlocks c) (halign : align ∣ blockBits) (hpos : 0 < align)
include hexact halign hpos

/-- A place in the longest run of a block. -/
theorem fitsIn_hint (hi : i < c.nrBlocks) (hne : (c.mdBlocks i).contigHint ≠ 0) {pad : ℕ}
    (hpad : alignUp (c.mdBlocks i).contigHintStart align - (c.mdBlocks i).contigHintStart = pad)
    (hle : pad + n ≤ (c.mdBlocks i).contigHint) :
    FitsIn c n align i (blockOffToOff i (c.mdBlocks i).firstFree)
    (pad + n + (c.mdBlocks i).contigHintStart - (c.mdBlocks i).firstFree) := by
  have hrun := (hexact i hi).hints.at_start hne
  have hfirst := (hexact i hi).first _ (hrun.lt.trans_le hrun.le) (hrun.mem _ le_rfl hrun.lt)
  have hstop := hrun.le
  have hup : (c.mdBlocks i).contigHintStart ≤ alignUp (c.mdBlocks i).contigHintStart align :=
    le_alignUp hpos
  have hmap := mapBits_ge hi
  rw [blockOffToOff]
  refine ⟨Nat.le_add_right .., i * blockBits + alignUp (c.mdBlocks i).contigHintStart align, by omega,
    by omega, by omega, dvd_block (i := i) halign dvd_alignUp, by omega, ?_⟩
  rw [add_assoc]
  exact free_of_block fun j hj hlt => hrun.mem j (by omega) (by omega)

omit halign in
/-- The bits from the first aligned place of the right run to the end of its block. -/
theorem free_right (hi : i < c.nrBlocks) :
    ∀ k, i * blockBits + alignUp (blockBits - (c.mdBlocks i).rightFree) align ≤ k →
      k < i * blockBits + blockBits → c.allocMap k = false := by
  have hright := (summary_isRun_iff.mp (hexact i hi).hints).2.1
  have hup : blockBits - (c.mdBlocks i).rightFree ≤
    alignUp (blockBits - (c.mdBlocks i).rightFree) align :=
    le_alignUp hpos
  exact free_of_block fun j hj hlt => hright.mem j hlt (by omega)

omit halign hpos in
theorem free_left (hi : i < c.nrBlocks) :
    ∀ k, i * blockBits ≤ k → k < i * blockBits + (c.mdBlocks i).leftFree → c.allocMap k = false := by
  have hleft := (summary_isRun_iff.mp (hexact i hi).hints).1
  intro k hk hlt
  exact free_of_block (fun j _ hj => hleft.mem j hj) k ((add_zero _).trans_le hk) hlt

/-- The loop is at block `i`, and `bits` free bits from `bitOff` on end there. -/
theorem nextFitLoop_fits {i₀ : ℕ} (hn : 0 < n) (hi₀ : i₀ ≤ i) (hleft : left = 0 ∨ i + left ≤ c.nrBlocks)
    (hbits : bits ≠ 0 → i₀ * blockBits ≤ bitOff ∧ align ∣ bitOff ∧ bitOff + bits = i * blockBits ∧
      ∀ k, bitOff ≤ k → k < bitOff + bits → c.allocMap k = false) :
    (nextFitLoop c n align left i blockOff bitOff bits).1 = c.mapBits ∨
      FitsIn c n align i₀ (nextFitLoop c n align left i blockOff bitOff bits).1
        (nextFitLoop c n align left i blockOff bitOff bits).2 := by
  induction left generalizing i blockOff bitOff bits with
  | zero => exact .inl rfl
  | succ left ih =>
    have hi : i < c.nrBlocks := by omega
    have hmap := mapBits_ge hi
    have hfrom : i₀ * blockBits ≤ i * blockBits := mul_le_mul_right _ hi₀
    have hnext : (i + 1) * blockBits = i * blockBits + blockBits := succ_mul ..
    have hjoin : bits ≠ 0 → ∀ k, bitOff ≤ k → k < bitOff + bits + (c.mdBlocks i).leftFree →
      c.allocMap k = false := by
      intro hne k hk hlt
      obtain ⟨-, -, hend, hfree⟩ := hbits hne
      by_cases hin : k < bitOff + bits
      · exact hfree k hk hin
      · exact free_left hexact hi k (by omega) (by omega)
    have hleftB := (summary_isRun_iff.mp (hexact i hi).hints).1.le
    rw [nextFitLoop]
    dsimp only
    split_ifs with hacross hwhole hhint hright
    · -- the area across the blocks is long enough
      obtain ⟨hge, hdvd, hend, -⟩ := hbits hacross.1
      exact .inr ⟨hge, bitOff, le_rfl, Nat.le_add_right .., Nat.add_le_add_left hacross.2 _,
        hdvd, by omega, fun k hk hlt => hjoin hacross.1 k hk (by omega)⟩
    · obtain ⟨hge, hdvd, hend, -⟩ := hbits hwhole.1
      refine ih (by omega) (by omega) fun _ =>
        ⟨hge, hdvd, by omega, fun k hk hlt => hjoin hwhole.1 k hk (by omega)⟩
    · exact .inr { fitsIn_hint hexact halign hpos hi hhint.1 rfl hhint.2.2 with
        ge := hfrom.trans (Nat.le_add_right ..) }
    · refine .inr ⟨hfrom.trans (Nat.le_add_right ..), _, le_rfl, Nat.le_add_right ..,
        Nat.add_le_add_left hright _, dvd_block halign dvd_alignUp, ?_, fun k hk hlt => ?_⟩
      · rw [blockOffToOff]
        omega
      rw [blockOffToOff] at hk hlt
      exact free_right hexact hpos hi k hk (by omega)
    -- the right run of this block may go on in the next one
    refine ih (by omega) (by omega) fun hne =>
      ⟨hfrom.trans (Nat.le_add_right ..), dvd_block halign dvd_alignUp, ?_, fun k hk hlt => ?_⟩
    · rw [blockOffToOff]
      omega
    rw [blockOffToOff] at hk hlt
    exact free_right hexact hpos hi k hk (by omega)

theorem nextFitRegion_fits (hn : 0 < n) (bitOff : ℕ) : (nextFitRegion c n align bitOff).1 = c.mapBits ∨
    FitsIn c n align (bitOff / blockBits) (nextFitRegion c n align bitOff).1
    (nextFitRegion c n align bitOff).2 :=
  nextFitLoop_fits hexact halign hpos hn le_rfl (by rw [offToBlockIndex]; omega) fun h => absurd rfl h

theorem fitLoop_fits {region : ℕ × ℕ} (hn : 0 < n)
    (hregion : region.1 = c.mapBits ∨ FitsIn c n align i region.1 region.2)
    (h : fitLoop c populated n align popOnly rounds region = .ok bitOff) : bitOff = c.mapBits ∨ ∃ i bits,
    FitsIn c n align i bitOff bits ∧ (popOnly = true → isPopulated populated bitOff bits = none) := by
  induction rounds generalizing region i with
  | zero => cases h
  | succ rounds ih =>
    obtain ⟨off, bits⟩ := region
    rw [fitLoop] at h
    split_ifs at h with hlt hpop
    · split at h
      case h_1 hnone =>
        cases h
        exact hregion.imp_right fun hfits => ⟨i, bits, hfits, fun _ => hnone⟩
      case h_2 => exact ih (nextFitRegion_fits hexact halign hpos hn _) h
    · cases h
      exact hregion.imp_right fun hfits => ⟨i, bits, hfits, fun hp => absurd hp hpop⟩
    cases h
    refine .inl (hregion.resolve_right fun hfits => hlt ?_)
    obtain ⟨f, hf, -, -, hfit⟩ := hfits.place
    have := hfit.le
    omega

/-- The offset that `pcpu_find_block_fit` returns has a place behind it. -/
theorem findBlockFit_region (hn : 0 < n)
    (h : findBlockFit rounds c populated n align popOnly = .ok (some start)) :
    ∃ i bits, FitsIn c n align i start bits ∧
    (popOnly = true → isPopulated populated start bits = none) := by
  rw [findBlockFit] at h
  split_ifs at h
  · cases h
  split at h
  · cases h
  rename_i bitOff hloop
  have hfits := fitLoop_fits hexact halign hpos hn (nextFitRegion_fits hexact halign hpos hn _) hloop
  split_ifs at h with heq
  · cases h
  cases h
  exact hfits.resolve_left heq

end

/-! ### The area -/

/-- What `pcpu_alloc_area` finds when there is a place. -/
theorem allocArea_spec {k : ℕ} (hf : start ≤ f) (hfB : f ≤ start + blockBits)
    (hfit : Fits c n (2 ^ k) f) :
    ∃ x, allocArea c n (2 ^ k) start =
      some (x * minAllocSize, blockUpdateHintAlloc (markArea c x n) x n) ∧ start ≤ x ∧ x ≤ f ∧
    Fits c n (2 ^ k) x := by
  have hne : (2 : ℕ) ^ k ≠ 0 := (Nat.two_pow_pos k).ne'
  have hmask : ∀ z : ℕ, z &&& (if 2 ^ k = 0 then 0 else 2 ^ k - 1) = 0 ↔ 2 ^ k ∣ z := by
    intro z
    rw [if_neg hne, and_two_pow_sub_one_eq_mod, dvd_iff_mod_eq_zero]
  obtain ⟨x, hscan, hge, hxf, hzero, hfree⟩ :=
    bitmapFindNextZeroArea_spec hf (by omega : f + n ≤ start + n + blockBits)
      ((hmask f).mpr hfit.aligned) hfit.free
  have hle := hfit.le
  rw [allocArea, hscan]
  exact ⟨x, rfl, hge, hxf, (hmask x).mp hzero, by omega, hfree⟩

end

end LinuxNote.Percpu
