import LinuxNote.Percpu.History

/-! The hint of a chunk: `contig_bits` bits from `contig_bits_start` on are free. A scan over the
    metadata finds a free area that is at least as long as every run inside a block. Between the scans
    the hint can go wrong in two ways. An area may start before `contig_bits_start` and reach into the
    hint, and a free may move `contig_bits_start` to a shorter run because that run is better aligned. -/

namespace LinuxNote.Percpu
open Nat Bool

open MaximalRuns

variable {map : ℕ → Bool} {c : Chunk} {live : List Area} {x n i k left blockOff bitOff bits rounds : ℕ}

theorem le_chunkUpdate (c : Chunk) (x n : ℕ) :
    c.contigBits ≤ (chunkUpdate c x n).contigBits ∧ n ≤ (chunkUpdate c x n).contigBits := by
  rw [chunkUpdate]
  split_ifs with hlong hequal
  · exact ⟨hlong.le, le_rfl⟩
  · exact ⟨le_rfl, hequal.1.le⟩
  · exact ⟨le_rfl, by omega⟩

section
variable [Config]

/-- The bits of the hint are free. -/
def HintFree (c : Chunk) : Prop :=
  c.contigBits ≠ 0 → c.contigBitsStart + c.contigBits ≤ c.mapBits ∧
    ∀ k, c.contigBitsStart ≤ k → k < c.contigBitsStart + c.contigBits → c.allocMap k = false

/-- The hint is as long as every run inside a block. -/
def HintCovers (c : Chunk) : Prop := ∀ i < c.nrBlocks, (c.mdBlocks i).contigHint ≤ c.contigBits

/-! ### One region of the scan -/

/-- The longest run of block `i` starts at `x` or later. -/
def Pending (c : Chunk) (x i : ℕ) : Prop :=
  (c.mdBlocks i).contigHint ≠ 0 ∧ x ≤ i * blockBits + (c.mdBlocks i).contigHintStart

/-- What a round of the scan that starts at `x` returns: a free area that ends at an allocated bit or at
    the end of the map. The longest runs of the blocks are not longer, or they are still to come. -/
structure IsRegion (c : Chunk) (x off bits : ℕ) : Prop where
  ge : x ≤ off
  pos : 0 < bits
  le : off + bits ≤ c.mapBits
  free : ∀ k, off ≤ k → k < off + bits → c.allocMap k = false
  stop : off + bits < c.mapBits → c.allocMap (off + bits) = true
  rest : ∀ i < c.nrBlocks, Pending c x i → (c.mdBlocks i).contigHint ≤ bits ∨
    Pending c (off + bits + 1) i

/-- The loop over the blocks is at block `i`. Either nothing has been found, or `bits` free bits end
    there. -/
structure Scanning (c : Chunk) (x i blockOff bitOff bits : ℕ) : Prop where
  none : bits = 0 → blockOff < blockBits ∧ x ≤ i * blockBits + blockOff ∧ i * blockBits ≤ bitOff ∧
    (∀ k < c.mapBits, k + 1 = i * blockBits + blockOff → 0 < blockOff → c.allocMap k = true) ∧
    ∀ j < c.nrBlocks, Pending c x j → i ≤ j ∧ (j = i → blockOff ≤ (c.mdBlocks j).contigHintStart)
  some : bits ≠ 0 → i ≤ c.nrBlocks ∧ x ≤ bitOff ∧ bitOff + bits = i * blockBits ∧
    (∀ k, bitOff ≤ k → k < bitOff + bits → c.allocMap k = false) ∧
    ∀ j < c.nrBlocks, Pending c x j → j < i → (c.mdBlocks j).contigHint ≤ bits

section
variable (hexact : ExactBlocks c)
include hexact

theorem run_of_hint (hi : i < c.nrBlocks) (hne : (c.mdBlocks i).contigHint ≠ 0) :
    FreeRun (indexAllocMap c i) (c.mdBlocks i).contigHintStart
      ((c.mdBlocks i).contigHintStart + (c.mdBlocks i).contigHint) :=
  (hexact i hi).hints.at_start hne

section
variable (h : Scanning c x i blockOff bitOff bits) (hi : i < c.nrBlocks) (hbits : bits ≠ 0)
include h hi hbits

/-- The scan ends in a block with the bits at its left edge. -/
theorem isRegion_left (hleft : (c.mdBlocks i).leftFree ≠ blockBits) :
    IsRegion c x bitOff (bits + (c.mdBlocks i).leftFree) := by
  obtain ⟨-, hx, hend, hfree, hcover⟩ := h.some hbits
  have hedge := (summary_isRun_iff.mp (hexact i hi).hints).1
  have hle := hedge.le
  have hmap := mapBits_ge hi
  have hbit : c.allocMap (i * blockBits + (c.mdBlocks i).leftFree) = true := by
    rw [← not_eq_false]
    exact hedge.stop (by omega)
  refine ⟨hx, by omega, by omega, fun k hk hlt => ?_, fun _ => ?_, fun j hj hpend => ?_⟩
  · by_cases hin : k < bitOff + bits
    · exact hfree k hk hin
    · exact free_left hexact hi k (by omega) (by omega)
  · rwa [show bitOff + (bits + (c.mdBlocks i).leftFree) = i * blockBits +
      (c.mdBlocks i).leftFree by omega]
  rcases lt_trichotomy j i with hlt | rfl | hgt
  · have := hcover j hj hpend hlt
    exact .inl (by omega)
  · -- the longest run is the one at the left edge, or it comes after it
    have hrun := run_of_hint hexact hj hpend.1
    by_cases hzero : (c.mdBlocks j).contigHintStart = 0
    · have hlen := (hexact j hj).hints.left_eq _ (hzero ▸ hrun)
      exact .inl (by omega)
    refine .inr ⟨hpend.1, ?_⟩
    have hnot : (c.mdBlocks j).leftFree < (c.mdBlocks j).contigHintStart := by
      by_contra hge
      have hstart := hrun.start_le (a := 0) (b := (c.mdBlocks j).leftFree) (by omega)
        fun k _ hk => hedge.mem k hk
      omega
    omega
  · have := mul_block_le hgt
    exact .inr ⟨hpend.1, by omega⟩

/-- The scan goes on beyond a block that is all free. -/
theorem Scanning.whole (hleft : (c.mdBlocks i).leftFree = blockBits) :
    Scanning c x (i + 1) blockOff bitOff (bits + (c.mdBlocks i).leftFree) := by
  obtain ⟨-, hx, hend, hfree, hcover⟩ := h.some hbits
  have hnext : (i + 1) * blockBits = i * blockBits + blockBits := succ_mul ..
  refine ⟨fun hzero => absurd hzero (by omega), fun _ => ⟨hi, hx, by omega, fun k hk hlt => ?_,
    fun j hj hpend hlt => ?_⟩⟩
  · by_cases hin : k < bitOff + bits
    · exact hfree k hk hin
    · exact free_left hexact hi k (by omega) (by omega)
  rcases Nat.lt_succ_iff_lt_or_eq.mp hlt with hlt | rfl
  · have := hcover j hj hpend hlt
    omega
  have := (run_of_hint hexact hj hpend.1).le
  omega

end

/-- The scan finds the longest run of a block, which does not go on in the next block. -/
theorem isRegion_hint (h : Scanning c x i blockOff bitOff 0) (hi : i < c.nrBlocks)
    (hne : (c.mdBlocks i).contigHint ≠ 0) (hoff : blockOff ≤ (c.mdBlocks i).contigHintStart)
    (hlt : (c.mdBlocks i).contigHint + (c.mdBlocks i).contigHintStart < blockBits) :
    IsRegion c x (i * blockBits + (c.mdBlocks i).contigHintStart) (c.mdBlocks i).contigHint := by
  obtain ⟨-, hx, -, -, hpending⟩ := h.none rfl
  have hrun := run_of_hint hexact hi hne
  have hmap := mapBits_ge hi
  refine ⟨by omega, by omega, by omega, ?_, fun _ => ?_, fun j hj hpend => ?_⟩
  · rw [add_assoc]
    exact free_of_block hrun.mem
  · rw [← not_eq_false, add_assoc]
    exact hrun.right (by omega)
  obtain ⟨hij, -⟩ := hpending j hj hpend
  rcases eq_or_lt_of_le hij with rfl | hlt'
  · exact .inl le_rfl
  have := mul_block_le hlt'
  exact .inr ⟨hpend.1, by omega⟩

/-- The scan takes the run at the right edge of a block on to the next one. -/
theorem Scanning.right (h : Scanning c x i blockOff bitOff 0) (hi : i < c.nrBlocks)
    (hhint : ¬((c.mdBlocks i).contigHint ≠ 0 ∧ blockOff ≤ (c.mdBlocks i).contigHintStart ∧
        (c.mdBlocks i).contigHint + (c.mdBlocks i).contigHintStart < blockBits)) :
    Scanning c x (i + 1) 0 ((i + 1) * blockBits - (c.mdBlocks i).rightFree)
    (c.mdBlocks i).rightFree := by
  obtain ⟨hoffB, hx, -, hbefore, hpending⟩ := h.none rfl
  have hnext : (i + 1) * blockBits = i * blockBits + blockBits := succ_mul ..
  have hedge := (summary_isRun_iff.mp (hexact i hi).hints).2.1
  have hle := hedge.le
  have hmap := mapBits_ge hi
  -- the longest run of a block that is still to come touches the right edge
  have hlast : Pending c x i → (c.mdBlocks i).rightFree = (c.mdBlocks i).contigHint := by
    intro hpend
    have hrun := run_of_hint hexact hi hpend.1
    have hstop := hrun.le
    have hoff := (hpending i hi hpend).2 rfl
    have heq : (c.mdBlocks i).contigHintStart + (c.mdBlocks i).contigHint = blockBits := by
      by_contra hne
      exact hhint ⟨hpend.1, hoff, by omega⟩
    rw [heq] at hrun
    have := (hexact i hi).hints.right_eq _ hrun
    omega
  constructor
  · intro hzero
    refine ⟨blockBits_pos, by omega, by omega, fun _ _ _ hpos => absurd hpos (lt_irrefl 0),
      fun j hj hpend => ⟨?_, fun _ => zero_le _⟩⟩
    have hij := (hpending j hj hpend).1
    rcases eq_or_lt_of_le hij with rfl | hlt
    · exact absurd (hlast hpend) (by rw [hzero]; exact hpend.1.symm)
    · exact hlt
  intro hne
  refine ⟨hi, ?_, by omega, fun k hk hlt => ?_, fun j hj hpend hlt => ?_⟩
  · by_contra hgt
    have hset := hbefore (i * blockBits + (blockOff - 1)) (by omega) (by omega) (by omega)
    have hfree := hedge.mem (blockOff - 1) (by omega) (by omega)
    rw [indexAllocMap, hset] at hfree
    cases hfree
  · exact free_of_block (fun j hj hlt => hedge.mem j hlt hj) k (by omega) (by omega)
  have hij := (hpending j hj hpend).1
  obtain rfl : j = i := by omega
  rw [hlast hpend]

theorem nextMdLoop_region (h : Scanning c x i blockOff bitOff bits) (hleft : c.nrBlocks ≤ i + left)
    (hin : left = 0 ∨ i + left = c.nrBlocks) :
    ((nextMdLoop c left i blockOff bitOff bits).1 < c.mapBits →
      IsRegion c x (nextMdLoop c left i blockOff bitOff bits).1
      (nextMdLoop c left i blockOff bitOff bits).2) ∧
    (c.mapBits ≤ (nextMdLoop c left i blockOff bitOff bits).1 → ∀ j < c.nrBlocks,
      ¬Pending c x j) := by
  induction left generalizing i blockOff bitOff bits with
  | zero =>
    have hmul : c.mapBits ≤ i * blockBits := mul_le_mul_right _ hleft
    rw [nextMdLoop]
    by_cases hbits : bits = 0
    · obtain ⟨-, -, hge, -, hpending⟩ := h.none hbits
      refine ⟨fun hlt => absurd hlt (by dsimp only; omega), fun _ j hj hpend => ?_⟩
      have := (hpending j hj hpend).1
      omega
    obtain ⟨hin, hx, hend, hfree, hcover⟩ := h.some hbits
    obtain rfl : i = c.nrBlocks := by omega
    have hmap : bitOff + bits = c.mapBits := hend
    refine ⟨fun _ =>
      ⟨hx, by dsimp only; omega, hmap.le, hfree, fun hlt => absurd hlt (by dsimp only; omega),
        fun j hj hpend => .inl (hcover j hj hpend hj)⟩, fun hge => absurd hge (by dsimp only; omega)⟩
  | succ left ih =>
    have hi : i < c.nrBlocks := by omega
    have hmap := mapBits_ge hi
    rw [nextMdLoop]
    split_ifs with hbits hwhole hhint
    · exact ih (h.whole hexact hi hbits hwhole) (by omega) (by omega)
    · have hregion := isRegion_left hexact h hi hbits hwhole
      have hle := hregion.le
      exact ⟨fun _ => hregion, fun hge => absurd hge (by dsimp only; omega)⟩
    · obtain rfl := not_not.mp hbits
      have hregion := isRegion_hint hexact h hi hhint.1 hhint.2.1 hhint.2.2
      exact ⟨fun _ => hregion, fun hge => absurd hge (by dsimp only [blockOffToOff]; omega)⟩
    · obtain rfl := not_not.mp hbits
      exact ih (h.right hexact hi hhint) (by omega) (by omega)

/-- A round of the scan that starts behind an allocated bit. -/
theorem nextMdFreeRegion_region (hx : ∀ k < c.mapBits, k + 1 = x → c.allocMap k = true) :
    ((nextMdFreeRegion c x).1 < c.mapBits →
      IsRegion c x (nextMdFreeRegion c x).1 (nextMdFreeRegion c x).2) ∧
    (c.mapBits ≤ (nextMdFreeRegion c x).1 → ∀ j < c.nrBlocks, ¬Pending c x j) := by
  have hdiv : x / blockBits * blockBits + x % blockBits = x := div_add_mod' x blockBits
  refine nextMdLoop_region hexact ⟨fun _ => ⟨mod_lt x blockBits_pos, hdiv.ge, ?_, fun k hk hkx _ => ?_,
    fun j hj hpend => ?_⟩, fun hne => absurd rfl hne⟩ (by omega) (by omega)
  · exact div_mul_le_self x blockBits
  · exact hx k hk (hkx.trans hdiv)
  have hstart := hpend.2
  have hrun := run_of_hint hexact hj hpend.1
  have hrlt := hrun.lt.trans_le hrun.le
  rw [offToBlockIndex, offToBlockOff]
  constructor
  · by_contra hlt
    have := mul_block_le (not_le.mp hlt)
    omega
  · rintro rfl
    omega

/-! ### The whole scan -/

omit hexact in
/-- The hint is replaced by a free area only, or it stays. -/
theorem hintFree_chunkUpdate (h : HintFree c)
    (hfree : n > c.contigBits ∨ n = c.contigBits ∧ c.contigBitsStart ≠ 0 ∧
      (x = 0 ∨ ffs x > ffs c.contigBitsStart) → x + n ≤ c.mapBits ∧ ∀ k, x ≤ k → k < x + n →
      c.allocMap k = false) : HintFree (chunkUpdate c x n) := by
  rw [chunkUpdate]
  split_ifs with hlong hequal
  · exact fun _ => hfree (.inl hlong)
  · intro _
    rw [← hequal.1]
    exact hfree (.inr hequal)
  · exact h

/-- The scan goes on at `x`, and the longest runs of the blocks are not longer than the hint or still to
    come. -/
theorem chunkRefreshLoop_hint (hhint : HintFree c)
    (hx : ∀ k < c.mapBits, k + 1 = x → c.allocMap k = true)
    (hrest : ∀ i < c.nrBlocks, (c.mdBlocks i).contigHint ≤ c.contigBits ∨ Pending c x i)
    (hrounds : c.mapBits < x + rounds) :
    HintFree (chunkRefreshLoop rounds x c) ∧ HintCovers (chunkRefreshLoop rounds x c) := by
  induction rounds generalizing x c with
  | zero =>
    refine ⟨hhint, fun i (hi : i < c.nrBlocks) => (hrest i hi).resolve_right fun hpend => ?_⟩
    have hrun := run_of_hint hexact hi hpend.1
    have hrlt := hrun.lt.trans_le hrun.le
    have hmap := mapBits_ge hi
    have hstart := hpend.2
    omega
  | succ rounds ih =>
    obtain ⟨hfound, hnone⟩ := nextMdFreeRegion_region hexact hx
    rw [chunkRefreshLoop]
    generalize nextMdFreeRegion c x = region at *
    obtain ⟨off, bits⟩ := region
    split_ifs with hlt
    · have hregion := hfound hlt
      have hge := hregion.ge
      have hhint' := hintFree_chunkUpdate (x := off) (n := bits) hhint fun _ =>
        ⟨hregion.le, hregion.free⟩
      obtain ⟨hle, hbits⟩ := le_chunkUpdate c off bits
      obtain ⟨h, s, heq⟩ := chunkUpdate_eq c off bits
      rw [heq] at hhint' hle hbits ⊢
      have hnext : c.mapBits < off + bits + 1 + rounds := by omega
      refine ih hexact hhint' (fun k hk hkx => ?_) (fun i hi => ?_) hnext
      · obtain rfl : k = off + bits := by omega
        exact hregion.stop hk
      rcases hrest i hi with hcov | hpend
      · exact .inl (hcov.trans hle)
      rcases hregion.rest i hi hpend with hcov | hpend
      · exact .inl (hcov.trans hbits)
      · exact .inr hpend
    · exact ⟨hhint, fun i hi => (hrest i hi).resolve_right (hnone (not_lt.mp hlt) i hi)⟩

/-- `pcpu_chunk_refresh_hint` finds a free area that is as long as every run inside a block. -/
theorem chunkRefreshHint_hint (hfirst : ∀ k < c.mapBits, c.allocMap k = false → c.firstBit ≤ k) :
    HintFree (chunkRefreshHint c) ∧ HintCovers (chunkRefreshHint c) := by
  have hrounds : c.mapBits < c.firstBit + (c.mapBits + 1) := by omega
  refine chunkRefreshLoop_hint hexact (fun hne => absurd rfl hne) (fun k hk hkx => ?_)
    (fun i (hi : i < c.nrBlocks) => ?_) hrounds
  · rw [← not_eq_false]
    intro hfree
    have := hfirst k hk hfree
    omega
  by_cases hzero : (c.mdBlocks i).contigHint = 0
  · exact .inl hzero.le
  have hrun := run_of_hint hexact hi hzero
  have hlt := hrun.lt.trans_le hrun.le
  have hmap : i * blockBits + blockBits ≤ c.mapBits := mapBits_ge hi
  have hbit : i * blockBits + (c.mdBlocks i).contigHintStart < c.mapBits := by omega
  exact .inr ⟨hzero, hfirst _ hbit (hrun.mem _ le_rfl hrun.lt)⟩

end

/-! ### Steps that keep the hint -/

/-- An area that starts before the hint does not reach it. A free that leaves the longest run of the
    block as long as the hint, and that is better aligned, makes a run of that length. -/
def HintKept (c : Chunk) : Step → Prop
  | .alloc x n => c.contigBits ≠ 0 → ¬(x < c.contigBitsStart ∧ c.contigBitsStart < x + n)
  | .free x n =>
    let index := offToBlockIndex x
    let block := c.mdBlocks index
    let map := indexAllocMap (clearArea c x n) index
    let start := freeStart map (offToBlockOff x) block
    let stop := freeStop map (offToBlockOff (x + n - 1) + 1) block
    index = offToBlockIndex (x + n - 1) → (blockUpdate block start stop).contigHint = c.contigBits →
      c.contigBitsStart ≠ 0 →
      (blockOffToOff index start = 0 ∨ ffs (blockOffToOff index start) > ffs c.contigBitsStart) →
      c.contigBits ≤ stop - start

/-- The longest run does not get longer when bits are taken. -/
theorem Exact.contigHint_le {map' : ℕ → Bool} {block block' : BlockMd} (h : Exact map block)
    (h' : Exact map' block') (hsub : ∀ j < blockBits, map' j = false → map j = false) :
    block'.contigHint ≤ block.contigHint := by
  by_cases hzero : block'.contigHint = 0
  · omega
  have hrun := h'.hints.at_start hzero
  have hlt := hrun.lt
  have hle := hrun.le
  have hfree : ∀ j, block'.contigHintStart ≤ j → j < block'.contigHintStart + block'.contigHint →
      map j = false := fun j hj hlt => hsub j (by omega) (hrun.mem j hj hlt)
  obtain ⟨s, e, hse, hs, he⟩ := exists_isRun (p := fun j => map j = false) (n := blockBits)
    (hfree _ le_rfl hlt) (by omega)
  have hstop := hse.le_stop he.le hfree hle
  have := h.hints.le_len s e hse
  omega

theorem hint_alloc {align : ℕ} (h : Inv c live) (hhint : HintFree c ∧ HintCovers c) (hn : 0 < n)
    (hfit : Fits c n align x) (hok : HintKept c (.alloc x n)) :
    HintFree (blockUpdateHintAlloc (markArea c x n) x n) ∧
    HintCovers (blockUpdateHintAlloc (markArea c x n) x n) := by
  have hexact : ExactBlocks { markArea c x n with mdBlocks := allocMdBlocks (markArea c x n) x n } :=
    fun i hi => exact_allocMdBlocks (c := markArea c x n) hn rfl hfit.free (h.exact i hi)
  rw [blockUpdateHintAlloc]
  split_ifs with hin
  · exact chunkRefreshHint_hint hexact fun k hk => h.first_markArea hk
  constructor
  · intro hne
    obtain ⟨hle, hfree⟩ := hhint.1 hne
    have hout := hok hne
    have hnot : ¬(c.contigBitsStart ≤ x ∧ x < c.contigBitsStart + c.contigBits) := hin
    refine ⟨hle, fun k hk hlt => bitmapSet_iff.mpr ⟨hfree k hk hlt, ?_⟩⟩
    have hk' : c.contigBitsStart ≤ k ∧ k < c.contigBitsStart + c.contigBits := ⟨hk, hlt⟩
    omega
  · exact fun i hi => ((h.exact i hi).contigHint_le (hexact i hi) fun j _ hfree =>
      (bitmapSet_iff.mp hfree).1).trans (hhint.2 i hi)

/-- The hint after a free inside block `s`, without a scan. -/
theorem hint_chunkUpdate {s start stop : ℕ} {md : ℕ → BlockMd} (hhint : HintFree c ∧ HintCovers c)
    (hs : s < c.nrBlocks) (hrun : FreeRun (indexAllocMap (clearArea c x n) s) start stop)
    (hblock : md s = blockUpdate (c.mdBlocks s) start stop) (hother : ∀ i, i ≠ s → md i = c.mdBlocks i)
    (hok : (md s).contigHint = c.contigBits → c.contigBitsStart ≠ 0 →
      (blockOffToOff s start = 0 ∨ ffs (blockOffToOff s start) > ffs c.contigBitsStart) →
      c.contigBits ≤ stop - start) : HintFree
    (chunkUpdate { clearArea c x n with mdBlocks := md } (blockOffToOff s start) (md s).contigHint) ∧
    HintCovers (chunkUpdate { clearArea c x n with mdBlocks := md } (blockOffToOff s start)
      (md s).contigHint) := by
  have hstop := hrun.le
  have hlt := hrun.lt
  have hmap := mapBits_ge hs
  constructor
  · refine hintFree_chunkUpdate (fun hne => ?_) fun htaken => ?_
    · obtain ⟨hle, hfree⟩ := hhint.1 hne
      exact ⟨hle, fun k hk hlt => bitmapClear_iff.mpr (.inl (hfree k hk hlt))⟩
    -- the run that is promised is the one around the freed bits
    have hlen : (md s).contigHint ≤ stop - start := by
      rcases htaken with hlong | ⟨heq, hne, hbetter⟩
      · obtain ⟨len, first, hupdate, hlen⟩ := blockUpdate_eq (c.mdBlocks s) start stop
        have hcov := hhint.2 s hs
        have hlong' : c.contigBits < (md s).contigHint := hlong
        rw [hblock, hupdate] at hlong' ⊢
        rcases hlen with ⟨hnew, -⟩ | ⟨hold, -⟩
        · exact hnew.le
        dsimp only at hlong'
        omega
      have heq' : (md s).contigHint = c.contigBits := heq
      rw [heq']
      exact hok heq' hne hbetter
    refine ⟨show blockOffToOff s start + (md s).contigHint ≤ c.mapBits by rw [blockOffToOff]; omega, ?_⟩
    rw [blockOffToOff, add_assoc]
    exact free_of_block (c := clearArea c x n) fun j hj hlt => hrun.mem j hj (by omega)
  obtain ⟨hle, hblock'⟩ := le_chunkUpdate { clearArea c x n with mdBlocks := md } (blockOffToOff s start)
    (md s).contigHint
  obtain ⟨hint, first, heq⟩ :=
    chunkUpdate_eq { clearArea c x n with mdBlocks := md } (blockOffToOff s start) (md s).contigHint
  rw [heq] at hle hblock' ⊢
  intro i hi
  by_cases his : i = s
  · rw [his]
    exact hblock'
  refine (show (md i).contigHint ≤ c.contigBits from ?_).trans hle
  rw [hother i his]
  exact hhint.2 i hi

theorem hint_free {a : Area} (h : Inv c live) (ha : a ∈ live) (hhint : HintFree c ∧ HintCovers c)
    (hok : HintKept c (.free a.bitOff a.bits)) :
    HintFree (blockUpdateHintFree (clearArea c a.bitOff a.bits) a.bitOff a.bits) ∧
      HintCovers (blockUpdateHintFree (clearArea c a.bitOff a.bits) a.bitOff a.bits) := by
  obtain ⟨hpos, -, hle⟩ := h.area a ha
  have hexact :=
    fun i hi => exact_freeMdBlocks (c := clearArea c a.bitOff a.bits) (i := i) hpos rfl hle h.exact hi
  rw [blockUpdateHintFree]
  split_ifs with hpage
  · exact chunkRefreshHint_hint (fun i hi => hexact i hi) fun k hk => h.first_clearArea hk
  have hsame : offToBlockIndex a.bitOff = offToBlockIndex (a.bitOff + a.bits - 1) := by
    by_contra hne
    exact hpage (.inr hne)
  have hcov : Covers a.bitOff a.bits _ _ _ _ := covers hpos
  have hlt := hcov.lt_nrBlocks hle
  have hblock : ∀ start stop, freeMdBlocks (clearArea c a.bitOff a.bits) a.bitOff a.bits start stop
      (offToBlockIndex a.bitOff) = blockUpdate (c.mdBlocks (offToBlockIndex a.bitOff)) start stop := by
    intro start stop
    rw [freeMdBlocks, updateBlocks_start, if_pos hsame]
    rfl
  have hother : ∀ start stop i, i ≠ offToBlockIndex a.bitOff →
      freeMdBlocks (clearArea c a.bitOff a.bits) a.bitOff a.bits start stop i = c.mdBlocks i := by
    intro start stop i hi
    rw [freeMdBlocks, updateBlocks_outside hi (by rwa [← hsame]) (by rw [← hsame]; omega)]
    rfl
  rw [← hsame] at hcov hlt ⊢
  have hgives := hcov.gives (c := clearArea c a.bitOff a.bits) rfl le_rfl le_rfl
  rw [if_pos rfl, if_pos rfl] at hgives
  have hrun := hgives.freeRun ((h.exact _ hlt).freeStart hgives) ((h.exact _ hlt).freeStop hgives)
  refine hint_chunkUpdate hhint hlt hrun (hblock _ _) (hother _ _) ?_
  rw [hblock]
  exact hok hsame

end

/-- In every history whose steps all keep the hint, it is not longer than the longest free run of the
    chunk, and its bits are free. -/
theorem runs_hint [Config] (h : Runs HintKept c live) :
    (∀ len, (∀ s e, IsRun (fun k => c.allocMap k = false) c.mapBits s e → e ≤ s + len) →
      c.contigBits ≤ len) ∧
    (c.contigBits ≠ 0 → ∀ k, c.contigBitsStart ≤ k → k < c.contigBitsStart + c.contigBits →
      c.allocMap k = false) := by
  have hall : HintFree c ∧ HintCovers c := by
    induction h with
    | start nrBlocks other =>
      refine ⟨fun _ =>
        ⟨(Nat.zero_add _).le, fun k _ hk => bitmapClear_iff.mpr (.inr ⟨Nat.zero_le k, hk⟩)⟩,
        fun i (hi : i < nrBlocks) => ?_⟩
      rw [allocChunk_mdBlocks other hi]
      have : 1 * blockBits ≤ nrBlocks * blockBits := Nat.mul_le_mul_right _ (Nat.one_le_of_lt hi)
      rwa [Nat.one_mul] at this
    | alloc rounds populated popOnly hruns hlegal hfind halloc hok ih =>
      obtain ⟨hfit, rfl⟩ := hruns.inv.fits hlegal hfind halloc
      exact hint_alloc hruns.inv ih hlegal.pos hfit hok
    | free hruns ha hok ih =>
      rw [hruns.inv.freeArea_eq ha]
      exact hint_free hruns.inv ha ih hok
  refine ⟨fun len hlongest => ?_, fun hne => (hall.1 hne).2⟩
  by_cases hzero : c.contigBits = 0
  · omega
  obtain ⟨hle, hfree⟩ := hall.1 hzero
  obtain ⟨s, e, hrun, hs, he⟩ := exists_isRun (p := fun k => c.allocMap k = false) (n := c.mapBits)
    (hfree c.contigBitsStart le_rfl (by omega)) (by omega)
  have hstop := hrun.le_stop he.le hfree hle
  have := hlongest s e hrun
  omega

theorem runs_hint_freed : ∃ c, @Runs fourBits (@HintKept fourBits) c [⟨3, 3, 1⟩] ∧ c.contigBits = 3 ∧
    c.allocMap c.contigBitsStart = false := by
  let _ := fourBits
  have hfirst : Runs HintKept (allocated (allocChunk 2 fun _ => true) 3 1 0) [⟨0, 3, 1⟩] :=
    (Runs.start 2 fun _ => true).take 3 0 (by decide +kernel) fun _ => by decide +kernel
  have hsecond := hfirst.take 3 3 (by decide +kernel) fun _ => by decide +kernel
  have hfree := hsecond.free (a := ⟨0, 3, 1⟩) (by decide) (by dsimp only [HintKept]; decide +kernel)
  generalize hc : freeArea _ _ = c at hfree
  have hbits : c.contigBits = 3 := by
    rw [← hc]
    decide +kernel
  exact ⟨c, hfree, hbits, (runs_hint hfree).2 (by omega) _ le_rfl (by omega)⟩

/-- Blocks of eight bits. -/
@[reducible] def eightBits : Config := ⟨8, Nat.succ_pos 7, 3, 3⟩

/-- Two histories after which the hint says too much. In the first one an area is allocated that starts
    before the hint and reaches into it, so that there are not two free bits in a row. In the second one
    the hint is moved to a single free bit, which is better aligned than the two free bits of the
    block. -/
theorem runs_hint_broken :
    (∃ c, @Runs fourBits (fun _ _ => True) c [⟨3, 2, 1⟩, ⟨6, 2, 1⟩, ⟨0, 3, 1⟩] ∧ c.contigBits = 2 ∧
      c.contigBitsStart = 4 ∧ c.allocMap 4 = true ∧ ∀ s e, IsRun (fun k => c.allocMap k = false) 8 s e →
      e ≤ s + 1) ∧ ∃ c, @Runs eightBits (fun _ _ => True) c [⟨5, 3, 1⟩, ⟨1, 2, 1⟩] ∧ c.contigBits = 2 ∧
    c.contigBitsStart = 0 ∧ c.allocMap 1 = true := by
  constructor
  · let _ := fourBits
    have h0 : Runs (fun _ _ => True) (allocChunk 2 fun _ => true) [] := .start ..
    have h1 := h0.take 3 0 (by decide +kernel) trivial
    have h2 := h1.take 1 3 (by decide +kernel) trivial
    have h3 := h2.take 2 4 (by decide +kernel) trivial
    have h4 := h3.take 2 6 (by decide +kernel) trivial
    have h5 := h4.free (a := ⟨3, 1, 1⟩) (by decide) trivial
    have h6 := h5.free (a := ⟨4, 2, 1⟩) (by decide) trivial
    have h7 := h6.take 2 3 (by decide +kernel) trivial
    generalize hc : allocated _ 2 1 3 = c at h7
    have hset : ∀ k < 8, k ≠ 5 → c.allocMap k = true := by
      rw [← hc]
      decide +kernel
    refine ⟨c, h7, by rw [← hc]; decide +kernel, by rw [← hc]; decide +kernel,
      hset 4 (by decide) (by decide), fun s e hrun => ?_⟩
    by_contra hlong
    have hfive : ∀ k, s ≤ k → k < e → k = 5 := by
      intro k hk hlt
      by_contra hne
      have := hrun.mem k hk hlt
      rw [hset k (hlt.trans_le hrun.le) hne] at this
      cases this
    have hs := hfive s le_rfl hrun.lt
    have hs' := hfive (s + 1) (by omega) (by omega)
    omega
  let _ := eightBits
  have h0 : Runs (fun _ _ => True) (allocChunk 1 fun _ => true) [] := .start ..
  have h1 := h0.take 1 0 (by decide +kernel) trivial
  have h2 := h1.take 2 1 (by decide +kernel) trivial
  have h3 := h2.take 2 3 (by decide +kernel) trivial
  have h4 := h3.take 3 5 (by decide +kernel) trivial
  have h5 := h4.free (a := ⟨3, 2, 1⟩) (by decide) trivial
  have h6 := h5.free (a := ⟨0, 1, 1⟩) (by decide) trivial
  exact ⟨_, h6, by decide +kernel, by decide +kernel, by decide +kernel⟩

end LinuxNote.Percpu
