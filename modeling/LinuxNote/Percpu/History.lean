import LinuxNote.Percpu.Fit
import Mathlib.Algebra.Order.Ring.Int
import Mathlib.Order.Interval.Finset.Nat
import Mathlib.Tactic.Ring

/-! Histories of a chunk that starts all free: areas are allocated at an offset that
    `pcpu_find_block_fit` chose, and live areas are freed. The maps, the counters and the metadata always
    agree with the live areas. -/

namespace LinuxNote.Percpu
open List Finset Nat Prod

open Bitmap MaximalRuns

/-- A live area: its place and its size in bits, and the alignment that was asked for. -/
structure Area where
  bitOff : ℕ
  bits : ℕ
  align : ℕ
deriving DecidableEq

/-- The bit `k` belongs to the area. -/
def Area.Has (a : Area) (k : ℕ) : Prop := a.bitOff ≤ k ∧ k < a.bitOff + a.bits

def Area.Disjoint (a b : Area) : Prop := a.bitOff + a.bits ≤ b.bitOff ∨ b.bitOff + b.bits ≤ a.bitOff

/-- What is done to the bits of an area. -/
inductive Step
  | alloc (bitOff bits : ℕ)
  | free (bitOff bits : ℕ)

/-- The clear bits of a map. -/
def freeBits (map : ℕ → Bool) (size : ℕ) : Finset ℕ := (Finset.range size).filter fun k => map k = false

section
variable [Config]

/-- What `pcpu_alloc` lets through: no empty area, and an alignment that is a power of two and not
    larger than a page; nor larger than a block, should blocks be smaller than pages. -/
structure Legal (bits align : ℕ) : Prop where
  pos : 0 < bits
  align_eq : ∃ k, align = 2 ^ k
  align_le : align ≤ bitsPerPage
  align_block : align ≤ blockBits

/-- The states of a chunk with its live areas, when every step is `ok`. Which pages are populated can be
    different at every call. -/
inductive Runs (ok : Chunk → Step → Prop) : Chunk → List Area → Prop
  | start (nrBlocks : ℕ) (other : ℕ → Bool) : Runs ok (allocChunk nrBlocks other) []
  | alloc {c live bits align start off c'} (rounds : ℕ) (populated : ℕ → Bool) (popOnly : Bool) :
      Runs ok c live → Legal bits align → findBlockFit rounds c populated bits align popOnly =
      .ok (some start) → allocArea c bits align start = some (off, c') →
      ok c (.alloc (off / minAllocSize) bits) → Runs ok c' (⟨off / minAllocSize, bits, align⟩ :: live)
  | free {c live a} : Runs ok c live → a ∈ live → ok c (.free a.bitOff a.bits) →
      Runs ok (freeArea c (a.bitOff * minAllocSize)) (live.erase a)

end

variable {ok : Chunk → Step → Prop} {map map' : ℕ → Bool} {c c' : Chunk} {live : List Area} {a b : Area}
  {x n k size : ℕ}

/-! ### Clear bits -/

theorem mem_freeBits : k ∈ freeBits map size ↔ k < size ∧ map k = false := by
  rw [freeBits, Finset.mem_filter, Finset.mem_range]

/-- There are `n` more clear bits when `[x, x + n)` is clear and was not. -/
theorem card_freeBits_add (hle : x + n ≤ size)
    (hiff : ∀ k < size, map' k = false ↔ map k = false ∨ x ≤ k ∧ k < x + n)
    (hset : ∀ k, x ≤ k → k < x + n → map k = true) :
    (freeBits map' size).card = (freeBits map size).card + n := by
  have hunion : freeBits map' size = freeBits map size ∪ Finset.Ico x (x + n) := by
    ext k
    rw [mem_union, mem_freeBits, mem_freeBits, mem_Ico]
    constructor
    · rintro ⟨hk, hfree⟩
      rcases (hiff k hk).mp hfree with hmap | hin
      · exact .inl ⟨hk, hmap⟩
      · exact .inr hin
    rintro (⟨hk, hmap⟩ | hin)
    · exact ⟨hk, (hiff k hk).mpr (.inl hmap)⟩
    have hk : k < size := by omega
    exact ⟨hk, (hiff k hk).mpr (.inr hin)⟩
  have hdisj : Disjoint (freeBits map size) (Finset.Ico x (x + n)) := by
    refine disjoint_left.mpr fun k hk hin => ?_
    rw [mem_Ico] at hin
    have hfree := (mem_freeBits.mp hk).2
    rw [hset k hin.1 hin.2] at hfree
    cases hfree
  rw [hunion, card_union_of_disjoint hdisj, Nat.card_Ico, Nat.add_sub_cancel_left]

/-! ### What the updates of the hints leave alone -/

theorem chunkUpdate_eq (c : Chunk) (bitOff bits : ℕ) :
    ∃ h s, chunkUpdate c bitOff bits = { c with contigBits := h, contigBitsStart := s } := by
  rw [chunkUpdate]
  split_ifs
  · exact ⟨_, _, rfl⟩
  · exact ⟨_, _, rfl⟩
  · exact ⟨_, _, rfl⟩

section
variable [Config]

theorem chunkRefreshLoop_eq (rounds bitOff : ℕ) (c : Chunk) :
    ∃ h s, chunkRefreshLoop rounds bitOff c = { c with contigBits := h, contigBitsStart := s } := by
  induction rounds generalizing bitOff c with
  | zero => exact ⟨_, _, rfl⟩
  | succ rounds ih =>
    rw [chunkRefreshLoop]
    obtain ⟨off, bits⟩ := nextMdFreeRegion c bitOff
    split_ifs
    · obtain ⟨h, s, heq⟩ := chunkUpdate_eq c off bits
      obtain ⟨h', s', heq'⟩ := ih (off + bits + 1) (chunkUpdate c off bits)
      exact ⟨h', s', by rw [heq', heq]⟩
    · exact ⟨_, _, rfl⟩

theorem chunkRefreshHint_eq (c : Chunk) :
    ∃ h s, chunkRefreshHint c = { c with contigBits := h, contigBitsStart := s } := by
  obtain ⟨h, s, heq⟩ := chunkRefreshLoop_eq (c.mapBits + 1) c.firstBit { c with contigBits := 0 }
  exact ⟨h, s, heq⟩

theorem blockUpdateHintAlloc_eq (c : Chunk) (x n : ℕ) : ∃ h s, blockUpdateHintAlloc c x n =
    { c with mdBlocks := allocMdBlocks c x n, contigBits := h, contigBitsStart := s } := by
  rw [blockUpdateHintAlloc]
  split_ifs
  · obtain ⟨h, s, heq⟩ := chunkRefreshHint_eq { c with mdBlocks := allocMdBlocks c x n }
    exact ⟨h, s, heq⟩
  · exact ⟨_, _, rfl⟩

theorem blockUpdateHintFree_eq (c : Chunk) (x n : ℕ) : ∃ h s, blockUpdateHintFree c x n = { c with
        mdBlocks := freeMdBlocks c x n
          (freeStart (indexAllocMap c (offToBlockIndex x)) (offToBlockOff x)
            (c.mdBlocks (offToBlockIndex x)))
            (freeStop (indexAllocMap c (offToBlockIndex (x + n - 1))) (offToBlockOff (x + n - 1) + 1)
              (c.mdBlocks (offToBlockIndex (x + n - 1))))
        contigBits := h
        contigBitsStart := s } := by
  rw [blockUpdateHintFree]
  split_ifs
  · obtain ⟨h, s, heq⟩ := chunkRefreshHint_eq { c with mdBlocks := _ }
    exact ⟨h, s, heq⟩
  obtain ⟨h, s, heq⟩ := chunkUpdate_eq { c with mdBlocks := _ } _ _
  exact ⟨h, s, heq⟩

/-! ### The invariant -/

/-- The chunk agrees with its live areas. -/
structure Inv (c : Chunk) (live : List Area) : Prop where
  exact : ExactBlocks c
  area : ∀ a ∈ live, 0 < a.bits ∧ a.align ∣ a.bitOff ∧ a.bitOff + a.bits ≤ c.mapBits
  disjoint : live.Pairwise Area.Disjoint
  map_iff : ∀ k < c.mapBits, c.allocMap k = true ↔ ∃ a ∈ live, a.Has k
  bound_inside : ∀ a ∈ live, ∀ k, a.bitOff < k → k < a.bitOff + a.bits → c.boundMap k = false
  bound_end : ∀ a ∈ live, c.boundMap (a.bitOff + a.bits) = true
  freeBytes_eq : c.freeBytes = minAllocSize * (freeBits c.allocMap c.mapBits).card
  first_le : ∀ k < c.mapBits, c.allocMap k = false → c.firstBit ≤ k

theorem allocChunk_mdBlocks {nrBlocks i : ℕ} (other : ℕ → Bool) (hi : i < nrBlocks) :
    (allocChunk nrBlocks other).mdBlocks i = ⟨blockBits, 0, blockBits, blockBits, 0⟩ :=
  if_pos ⟨zero_le i, hi⟩

theorem inv_allocChunk (nrBlocks : ℕ) (other : ℕ → Bool) : Inv (allocChunk nrBlocks other) [] := by
  have hclear : ∀ k < nrBlocks * blockBits, bitmapClear other 0 (nrBlocks * blockBits) k = false := by
    intro k hk
    exact bitmapClear_iff.mpr (.inr ⟨zero_le k, by omega⟩)
  have hall : freeBits (bitmapClear other 0 (nrBlocks * blockBits)) (nrBlocks * blockBits) =
      Finset.range (nrBlocks * blockBits) :=
    Finset.filter_true_of_mem fun k hk => hclear k (Finset.mem_range.mp hk)
  refine ⟨fun i (hi : i < nrBlocks) => ?_, fun a ha => absurd ha not_mem_nil, .nil, fun k hk => ?_,
    fun a ha => absurd ha not_mem_nil, fun a ha => absurd ha not_mem_nil, ?_, fun k _ _ => zero_le k⟩
  · rw [allocChunk_mdBlocks other hi]
    refine exact_empty fun j hj => hclear _ ?_
    have := mul_block_le hi
    omega
  · refine iff_of_false ?_ (by rintro ⟨a, ha, -⟩; exact absurd ha not_mem_nil)
    rw [Bool.not_eq_true]
    exact hclear k hk
  have hbytes : (allocChunk nrBlocks other).freeBytes = ((nrBlocks * blockBits : ℕ) : ℤ) *
    minAllocSize := by
    rfl
  have hcard : (freeBits (allocChunk nrBlocks other).allocMap (allocChunk nrBlocks other).mapBits).card =
      nrBlocks * blockBits := (congrArg card hall).trans (card_range _)
  rw [hbytes, hcard, Int.mul_comm]

/-! ### Allocation -/

section
variable {align : ℕ} (h : Inv c live) (hn : 0 < n) (hfit : Fits c n align x)
include h hn hfit

/-- An area that fits has no bit in common with a live one. -/
theorem Inv.disjoint_of_fits : ∀ a ∈ live, Area.Disjoint ⟨x, n, align⟩ a := by
  intro a ha
  obtain ⟨hpos, -, hle⟩ := h.area a ha
  by_contra hmeet
  dsimp only [Area.Disjoint] at hmeet
  have hkx : x ≤ max x a.bitOff ∧ max x a.bitOff < x + n := by omega
  have hka : a.Has (max x a.bitOff) := by
    rw [Area.Has]
    omega
  have hset := (h.map_iff _ (hka.2.trans_le hle)).mpr ⟨a, ha, hka⟩
  rw [hfit.free _ hkx.1 hkx.2] at hset
  cases hset

/-- The boundary bits of the live areas stay, whatever other areas left behind in the map. -/
theorem Inv.bound_markArea : ∀ a ∈ (⟨x, n, align⟩ : Area) :: live,
    (∀ k, a.bitOff < k → k < a.bitOff + a.bits → (markArea c x n).boundMap k = false) ∧
      (markArea c x n).boundMap (a.bitOff + a.bits) = true := by
  have hbound : ∀ k, (markArea c x n).boundMap k = if k = x + n then true
      else if x + 1 ≤ k ∧ k < x + 1 + (n - 1) then false else if k = x then true else c.boundMap k := by
    intro k
    simp only [markArea, bitmapClear, Function.update_apply]
  intro a ha
  rcases mem_cons.mp ha with rfl | ha
  · refine ⟨fun k hlo hhi => ?_, (hbound _).trans (if_pos rfl)⟩
    dsimp only at hlo hhi
    rw [hbound, if_neg (by omega), if_pos (by omega)]
  have hout := h.disjoint_of_fits hn hfit a ha
  dsimp only [Area.Disjoint] at hout
  constructor
  · intro k hlo hhi
    rw [hbound, if_neg (by omega), if_neg (show k ≠ x by omega), h.bound_inside a ha k hlo hhi, ite_self]
  · rw [hbound, if_neg (show ¬(x + 1 ≤ a.bitOff + a.bits ∧ _) by omega), h.bound_end a ha,
      ite_self, ite_self]

omit hn in
theorem Inv.freeBytes_markArea :
    (markArea c x n).freeBytes = minAllocSize * (freeBits (markArea c x n).allocMap c.mapBits).card := by
  have hcard : (freeBits c.allocMap c.mapBits).card =
    (freeBits (markArea c x n).allocMap c.mapBits).card + n := by
    refine card_freeBits_add hfit.le (fun k _ => ?_) fun k hlo hhi => if_pos ⟨hlo, hhi⟩
    rw [markArea, bitmapSet_iff]
    constructor
    · intro hfree
      by_cases hin : x ≤ k ∧ k < x + n
      · exact .inr hin
      · exact .inl ⟨hfree, hin⟩
    rintro (hk | hin)
    · exact hk.1
    · exact hfit.free k hin.1 hin.2
  calc (markArea c x n).freeBytes = c.freeBytes - n * minAllocSize := rfl
    _ = minAllocSize * ((freeBits (markArea c x n).allocMap c.mapBits).card + n : ℕ) - n *
    minAllocSize := by
      rw [h.freeBytes_eq, hcard]
    _ = minAllocSize * (freeBits (markArea c x n).allocMap c.mapBits).card := by
      push_cast
      ring

omit hn hfit in
theorem Inv.first_markArea (hk : k < c.mapBits) (hfree : (markArea c x n).allocMap k = false) :
    (markArea c x n).firstBit ≤ k := by
  obtain ⟨hmap, hout⟩ := bitmapSet_iff.mp hfree
  have hfirst := h.first_le k hk hmap
  rw [markArea] at hfree ⊢
  dsimp only at hfree ⊢
  split_ifs with hx
  · exact findNext_le (by omega) hk (by rw [hfree]; rfl)
  · exact hfirst

/-- An area is allocated where it fits. -/
theorem Inv.alloc : Inv (blockUpdateHintAlloc (markArea c x n) x n) (⟨x, n, align⟩ :: live) := by
  obtain ⟨hint, start, heq⟩ := blockUpdateHintAlloc_eq (markArea c x n) x n
  rw [heq]
  have hexact : ∀ i < c.nrBlocks,
    Exact (indexAllocMap (markArea c x n) i) (allocMdBlocks (markArea c x n) x n i) :=
    fun i hi => exact_allocMdBlocks hn rfl hfit.free (h.exact i hi)
  have hbound := h.bound_markArea hn hfit
  refine ⟨hexact, fun a ha => ?_, pairwise_cons.mpr ⟨h.disjoint_of_fits hn hfit, h.disjoint⟩,
    fun k hk => ?_, fun a ha => (hbound a ha).1, fun a ha => (hbound a ha).2, h.freeBytes_markArea hfit,
    fun k hk => h.first_markArea hk⟩
  · rcases mem_cons.mp ha with rfl | ha
    · exact ⟨hn, hfit.aligned, hfit.le⟩
    · exact h.area a ha
  rw [exists_mem_cons_iff, ← h.map_iff k hk, ← Bool.not_eq_false, ← Bool.not_eq_false (c.allocMap k)]
  refine (not_congr bitmapSet_iff).trans ?_
  rw [not_and_or, not_not]
  exact or_comm

end

/-! ### Free -/

section
variable (h : Inv c live) (ha : a ∈ live)
include h ha

/-- The size of the area is found by its boundary bits. -/
theorem Inv.freeArea_eq :
    freeArea c (a.bitOff * minAllocSize) = blockUpdateHintFree (clearArea c a.bitOff a.bits) a.bitOff
    a.bits := by
  obtain ⟨hpos, -, hle⟩ := h.area a ha
  have hnext : findNextBit c.boundMap c.mapBits (a.bitOff + 1) = a.bitOff + a.bits :=
    IsNext.eq ⟨by omega, hle, fun k hk hlt => h.bound_inside a ha k (by omega) hlt,
      fun _ => h.bound_end a ha⟩
  rw [freeArea, Nat.mul_div_cancel _ minAllocSize_pos, hnext, Nat.add_sub_cancel_left]

theorem Inv.freeBytes_clearArea : (clearArea c a.bitOff a.bits).freeBytes =
      minAllocSize * (freeBits (clearArea c a.bitOff a.bits).allocMap c.mapBits).card := by
  obtain ⟨-, -, hle⟩ := h.area a ha
  have hcard : (freeBits (clearArea c a.bitOff a.bits).allocMap c.mapBits).card =
    (freeBits c.allocMap c.mapBits).card + a.bits :=
    card_freeBits_add hle (fun k _ => bitmapClear_iff) fun k hlo hhi =>
      (h.map_iff k (by omega)).mpr ⟨a, ha, hlo, hhi⟩
  calc (clearArea c a.bitOff a.bits).freeBytes = c.freeBytes + a.bits * minAllocSize := rfl
    _ = minAllocSize * ((freeBits c.allocMap c.mapBits).card + a.bits : ℕ) := by
      rw [h.freeBytes_eq]
      push_cast
      ring
    _ = minAllocSize * (freeBits (clearArea c a.bitOff a.bits).allocMap c.mapBits).card := by rw [hcard]

omit ha in
theorem Inv.first_clearArea (hk : k < c.mapBits) (hfree : (clearArea c x n).allocMap k = false) :
    (clearArea c x n).firstBit ≤ k := by
  rcases bitmapClear_iff.mp hfree with hmap | hin
  · exact (min_le_left ..).trans (h.first_le k hk hmap)
  · exact (min_le_right ..).trans hin.1

/-- A live area is freed. -/
theorem Inv.free : Inv (freeArea c (a.bitOff * minAllocSize)) (live.erase a) := by
  obtain ⟨hpos, -, hle⟩ := h.area a ha
  rw [h.freeArea_eq ha]
  obtain ⟨hint, start, heq⟩ := blockUpdateHintFree_eq (clearArea c a.bitOff a.bits) a.bitOff a.bits
  rw [heq]
  have hmem : ∀ b ∈ live.erase a, b ∈ live := fun b hb => mem_of_mem_erase hb
  have hexact : ∀ i < c.nrBlocks, Exact (indexAllocMap (clearArea c a.bitOff a.bits) i) _ := fun i hi =>
    exact_freeMdBlocks (c := clearArea c a.bitOff a.bits) hpos rfl hle h.exact hi
  refine ⟨hexact, fun b hb => h.area b (hmem b hb), h.disjoint.sublist erase_sublist, fun k hk => ?_,
    fun b hb => h.bound_inside b (hmem b hb), fun b hb => h.bound_end b (hmem b hb),
    h.freeBytes_clearArea ha, fun k hk => h.first_clearArea hk⟩
  rw [← Bool.not_eq_false]
  refine (not_congr bitmapClear_iff).trans ?_
  rw [not_or, Bool.not_eq_false, h.map_iff k hk]
  constructor
  · rintro ⟨⟨b, hb, hk⟩, hout⟩
    refine ⟨b, (mem_erase_of_ne fun heq => hout ?_).mpr hb, hk⟩
    rw [← heq]
    exact hk
  rintro ⟨b, hb, hk⟩
  refine ⟨⟨b, hmem b hb, hk⟩, fun hin => ?_⟩
  have hperm := (perm_cons_erase ha).pairwise_iff (R := Area.Disjoint) fun hab => Or.symm hab
  have hout := (pairwise_cons.mp (hperm.mp h.disjoint)).1 b hb
  rw [Area.Disjoint] at hout
  rw [Area.Has] at hk
  omega

end

/-! ### Histories -/

theorem Legal.dvd {bits align : ℕ} (h : Legal bits align) : align ∣ blockBits := by
  obtain ⟨k, rfl⟩ := h.align_eq
  exact pow_dvd_pow 2 ((Nat.pow_le_pow_iff_right (by decide)).mp h.align_block)

theorem Legal.align_pos {bits align : ℕ} (h : Legal bits align) : 0 < align := by
  obtain ⟨k, rfl⟩ := h.align_eq
  exact Nat.two_pow_pos k

/-- What a successful allocation does. -/
theorem Inv.fits {align start off rounds : ℕ} {populated : ℕ → Bool} {popOnly : Bool} (h : Inv c live)
    (hlegal : Legal n align) (hfind : findBlockFit rounds c populated n align popOnly = .ok (some start))
    (halloc : allocArea c n align start = some (off, c')) : Fits c n align (off / minAllocSize) ∧
    c' = blockUpdateHintAlloc (markArea c (off / minAllocSize) n) (off / minAllocSize) n := by
  obtain ⟨-, -, ⟨-, f, hf, hfB, -, hfit⟩, -⟩ :=
    findBlockFit_region h.exact hlegal.dvd hlegal.align_pos hlegal.pos hfind
  obtain ⟨k, rfl⟩ := hlegal.align_eq
  obtain ⟨x, hx, -, -, hfit⟩ := allocArea_spec hf hfB hfit
  obtain ⟨rfl, rfl⟩ := mk.inj (Option.some.inj (hx.symm.trans halloc))
  rw [Nat.mul_div_cancel _ minAllocSize_pos]
  exact ⟨hfit, rfl⟩

theorem Runs.inv (h : Runs ok c live) : Inv c live := by
  induction h with
  | start nrBlocks other => exact inv_allocChunk nrBlocks other
  | alloc rounds populated popOnly _ hlegal hfind halloc _ ih =>
    obtain ⟨hfit, rfl⟩ := ih.fits hlegal hfind halloc
    exact ih.alloc hlegal.pos hfit
  | free _ ha _ ih => exact ih.free ha

/-- The chunk after an allocation, and the same chunk when it fails. -/
def allocated (c : Chunk) (bits align start : ℕ) : Chunk :=
  ((allocArea c bits align start).map snd).getD c

/-- An allocation without alignment in a populated chunk, whose outcome has been computed. -/
theorem Runs.take (h : Runs ok c live) (n start : ℕ)
    (hcalls : 0 < n ∧ (findBlockFit 1 c (fun _ => true) n 1 true).toOption = some (some start) ∧
      (allocArea c n 1 start).map fst = some (start * minAllocSize)) (hok : ok c (.alloc start n)) :
    Runs ok (allocated c n 1 start) (⟨start, n, 1⟩ :: live) := by
  obtain ⟨hpos, hfind, halloc⟩ := hcalls
  obtain ⟨⟨off, c'⟩, hres, rfl⟩ := Option.map_eq_some_iff.mp halloc
  have hstart : findBlockFit 1 c (fun _ => true) n 1 true = .ok (some start) := by
    rcases hx : findBlockFit 1 c (fun _ => true) n 1 true with e | y
    · rw [hx] at hfind
      cases hfind
    rw [hx] at hfind
    exact congrArg Except.ok (Option.some.inj hfind)
  have hx : start * minAllocSize / minAllocSize = start := Nat.mul_div_cancel _ minAllocSize_pos
  have hlegal : Legal n 1 := ⟨hpos, ⟨0, rfl⟩, Nat.two_pow_pos _, Nat.two_pow_pos _⟩
  have hruns := Runs.alloc 1 (fun _ => true) true h hlegal hstart hres
  rw [hx] at hruns
  rw [allocated, hres]
  exact hruns hok

end

/-- Blocks of four bits. -/
@[reducible] def fourBits : Config := ⟨4, succ_pos 3, 2, 2⟩

/-- A chunk of eight bits in which the second area lies in both blocks. -/
theorem exists_runs_fourBits :
    ∃ c, @Runs fourBits (fun _ _ => True) c [⟨3, 3, 1⟩, ⟨0, 3, 1⟩] ∧ c.nrBlocks = 2 ∧
    c.allocMap 7 = false := by
  let _ := fourBits
  have hfirst : Runs (fun _ _ => True) (allocated (allocChunk 2 fun _ => true) 3 1 0) [⟨0, 3, 1⟩] :=
    (Runs.start 2 fun _ => true).take 3 0 (by decide +kernel) trivial
  have hsecond := hfirst.take 3 3 (by decide +kernel) trivial
  exact ⟨_, hsecond, by decide +kernel, by decide +kernel⟩

/-- In every history the live areas are apart, aligned and inside the map, and the maps and the counters
    agree with them. A free clears the bits of the area that was allocated at its offset and no
    others. -/
theorem runs_areas [Config] (h : Runs ok c live) :
    live.Pairwise Area.Disjoint ∧ (∀ a ∈ live, a.align ∣ a.bitOff ∧ a.bitOff + a.bits ≤ c.mapBits) ∧
    (∀ k < c.mapBits, c.allocMap k = true ↔ ∃ a ∈ live, a.Has k) ∧
    (∀ a ∈ live, ∀ k, (freeArea c (a.bitOff * minAllocSize)).allocMap k = true ↔
      c.allocMap k = true ∧ ¬a.Has k) ∧
    c.freeBytes = minAllocSize * (freeBits c.allocMap c.mapBits).card ∧
    ∀ k < c.mapBits, c.allocMap k = false → c.firstBit ≤ k := by
  have hinv := h.inv
  refine ⟨hinv.disjoint, fun a ha => (hinv.area a ha).2, hinv.map_iff, fun a ha k => ?_,
    hinv.freeBytes_eq, hinv.first_le⟩
  rw [hinv.freeArea_eq ha]
  obtain ⟨hint, start, heq⟩ := blockUpdateHintFree_eq (clearArea c a.bitOff a.bits) a.bitOff a.bits
  rw [heq, ← Bool.not_eq_false]
  refine (not_congr bitmapClear_iff).trans ?_
  rw [not_or, Bool.not_eq_false, Area.Has]

theorem runs_areas_across : ∃ c, @Runs fourBits (fun _ _ => True) c [⟨3, 3, 1⟩, ⟨0, 3, 1⟩] ∧
    ∃ live, @Runs fourBits (fun _ _ => True) (@freeArea fourBits c 12) live ∧ c.firstBit ≤ 7 := by
  let _ := fourBits
  obtain ⟨c, hruns, hnr, hfree⟩ := exists_runs_fourBits
  have hseven : 7 < c.mapBits := by
    rw [Chunk.mapBits, hnr]
    decide
  obtain ⟨-, -, -, -, -, hfirst⟩ := runs_areas hruns
  exact ⟨c, hruns, _, hruns.free (a := ⟨3, 3, 1⟩) (List.mem_cons_self ..) trivial, hfirst 7 hseven hfree⟩

/-- In every history the metadata of every block is exact. -/
theorem runs_blocks [Config] (h : Runs ok c live) : ∀ i < c.nrBlocks,
    LeftEdge (fun j => indexAllocMap c i j = false) blockBits (c.mdBlocks i).leftFree ∧
    RightEdge (fun j => indexAllocMap c i j = false) blockBits (c.mdBlocks i).rightFree ∧
    (∀ s e, IsRun (fun j => indexAllocMap c i j = false) blockBits s e →
      e ≤ s + (c.mdBlocks i).contigHint) ∧
    ((c.mdBlocks i).contigHint ≠ 0 → IsRun (fun j => indexAllocMap c i j = false) blockBits
      (c.mdBlocks i).contigHintStart ((c.mdBlocks i).contigHintStart + (c.mdBlocks i).contigHint)) ∧
    ∀ j < blockBits, indexAllocMap c i j = false → (c.mdBlocks i).firstFree ≤ j := by
  intro i hi
  have hexact := h.inv.exact i hi
  obtain ⟨hleft, hright, hlongest, hstart⟩ := summary_isRun_iff.mp hexact.hints
  exact ⟨hleft, hright, hlongest, hstart, hexact.first⟩

theorem runs_blocks_across : ∃ c, @Runs fourBits (fun _ _ => True) c [⟨3, 3, 1⟩, ⟨0, 3, 1⟩] ∧
    LeftEdge (fun j => @indexAllocMap fourBits c 1 j = false) 4 (c.mdBlocks 1).leftFree := by
  let _ := fourBits
  obtain ⟨c, hruns, hnr, -⟩ := exists_runs_fourBits
  exact ⟨c, hruns, (runs_blocks hruns 1 (by rw [hnr]; decide)).1⟩

/-! ### Where an area is looked for -/

end LinuxNote.Percpu
