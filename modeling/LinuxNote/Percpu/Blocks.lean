import LinuxNote.Lib.MaximalRuns
import LinuxNote.Percpu.Basic

/-! The metadata of one block says exactly which free runs the block has. The updates on allocation and
    on free keep it so, whether they scan the block again or not. -/

namespace LinuxNote.Percpu
open Bool Nat

open Bitmap (findNext isNext_findNext findNext_le findNext_of_le)
open MaximalRuns

variable {map map' : ℕ → Bool} {block : BlockMd} {s t a b j rs stop rounds bits sOff eOff : ℕ}

/-! ### Searches -/

/-- The region that a round of the scan finds. -/
theorem nextUnpop_region (h : (nextUnpop map rs stop).1 < (nextUnpop map rs stop).2) :
    rs ≤ (nextUnpop map rs stop).1 ∧ (∀ j, rs ≤ j → j < (nextUnpop map rs stop).1 → map j = true) ∧
      (nextUnpop map rs stop).2 ≤ stop ∧
      (∀ j, (nextUnpop map rs stop).1 ≤ j → j < (nextUnpop map rs stop).2 → map j = false) ∧
      ((nextUnpop map rs stop).2 < stop → map (nextUnpop map rs stop).2 = true) := by
  dsimp only [nextUnpop, findNextZeroBit, findNextBit] at h ⊢
  rcases lt_or_ge rs stop with hlt | hge
  · have hfirst := isNext_findNext (fun i => !map i) hlt.le
    generalize findNext (fun i => !map i) stop rs = r at *
    rcases lt_or_ge r stop with hr | hr
    · have hsecond := isNext_findNext map hr
      have hbit := hfirst.hit hr
      refine ⟨hfirst.ge, fun j hj hjr => by simpa using hfirst.skip j hj hjr, hsecond.le,
        fun j hj hjr => ?_, hsecond.hit⟩
      rcases eq_or_lt_of_le hj with rfl | hj
      · simpa using hbit
      · exact hsecond.skip j hj hjr
    · rw [findNext_of_le (by omega)] at h
      omega
  · rw [findNext_of_le hge, findNext_of_le (by omega)] at h
    exact absurd h (lt_irrefl stop)

theorem nextUnpop_none (h : ¬(nextUnpop map rs stop).1 < (nextUnpop map rs stop).2) (hj : rs ≤ j)
    (hlt : j < stop) : map j = true := by
  dsimp only [nextUnpop, findNextZeroBit, findNextBit] at h
  have hfirst := isNext_findNext (fun i => !map i) (hj.trans hlt.le)
  generalize findNext (fun i => !map i) stop rs = r at *
  rcases lt_or_ge r stop with hr | hr
  · exact absurd (isNext_findNext map hr).ge h
  · simpa using hfirst.skip j hj (by omega)

theorem lastBit_spec (map : ℕ → Bool) (size : ℕ) :
    (lastBit map size = none ∧ ∀ j < size, map j = false) ∨
      ∃ i < size, lastBit map size = some i ∧ map i = true ∧ ∀ j, i < j → j < size → map j = false := by
  induction size with
  | zero => exact .inl ⟨rfl, fun j hj => absurd hj (not_lt_zero j)⟩
  | succ size ih =>
    rw [lastBit]
    split
    case isTrue hbit => exact .inr ⟨size, by omega, rfl, hbit, fun j hj hlt => by omega⟩
    case isFalse hbit =>
      have hlast : ∀ j, ¬j < size → j < size + 1 → map j = false := fun j hj hlt => by
        rw [show j = size by omega]
        exact eq_false_of_ne_true hbit
      rcases ih with ⟨hnone, hfree⟩ | ⟨i, hi, hsome, hset, hfree⟩
      · refine .inl ⟨hnone, fun j hj => ?_⟩
        by_cases hlt : j < size
        · exact hfree j hlt
        · exact hlast j hlt hj
      refine .inr ⟨i, by omega, hsome, hset, fun j hij hj => ?_⟩
      by_cases hlt : j < size
      · exact hfree j hij hlt
      · exact hlast j hlt hj

section
variable [Config]

/-- A free run of a block with the map `map`. -/
def FreeRun (map : ℕ → Bool) : ℕ → ℕ → Prop := IsRun (fun j => map j = false) blockBits

/-- The hints of the block are about the runs in `K`. -/
def Hints (K : ℕ → ℕ → Prop) (block : BlockMd) : Prop :=
  Summary K blockBits block.leftFree block.rightFree block.contigHint block.contigHintStart

/-- The metadata is about the free runs of `map`. -/
structure Exact (map : ℕ → Bool) (block : BlockMd) : Prop where
  hints : Hints (FreeRun map) block
  first : ∀ j < blockBits, map j = false → block.firstFree ≤ j

theorem Exact.congr (h : Exact map block) (hmap : ∀ j < blockBits, map' j = map j) :
    Exact map' block := by
  have hsub : ∀ {m m' : ℕ → Bool}, (∀ j < blockBits, m' j = m j) → ∀ s e, FreeRun m s e →
    FreeRun m' s e := by
    intro m m' hm s e hrun
    refine hrun.of_subset (fun j hj hfree => (hm j hj).symm.trans hfree) fun j hs he => ?_
    rw [hm j (he.trans_le hrun.le)]
    exact hrun.mem j hs he
  have hruns : FreeRun map' = FreeRun map := by
    funext s e
    exact propext ⟨hsub (fun j hj => (hmap j hj).symm) s e, hsub hmap s e⟩
  refine ⟨hruns ▸ h.hints, fun j hj hfree => h.first j hj ?_⟩
  rwa [← hmap j hj]

/-! ### Scanning a block -/

theorem blockUpdate_eq (block : BlockMd) (s t : ℕ) : ∃ len start, blockUpdate block s t =
        { contigHint := len, contigHintStart := start
          leftFree := if s = 0 then t - s else block.leftFree
          rightFree := if t = blockBits then t - s else block.rightFree
          firstFree := min block.firstFree s } ∧ (len = t - s ∧ start = s ∧ block.contigHint ≤ t - s ∨
        len = block.contigHint ∧ start = block.contigHintStart ∧ t - s ≤ block.contigHint) := by
  rw [blockUpdate]
  by_cases hs : s = 0 <;> by_cases ht : t = blockBits <;>
    simp only [hs, ht, if_true, if_false] <;> split_ifs
  all_goals first
    | exact ⟨_, _, rfl, .inl ⟨rfl, rfl, by omega⟩⟩
    | exact ⟨_, _, rfl, .inr ⟨rfl, rfl, by omega⟩⟩
    | exact ⟨_, _, rfl, .inl ⟨by omega, rfl, by omega⟩⟩

@[simp] theorem blockUpdate_firstFree (block : BlockMd) (s t : ℕ) :
    (blockUpdate block s t).firstFree = min block.firstFree s := by
  obtain ⟨len, start, heq, -⟩ := blockUpdate_eq block s t
  rw [heq]

/-- When every bit from `rs` on is allocated, the runs that start before `rs` are all the runs. -/
theorem freeRun_before (hfull : ∀ j, rs ≤ j → j < blockBits → map j = true) :
    (fun s e => FreeRun map s e ∧ s < rs) = FreeRun map := by
  funext s e
  refine propext ⟨And.left, fun hrun => ⟨hrun, ?_⟩⟩
  by_contra hge
  have hset := hfull s (by omega) (hrun.lt.trans_le hrun.le)
  rw [hrun.mem s le_rfl hrun.lt] at hset
  cases hset

/-- A region found by the scan is the next run. -/
theorem hints_region (hints : Hints (fun s e => FreeRun map s e ∧ s < rs) block) (hrun : FreeRun map s t)
    (hge : rs ≤ s) (hskip : ∀ j, rs ≤ j → j < s → map j = true) :
    Hints (fun x y => FreeRun map x y ∧ x < t + 1) (blockUpdate block s t) := by
  have hst := hrun.lt
  have htn := hrun.le
  obtain ⟨len, start, heq, hlen⟩ := blockUpdate_eq block s t
  rw [heq]
  refine hints.add hst htn ⟨hrun, by omega⟩ (fun x y hxy => ?_) (fun x y hxy => .inl ⟨hxy.1, ?_⟩)
    (fun y hy hs => ?_) (fun x hx ht => ?_) hlen
  · by_cases hlt : x < rs
    · exact .inl ⟨hxy.1, hlt⟩
    have hsx : s ≤ x := by
      by_contra hxs
      have hset := hskip x (by omega) (by omega)
      rw [hxy.1.mem x le_rfl hxy.1.lt] at hset
      cases hset
    have hxlt := hxy.1.lt
    exact .inr (hxy.1.unique hrun (by omega) (by omega))
  · have := hxy.2
    omega
  · exact (hy.1.unique hrun (zero_le t) (by omega)).2
  · have := hx.1.lt
    exact (hx.1.unique hrun (by omega) (by omega)).1

/-- The scan goes on at `rs`, and the hints are about the runs before it. -/
theorem refreshLoop_hints (hints : Hints (fun s e => FreeRun map s e ∧ s < rs) block)
    (hbefore : ∀ j < blockBits, j + 1 = rs → map j = true) (hfirst : block.firstFree ≤ rs)
    (hrounds : blockBits < rs + rounds) : Hints (FreeRun map) (refreshLoop map rounds rs block) ∧
    (refreshLoop map rounds rs block).firstFree = block.firstFree := by
  induction rounds generalizing rs block with
  | zero =>
    rw [freeRun_before fun j hj hlt => by omega] at hints
    exact ⟨hints, rfl⟩
  | succ rounds ih =>
    rw [refreshLoop]
    split
    case isTrue hregion =>
      obtain ⟨hge, hskip, hle, hfree, hend⟩ := nextUnpop_region hregion
      generalize (nextUnpop map rs blockBits).1 = s at *
      generalize (nextUnpop map rs blockBits).2 = t at *
      have hrun : FreeRun map s t := by
        refine ⟨hregion, hle, hfree, fun j hj => ?_, fun hlt => ?_⟩
        · rw [not_eq_false]
          rcases lt_or_ge j rs with hlt | hge'
          · exact hbefore j (by omega) (by omega)
          · exact hskip j hge' (by omega)
        · rw [not_eq_false]
          exact hend hlt
      have hmin : (blockUpdate block s t).firstFree = block.firstFree := by
        rw [blockUpdate_firstFree, min_eq_left (by omega)]
      obtain ⟨hall, heq⟩ := ih (hints_region hints hrun hge hskip)
        (fun j hj hjt => by rw [succ.inj hjt] at hj ⊢; exact hend hj) (by omega) (by omega)
      exact ⟨hall, heq.trans hmin⟩
    case isFalse hregion =>
      rw [freeRun_before fun j => nextUnpop_none hregion] at hints
      exact ⟨hints, rfl⟩

/-- A scan makes the metadata exact when `first_free` is not too large. -/
theorem exact_blockRefreshHint (hfirst : ∀ j < blockBits, map j = false → block.firstFree ≤ j) :
    Exact map (blockRefreshHint map block) := by
  have hnone : ∀ s e, ¬(FreeRun map s e ∧ s < block.firstFree) := by
    rintro s e ⟨hrun, hlt⟩
    have := hfirst s (hrun.lt.trans_le hrun.le) (hrun.mem s le_rfl hrun.lt)
    omega
  have hbefore : ∀ j < blockBits, j + 1 = block.firstFree → map j = true := by
    intro j hj hlt
    rw [← not_eq_false]
    intro hfree
    have := hfirst j hj hfree
    omega
  obtain ⟨hints, heq⟩ : Hints (FreeRun map) (blockRefreshHint map block) ∧
      (blockRefreshHint map block).firstFree = block.firstFree :=
    refreshLoop_hints ⟨fun e he => absurd he (hnone 0 e), fun _ => rfl,
      fun s hs => absurd hs (hnone s _), fun _ => rfl, fun s e he => absurd he (hnone s e),
      fun h => absurd rfl h⟩ hbefore le_rfl (by omega)
  refine ⟨hints, fun j hj hfree => ?_⟩
  rw [heq]
  exact hfirst j hj hfree

/-! ### Bits of the block are allocated -/

/-- The free bits `[a, b)` of the block are allocated. -/
structure Takes (map map' : ℕ → Bool) (a b : ℕ) : Prop where
  lt : a < b
  le : b ≤ blockBits
  free : ∀ j, a ≤ j → j < b → map j = false
  iff : ∀ j < blockBits, map' j = false ↔ map j = false ∧ ¬(a ≤ j ∧ j < b)

theorem Takes.full (h : Takes map map' a b) (ha : a = 0) (hb : b = blockBits) :
    ∀ j < blockBits, map' j = true := by
  intro j hj
  rw [← not_eq_false]
  intro hfree
  exact ((h.iff j hj).mp hfree).2 (by omega)

/-- The block in which an area starts. -/
theorem Exact.allocStartBlock {same : Bool} (h : Exact map block) (htakes : Takes map map' sOff b)
    (hstop : b = if same then eOff else blockBits) (hbits : b = blockBits ∨ b = sOff + bits) :
    Exact map' (allocStartBlock map' sOff eOff bits same block) := by
  obtain ⟨first, hfirst, hblock⟩ : ∃ first,
    first = (if sOff = block.firstFree then findNextZeroBit map' blockBits (sOff + bits)
      else block.firstFree) ∧ (if sOff =
        block.firstFree then { block with firstFree := findNextZeroBit map' blockBits (sOff + bits) }
        else block) = { block with firstFree := first } := ⟨_, rfl, by split_ifs <;> rfl⟩
  have hlt := htakes.lt
  have hle : ∀ j < blockBits, map' j = false → first ≤ j := by
    intro j hj hfree
    obtain ⟨hmap, hout⟩ := (htakes.iff j hj).mp hfree
    have hfj := h.first j hj hmap
    rw [hfirst]
    by_cases hs : sOff = block.firstFree
    · rw [if_pos hs]
      exact findNext_le (by omega) hj (by rw [hfree]; rfl)
    · rwa [if_neg hs]
  rw [Percpu.allocStartBlock, hblock]
  dsimp only
  split
  case isTrue hin => exact exact_blockRefreshHint hle
  case isFalse hin =>
    have hright : (if same then min block.rightFree (blockBits - eOff) else 0) =
        min block.rightFree (blockBits - b) := by
      cases same with
      | true => rw [hstop, if_pos rfl, if_pos rfl]
      | false =>
        rw [hstop, if_neg Bool.false_ne_true, if_neg Bool.false_ne_true, Nat.sub_self, Nat.min_zero]
    rw [hright]
    exact ⟨h.hints.remove hlt htakes.le htakes.iff htakes.free hin, hle⟩

/-- The block in which an area ends that starts in an earlier block. -/
theorem Exact.allocEndBlock (h : Exact map block) (htakes : Takes map map' 0 eOff)
    (hlt : eOff < blockBits) : Exact map' (allocEndBlock map' eOff block) := by
  have hpos := htakes.lt
  have hle : ∀ j < blockBits, map' j = false → findNextZeroBit map' blockBits eOff ≤ j := by
    intro j hj hfree
    have hout := ((htakes.iff j hj).mp hfree).2
    exact findNext_le (by omega) hj (by rw [hfree]; rfl)
  rw [Percpu.allocEndBlock, if_neg hlt.ne]
  by_cases hin : eOff > block.contigHintStart
  · rw [if_pos hin]
    exact exact_blockRefreshHint hle
  rw [if_neg hin]
  have hints := h.hints.remove hpos htakes.le htakes.iff htakes.free (by omega)
  rw [Nat.min_zero] at hints
  exact ⟨hints, hle⟩

/-- A block without a free bit. -/
theorem exact_full (hfull : ∀ j < blockBits, map j = true) (block : BlockMd) :
    Exact map { block with contigHint := 0, leftFree := 0, rightFree := 0 } := by
  have hnot : ∀ j < blockBits, ¬map j = false := fun j hj hfree => by
    rw [hfull j hj] at hfree
    cases hfree
  have hnone : ∀ s e, ¬FreeRun map s e := fun s e hrun =>
    hnot s (hrun.lt.trans_le hrun.le) (hrun.mem s le_rfl hrun.lt)
  exact ⟨⟨fun e he => absurd he (hnone 0 e), fun _ => rfl, fun s hs => absurd hs (hnone s _),
    fun _ => rfl, fun s e he => absurd he (hnone s e), fun h => absurd rfl h⟩,
    fun j hj hfree => absurd hfree (hnot j hj)⟩

/-! ### Bits of the block are freed -/

/-- The allocated bits `[a, b)` of the block are freed. -/
structure Gives (map map' : ℕ → Bool) (a b : ℕ) : Prop where
  lt : a < b
  le : b ≤ blockBits
  iff : ∀ j < blockBits, map' j = false ↔ map j = false ∨ a ≤ j ∧ j < b

theorem Gives.eq (h : Gives map map' a b) (hj : j < blockBits) (hout : ¬(a ≤ j ∧ j < b)) :
    map' j = map j := by
  by_cases hfree : map j = false
  · rw [hfree]
    exact (h.iff j hj).mpr (.inl hfree)
  have hset : ¬map' j = false := fun hfree' => ((h.iff j hj).mp hfree').elim hfree hout
  rw [not_eq_false] at hfree hset
  rw [hfree, hset]

theorem Exact.full (h : Exact map block) (hzero : block.contigHint = 0) (hj : j < blockBits) :
    map j = true := by
  rw [← not_eq_false]
  intro hfree
  obtain ⟨s, e, hrun, hs, he⟩ := exists_isRun (p := fun j => map j = false) hfree hj
  have := h.hints.le_len s e hrun
  omega

/-- The free area that the freed bits continue to the left. -/
theorem Exact.freeStart (h : Exact map block) (hgives : Gives map map' sOff b) :
    freeStart map' sOff block ≤ sOff ∧ (∀ j, freeStart map' sOff block ≤ j → j < sOff → map' j = false) ∧
      ∀ j, j + 1 = freeStart map' sOff block → map' j = true := by
  have hlt := hgives.lt
  have hle := hgives.le
  have hsame : ∀ j < sOff, map' j = map j := fun j hj => hgives.eq (by omega) (by omega)
  rw [Percpu.freeStart]
  split
  case isTrue hhint =>
    refine ⟨by omega, fun j hj hjs => ?_, fun j hj => ?_⟩
    · have hrun := h.hints.at_start (by omega)
      rw [hsame j hjs]
      exact hrun.mem j hj (by omega)
    rw [hsame j (by omega)]
    by_cases hzero : block.contigHint = 0
    · exact h.full hzero (by omega)
    rw [← not_eq_false]
    exact (h.hints.at_start hzero).left j hj
  case isFalse hhint =>
    rw [findLastBit]
    rcases lastBit_spec map' sOff with ⟨hnone, hfree⟩ | ⟨i, hi, hsome, hset, hfree⟩
    · rw [hnone, Option.getD_none]
      rw [if_pos rfl]
      exact ⟨zero_le sOff, fun j _ hj => hfree j hj, fun j hj => absurd hj (succ_ne_zero j)⟩
    rw [hsome, Option.getD_some]
    rw [if_neg hi.ne']
    refine ⟨hi, fun j hj => hfree j hj, fun j hj => ?_⟩
    rwa [succ.inj hj]

/-- The free area that the freed bits continue to the right. -/
theorem Exact.freeStop (h : Exact map block) (hgives : Gives map map' a eOff) :
    eOff ≤ freeStop map' eOff block ∧ freeStop map' eOff block ≤ blockBits ∧
      (∀ j, eOff ≤ j → j < freeStop map' eOff block → map' j = false) ∧
      (freeStop map' eOff block < blockBits → map' (freeStop map' eOff block) = true) := by
  have hle := hgives.le
  have hsame : ∀ j < blockBits, eOff ≤ j → map' j = map j := fun j hj hej => hgives.eq hj (by omega)
  rw [Percpu.freeStop]
  split
  case isTrue hhint =>
    by_cases hzero : block.contigHint = 0
    · rw [hzero, add_zero]
      refine ⟨by omega, by omega, fun j hj hlt => by omega, fun hlt => ?_⟩
      rw [hsame _ hlt hhint.le]
      exact h.full hzero hlt
    have hrun := h.hints.at_start hzero
    have hstop := hrun.le
    refine ⟨by omega, hstop, fun j hj hlt => ?_, fun hlt => ?_⟩
    · rw [hsame j (by omega) hj]
      exact hrun.mem j (by omega) hlt
    rw [hsame _ hlt (by omega), ← not_eq_false]
    exact hrun.right hlt
  case isFalse hhint =>
    rw [findNextBit]
    have hnext := isNext_findNext map' hle
    exact ⟨hnext.ge, hnext.le, hnext.skip, hnext.hit⟩

section
variable (h : Gives map map' a b) (hs : s ≤ a ∧ (∀ j, s ≤ j → j < a → map' j = false) ∧ ∀ j, j + 1 = s →
  map' j = true) (ht : b ≤ t ∧ t ≤ blockBits ∧ (∀ j, b ≤ j → j < t → map' j = false) ∧
  (t < blockBits → map' t = true))
include h hs ht

/-- The free area around the freed bits. -/
theorem Gives.freeRun : FreeRun map' s t := by
  obtain ⟨hsa, hleft, hbefore⟩ := hs
  obtain ⟨hbt, htn, hright, hafter⟩ := ht
  have hab := h.lt
  refine ⟨by omega, htn, fun j hj hjt => ?_, fun j hj => ?_, fun hlt => ?_⟩
  · by_cases hja : j < a
    · exact hleft j hj hja
    by_cases hjb : b ≤ j
    · exact hright j hjb hjt
    · exact (h.iff j (by omega)).mpr (.inr (by omega))
  · rw [hbefore j hj]
    exact Bool.noConfusion
  · rw [hafter hlt]
    exact Bool.noConfusion

/-- `pcpu_block_update` with the whole free area around the freed bits. -/
theorem Exact.blockUpdate (hexact : Exact map block) : Exact map' (blockUpdate block s t) := by
  have hrun := h.freeRun hs ht
  have hsa := hs.1
  have hbt := ht.1
  obtain ⟨len, start, heq, hlen⟩ := blockUpdate_eq block s t
  rw [heq]
  refine ⟨Summary.join h.iff hrun hsa hbt hexact.hints hlen, fun j hj hfree => ?_⟩
  dsimp only
  rcases (h.iff j hj).mp hfree with hmap | hin
  · have := hexact.first j hj hmap
    omega
  · omega

end

/-- A block without an allocated bit. -/
theorem exact_empty (hfree : ∀ j < blockBits, map j = false) :
    Exact map { firstFree := 0, contigHintStart := 0, contigHint := blockBits, leftFree := blockBits,
                rightFree := blockBits } := by
  refine ⟨summary_isRun_iff.mpr ⟨⟨le_rfl, hfree, fun h => absurd h (lt_irrefl _)⟩,
    ⟨le_rfl, fun j hj _ => hfree j hj, fun j (hj : j + 1 + blockBits = blockBits) => by omega⟩,
    fun s e hrun => ?_, fun hne => ?_⟩, fun j _ _ => zero_le j⟩
  · have := hrun.le
    dsimp only
    omega
  dsimp only at hne ⊢
  exact ⟨by omega, by omega, fun j _ hj => hfree j (by omega), fun j hj => absurd hj (succ_ne_zero j),
    fun h => absurd h (by omega)⟩

end

end LinuxNote.Percpu
