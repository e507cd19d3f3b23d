import LinuxNote.Lib.Outcome
import LinuxNote.Lib.Word
import LinuxNote.Memblock.FreeRanges

/-! Looking for free memory: `memblock_find_in_range_node` and `memblock_find_in_range`. The searches go
    through the free ranges of `memblock.memory` minus `memblock.reserved` with the iterators, upwards or
    downwards, and stop at the first range that has room for the block. What a search returns is a block
    of free memory, whatever index values the iterators went through. -/

namespace LinuxNote.Memblock
open Outcome Nat Option List Int

/-- The two region arrays of the file. -/
inductive TypeId where
  | memory
  | reserved
  deriving DecidableEq

/-- `struct memblock`. -/
structure MemblockState where
  memory : MemblockType
  reserved : MemblockType
  deriving DecidableEq

def MemblockState.get (mb : MemblockState) : TypeId → MemblockType
  | .memory => mb.memory
  | .reserved => mb.reserved

def MemblockState.set (mb : MemblockState) : TypeId → MemblockType → MemblockState
  | .memory, t => { mb with memory := t }
  | .reserved, t => { mb with reserved := t }

/-- `round_down(x, y)`, which is `x & ~(y - 1)`. -/
def roundDown (x y : ℕ) : ℕ := x &&& (2 ^ 64 - 1 - psub y 1)

/-- `round_up(x, y)`, which is `((x - 1) | (y - 1)) + 1`. -/
def roundUp (x y : ℕ) : ℕ := padd (psub x 1 ||| psub y 1) 1

/-- `clamp(val, lo, hi)`. -/
def clamp (val lo hi : ℕ) : ℕ := min (max val lo) hi

/-- A `for_each` loop over free ranges that returns the first candidate, or 0. -/
def findLoop (next : ℕ → Option (Range × ℕ)) (candidate : Range → Option ℕ) :
    ℕ → ℕ → Except Fault ℕ
  | 0, _ => .error .fuel
  | n + 1, idx =>
    match untilMax next idx with
    | none => .ok 0
    | some (r, idx') =>
      match candidate r with
      | some cand => .ok cand
      | none => findLoop next candidate n idx'

/-- The body of the loop of `__memblock_find_range_bottom_up`. -/
def bottomUpCandidate (start stop size align : ℕ) (r : Range) : Option ℕ :=
  let thisStart := clamp r.start start stop
  let thisEnd := clamp r.stop start stop
  let cand := roundUp thisStart align
  if cand < thisEnd ∧ thisEnd - cand ≥ size then some cand else none

/-- The body of the loop of `__memblock_find_range_top_down`. -/
def topDownCandidate (start stop size align : ℕ) (r : Range) : Option ℕ :=
  let thisStart := clamp r.start start stop
  let thisEnd := clamp r.stop start stop
  if thisEnd < size then none
  else
    let cand := roundDown (thisEnd - size) align
    if cand ≥ thisStart then some cand else none

/-- The iterators hand out at most one range for each region and each area. -/
def maxRanges (mb : MemblockState) : ℕ := mb.memory.cnt + mb.reserved.cnt + 2

variable (env : Env) (mb : MemblockState)

/-- `__memblock_find_range_bottom_up`. -/
def findRangeBottomUp (start stop size align : ℕ) (nid : ℤ)
    (flags : Flags) : Except Fault ℕ :=
  findLoop (nextMemRange env nid flags mb.memory.regions (some mb.reserved.regions))
    (bottomUpCandidate start stop size align) (maxRanges mb) 0

/-- `__memblock_find_range_top_down`. -/
def findRangeTopDown (start stop size align : ℕ) (nid : ℤ)
    (flags : Flags) : Except Fault ℕ :=
  findLoop (nextMemRangeRev env nid flags mb.memory.regions (some mb.reserved.regions))
    (topDownCandidate start stop size align) (maxRanges mb) ullongMax

/-- `MEMBLOCK_ALLOC_ACCESSIBLE`. -/
def memblockAllocAccessible : ℕ := 0

/-- The end of a search, with `MEMBLOCK_ALLOC_ACCESSIBLE` resolved. -/
def searchEnd (stop : ℕ) : ℕ :=
  if stop = memblockAllocAccessible then env.currentLimit else stop

/-- `memblock_find_in_range_node`. -/
def findInRangeNode (size align start stop : ℕ) (nid : ℤ) (flags : Flags) : Except Fault ℕ := do
  let start := max start env.pageSize
  let stop := max start (searchEnd env stop)
  if env.bottomUp ∧ stop > env.kernelEnd then
    let ret ← findRangeBottomUp env mb (max start env.kernelEnd) stop size align nid flags
    if ret ≠ 0 then .ok ret
    else findRangeTopDown env mb start stop size align nid flags
  else findRangeTopDown env mb start stop size align nid flags

/-- `choose_memblock_flags`. -/
def chooseMemblockFlags : Flags :=
  if env.systemHasSomeMirror then memblockMirror else memblockNone

/-- `memblock_find_in_range`; without mirrored memory the search is made again without the flag. -/
def findInRange (start stop size align : ℕ) : Except Fault ℕ := do
  let flags := chooseMemblockFlags env
  let ret ← findInRangeNode env mb size align start stop numaNoNode flags
  if ret = 0 ∧ flags &&& memblockMirror ≠ 0 then
    findInRangeNode env mb size align start stop numaNoNode (flags &&& ~~~memblockMirror)
  else .ok ret

/-! ### The iterators hand out free memory, from any index -/

section
variable {env : Env} {nid : ℤ} {flags : Flags} {la lb : List Region}

variable {i j j' : ℤ} {m : Region} {μ : ℤ → ℕ} {p : Range × ℕ}

theorem rgnAt_bounds {l : List Region} {r : Region} (h : rgnAt l i = some r) :
    r ∈ l ∧ 0 ≤ i ∧ i < l.length := by
  rw [rgnAt] at h
  split at h
  · simp at h
  have := (List.getElem?_eq_some_iff.mp h).1
  exact ⟨mem_of_getElem? h, by omega, by omega⟩

/-- The end of the area after a region, for an index that names one. -/
theorem areaStop_eq {i : ℕ} {e : ℕ} (h : areaStop lb i = some e) :
    e = (lb[i]?.map Region.base).getD physAddrMax := by
  rw [areaStop, rgnAt_natCast] at h
  split at h
  · rw [h]; rfl
  rename_i hi
  have : u64 i ≤ i := by simp only [u64]; omega
  cases h
  rw [getElem?_eq_none (by omega)]; rfl

/-- What `areaAt` reads is an area, and its index is one of the areas. -/
theorem mem_areas_of_areaAt (hl : Good lb) {g : ℕ × ℕ} (h : areaAt lb j = some g) :
    g ∈ areas lb ∧ 0 ≤ j ∧ j < (lb.length + 1 : ℕ) := by
  simp only [areaAt, bind_eq_some_iff, map_eq_some_iff] at h
  obtain ⟨s, hs, e, he, rfl⟩ := h
  rw [areaStart] at hs
  split at hs
  · rename_i hj
    subst hj
    cases hs
    rw [areaStop_eq (i := 0) he]
    exact ⟨mem_of_getElem? (areasFrom_zero 0 lb), le_rfl, by omega⟩
  -- the region before the area is there, so the index is not negative
  obtain ⟨r, hr, rfl⟩ := map_eq_some_iff.mp hs
  obtain ⟨hmem, hj, hlt⟩ := rgnAt_bounds hr
  obtain ⟨k, rfl⟩ : ∃ k : ℕ, j = (k + 1 : ℕ) := ⟨(j - 1).toNat, by omega⟩
  have hk : ((k + 1 : ℕ) : ℤ) - 1 = k := by omega
  rw [hk, rgnAt_natCast] at hr
  refine ⟨?_, by omega, by omega⟩
  rw [areaStop_eq he, rend_eq (hl.fits r hmem)]
  refine mem_of_getElem? (i := k + 1) ?_
  rw [areas, areasFrom_succ, hr]; rfl

/-- The value of an `int`. -/
def InInt (i : ℤ) : Prop := -2 ^ 31 ≤ i ∧ i < 2 ^ 31

theorem inInt_toInt (i : ℤ) : InInt (toInt i) := by
  have h1 := le_bmod (x := i) (m := 2 ^ 32) (by decide)
  have h2 := bmod_lt (x := i) (m := 2 ^ 32) (by decide)
  simp only [InInt, toInt] at *
  omega

theorem InInt.toInt_eq (h : InInt i) : toInt i = i := toInt_of_range h.1 h.2

/-- The number of indices below `n` that an upward cursor at `i` has before it. -/
def ahead (n : ℕ) (i : ℤ) : ℕ := if i < 0 then 0 else n - i.toNat

theorem ahead_le (n : ℕ) (i : ℤ) : ahead n i ≤ n := by
  rw [ahead]; split <;> omega

/-- Moving an upward cursor on brings it closer to the end, also when it wraps. -/
theorem ahead_succ {n : ℕ} (hi : InInt i) (h₀ : 0 ≤ i) (hn : i < n) :
    ahead n (toInt (i + 1)) < ahead n i := by
  have hpos : ahead n i = n - i.toNat := if_neg (by omega)
  by_cases hw : i + 1 < 2 ^ 31
  · rw [toInt_of_range (by omega) hw, hpos, ahead, if_neg (by omega)]
    omega
  have : i + 1 = 2 ^ 31 := by have := hi.2; omega
  rw [this, hpos, show toInt (2 ^ 31) = -2 ^ 31 from rfl, ahead, if_pos (by decide)]
  omega

/-- The number of indices from 0 on that a downward cursor at `i` has before it. -/
def behind (i : ℤ) : ℕ := (i + 1).toNat

theorem behind_pred (hi : InInt i) (h₀ : 0 ≤ i) : behind (toInt (i - 1)) < behind i := by
  rw [toInt_of_range (by omega) (by have := hi.2; omega), behind, behind]
  omega

theorem behind_toInt_le (h : -2 ^ 31 ≤ i) : behind (toInt i) ≤ behind i := by
  rw [behind, behind, toInt, bmod_def]; split <;> omega

/-- What an inner loop that started at `j` ends with: its cursor moved only one way, where `μ` is what
    a cursor has before it, and the area it hit is one that `m` meets. -/
def Scanned (lb : List Region) (m : Region) (μ : ℤ → ℕ) (j : ℤ) (p : ℤ × Option (ℕ × ℕ)) : Prop :=
  InInt p.1 ∧ μ p.1 ≤ μ j ∧ ∀ g, p.2 = some g → (0 ≤ p.1 ∧ p.1 < (lb.length + 1 : ℕ)) ∧ g ∈ areas lb ∧
    g.1 < m.rend ∧ m.base < g.2

theorem scanned_miss (hj : InInt j) :
    Scanned lb m μ j (j, none) := ⟨hj, le_rfl, by simp⟩

theorem Scanned.of_le {p : ℤ × Option (ℕ × ℕ)} (h : Scanned lb m μ j' p) (hle : μ j' ≤ μ j) :
    Scanned lb m μ j p :=
  ⟨h.1, h.2.1.trans hle, h.2.2⟩

theorem scanAreas_sound (hl : Good lb) (m : Region) : ∀ (n : ℕ) (j : ℤ), InInt j →
    Scanned lb m (ahead (lb.length + 1)) j (scanAreas m lb n j)
  | 0, j, hj => scanned_miss hj
  | n + 1, j, hj => by
    rw [scanAreas]
    split
    · rcases ha : areaAt lb j with _ | g
      · exact scanned_miss hj
      obtain ⟨hg, h₀, hlen⟩ := mem_areas_of_areaAt hl ha
      simp only
      split
      · exact scanned_miss hj
      split
      · refine ⟨hj, le_rfl, ?_⟩
        rintro g ⟨⟩
        exact ⟨⟨h₀, hlen⟩, hg, by omega, by assumption⟩
      · exact (scanAreas_sound hl m n _ (inInt_toInt _)).of_le (ahead_succ hj h₀ hlen).le
    · exact scanned_miss hj

theorem scanAreasRev_sound (hl : Good lb) (m : Region) : ∀ (n : ℕ) (j : ℤ), InInt j →
    Scanned lb m behind j (scanAreasRev m lb n j)
  | 0, j, hj => scanned_miss hj
  | n + 1, j, hj => by
    rw [scanAreasRev]
    split
    · rcases ha : areaAt lb j with _ | g
      · exact scanned_miss hj
      obtain ⟨hg, h₀, hlen⟩ := mem_areas_of_areaAt hl ha
      simp only
      split
      · exact scanned_miss hj
      split
      · refine ⟨hj, le_rfl, ?_⟩
        rintro g ⟨⟩
        exact ⟨⟨h₀, hlen⟩, hg, by omega, by omega⟩
      · exact (scanAreasRev_sound hl m n _ (inInt_toInt _)).of_le (behind_pred hj h₀).le
    · exact scanned_miss hj

/-- The part of a wanted region in an area. -/
def FromArea (env : Env) (nid : ℤ) (flags : Flags) (la lb : List Region) (r : Range) : Prop :=
  ∃ m ∈ la, skips env nid flags m = false ∧ ∃ g ∈ areas lb, (g.1 < m.rend ∧ m.base < g.2) ∧ r = meet m g

/-- What an outer loop that started at `i` and `j` hands out: the part of a wanted region in an area,
    and an index with cursors that have less before them. -/
def Handed (env : Env) (nid : ℤ) (flags : Flags) (la lb : List Region) (μa μb : ℤ → ℕ) (i j : ℤ)
    (p : Range × ℕ) : Prop :=
  FromArea env nid flags la lb p.1 ∧ ∃ i' j', InInt i' ∧ InInt j' ∧ p.2 = pack i' j' ∧
    μa i' + μb j' < μa i + μb j

theorem Handed.of_le {μa μb : ℤ → ℕ} {i' : ℤ}
    (h : Handed env nid flags la lb μa μb i' j' p) (hi : μa i' ≤ μa i) (hj : μb j' ≤ μb j) :
    Handed env nid flags la lb μa μb i j p := by
  obtain ⟨h1, i1, j1, h2, h3, h4, h5⟩ := h
  exact ⟨h1, i1, j1, h2, h3, h4, by omega⟩

theorem nextLoop_sound (hl : Good lb) : ∀ {n : ℕ} {i j : ℤ}, InInt i → InInt j →
    nextLoop env nid flags la (some lb) n i j = some p →
    Handed env nid flags la lb (ahead la.length) (ahead (lb.length + 1)) i j p
  | 0, _, _, _, _, h => by simp [nextLoop] at h
  | n + 1, i, j, hi, hj, h => by
    rw [nextLoop] at h
    split at h
    · rcases hm : rgnAt la i with _ | m
      · simp [hm] at h
      obtain ⟨hmem, h₀, hlen⟩ := rgnAt_bounds hm
      have hi' := ahead_succ hi h₀ hlen
      simp only [hm] at h
      split at h
      · exact (nextLoop_sound hl (inInt_toInt _) hj h).of_le hi'.le le_rfl
      rename_i hs
      have hscan := scanAreas_sound hl m (lb.length + 2) j hj
      rcases hp : scanAreas m lb (lb.length + 2) j with ⟨j', _ | g⟩
      · rw [hp] at h hscan
        exact (nextLoop_sound hl (inInt_toInt _) hscan.1 h).of_le hi'.le hscan.2.1
      rw [hp] at h hscan
      obtain ⟨(hj' : InInt j'), (hle : ahead (lb.length + 1) j' ≤ _), hg⟩ := hscan
      obtain ⟨⟨hj0, hjlen⟩, hg, hmg⟩ := hg g rfl
      cases h
      refine ⟨⟨m, hmem, by simpa using hs, g, hg, hmg, rfl⟩, ?_⟩
      have := ahead_succ hj' hj0 hjlen
      split
      · exact ⟨_, _, inInt_toInt _, hj', rfl, by omega⟩
      · exact ⟨_, _, hi, inInt_toInt _, rfl, by omega⟩
    · simp at h

theorem nextLoopRev_sound (hl : Good lb) : ∀ {n : ℕ} {i j : ℤ}, InInt i → InInt j →
    nextLoopRev env nid flags la (some lb) n i j = some p →
    Handed env nid flags la lb behind behind i j p
  | 0, _, _, _, _, h => by simp [nextLoopRev] at h
  | n + 1, i, j, hi, hj, h => by
    rw [nextLoopRev] at h
    split at h
    · rcases hm : rgnAt la i with _ | m
      · simp [hm] at h
      obtain ⟨hmem, h₀, hlen⟩ := rgnAt_bounds hm
      have hi' := behind_pred hi h₀
      simp only [hm] at h
      split at h
      · exact (nextLoopRev_sound hl (inInt_toInt _) hj h).of_le hi'.le le_rfl
      rename_i hs
      have hscan := scanAreasRev_sound hl m (lb.length + 2) j hj
      rcases hp : scanAreasRev m lb (lb.length + 2) j with ⟨j', _ | g⟩
      · rw [hp] at h hscan
        exact (nextLoopRev_sound hl (inInt_toInt _) hscan.1 h).of_le hi'.le hscan.2.1
      rw [hp] at h hscan
      obtain ⟨(hj' : InInt j'), (hle : behind j' ≤ _), hg⟩ := hscan
      obtain ⟨⟨hj0, hjlen⟩, hg, hmg⟩ := hg g rfl
      cases h
      refine ⟨⟨m, hmem, by simpa using hs, g, hg, hmg, rfl⟩, ?_⟩
      have := behind_pred hj' hj0
      split
      · exact ⟨_, _, inInt_toInt _, hj', rfl, by omega⟩
      · exact ⟨_, _, hi, inInt_toInt _, rfl, by omega⟩
    · simp at h

end

/-! ### The searches -/

section
variable {env : Env} {nid : ℤ} {flags : Flags}

variable {next : ℕ → Option (Range × ℕ)} {mb : MemblockState} {lo hi size c x k : ℕ}

/-- A search whose iterator has less and less before it ends, with no candidate or with the candidate
    in a range that was handed out. -/
theorem findLoop_spec {candidate : Range → Option ℕ} {R : Range → Prop}
    (μ : ℕ → ℕ) (hnext : ∀ idx r idx', next idx = some (r, idx') → idx' ≠ ullongMax → R r ∧
      μ idx' < μ idx) :
    ∀ (n idx : ℕ), μ idx < n →
    Ensures (findLoop next candidate n idx) (fun c => c = 0 ∨ ∃ r, R r ∧ candidate r = some c)
    (fun _ => False)
  | 0, _, h => by omega
  | n + 1, idx, h => by
    rw [findLoop]
    rcases hu : untilMax next idx with _ | p
    · exact .inl rfl
    obtain ⟨r, idx'⟩ := p
    obtain ⟨hn, hne⟩ := untilMax_some hu
    obtain ⟨hR, hlt⟩ := hnext idx r idx' hn hne
    simp only
    cases hc : candidate r with
    | some c => exact .inr ⟨r, hR, hc⟩
    | none => exact findLoop_spec μ hnext n idx' (by omega)

theorem pageSize_le (env : Env) : env.pageSize ≤ physAddrMax :=
  Nat.le_sub_one_of_lt (Nat.pow_lt_pow_right (by decide) env.pageShift_lt)

/-- `c` is the start of a free block of memory that passes the filter, inside `[lo, hi)`. -/
structure FreeBlock (env : Env) (nid : ℤ) (flags : Flags) (mb : MemblockState) (lo hi size c : ℕ) :
    Prop where
  region : ∃ m ∈ mb.memory.regions, wanted env nid flags m = true ∧ m.base ≤ c ∧ c + size ≤ m.stop
  free : ∀ a, c ≤ a → a < c + size → attrs mb.reserved.regions a = none
  lower : lo ≤ c
  upper : c + size ≤ hi

theorem le_roundUp {y : ℕ} (hx : x ≤ physAddrMax) (h : roundUp x y ≠ 0) : x ≤ roundUp x y := by
  rcases Nat.eq_zero_or_pos x with rfl | h₀
  · exact zero_le _
  have hx' : psub x 1 = x - 1 := by simp only [psub, physAddrMax] at *; omega
  have hlt : psub x 1 ||| psub y 1 < 2 ^ 64 :=
    or_lt_two_pow (mod_lt _ (by decide)) (mod_lt _ (by decide))
  have hle : psub x 1 ≤ psub x 1 ||| psub y 1 := left_le_or
  simp only [roundUp, padd] at *
  omega

theorem psub_two_pow (hk : k < 64) : psub (2 ^ k) 1 = 2 ^ k - 1 := by
  have hpos : 0 < 2 ^ k := Nat.two_pow_pos k
  have hlt : 2 ^ k < 2 ^ 64 := Nat.pow_lt_pow_right (by decide) hk
  simp only [psub]
  omega

/-- Setting the low bits and adding one goes to the next multiple. -/
theorem or_low_bits (y k : ℕ) : (y ||| (2 ^ k - 1)) + 1 = (y / 2 ^ k + 1) * 2 ^ k := by
  have hpos : 0 < 2 ^ k := Nat.two_pow_pos k
  have hmod : (y ||| (2 ^ k - 1)) % 2 ^ k = 2 ^ k - 1 := by
    rw [or_mod_two_pow, mod_eq_of_lt (show 2 ^ k - 1 < 2 ^ k by omega)]
    refine le_antisymm (le_sub_one_of_lt (or_lt_two_pow (mod_lt _ hpos) ?_)) right_le_or
    omega
  have hdiv : (y ||| (2 ^ k - 1)) / 2 ^ k = y / 2 ^ k := by
    rw [or_div_two_pow, div_eq_of_lt (show 2 ^ k - 1 < 2 ^ k by omega), or_zero]
  have h := div_add_mod (y ||| (2 ^ k - 1)) (2 ^ k)
  rw [hmod, hdiv] at h
  rw [add_mul, one_mul, mul_comm]
  omega

theorem roundUp_eq (x : ℕ) (hk : k < 64) :
    roundUp x (2 ^ k) = (psub x 1 / 2 ^ k + 1) * 2 ^ k % 2 ^ 64 := by
  rw [roundUp, psub_two_pow hk, padd, or_low_bits]

theorem roundDown_eq (x : ℕ) (hk : k < 64) : roundDown x (2 ^ k) = x % 2 ^ 64 / 2 ^ k * 2 ^ k := by
  rw [roundDown, psub_two_pow hk, Word.and_high_bits x hk.le]

/-- A block inside a range that was handed out is free memory. -/
theorem FromArea.freeBlock {r : Range}
    (hm : Good mb.memory.regions) (hr : Good mb.reserved.regions)
    (h : FromArea env (fixNid env nid) flags mb.memory.regions mb.reserved.regions r)
    (h₀ : 0 < size) (h1 : clamp r.start lo hi ≤ c) (h2 : c + size ≤ clamp r.stop lo hi) :
    FreeBlock env nid flags mb lo hi size c := by
  obtain ⟨m, hmem, hw, g, hg, -, rfl⟩ := h
  simp only [clamp, meet, rend_eq (hm.fits m hmem)] at h1 h2
  refine ⟨⟨m, hmem, by simp [wanted, hw], by omega, by omega⟩, fun a ha ha' => ?_, by omega, by omega⟩
  exact attrs_of_mem_areasFrom hr (fun _ _ => zero_le _) g hg a (by omega) (by omega)

section
variable {mb : MemblockState} (hm : Good mb.memory.regions) (hr : Good mb.reserved.regions)
  {start stop size align : ℕ} (h₀ : 0 < size)
include hm hr h₀

theorem findRangeBottomUp_spec (hs : start ≤ physAddrMax) :
    Ensures (findRangeBottomUp env mb start stop size align nid flags)
    (fun c => c ≠ 0 → FreeBlock env nid flags mb start stop size c ∧ ∀ k < 64, align = 2 ^ k →
      align ∣ c) (fun _ => False) := by
  have hstep : ∀ idx r idx', nextMemRange env nid flags mb.memory.regions
      (some mb.reserved.regions) idx = some (r, idx') → idx' ≠ ullongMax →
      FromArea env (fixNid env nid) flags mb.memory.regions mb.reserved.regions r ∧
        ahead mb.memory.cnt (unpackA idx') + ahead (mb.reserved.cnt + 1) (unpackB idx') <
          ahead mb.memory.cnt (unpackA idx) + ahead (mb.reserved.cnt + 1) (unpackB idx) := by
    intro idx r idx' h _
    obtain ⟨hfrom, i', j', hi, hj, rfl, hlt⟩ := nextLoop_sound hr (inInt_toInt _) (inInt_toInt _) h
    refine ⟨hfrom, ?_⟩
    rw [unpackA_pack, unpackB_pack, hi.toInt_eq, hj.toInt_eq]
    exact hlt
  refine (findLoop_spec _ hstep _ _ ?_).imp ?_ (fun _ => id)
  · have h1 := ahead_le mb.memory.cnt (unpackA 0)
    have h2 := ahead_le (mb.reserved.cnt + 1) (unpackB 0)
    simp only [maxRanges]; omega
  rintro c (rfl | ⟨r, hfrom, hc⟩) hne
  · exact absurd rfl hne
  simp only [bottomUpCandidate] at hc
  split at hc
  · rename_i hfit
    cases hc
    have hx : clamp r.start start stop ≤ physAddrMax := by
      obtain ⟨m, hmem, -, g, -, hmg, rfl⟩ := hfrom
      have := hm.fits m hmem
      have := rend_eq this
      simp only [clamp, meet, Region.stop] at *; omega
    refine ⟨hfrom.freeBlock hm hr h₀ (le_roundUp hx hne) (by omega), ?_⟩
    rintro k hk rfl
    rw [roundUp_eq _ hk, dvd_mod_iff (pow_dvd_pow 2 hk.le)]
    exact dvd_mul_left ..
  · simp at hc

theorem findRangeTopDown_spec :
    Ensures (findRangeTopDown env mb start stop size align nid flags)
    (fun c => c ≠ 0 → FreeBlock env nid flags mb start stop size c ∧ ∀ k < 64, align = 2 ^ k →
      align ∣ c) (fun _ => False) := by
  -- what the downward cursors have before them; `ULLONG_MAX` stands for the start
  let μ : ℕ → ℕ := fun idx => if idx = ullongMax then mb.memory.cnt + (mb.reserved.cnt + 1)
    else behind (unpackA idx) + behind (unpackB idx)
  have hstep : ∀ idx r idx', nextMemRangeRev env nid flags mb.memory.regions
      (some mb.reserved.regions) idx = some (r, idx') → idx' ≠ ullongMax →
      FromArea env (fixNid env nid) flags mb.memory.regions mb.reserved.regions r ∧ μ idx' < μ idx := by
    intro idx r idx' h hne
    simp only [nextMemRangeRev] at h
    obtain ⟨hfrom, i', j', hi, hj, rfl, hlt⟩ :=
      nextLoopRev_sound hr (by split <;> exact inInt_toInt _) (by split <;> exact inInt_toInt _) h
    refine ⟨hfrom, ?_⟩
    simp only [μ, if_neg hne, unpackA_pack, unpackB_pack, hi.toInt_eq, hj.toInt_eq]
    split_ifs at hlt ⊢
    · refine hlt.trans_le (Nat.add_le_add (behind_toInt_le (by omega)) (behind_toInt_le (by omega)))
        |>.trans_eq ?_
      simp only [behind, MemblockType.cnt]
      omega
    · exact hlt
  refine (findLoop_spec μ hstep _ _ ?_).imp ?_ (fun _ => id)
  · simp only [μ, if_true, maxRanges]; omega
  rintro c (rfl | ⟨r, hfrom, hc⟩) hne
  · exact absurd rfl hne
  simp only [topDownCandidate] at hc
  split at hc
  · simp at hc
  split at hc
  · cases hc
    have hle : roundDown (clamp r.stop start stop - size) align ≤ _ := and_le_left
    refine ⟨hfrom.freeBlock hm hr h₀ (by assumption) (by omega), ?_⟩
    rintro k hk rfl
    exact roundDown_eq _ hk ▸ dvd_mul_left ..
  · simp at hc

/-- `memblock_find_in_range_node` returns 0 or a free block. -/
theorem findInRangeNode_spec (hs : start ≤ physAddrMax) :
    Ensures (findInRangeNode env mb size align start stop nid flags)
      (fun c => c ≠ 0 → FreeBlock env nid flags mb (max start env.pageSize) (searchEnd env stop) size c ∧
        ∀ k < 64, align = 2 ^ k → align ∣ c) (fun _ => False) := by
  have hp := pageSize_le env
  have hk := env.kernelEnd_le
  -- the search ends above its start, so at the end asked for
  have hend : ∀ {lo c : ℕ}, max start env.pageSize ≤ lo →
      FreeBlock env nid flags mb lo (max (max start env.pageSize) (searchEnd env stop)) size c →
      FreeBlock env nid flags mb (max start env.pageSize) (searchEnd env stop) size c := by
    intro lo c hlo h
    have h1 := h.lower
    have h2 := h.upper
    exact ⟨h.region, h.free, by omega, by omega⟩
  simp only [findInRangeNode]
  split
  on_goal 1 =>
    refine (findRangeBottomUp_spec hm hr h₀ (by omega)).bind fun c h => ?_
    split
    rename_i hc
    exact fun _ => ⟨hend (le_max_left ..) (h hc).1, (h hc).2⟩
  -- from the top, at once or after the search from below has failed
  all_goals
    exact (findRangeTopDown_spec hm hr h₀).imp
      (fun c h hc => ⟨hend le_rfl (h hc).1, (h hc).2⟩) fun _ => id

/-- `memblock_find_in_range` returns 0 or a free block. -/
theorem findInRange_spec (hs : start ≤ physAddrMax) :
    Ensures (findInRange env mb start stop size align)
      (fun c => c ≠ 0 → ∃ flags, FreeBlock env numaNoNode flags mb (max start env.pageSize)
        (searchEnd env stop) size c) (fun _ => False) := by
  refine (findInRangeNode_spec hm hr h₀ hs).bind fun c h => ?_
  split
  · exact (findInRangeNode_spec hm hr h₀ hs).imp (fun c h hc => ⟨_, (h hc).1⟩) (fun _ => id)
  · exact fun hc => ⟨_, (h hc).1⟩

end

end

end LinuxNote.Memblock
