import LinuxNote.Lib.Cursor
import LinuxNote.Lib.Intervals
import Mathlib.Data.List.Chain

/-! Memory regions and region arrays (`mm/memblock.c`, `include/linux/memblock.h`). A `memblock_type` is
    an array of regions in address order with a hand-kept count and total. The list holds its first `cnt`
    entries. -/

namespace LinuxNote.Memblock
open Intervals Cursor List

/-- `PHYS_ADDR_MAX`. -/
def physAddrMax : ℕ := 2 ^ 64 - 1

/-- Addition of two `phys_addr_t`. -/
def padd (a b : ℕ) : ℕ := (a + b) % 2 ^ 64

/-- Subtraction of two `phys_addr_t`. -/
def psub (a b : ℕ) : ℕ := (a + 2 ^ 64 - b) % 2 ^ 64

/-- `enum memblock_flags` is a bit mask. -/
abbrev Flags := BitVec 32

def memblockNone : Flags := 0x0
def memblockHotplug : Flags := 0x1
def memblockMirror : Flags := 0x2
def memblockNomap : Flags := 0x4

/-- `struct memblock_region`. -/
structure Region where
  base : ℕ
  size : ℕ
  nid : ℤ
  flags : Flags
  deriving DecidableEq

/-- The end the code computes for a region, `base + size` in `phys_addr_t`. -/
def Region.rend (r : Region) : ℕ := padd r.base r.size

/-- The end of a region as a number. -/
def Region.stop (r : Region) : ℕ := r.base + r.size

/-- What a region says about the addresses in it. -/
def Region.attr (r : Region) : ℤ × Flags := (r.nid, r.flags)

/-- `struct memblock_type`. `loc` is where the array is: `none` for the static initial one, `some pa`
    for one relocated to the physical address `pa`; `inSlab` is the type's `*_in_slab` flag. -/
structure MemblockType where
  regions : List Region
  max : ℕ
  totalSize : ℕ
  loc : Option ℕ
  inSlab : Bool
  deriving DecidableEq

def MemblockType.cnt (t : MemblockType) : ℕ := t.regions.length

/-- The ways a call does not return normally: the three `BUG_ON`s of the file; a new region array put
    over one that is in use, after which the arrays hold garbage; and a loop or recursion of the model
    that was given too few steps. -/
inductive Fault where
  | bugInsert
  | bugMerge
  | bugReserve
  | clobber
  | fuel
  deriving DecidableEq

/-- `memblock_cap_size`: the size that keeps `base + size` from overflowing. -/
def capSize (base size : ℕ) : ℕ := min size (physAddrMax - base)

/-- `memblock_insert_region`. -/
def insertRegion (t : MemblockType) (idx base size : ℕ) (nid : ℤ) (flags : Flags) :
    Except Fault MemblockType :=
  if t.cnt ≥ t.max then .error .bugInsert
  else .ok { t with
    regions := t.regions.insertIdx idx ⟨base, size, nid, flags⟩
    totalSize := padd t.totalSize size }

/-- `memblock_remove_region`; the last region to go leaves the empty dummy entry behind. -/
def removeRegion (maxNumNodes : ℤ) (t : MemblockType) (r : ℕ) : MemblockType :=
  let size := (t.regions[r]?.map Region.size).getD 0
  let regions := t.regions.eraseIdx r
  { t with
    regions := if regions = [] then [⟨0, 0, maxNumNodes, memblockNone⟩] else regions
    totalSize := psub t.totalSize size }

/-- The loop of `memblock_merge_regions` from index `i`. -/
def mergeLoop : ℕ → ℕ → List Region → Except Fault (List Region)
  | 0, _, _ => .error .fuel
  | n + 1, i, l =>
    if i < l.length - 1 then
      match l[i]?, l[i + 1]? with
      | some this, some next =>
        if this.rend ≠ next.base ∨ this.nid ≠ next.nid ∨ this.flags ≠ next.flags then
          if this.rend > next.base then .error .bugMerge else mergeLoop n (i + 1) l
        else
          mergeLoop n i ((l.set i { this with size := padd this.size next.size }).eraseIdx (i + 1))
      | _, _ => .ok l
    else .ok l

/-- `memblock_merge_regions`. -/
def mergeRegions (t : MemblockType) : Except Fault MemblockType := do
  let l ← mergeLoop t.cnt 0 t.regions
  .ok { t with regions := l }

/-! ### Region lists in address order -/

variable (l : List Region)

/-- The partial map from addresses to node and flags. -/
abbrev attrs : ℕ → Option (ℤ × Flags) :=
  attrAt Region.base Region.stop Region.attr l

theorem attrs_cons (r : Region) (l : List Region) (a : ℕ) :
    attrs (r :: l) a = if r.base ≤ a ∧ a < r.stop then some r.attr else attrs l a := rfl

theorem attrs_append (l l' : List Region) (a : ℕ) :
    attrs (l ++ l') a = (attrs l a).or (attrs l' a) := attrAt_append ..

/-- Sum of the region sizes. -/
def sizes : ℕ := (l.map Region.size).sum

/-- Regions in address order, none overlapping the next and none wrapping. -/
structure Good (l : List Region) : Prop where
  ordered : Ordered Region.base Region.stop l
  fits : ∀ r ∈ l, r.stop ≤ physAddrMax

/-- No region is empty. -/
def Proper : Prop := ∀ r ∈ l, 0 < r.size

/-- The two regions touch and agree on node and flags, so one region could stand for both. -/
def Mergeable (r s : Region) : Prop := r.stop = s.base ∧ r.nid = s.nid ∧ r.flags = s.flags

/-- All neighbouring compatible regions are merged. -/
def Minimal : Prop := l.IsChain fun r s => ¬Mergeable r s

/-- Two lists that cover the same addresses alike and have the same total size. -/
structure SameMap (l l' : List Region) : Prop where
  attrs : ∀ a, attrs l' a = attrs l a
  sizes : sizes l' = sizes l

theorem SameMap.refl : SameMap l l := ⟨fun _ => rfl, rfl⟩

theorem SameMap.trans {l1 l2 l3 : List Region} (h : SameMap l1 l2) (h' : SameMap l2 l3) :
    SameMap l1 l3 := ⟨fun a => (h'.attrs a).trans (h.attrs a), h'.sizes.trans h.sizes⟩

@[simp] theorem sizes_nil : sizes [] = 0 := rfl
@[simp] theorem sizes_cons (r : Region) (l : List Region) : sizes (r :: l) = r.size + sizes l := by
  simp [sizes]
@[simp] theorem sizes_append (l l' : List Region) : sizes (l ++ l') = sizes l + sizes l' := by
  simp [sizes]

variable {r : Region} {l l' : List Region}

theorem rend_eq (h : r.stop ≤ physAddrMax) : r.rend = r.stop := by
  simp only [Region.rend, Region.stop, padd, physAddrMax] at *; omega

theorem good_nil : Good [] := ⟨ordered_nil, by simp⟩

theorem good_cons : Good (r :: l) ↔ r.stop ≤ physAddrMax ∧ (∀ s ∈ l, r.stop ≤ s.base) ∧ Good l := by
  constructor
  · rintro ⟨ho, hf⟩
    rw [ordered_cons] at ho
    exact ⟨hf r (mem_cons_self ..), ho.1, ho.2, fun s hs => hf s (mem_cons_of_mem _ hs)⟩
  · rintro ⟨hr, hl, ho, hf⟩
    exact ⟨ordered_cons.mpr ⟨hl, ho⟩, forall_mem_cons.mpr ⟨hr, hf⟩⟩

theorem good_append : Good (l ++ l') ↔ Good l ∧ Good l' ∧ ∀ r ∈ l, ∀ s ∈ l', r.stop ≤ s.base := by
  constructor
  · rintro ⟨ho, hf⟩
    obtain ⟨h1, h2, h3⟩ := ordered_append.mp ho
    exact ⟨⟨h1, fun r hr => hf r (mem_append_left _ hr)⟩, ⟨h2, fun r hr => hf r (mem_append_right _ hr)⟩,
      h3⟩
  · rintro ⟨h1, h2, h3⟩
    exact ⟨ordered_append.mpr ⟨h1.ordered, h2.ordered, h3⟩, forall_mem_append.mpr ⟨h1.fits, h2.fits⟩⟩

theorem proper_append : Proper (l ++ l') ↔ Proper l ∧ Proper l' :=
  forall_mem_append

theorem proper_cons : Proper (r :: l) ↔ 0 < r.size ∧ Proper l :=
  forall_mem_cons

/-- Ordered regions below `c` have a total size of at most `c`. -/
theorem sizes_le_of_stop_le {b c : ℕ} (hl : Good l) (hb : ∀ r ∈ l, b ≤ r.base)
    (hc : ∀ r ∈ l, r.stop ≤ c) (hbc : b ≤ c) : sizes l ≤ c - b := by
  induction l generalizing b with
  | nil => simp
  | cons r l ih =>
    obtain ⟨-, hrl, hl⟩ := good_cons.mp hl
    have hr := mem_cons_self (a := r) (l := l)
    have h := ih hl hrl (fun s hs => hc s (mem_cons_of_mem _ hs)) (hc r hr)
    have := hb r hr
    have := hc r hr
    simp only [sizes_cons, Region.stop] at *
    omega

/-- The sizes of a region array never add up past `PHYS_ADDR_MAX`. -/
theorem sizes_le (hl : Good l) : sizes l ≤ physAddrMax := by
  simpa using sizes_le_of_stop_le hl (fun _ _ => Nat.zero_le _) hl.fits (Nat.zero_le _)

/-! ### The merge pass -/

/-- Joining two mergeable neighbours keeps the order, the map and the total. -/
theorem good_join {pre rest : List Region} {x y : Region} (h : Good (pre ++ x :: y :: rest))
    (hxy : Mergeable x y) : Good (pre ++ { x with size := padd x.size y.size } :: rest) ∧
    SameMap (pre ++ x :: y :: rest) (pre ++ { x with size := padd x.size y.size } :: rest) := by
  obtain ⟨hpre, hxs, hpx⟩ := good_append.mp h
  obtain ⟨hx, hxl, hys⟩ := good_cons.mp hxs
  obtain ⟨hy, hyl, hrest⟩ := good_cons.mp hys
  obtain ⟨htouch, hnid, hflags⟩ := hxy
  have hsum : padd x.size y.size = x.size + y.size := by
    simp only [padd, Region.stop, physAddrMax] at *; omega
  rw [hsum]
  have hstop : (⟨x.base, x.size + y.size, x.nid, x.flags⟩ : Region).stop = y.stop := by
    simp only [Region.stop] at *; omega
  refine ⟨good_append.mpr ⟨hpre, good_cons.mpr ⟨hstop ▸ hy, hstop ▸ hyl, hrest⟩, ?_⟩, ?_, ?_⟩
  · intro r hr s hs
    rcases mem_cons.mp hs with rfl | hs
    · exact hpx r hr x (mem_cons_self ..)
    · exact hpx r hr s (by simp [hs])
  · intro a
    simp only [attrs_append, attrs_cons, hstop, Region.attr, ← hnid, ← hflags]
    congr 1
    have : x.base ≤ x.stop := Nat.le_add_right ..
    have : y.base ≤ y.stop := Nat.le_add_right ..
    split_ifs <;> first | rfl | omega
  · simp only [sizes_append, sizes_cons]; omega

/-- The merge loop, at an index before which everything is merged, ends with everything merged. -/
theorem mergeLoop_spec : ∀ (rest pre : List Region) (x : Region) (n : ℕ),
    Good (pre ++ x :: rest) → Minimal (pre ++ [x]) → rest.length < n →
    ∃ l, mergeLoop n pre.length (pre ++ x :: rest) = .ok l ∧ Good l ∧ Minimal l ∧
    SameMap (pre ++ x :: rest) l ∧ l.length ≤ (pre ++ x :: rest).length ∧ l ≠ [] ∧
    (Proper (pre ++ x :: rest) → Proper l)
  | [], pre, x, n + 1, hg, hm, _ => by
    refine ⟨pre ++ [x], ?_, hg, hm, SameMap.refl _, le_rfl, by simp, id⟩
    rw [mergeLoop, if_neg (by simp)]
  | y :: rest, pre, x, n + 1, hg, hm, hn => by
    have hx : x.rend = x.stop := rend_eq (hg.fits x (by simp))
    have hxy : x.stop ≤ y.base := (good_cons.mp (good_append.mp hg).2.1).2.1 y (by simp)
    rw [mergeLoop, if_pos (by simp), getElem?_cursor, getElem?_cursor_succ]
    simp only [hx]
    by_cases hc : Mergeable x y
    · -- the two regions become one, and the loop looks at it again
      rw [if_neg (by rcases hc with ⟨h1, h2, h3⟩; simp [h1, h2, h3]), set_cursor, eraseIdx_cursor_succ]
      obtain ⟨hg', hs⟩ := good_join hg hc
      have hm' : Minimal (pre ++ [{ x with size := padd x.size y.size }]) := by
        rw [Minimal, isChain_append] at hm ⊢
        refine ⟨hm.1, isChain_singleton _, ?_⟩
        intro r hr s hs
        cases hs
        exact hm.2.2 r hr x (by simp)
      obtain ⟨l, h1, h2, h3, h4, h5, h6, h7⟩ :=
        mergeLoop_spec rest pre _ n hg' hm' (by simp at hn; omega)
      refine ⟨l, h1, h2, h3, hs.trans h4, ?_, h6, fun hp => h7 ?_⟩
      · simp only [length_append, length_cons] at h5 ⊢; omega
      have hsz := hg'.fits _ (mem_append_right _ (mem_cons_self ..))
      rw [proper_append, proper_cons, proper_cons] at hp
      refine proper_append.mpr ⟨hp.1, proper_cons.mpr ⟨?_, hp.2.2.2⟩⟩
      have hfy := hg.fits y (by simp)
      simp only [padd, Region.stop, physAddrMax] at *
      omega
    rw [if_pos (by simp only [Mergeable, not_and_or] at hc; exact hc), if_neg (by omega)]
    have hm' : Minimal ((pre ++ [x]) ++ [y]) := by
      rw [Minimal, isChain_append]
      refine ⟨hm, isChain_singleton _, ?_⟩
      intro r hr s hs
      obtain rfl : x = r := by simpa using hr
      cases hs
      exact hc
    have := mergeLoop_spec rest (pre ++ [x]) y n (by simpa using hg) hm' (by simp at hn; omega)
    simpa using this

/-! ### Well-formed types -/

/-- The array holds only the empty entry that stands for an empty type. -/
def IsDummy (l : List Region) : Prop := ∃ nid flags, l = [⟨0, 0, nid, flags⟩]

/-- What every `memblock_type` is meant to satisfy between two calls. -/
structure WellFormed (t : MemblockType) : Prop where
  good : Good t.regions
  proper : Proper t.regions ∨ IsDummy t.regions
  minimal : Minimal t.regions
  nonempty : t.regions ≠ []
  bounded : t.cnt ≤ t.max
  total : t.totalSize = sizes t.regions

end LinuxNote.Memblock
