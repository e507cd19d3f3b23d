import LinuxNote.Memblock.Invariant

/-! Histories of allocations. The blocks handed out by `memblock_alloc_range_nid` and not freed again are
    kept apart from each other and from the region arrays that memblock has put into its own memory,
    through all the relocations of the reserved array on the way. The invariant behind it: each such
    block and array is covered by `memblock.reserved`, and the search finds uncovered memory only. -/

namespace LinuxNote.Memblock
open Intervals Outcome List Option Request

/-- `memblock_alloc_range_nid`. -/
def allocRangeNid (env : Env) (size align start stop : ℕ) (nid : ℤ) (flags : Flags)
    (mb : MemblockState) : Except Fault (ℕ × MemblockState) :=
  let align := if align = 0 then env.smpCacheBytes else align
  findInRangeNode env mb size align start stop nid flags >>= fun found =>
    if found = 0 then .ok (0, mb)
    else memblockReserve (doubleArray 2 env) env found size mb >>= fun
      | (.ok, mb) => .ok (found, mb)
      | (.enomem, mb) => .ok (0, mb)

/-- The address is in the block, given by its start and its size. -/
def InBlock (b : ℕ × ℕ) (a : ℕ) : Prop := b.1 ≤ a ∧ a < b.1 + b.2

/-- The two blocks have no address in common. -/
def Apart (b c : ℕ × ℕ) : Prop := ∀ a, InBlock b a → ¬InBlock c a

variable {b c : ℕ × ℕ} {mb : MemblockState}

theorem Apart.symm (h : Apart b c) : Apart c b := fun a h1 h2 => h a h2 h1

instance : Std.Symm Apart := ⟨fun _ _ => Apart.symm⟩

theorem not_apart_of_overlap (h : blocksOverlap b c) (hb : 0 < b.2) (hc : 0 < c.2) : ¬Apart b c := by
  obtain ⟨h1, h2⟩ := h
  intro hap
  rcases le_total b.1 c.1 with h | h
  · exact hap c.1 ⟨h, h2⟩ ⟨le_rfl, by omega⟩
  · exact hap b.1 ⟨le_rfl, by omega⟩ ⟨h, h1⟩

/-- Every address of the block is reserved. -/
def Covered (mb : MemblockState) (b : ℕ × ℕ) : Prop :=
  ∀ a, InBlock b a → attrs mb.reserved.regions a ≠ none

/-- No address of the block is reserved. -/
def Uncovered (mb : MemblockState) (b : ℕ × ℕ) : Prop :=
  ∀ a, InBlock b a → attrs mb.reserved.regions a = none

theorem Covered.apart (hb : Covered mb b) (hc : Uncovered mb c) : Apart b c :=
  fun a h1 h2 => hb a h1 (hc a h2)

/-- A state to start from: the arrays in memblock's own memory are reserved, the one of the reserved
    type with the same attributes throughout. -/
structure Ready (env : Env) (mb : MemblockState) : Prop where
  valid : Valid mb
  memoryArray : ∀ b, arrayBlock env mb.memory = some b → Covered mb b
  reservedArray : ∀ b, arrayBlock env mb.reserved = some b → ∃ p, ∀ a, InBlock b a →
    attrs mb.reserved.regions a = some p
  arraysApart : ∀ b c, arrayBlock env mb.memory = some b → arrayBlock env mb.reserved = some c →
    Apart b c

/-- The invariant of a history with the live blocks `live`. -/
structure Sound (env : Env) (mb : MemblockState) (live : List (ℕ × ℕ)) : Prop extends Ready env mb where
  sizePos : ∀ b ∈ live, 0 < b.2
  covered : ∀ b ∈ live, Covered mb b
  liveApart : live.Pairwise Apart
  liveArrays : ∀ b ∈ live, ∀ t c, arrayBlock env (mb.get t) = some c → Apart b c

section
variable {env : Env} {mb mb' : MemblockState} {live : List (ℕ × ℕ)}

variable {env' : Env} {t : TypeId} {c b : ℕ × ℕ} {q : Request} {mid : MemblockState}

theorem Sound.congr (hs : Sound env mb live) (h : env.pageSize = env'.pageSize) :
    Sound env' mb live := by
  have hab : ∀ ty, arrayBlock env ty = arrayBlock env' ty :=
    fun ty => by simp only [arrayBlock, allocSize, pageAlign, h]
  exact ⟨⟨hs.valid, fun b hb => hs.memoryArray b (by rwa [hab]),
    fun b hb => hs.reservedArray b (by rwa [hab]),
    fun b c hb hc => hs.arraysApart b c (by rwa [hab]) (by rwa [hab])⟩, hs.sizePos, hs.covered,
    hs.liveApart, fun b hb t c hc => hs.liveArrays b hb t c (by rwa [hab])⟩

theorem Sound.arrayCovered (h : Sound env mb live) (hc : arrayBlock env (mb.get t) = some c) :
    Covered mb c := by
  rcases t with _ | _
  · exact h.memoryArray c hc
  obtain ⟨p, hp⟩ := h.reservedArray c hc
  intro a ha
  rw [hp a ha]
  simp

/-- A block that was not reserved is apart from all live blocks and arrays. -/
theorem Sound.apart (h : Sound env mb live) (hb : Uncovered mb b) :
    (∀ c ∈ live, Apart b c) ∧ ∀ t c, arrayBlock env (mb.get t) = some c → Apart b c :=
  ⟨fun c hc => ((h.covered c hc).apart hb).symm, fun _ _ hc => ((h.arrayCovered hc).apart hb).symm⟩

/-- The invariant stays when the arrays stay where they are and the map stays the same on them and on
    the blocks that are still live. -/
theorem Sound.frame (h : Sound env mb live) {live' : List (ℕ × ℕ)} (hsub : live'.Sublist live)
    (hv : Valid mb') (harr : ∀ t, arrayBlock env (mb'.get t) = arrayBlock env (mb.get t))
    (hmap : ∀ c, (c ∈ live' ∨ ∃ t, arrayBlock env (mb.get t) = some c) → ∀ a, InBlock c a →
      attrs mb'.reserved.regions a = attrs mb.reserved.regions a) : Sound env mb' live' := by
  have hm : arrayBlock env mb'.memory = arrayBlock env mb.memory := harr .memory
  have hr : arrayBlock env mb'.reserved = arrayBlock env mb.reserved := harr .reserved
  refine ⟨⟨hv, fun b hb a ha => ?_, fun b hb => ?_, fun b c hb hc => ?_⟩,
    fun b hb => h.sizePos b (hsub.subset hb), fun b hb a ha => ?_, h.liveApart.sublist hsub,
    fun b hb t c hc => h.liveArrays b (hsub.subset hb) t c (by rwa [← harr])⟩
  · rw [hm] at hb
    rw [hmap b (.inr ⟨.memory, hb⟩) a ha]
    exact h.memoryArray b hb a ha
  · rw [hr] at hb
    obtain ⟨p, hp⟩ := h.reservedArray b hb
    exact ⟨p, fun a ha => (hmap b (.inr ⟨.reserved, hb⟩) a ha).trans (hp a ha)⟩
  · rw [hm] at hb
    rw [hr] at hc
    exact h.arraysApart b c hb hc
  · rw [hmap b (.inl hb) a ha]
    exact h.covered b (hsub.subset hb) a ha

/-! ### Relocations of the reserved array -/

section
variable {start size : ℕ}

section
variable (h : Relocates env start size mb mb')
include h

/-- A reserved block that is apart from the old array is left as it is. -/
theorem Relocates.kept {c : ℕ × ℕ} (hc : Covered mb c)
    (hap : ∀ b, arrayBlock env mb.reserved = some b → Apart c b) {a : ℕ} (ha : InBlock c a) :
    attrs mb'.reserved.regions a = attrs mb.reserved.regions a := by
  obtain ⟨addr, -, hmap, -⟩ := h.moved
  have hfreed : freedMap env mb.reserved (attrs mb.reserved.regions) a =
    attrs mb.reserved.regions a := by
    rw [freedMap]
    rcases hb : arrayBlock env mb.reserved with _ | b
    · rfl
    have hout := hap b hb a ha
    have hcap : capSize b.1 b.2 ≤ b.2 := min_le_left ..
    exact if_neg fun hin => hout ⟨hin.1, by omega⟩
  obtain ⟨p, hp⟩ := ne_none_iff_exists'.mp (hc a ha)
  rw [hmap, relocatedMap]
  split
  · exact hfreed
  · rw [addOn, hfreed, hp, some_or]

/-- The area that waits to be reserved is still free after a relocation. -/
theorem Relocates.waiting (hs : start ≠ 0) (hfree : Uncovered mb (start, size)) :
    Uncovered mb' (start, size) := by
  intro a ha
  obtain ⟨addr, -, hmap, hplaced, -⟩ := h.moved
  have hfreed : freedMap env mb.reserved (attrs mb.reserved.regions) a = none :=
    freedMap_none (hfree a ha)
  rw [hmap, relocatedMap]
  split
  · exact hfreed
  rename_i hslab
  have havoid := (hplaced (by simpa using hslab)).1.avoids rfl hs
  obtain ⟨h1, h2⟩ := ha
  rw [addOn, hfreed, if_neg (by omega), none_or]

/-- Where the array is after a relocation: in slab, or in memory that was free. -/
theorem Relocates.array :
    arrayBlock env mb'.reserved = none ∨ ∃ c, arrayBlock env mb'.reserved = some c ∧ Uncovered mb c ∧
        ∀ a, InBlock c a → attrs mb'.reserved.regions a = some (env.maxNumNodes, 0) := by
  obtain ⟨addr, hloc, hmap, hplaced, -⟩ := h.moved
  cases hslab : env.slabIsAvailable with
  | true => exact .inl (by rw [arrayBlock, if_pos (h.inSlab.trans hslab)])
  | false =>
    obtain ⟨flags, hblock⟩ := (hplaced hslab).1.block
    have hin : mb'.reserved.inSlab = false := h.inSlab.trans hslab
    refine .inr ⟨(addr, allocSize env (2 * mb.reserved.max)), ?_, fun a ha => ?_, fun a ha => ?_⟩
    · rw [arrayBlock, hin, hloc, h.max]
      rfl
    · exact hblock.free a ha.1 ha.2
    have hfreed : freedMap env mb.reserved (attrs mb.reserved.regions) a = none :=
      freedMap_none (hblock.free a ha.1 ha.2)
    obtain ⟨h1, h2⟩ := ha
    rw [hmap, relocatedMap, hslab, if_neg (by simp), addOn, hfreed, if_pos ⟨h1, h2⟩, none_or]

end

theorem Sound.relocates (hs : Sound env mb live) (h : Relocates env start size mb mb') :
    Sound env mb' live := by
  have hmem : mb'.memory = mb.memory := h.memory
  -- live blocks and the memory array are apart from the old array
  have hlive : ∀ b ∈ live, ∀ a, InBlock b a →
    attrs mb'.reserved.regions a = attrs mb.reserved.regions a := fun b hb a ha =>
    h.kept (hs.covered b hb) (fun c hc => hs.liveArrays b hb .reserved c hc) ha
  have hmemArray : ∀ b, arrayBlock env mb.memory = some b → ∀ a, InBlock b a →
      attrs mb'.reserved.regions a = attrs mb.reserved.regions a := fun b hb a ha =>
    h.kept (hs.memoryArray b hb) (fun c hc => hs.arraysApart b c hb hc) ha
  refine ⟨⟨h.valid hs.valid, fun b hb a ha => ?_, fun b hb => ?_, fun b c hb hc => ?_⟩,
    hs.sizePos, fun b hb a ha => ?_, hs.liveApart, fun b hb t c hc => ?_⟩
  · rw [hmem] at hb
    rw [hmemArray b hb a ha]
    exact hs.memoryArray b hb a ha
  · rcases h.array with hnone | ⟨c, hc, -, hattr⟩
    · rw [hnone] at hb
      cases hb
    obtain rfl : c = b := mem_unique hc hb
    exact ⟨_, hattr⟩
  · rw [hmem] at hb
    rcases h.array with hnone | ⟨c', hc', hfree, -⟩
    · rw [hnone] at hc
      cases hc
    obtain rfl : c' = c := mem_unique hc' hc
    exact (hs.memoryArray b hb).apart hfree
  · rw [hlive b hb a ha]
    exact hs.covered b hb a ha
  rcases t with _ | _
  · refine hs.liveArrays b hb .memory c ?_
    rw [← hc]
    exact congrArg _ hmem.symm
  rcases h.array with hnone | ⟨c', hc', hfree, -⟩
  · exact absurd (hnone.symm.trans hc) (by simp)
  obtain rfl : c' = c := mem_unique hc' hc
  exact (hs.covered b hb).apart hfree

theorem Sound.relocations (hs : Sound env mb live)
    (h : Relation.ReflTransGen (Relocates env start size) mb mb') :
    Sound env mb' live ∧ mb'.memory = mb.memory ∧
    (start ≠ 0 → Uncovered mb (start, size) → Uncovered mb' (start, size)) := by
  induction h with
  | refl => exact ⟨hs, rfl, fun _ => id⟩
  | tail _ hrel ih =>
    obtain ⟨hs', hmem, hwait⟩ := ih
    exact ⟨hs'.relocates hrel, hrel.memory.trans hmem, fun h0 hfree => hrel.waiting h0 (hwait h0 hfree)⟩

end

/-! ### The calls -/

/-- A type whose regions all lie in an interval that it covers with the same attributes throughout has
    one region. -/
theorem cnt_eq_one {ty : MemblockType} {lo hi : ℕ} {p : ℤ × Flags} (h : WellFormed ty)
    (hin : ∀ r ∈ ty.regions, lo ≤ r.base ∧ r.stop ≤ hi)
    (hattr : ∀ a, lo ≤ a → a < hi → attrs ty.regions a = some p) : ty.cnt = 1 := by
  have hne := h.nonempty
  have hgood := h.good
  have hmin := h.minimal
  have hproper := h.proper
  rw [MemblockType.cnt]
  generalize ty.regions = l at *
  rcases l with _ | ⟨r, _ | ⟨s, l⟩⟩
  · exact absurd rfl hne
  · rfl
  have hp : Proper (r :: s :: l) := by
    refine hproper.resolve_right ?_
    rintro ⟨nid, flags, hd⟩
    simp at hd
  obtain ⟨-, hrs, hgood'⟩ := good_cons.mp hgood
  obtain ⟨-, hsl, -⟩ := good_cons.mp hgood'
  have hle := hrs s (by simp)
  have hinr := hin r (by simp)
  have hins := hin s (by simp)
  -- the address after `r` is covered, and only `s` can do that
  have htouch : r.stop = s.base := by
    by_contra hgap
    have hnone : attrs (r :: s :: l) r.stop = none := by
      refine attrAt_eq_none_iff.mpr fun t ht => ?_
      rcases mem_cons.mp ht with rfl | ht
      · omega
      rcases mem_cons.mp ht with rfl | ht
      · omega
      have := hsl t ht
      simp only [Region.stop] at *
      omega
    have := hattr r.stop (by simp only [Region.stop] at *; omega)
      (by simp only [Region.stop] at *; omega)
    rw [hnone] at this
    cases this
  have hattrs : ∀ t ∈ r :: s :: l, t.attr = p := by
    intro t ht
    have hpos := hp t ht
    have hint := hin t ht
    have h1 := hattr t.base hint.1 (by simp only [Region.stop] at hint; omega)
    have h2 : attrs (r :: s :: l) t.base = some t.attr :=
      attrAt_eq_some_of_mem hgood.ordered ht le_rfl (by simp only [Region.stop]; omega)
    exact mem_unique h2 h1
  have heq : r.attr = s.attr := (hattrs r (by simp)).trans (hattrs s (by simp)).symm
  rw [Region.attr, Region.attr, Prod.mk.injEq] at heq
  exact absurd ⟨htouch, heq.1, heq.2⟩ (isChain_cons_cons.mp hmin).1

section
variable (h : Sound env mb live)
include h

/-- In a sound state no call empties the reserved type half way. -/
theorem Sound.not_emptiesReserved (q : Request) : ¬EmptiesReserved env q mb := by
  rintro ⟨base, size, nid, flags, -, hfull, -, -, -, pa, len, hblock, hin⟩
  obtain ⟨p, hp⟩ := h.reservedArray _ hblock
  have hcnt := cnt_eq_one h.valid.reserved hin fun a h1 h2 => hp a ⟨h1, h2⟩
  have hgaps : gaps (base + capSize base size) base mb.reserved.regions ≤ mb.reserved.cnt + 1 :=
    gaps_le ..
  have hmax := h.valid.reservedMax
  omega

theorem Sound.array_pos (hc : arrayBlock env (mb.get t) = some c) : 0 < c.2 := by
  have hmax : 4 ≤ (mb.get t).max := by
    cases t
    · exact h.valid.memoryMax
    · exact h.valid.reservedMax
  rw [arrayBlock] at hc
  split at hc
  · cases hc
  obtain ⟨pa, -, rfl⟩ := map_eq_some_iff.mp hc
  exact allocSize_pos env (by omega)

/-- In a sound state a new array is not put over an array in use. -/
theorem Sound.not_exposed : ¬Exposed env mb := by
  rintro ⟨addr, hfree, hclob⟩
  have hmax := h.valid.reservedMax
  rw [← Bool.not_eq_false, clobbers_eq_false] at hclob
  refine hclob fun t c hc hover => ?_
  exact not_apart_of_overlap hover (allocSize_pos env (by omega)) (h.array_pos hc)
    ((h.apart fun a ha => hfree a ha.1 ha.2).2 t c hc)

/-- A call on the reserved type from a sound state. -/
theorem Sound.run (hq : q.type = .reserved) :
    Ensures (q.run env mb) (fun p => ∃ mid, Did env q mb p mid ∧ Sound env mid live ∧
      p.2.memory = mb.memory ∧ Valid p.2 ∧
      (q.base ≠ 0 → Uncovered mb (q.base, q.size) → Uncovered mid (q.base, q.size)))
    (fun e => e = .bugInsert) := by
  refine (run_spec env q h.valid).imp ?_ ?_
  · rintro ⟨ret, mb'⟩ ⟨mid, hdid⟩
    obtain ⟨hmid, hmem, hwait⟩ := h.relocations (hdid.grown.reserved hq)
    refine ⟨mid, hdid, hmid, ?_, hdid.valid h.valid (h.not_emptiesReserved q), hwait⟩
    rw [← hmem]
    cases ret with
    | enomem => rw [hdid.enomem rfl]
    | ok =>
      have hframe := hdid.frame rfl
      rw [hq] at hframe
      rw [hframe]
      rfl
  rintro e (he | he)
  · rcases he with ⟨ht, -⟩ | ⟨-, -, mid, hgrown, hexp⟩
    · rw [hq] at ht
      cases ht
    rw [hq] at hgrown
    exact absurd hexp (h.relocations (hgrown.reserved rfl)).1.not_exposed
  · exact he

end

theorem Did.arrays (h : Did env q mb (.ok, mb') mid) (hq : q.type = .reserved) (t : TypeId) :
    arrayBlock env (mb'.get t) = arrayBlock env (mid.get t) := by
  have hframe : mb' = mid.set q.type (mb'.get q.type) := h.frame rfl
  have hsame : SameArray (mid.get q.type) (mb'.get q.type) := h.same rfl
  rw [hq] at hframe hsame
  cases t with
  | memory => rw [hframe]; rfl
  | reserved => simp only [arrayBlock, hsame.max, hsame.loc, hsame.inSlab]

theorem Did.reservedMap (h : Did env q mb (.ok, mb') mid) (hq : q.type = .reserved) (a : ℕ) :
    attrs mb'.reserved.regions a = q.effect (attrs mid.reserved.regions) a := by
  have hmap : attrs (mb'.get q.type).regions a = _ := h.map rfl a
  rwa [hq] at hmap

section
variable (h : Sound env mb live)
include h

/-- `memblock_reserve` keeps the invariant, and what was free before is a live block afterwards. -/
theorem Sound.reserve (base size : ℕ) : Ensures (memblockReserve (doubleArray 2 env) env base size mb)
    (fun p => Sound env p.2 live ∧ p.2.memory = mb.memory ∧
      (p.1 = .ok → base ≠ 0 → 0 < size → base + size ≤ physAddrMax → Uncovered mb (base, size) →
        Sound env p.2 ((base, size) :: live))) (fun e => e = .bugInsert) := by
  have hq : (Request.addRange .reserved base size env.maxNumNodes 0).type = .reserved := rfl
  refine (h.run hq).imp ?_ (fun _ => id)
  rintro ⟨ret, mb'⟩ ⟨mid, hdid, hmid, hmem, hv, hwait⟩
  cases ret with
  | enomem =>
    obtain rfl : mb' = mid := hdid.enomem rfl
    exact ⟨hmid, hmem, by simp⟩
  | ok =>
    have hmap := hdid.reservedMap hq
    -- the call gives new attributes only where there were none
    have hsound : Sound env mb' live := by
      refine hmid.frame (.refl _) hv (hdid.arrays hq) fun c hc a ha => ?_
      have hcov : Covered mid c := by
        rcases hc with hc | ⟨t, hc⟩
        · exact hmid.covered c hc
        · exact hmid.arrayCovered hc
      obtain ⟨p, hp⟩ := ne_none_iff_exists'.mp (hcov a ha)
      rw [hmap, effect, addOn, hp, some_or]
    refine ⟨hsound, hmem, fun _ h0 hpos hfit hfree => ?_⟩
    have hcap : capSize base size = size := min_eq_left (by omega)
    have hfree' : Uncovered mid (base, size) := by
      have := hwait h0
      simp only [Request.base, Request.size, hcap] at this
      exact this hfree
    obtain ⟨hlive, harr⟩ := hmid.apart hfree'
    refine ⟨hsound.toReady, forall_mem_cons.mpr ⟨hpos, hsound.sizePos⟩,
      forall_mem_cons.mpr ⟨fun a ha => ?_, hsound.covered⟩, pairwise_cons.mpr ⟨hlive, hsound.liveApart⟩,
      forall_mem_cons.mpr ⟨fun t c hc => harr t c (by rwa [← hdid.arrays hq]), hsound.liveArrays⟩⟩
    obtain ⟨h1, h2⟩ := ha
    rw [hmap, Request.effect, addOn, Request.base, Request.size, hcap, if_pos ⟨h1, h2⟩]
    cases attrs mid.reserved.regions a <;> simp

theorem Sound.nodup : live.Nodup := by
  refine h.liveApart.imp_of_mem fun {b c} hb _ hap heq => ?_
  subst heq
  have hpos := h.sizePos b hb
  exact hap b.1 ⟨le_rfl, by omega⟩ ⟨le_rfl, by omega⟩

/-- `memblock_free` of a live block keeps the invariant for the others. -/
theorem Sound.free (hb : b ∈ live) : Ensures (memblockFree (doubleArray 2 env) env b.1 b.2 mb)
    (fun p => Sound env p.2 (if p.1 = .ok then live.erase b else live) ∧ p.2.memory = mb.memory)
    (fun e => e = .bugInsert) := by
  have hq : (Request.removeRange .reserved b.1 b.2).type = .reserved := rfl
  refine (h.run hq).imp ?_ (fun _ => id)
  rintro ⟨ret, mb'⟩ ⟨mid, hdid, hmid, hmem, hv, -⟩
  cases ret with
  | enomem =>
    obtain rfl : mb' = mid := hdid.enomem rfl
    exact ⟨by simpa using hmid, hmem⟩
  | ok =>
    refine ⟨?_, hmem⟩
    rw [if_pos rfl]
    refine hmid.frame erase_sublist hv (hdid.arrays hq) fun c hc a ha => ?_
    have hap : Apart c b := by
      rcases hc with hc | ⟨t, hc⟩
      · have hmem := (hmid.nodup.mem_erase_iff).mp hc
        exact hmid.liveApart.forall hmem.2 hb hmem.1
      · exact (hmid.liveArrays b hb t c hc).symm
    have hcap : capSize b.1 b.2 ≤ b.2 := min_le_left ..
    have hout : ¬(b.1 ≤ a ∧ a < b.1 + capSize b.1 b.2) := fun hin =>
      hap a ha ⟨hin.1, by omega⟩
    rw [hdid.reservedMap hq, effect, eraseOn, base, size, if_neg hout]

/-- `memblock_alloc_range_nid` returns 0 or a block that was free, and keeps the invariant. -/
theorem Sound.alloc {size start : ℕ} (align stop : ℕ) (nid : ℤ)
    (flags : Flags) (hsize : 0 < size) (hstart : start ≤ physAddrMax) :
    Ensures (allocRangeNid env size align start stop nid flags mb)
    (fun p => Sound env p.2 (if p.1 = 0 then live else (p.1, size) :: live) ∧ p.2.memory = mb.memory ∧
      (p.1 ≠ 0 → FreeBlock env nid flags mb (max start env.pageSize) (searchEnd env stop) size p.1 ∧
        ∀ k < 64, align = 2 ^ k → align ∣ p.1)) (fun e => e = .bugInsert) := by
  rw [allocRangeNid]
  refine ((findInRangeNode_spec h.valid.memory.good h.valid.reserved.good hsize hstart).imp
    (fun _ => id) fun _ he => he.elim).bind fun found hfound => ?_
  split
  · exact ⟨by simpa using h, rfl, by simp⟩
  rename_i hne
  obtain ⟨hblock, halign⟩ := hfound hne
  refine (h.reserve found size).bind fun p hp => ?_
  obtain ⟨ret, mb'⟩ := p
  obtain ⟨hsound, hmem, hnew⟩ := hp
  cases ret with
  | enomem => exact ⟨by simpa using hsound, hmem, by simp⟩
  | ok =>
    have hfit : found + size ≤ physAddrMax := by
      obtain ⟨m, hm, -, -, hle⟩ := hblock.region
      exact hle.trans (h.valid.memory.good.fits m hm)
    refine ⟨?_, hmem, fun _ => ⟨hblock, fun k hk hak => ?_⟩⟩
    · rw [if_neg hne]
      exact hnew rfl hne hsize hfit fun a ha => hblock.free a ha.1 ha.2
    have h0 : align ≠ 0 := by
      rw [hak]
      positivity
    rw [if_neg h0] at halign
    exact halign k hk hak

end

end

/-! ### Histories -/

/-- The states and live blocks that calls can lead to from `mb₀`. Each call has its own environment,
    with the same page size. Blocks are freed that were handed out earlier, and no explicit
    reservation overlaps a live block; a free that fails leaves the block live. -/
inductive Reach (env₀ : Env) (mb₀ : MemblockState) : MemblockState → List (ℕ × ℕ) → Prop
  | start : Reach env₀ mb₀ mb₀ []
  | alloc {mb mb' live env size align start stop nid flags found} : Reach env₀ mb₀ mb live →
      env.pageSize = env₀.pageSize → 0 < size → start ≤ physAddrMax →
      allocRangeNid env size align start stop nid flags mb = .ok (found, mb') →
      Reach env₀ mb₀ mb' (if found = 0 then live else (found, size) :: live)
  | reserve {mb mb' live env base size ret} : Reach env₀ mb₀ mb live →
      env.pageSize = env₀.pageSize → (∀ b ∈ live, Apart (base, capSize base size) b) →
      memblockReserve (doubleArray 2 env) env base size mb = .ok (ret, mb') → Reach env₀ mb₀ mb' live
  | free {mb mb' live env b ret} : Reach env₀ mb₀ mb live → env.pageSize = env₀.pageSize → b ∈ live →
      memblockFree (doubleArray 2 env) env b.1 b.2 mb = .ok (ret, mb') →
      Reach env₀ mb₀ mb' (if ret = .ok then live.erase b else live)

/-- Every state of a history is sound, and the memory map is the one it started with. -/
theorem Reach.sound {env0 : Env} {mb0 : MemblockState} {live : List (ℕ × ℕ)}
    (h0 : Ready env0 mb0) (h : Reach env0 mb0 mb live) :
    Sound env0 mb live ∧ mb.memory = mb0.memory := by
  induction h with
  | start => exact ⟨⟨h0, by simp, by simp, .nil, by simp⟩, rfl⟩
  | alloc _ henv hsize hstart hcall ih =>
    obtain ⟨hs, hmem⟩ := ih
    obtain ⟨hs', hmem', -⟩ := ((hs.congr henv.symm).alloc _ _ _ _ hsize hstart).of_ok hcall
    exact ⟨hs'.congr henv, hmem'.trans hmem⟩
  | reserve _ henv _ hcall ih =>
    obtain ⟨hs, hmem⟩ := ih
    obtain ⟨hs', hmem', -⟩ := ((hs.congr henv.symm).reserve _ _).of_ok hcall
    exact ⟨hs'.congr henv, hmem'.trans hmem⟩
  | free _ henv hb hcall ih =>
    obtain ⟨hs, hmem⟩ := ih
    obtain ⟨hs', hmem'⟩ := ((hs.congr henv.symm).free hb).of_ok hcall
    exact ⟨hs'.congr henv, hmem'.trans hmem⟩

/-- In every state of a history the live blocks are apart from each other and from the arrays, and a
    block that is now handed out is where it was asked for, in memory that nothing else has. The only
    fault left is the `BUG_ON` of `memblock_insert_region`. -/
theorem reach_alloc {env₀ : Env} {mb₀ mb : MemblockState} {live : List (ℕ × ℕ)}
    (h₀ : Ready env₀ mb₀) (h : Reach env₀ mb₀ mb live) :
    live.Pairwise Apart ∧ (∀ b ∈ live, ∀ t c, arrayBlock env₀ (mb.get t) = some c → Apart b c) ∧
    ∀ env : Env, env.pageSize = env₀.pageSize →
    (∀ size align start stop nid flags, 0 < size → start ≤ physAddrMax →
      (∀ found mb', allocRangeNid env size align start stop nid flags mb = .ok (found, mb') → found ≠ 0 →
        (∃ m ∈ mb₀.memory.regions, wanted env nid flags m = true ∧ m.base ≤ found ∧
          found + size ≤ m.base + m.size) ∧
        max start env.pageSize ≤ found ∧ found + size ≤ searchEnd env stop ∧
        (∀ k < 64, align = 2 ^ k → align ∣ found) ∧ (∀ b ∈ live, Apart (found, size) b) ∧
        (∀ a, InBlock (found, size) a → attrs mb.reserved.regions a = none) ∧
        (∀ t c, arrayBlock env (mb.get t) = some c → Apart (found, size) c) ∧
        (∀ t c, arrayBlock env (mb'.get t) = some c → Apart (found, size) c)) ∧
      ∀ e, allocRangeNid env size align start stop nid flags mb = .error e → e = .bugInsert) ∧
    (∀ base size e, memblockReserve (doubleArray 2 env) env base size mb = .error e →
      e = .bugInsert) ∧
    (∀ b ∈ live, ∀ e, memblockFree (doubleArray 2 env) env b.1 b.2 mb = .error e →
      e = .bugInsert) := by
  obtain ⟨hs0, hmem0⟩ := h.sound h₀
  refine ⟨hs0.liveApart, hs0.liveArrays, fun env henv => ?_⟩
  have hs := hs0.congr henv.symm
  refine ⟨fun size align start stop nid flags hsize hstart => ?_, fun base size e he => ?_,
    fun b hb e he => (hs.free hb).of_error he⟩
  · have hspec := hs.alloc align stop nid flags hsize hstart
    refine ⟨fun found mb' hcall hne => ?_, fun e he => hspec.of_error he⟩
    obtain ⟨hs', -, hfound⟩ := hspec.of_ok hcall
    obtain ⟨hblock, halign⟩ := hfound hne
    have hfree : Uncovered mb (found, size) := fun a ha => hblock.free a ha.1 ha.2
    obtain ⟨hlive, harr⟩ := hs.apart hfree
    rw [if_neg hne] at hs'
    refine ⟨hmem0 ▸ hblock.region, hblock.lower, hblock.upper, halign, hlive, hfree, harr, ?_⟩
    exact hs'.liveArrays (found, size) (by simp)
  · exact (hs.reserve base size).of_error he

/-- With a full array of reservations the page handed out and the array, which moves below it, are
    apart. -/
theorem reach_alloc_full : ∃ mb', allocRangeNid plainEnv 4096 4096 0 0 numaNoNode 0 fullState = .ok
    (0x3ffff000, mb') ∧ arrayBlock plainEnv mb'.reserved = some (0x3fffd000, 8192) ∧
    Apart (0x3ffff000, 4096) (0x3fffd000, 8192) := by
  have h : (allocRangeNid plainEnv 4096 4096 0 0 numaNoNode 0 fullState).toOption.map
      (fun p => (p.1, arrayBlock plainEnv p.2.reserved)) =
      some (0x3ffff000, some (0x3fffd000, 8192)) := by decide +kernel
  obtain ⟨⟨found, mb'⟩, hrun, hvals⟩ := exists_ok h
  obtain ⟨rfl, harr⟩ := Prod.mk.inj hvals
  have hready : Ready plainEnv fullState := ⟨valid_fullState, by simp [arrayBlock, fullState],
    by simp [arrayBlock, fullState, evenMemory], by simp [arrayBlock, fullState]⟩
  obtain ⟨-, -, hall⟩ := reach_alloc hready .start
  obtain ⟨hblock, -⟩ := (hall plainEnv rfl).1 4096 4096 0 0 numaNoNode 0 (by decide) (by decide)
  obtain ⟨-, -, -, -, -, -, -, hnew⟩ := hblock _ mb' hrun (by decide)
  exact ⟨mb', hrun, harr, hnew .reserved _ harr⟩

end LinuxNote.Memblock
