import LinuxNote.Memblock.Find
import LinuxNote.Memblock.Isolate

/-! The calls that change the region arrays: `memblock_add_range`, `memblock_remove_range`,
    `memblock_set_node`, `memblock_setclr_flag`, and `memblock_double_array`, which they call for more
    room and which calls them back to free the old array and to reserve the new one. The recursion is cut
    by a depth: `doubleArray` at depth `d + 1` calls the others with `doubleArray` at depth `d`. A new
    array that would be put over an array in use is a fault. -/

namespace LinuxNote.Memblock
open Intervals Outcome List Nat

/-- What a call returns: 0, or `-ENOMEM` (for `memblock_double_array`, -1). -/
inductive Ret where
  | ok
  | enomem
  deriving DecidableEq

/-- A call on the global state that may fault. -/
abbrev Call := MemblockState → Except Fault (Ret × MemblockState)

/-- The loop before an insertion: double the array while there is no room for `need` regions. -/
def growLoop (double : Call) (t : TypeId) (need : ℕ) : ℕ → Call
  | 0, _ => .error .fuel
  | n + 1, mb =>
    if (mb.get t).cnt + need > (mb.get t).max then
      double mb >>= fun
        | (.enomem, mb) => .ok (.enomem, mb)
        | (.ok, mb) => growLoop double t need n mb
    else .ok (.ok, mb)

def grow (double : Call) (t : TypeId) (need : ℕ) : Call := fun mb =>
  growLoop double t need ((mb.get t).cnt + need + 1) mb

/-- The second round of `memblock_add_range`: insert the pieces and merge. -/
def insertPieces (ty : MemblockType) (base stop : ℕ) (nid : ℤ) (flags : Flags) :
    Except Fault MemblockType := do
  let (nrNew, ty) ← addPass true ty base stop nid flags
  if nrNew = 0 then .ok ty else mergeRegions ty

section
variable (double : TypeId → ℕ → ℕ → Call)

/-- `memblock_add_range`. -/
def addRange (t : TypeId) (base size : ℕ) (nid : ℤ) (flags : Flags) : Call := fun mb =>
  let size := capSize base size
  let stop := padd base size
  let ty := mb.get t
  if size = 0 then .ok (.ok, mb)
  else if ty.regions[0]?.map Region.size = some 0 then
    -- special case for empty array
    .ok (.ok, mb.set t { ty with
      regions := ty.regions.set 0 ⟨base, size, nid, flags⟩, totalSize := size })
  else
    addPass false ty base stop nid flags >>= fun (nrNew, _) =>
      if nrNew = 0 then .ok (.ok, mb)
      else grow (double t base size) t nrNew mb >>= fun
        | (.enomem, mb) => .ok (.enomem, mb)
        | (.ok, mb) => insertPieces (mb.get t) base stop nid flags >>= fun ty =>
            .ok (.ok, mb.set t ty)

/-- `memblock_isolate_range`, with `*start_rgn` and `*end_rgn`. -/
def isolateRange (t : TypeId) (base size : ℕ) (mb : MemblockState) :
    Except Fault (Ret × (ℕ × ℕ) × MemblockState) :=
  let size := capSize base size
  let stop := padd base size
  if size = 0 then .ok (.ok, (0, 0), mb)
  else grow (double t base size) t 2 mb >>= fun
    | (.enomem, mb) => .ok (.enomem, (0, 0), mb)
    | (.ok, mb) => isolateWalk (mb.get t) base stop >>= fun (startRgn, endRgn, ty) =>
        .ok (.ok, (startRgn, endRgn), mb.set t ty)

/-- `memblock_remove_range`. -/
def removeRange (maxNumNodes : ℤ) (t : TypeId) (base size : ℕ) : Call := fun mb =>
  isolateRange double t base size mb >>= fun
    | (.enomem, _, mb) => .ok (.enomem, mb)
    | (.ok, (startRgn, endRgn), mb) =>
      .ok (.ok, mb.set t (removeRegions maxNumNodes startRgn endRgn (mb.get t)))

/-- `memblock_set_node` and `memblock_setclr_flag`: `f` on each region in the range, then merge. -/
def updateRange (f : Region → Region) (t : TypeId) (base size : ℕ) : Call := fun mb =>
  isolateRange double t base size mb >>= fun
    | (.enomem, _, mb) => .ok (.enomem, mb)
    | (.ok, (startRgn, endRgn), mb) =>
      mergeRegions (updateRegions f startRgn (endRgn - startRgn) (mb.get t)) >>= fun ty =>
        .ok (.ok, mb.set t ty)

/-- `memblock_set_node`. -/
def setNode (base size : ℕ) (t : TypeId) (nid : ℤ) : Call :=
  updateRange double (fun r => { r with nid := nid }) t base size

/-- `memblock_setclr_flag`, always on `memblock.memory`. -/
def setclrFlag (base size : ℕ) (set : Bool) (flag : Flags) : Call :=
  updateRange double (fun r => { r with flags := if set then r.flags ||| flag else r.flags &&& ~~~flag })
    .memory base size

/-- `memblock_free`. -/
def memblockFree (env : Env) (base size : ℕ) : Call :=
  removeRange double env.maxNumNodes .reserved base size

/-- `memblock_reserve`. -/
def memblockReserve (env : Env) (base size : ℕ) : Call :=
  addRange double .reserved base size env.maxNumNodes 0

end

/-! ### Doubling an array -/

/-- `sizeof(struct memblock_region)`. -/
def regionBytes : ℕ := 24

/-- `PAGE_ALIGN`. -/
def pageAlign (env : Env) (x : ℕ) : ℕ := (x + (env.pageSize - 1)) / env.pageSize * env.pageSize

/-- The memory an array of `max` regions takes when it comes from memblock. -/
def allocSize (env : Env) (max : ℕ) : ℕ := pageAlign env (max * regionBytes)

/-- The address for an array of `max` regions: from slab, or by a search around the area that is waiting
    to be reserved. -/
def newArrayAddr (env : Env) (mb : MemblockState) (t : TypeId) (newAreaStart newAreaSize max : ℕ) :
    Except Fault ℕ :=
  if env.slabIsAvailable then .ok ((env.kmalloc (max * regionBytes)).getD 0)
  else
    -- only exclude range when trying to double reserved.regions
    let area := if t = .reserved then (newAreaStart, newAreaSize) else (0, 0)
    findInRange env mb (padd area.1 area.2) env.currentLimit (allocSize env max) env.pageSize >>=
      fun addr =>
        if addr = 0 ∧ area.2 ≠ 0 then
          findInRange env mb 0 (min area.1 env.currentLimit) (allocSize env max) env.pageSize
        else .ok addr

/-- The memory of a region array that came from memblock, as start and length. -/
def arrayBlock (env : Env) (ty : MemblockType) : Option (ℕ × ℕ) :=
  if ty.inSlab then none else ty.loc.map fun pa => (pa, allocSize env ty.max)

/-- The two blocks have an address in common. -/
def blocksOverlap (b c : ℕ × ℕ) : Prop := b.1 < c.1 + c.2 ∧ c.1 < b.1 + b.2

instance (b c : ℕ × ℕ) : Decidable (blocksOverlap b c) := inferInstanceAs (Decidable (_ ∧ _))

/-- A new array at `b` would be written over an array in use. -/
def clobbers (env : Env) (mb : MemblockState) (b : ℕ × ℕ) : Bool :=
  [TypeId.memory, TypeId.reserved].any fun t =>
    (arrayBlock env (mb.get t)).any fun c => blocksOverlap b c

variable (double : TypeId → ℕ → ℕ → Call)

/-- Give the memory of the old array `ty` back; the result of `memblock_free` is not looked at. -/
def freeArray (env : Env) (ty : MemblockType) (mb : MemblockState) : Except Fault MemblockState :=
  match arrayBlock env ty with
  | none => .ok mb
  | some (pa, size) => memblockFree double env pa size mb >>= fun (_, mb) => .ok mb

/-- Reserve the memory of a new array that came from memblock. -/
def reserveArray (env : Env) (addr size : ℕ) (mb : MemblockState) : Except Fault MemblockState :=
  if env.slabIsAvailable then .ok mb
  else memblockReserve double env addr size mb >>= fun
    | (.ok, mb) => .ok mb
    | (.enomem, _) => .error .bugReserve

/-- The array of twice the size at `addr`. -/
def MemblockType.enlarge (ty : MemblockType) (addr : ℕ) : MemblockType :=
  { ty with max := 2 * ty.max, loc := some addr }

/-- Update slab flag. -/
def MemblockType.setInSlab (ty : MemblockType) (useSlab : Bool) : MemblockType :=
  { ty with inSlab := useSlab }

/-- The part of `memblock_double_array` after space was found at `addr`: the array of twice the size
    takes over, the old one is freed, and the new one reserved. -/
def moveArray (env : Env) (t : TypeId) (addr : ℕ) : Call := fun mb =>
  let ty := mb.get t
  freeArray double env ty (mb.set t (ty.enlarge addr)) >>= fun mb₁ =>
    reserveArray double env addr (allocSize env (2 * ty.max)) mb₁ >>= fun mb₂ =>
      .ok (.ok, mb₂.set t ((mb₂.get t).setInSlab env.slabIsAvailable))

/-- `memblock_double_array`. -/
def doubleArray : ℕ → Env → TypeId → ℕ → ℕ → Call
  | 0, _, _, _, _, _ => .error .fuel
  | d + 1, env, t, newAreaStart, newAreaSize, mb =>
    let max := 2 * (mb.get t).max
    if !env.canResize then .ok (.enomem, mb)
    else newArrayAddr env mb t newAreaStart newAreaSize max >>= fun addr =>
      if addr = 0 then .ok (.enomem, mb)
      else if !env.slabIsAvailable && clobbers env mb (addr, allocSize env max) then .error .clobber
      else moveArray (doubleArray d env) env t addr mb

/-! ### What the calls do to one type -/

section
variable {ty : MemblockType} {base stop : ℕ}

/-- The array is the same one, whatever is in it. -/
structure SameArray (ty ty' : MemblockType) : Prop where
  max : ty'.max = ty.max
  loc : ty'.loc = ty.loc
  inSlab : ty'.inSlab = ty.inSlab

theorem WellFormed.totalOk (h : WellFormed ty) : TotalOk ty := by
  have := sizes_le h.good
  rw [TotalOk, h.total, mod_eq_of_lt (by simp only [physAddrMax] at this; omega)]

/-- Moving or enlarging the array keeps a type well-formed. -/
theorem WellFormed.moved {ty' : MemblockType} (h : WellFormed ty) (hr : ty'.regions = ty.regions)
    (ht : ty'.totalSize = ty.totalSize) (hm : ty.max ≤ ty'.max) : WellFormed ty' := by
  obtain ⟨h1, h2, h3, h4, h5, h6⟩ := h
  rw [MemblockType.cnt, ← hr] at h5
  rw [← hr] at h1 h2 h3 h4
  exact ⟨h1, h2, h3, h4, h5.trans hm, by rw [ht, hr, h6]⟩

variable {l : List Region}

theorem sizes_mod (h : Good l) : sizes l % 2 ^ 64 = sizes l := by
  have := sizes_le h
  exact mod_eq_of_lt (by simp only [physAddrMax] at this; omega)

/-- Regions with the same bounds are in the same order. -/
theorem good_of_bounds_eq {l' : List Region}
    (h : l'.map (fun r => (r.base, r.size)) = l.map fun r => (r.base, r.size)) (hg : Good l) :
    Good l' := by
  have hiff : ∀ l : List Region, Good l ↔
    (l.map fun r => (r.base, r.size)).Pairwise (fun p q => p.1 + p.2 ≤ q.1) ∧
    ∀ p ∈ l.map fun r => (r.base, r.size), p.1 + p.2 ≤ physAddrMax := by
    intro l
    rw [pairwise_map, forall_mem_map]
    exact ⟨fun h => ⟨h.ordered, h.fits⟩, fun h => ⟨h.1, h.2⟩⟩
  rw [hiff, h, ← hiff]
  exact hg

/-- `memblock_merge_regions` on regions `l` in order, in place of those of a type with room for them,
    never reaches its `BUG_ON`, and leaves the minimal array of the same map. -/
theorem mergeRegions_withRegions (ty : MemblockType) (hg : Good l) (hp : l = [] → False)
    (hlen : l.length ≤ ty.max) :
    ∃ ty', mergeRegions (withRegions ty l) = .ok ty' ∧ (∀ a, attrs ty'.regions a = attrs l a) ∧
    SameArray ty ty' ∧ ty'.cnt ≤ l.length ∧ (Proper l ∨ IsDummy l → WellFormed ty') ∧
    (Proper l → Proper ty'.regions) := by
  obtain ⟨x, rest, hx⟩ := exists_cons_of_ne_nil hp
  obtain ⟨l', hloop, hspec⟩ :=
    mergeLoop_spec rest [] x l.length (hx ▸ hg) (isChain_singleton _) (by simp [hx])
  rw [nil_append, ← hx] at hloop hspec
  obtain ⟨hg', hmin, hsame, hle, hne, hprop⟩ := hspec
  have hmerge : mergeRegions (withRegions ty l) = .ok { withRegions ty l with regions := l' } := by
    show (mergeLoop l.length ([] : List Region).length l).bind _ = _
    rw [hloop]
    rfl
  refine ⟨_, hmerge, hsame.attrs, ⟨rfl, rfl, rfl⟩, hle, fun h => ?_, hprop⟩
  refine ⟨hg', ?_, hmin, hne, hle.trans hlen, ?_⟩
  · rcases h with h | ⟨nid, flags, rfl⟩
    · exact .inl (hprop h)
    -- the merge pass leaves a single entry alone
    obtain rfl : [⟨0, 0, nid, flags⟩] = l' := congrArg MemblockType.regions (Except.ok.inj hmerge)
    exact .inr ⟨nid, flags, rfl⟩
  · show sizes l % 2 ^ 64 = sizes l'
    rw [sizes_mod hg, hsame.sizes]

/-- Inserting the uncovered pieces of `[base, stop)`. -/
theorem insertPieces_spec (h : WellFormed ty) (nid : ℤ) (flags : Flags) (hs : stop ≤ physAddrMax) :
    Ensures (insertPieces ty base stop nid flags)
      (fun ty' => (∀ a, attrs ty'.regions a = addOn base stop (nid, flags) (attrs ty.regions) a) ∧
        SameArray ty ty' ∧ ty'.cnt ≤ ty.cnt + gaps stop base ty.regions ∧
        (Proper ty.regions → WellFormed ty' ∧ Proper ty'.regions))
      (fun e => e = .bugInsert ∧ ty.max < ty.cnt + gaps stop base ty.regions) := by
  have hpass : addPass true ty base stop nid flags = _ :=
    addLoop_insert ty.regions [] (ty.cnt + 1) base 0 ty rfl h.good
      (lt_succ_self _) hs h.totalOk h.bounded
  simp only [nil_append, length_fill, zero_add] at hpass
  rw [insertPieces, hpass]
  split
  case isTrue hroom =>
    have hlen : (fill nid flags stop base ty.regions).length = _ := length_fill base ty.regions
    have hne : fill nid flags stop base ty.regions = [] → False := by
      intro hnil
      have := length_pos_of_ne_nil h.nonempty
      rw [hnil] at hlen; simp at hlen; omega
    have hattrs : ∀ a, attrs (fill nid flags stop base ty.regions) a =
        addOn base stop (nid, flags) (attrs ty.regions) a := fun a => attrs_fill h.good a
    show Ensures (if gaps stop base ty.regions = 0 then
      .ok (withRegions ty (fill nid flags stop base ty.regions))
      else mergeRegions (withRegions ty (fill nid flags stop base ty.regions))) _ _
    split
    case isTrue h0 =>
      have hself : fill nid flags stop base ty.regions = ty.regions := fill_eq_self h0
      rw [hself] at hattrs ⊢
      rw [withRegions_self h.totalOk]
      exact ⟨hattrs, ⟨rfl, rfl, rfl⟩, Nat.le_add_right .., fun hp => ⟨h, hp⟩⟩
    case isFalse h0 =>
      obtain ⟨ty', hm, ha, hsame, hcnt, hwf, hprop⟩ := mergeRegions_withRegions ty
        (good_fill h.good hs) hne (hlen.trans_le hroom)
      rw [hm]
      refine ⟨fun a => (ha a).trans (hattrs a), hsame, hcnt.trans_eq hlen, fun hp => ?_⟩
      exact ⟨hwf (.inl (proper_fill hp)), hprop (proper_fill hp)⟩
  case isFalse hroom => exact ⟨rfl, Nat.lt_of_not_le hroom⟩

/-- With the middle part gone, no neighbours can be merged. -/
theorem Isolated.minimal_outer {L M R : List Region} (h : Isolated base stop l L M R)
    (hb : base < stop) : Minimal (L ++ R) := by
  have hmin := h.minimal
  rw [CutMinimal, append_assoc, isChain_append] at hmin
  obtain ⟨hL, hMR, -⟩ := hmin
  have hR := (isChain_append.mp hMR).2.1
  have hp := h.proper
  rw [proper_append, proper_append] at hp
  rw [Minimal, isChain_append]
  refine ⟨hL.imp_of_mem_imp ?_, hR.imp_of_mem_imp ?_, ?_⟩
  · intro r s _ hs hrs hm
    have h1 := h.below s hs
    have h2 := hp.1.1 s hs
    have h3 := hrs hm
    simp only [Region.stop] at h1
    omega
  · intro r s hr _ hrs hm
    have h1 := h.above r hr
    have h2 := hp.2 r hr
    have h3 := hrs hm
    have h4 := hm.1
    simp only [Region.stop] at h4
    omega
  intro r hr s hs hm
  have h1 := h.below r (mem_of_getLast? hr)
  have h2 := h.above s (mem_of_head? hs)
  have h3 := hm.1
  omega

theorem IsDummy.attrs_eq (h : IsDummy l) (a : ℕ) : attrs l a = none := by
  obtain ⟨nid, flags, rfl⟩ := h
  rw [attrs_cons, if_neg (by simp [Region.stop])]; rfl

section
variable (h : WellFormed ty) (hb : base < stop) (hcap : ty.cnt + 2 ≤ ty.max)
include h hb hcap

/-- The regions that `memblock_isolate_range` marks, and what it leaves on both sides. -/
theorem isolate_cases : (IsDummy ty.regions ∧ isolateWalk ty base stop = .ok (0, 0, ty)) ∨ ∃ L M R,
    isolateWalk ty base stop = .ok ((marks L M).1, (marks L M).2, withRegions ty (L ++ M ++ R)) ∧
    Isolated base stop ty.regions L M R ∧ (L ++ M ++ R).length ≤ ty.cnt + 2 ∧ L ++ M ++ R ≠ [] := by
  rcases h.proper with hp | hd
  · have hb1 := cuts_le_one h.good base
    have hs1 := cuts_le_one h.good stop
    have hcuts : cuts base ty.regions ≤ ty.cnt ∧ cuts stop ty.regions ≤ ty.cnt :=
      ⟨countP_le_length, countP_le_length⟩
    obtain ⟨L, M, R, hwalk, hiso, hlen⟩ := walk_ends hb (4 * ty.cnt + 1) ty.regions [] [] ty
      ⟨rfl, h.good, hp, h.minimal.imp fun _ _ hrs hm => absurd hm hrs, h.totalOk, by simp, by simp,
        by omega, hcap⟩ (by simp only [steps, MemblockType.cnt] at *; omega)
    refine .inr ⟨L, M, R, hwalk, hiso, hlen, ?_⟩
    intro hnil
    have h1 := hiso.same.sizes
    obtain ⟨r, l, hl⟩ := exists_cons_of_ne_nil h.nonempty
    have hr := hp r (hl ▸ mem_cons_self)
    rw [hnil, hl, sizes_cons] at h1
    simp at h1; omega
  refine .inl ⟨hd, ?_⟩
  obtain ⟨nid, flags, hd⟩ := hd
  simp only [isolateWalk, MemblockType.cnt, hd, length_singleton, isolateLoop]
  simp [Region.rend, padd, show ¬stop ≤ 0 by omega]

/-- Isolating and deleting a range. -/
theorem removeRegions_isolated (maxNumNodes : ℤ) :
    ∃ i j ty1, isolateWalk ty base stop = .ok (i, j, ty1) ∧
    WellFormed (removeRegions maxNumNodes i j ty1) ∧ SameArray ty (removeRegions maxNumNodes i j ty1) ∧
    (removeRegions maxNumNodes i j ty1).cnt ≤ ty.cnt + 2 ∧ ∀ a,
    attrs (removeRegions maxNumNodes i j ty1).regions a = eraseOn base stop (attrs ty.regions) a := by
  rcases isolate_cases h hb hcap with ⟨hd, hwalk⟩ | ⟨L, M, R, hwalk, hiso, hlen, hne⟩
  · refine ⟨0, 0, ty, hwalk, h, ⟨rfl, rfl, rfl⟩, Nat.le_add_right .., fun a => ?_⟩
    show attrs ty.regions a = _
    rw [eraseOn, hd.attrs_eq, ite_self]
  refine ⟨_, _, _, hwalk, ?_⟩
  have hmap : ∀ a, attrs (L ++ R) a = eraseOn base stop (attrs ty.regions) a := by
    intro a
    rw [attrs, attrAt_erase_middle hiso.below hiso.inside hiso.above]
    simp only [eraseOn, hiso.same.attrs]
  have hout : Good (L ++ R) ∧ Proper (L ++ R) := by
    have hg := hiso.good
    have hp := hiso.proper
    rw [good_append, good_append] at hg
    rw [proper_append, proper_append] at hp
    exact ⟨good_append.mpr ⟨hg.1.1, hg.2.1, fun r hr => hg.2.2 r (mem_append_left _ hr)⟩,
      proper_append.mpr ⟨hp.1.1, hp.2⟩⟩
  have hlen' : (L ++ R).length ≤ ty.cnt + 2 := by simp only [length_append] at *; omega
  by_cases hM : M = []
  · subst hM
    rw [marks_nil]
    simp only [append_nil] at *
    exact ⟨⟨hout.1, .inl hout.2, hiso.minimal_outer hb, hne, hlen'.trans hcap, sizes_mod hout.1⟩,
      ⟨rfl, rfl, rfl⟩, hlen', hmap⟩
  have hmarks : marks L M = (L.length, L.length + M.length) := if_neg hM
  rw [hmarks, removeRegions_spec maxNumNodes M (withRegions ty (L ++ M ++ R)) rfl hiso.good rfl
    (fun h => absurd h hM)]
  split
  · -- nothing is left: the dummy entry
    rename_i hnil
    have hd : IsDummy [⟨0, 0, maxNumNodes, memblockNone⟩] := ⟨_, _, rfl⟩
    refine ⟨⟨?_, .inr hd, isChain_singleton _, by simp, ?_, rfl⟩, ⟨rfl, rfl, rfl⟩, ?_, ?_⟩
    · exact good_cons.mpr ⟨zero_le _, by simp, good_nil⟩
    · show 1 ≤ ty.max
      omega
    · show 1 ≤ ty.cnt + 2
      omega
    intro a
    rw [← hmap, hnil]
    exact hd.attrs_eq a
  · rename_i hne'
    exact ⟨⟨hout.1, .inl hout.2, hiso.minimal_outer hb, hne', hlen'.trans hcap, sizes_mod hout.1⟩,
      ⟨rfl, rfl, rfl⟩, hlen', hmap⟩

/-- Isolating a range, changing the regions in it, and merging. -/
theorem updateRegions_isolated
    {f : Region → Region} {g : ℤ × Flags → ℤ × Flags} (hbase : ∀ r, (f r).base = r.base)
    (hsize : ∀ r, (f r).size = r.size) (hattr : ∀ r, (f r).attr = g r.attr) :
    ∃ i j ty1 ty', isolateWalk ty base stop = .ok (i, j, ty1) ∧
      mergeRegions (updateRegions f i (j - i) ty1) = .ok ty' ∧ WellFormed ty' ∧ SameArray ty ty' ∧
      ∀ a, attrs ty'.regions a = mapOn base stop g (attrs ty.regions) a := by
  rcases isolate_cases h hb hcap with ⟨hd, hwalk⟩ | ⟨L, M, R, hwalk, hiso, hlen, hne⟩
  · obtain ⟨ty', hm, ha, hsame, -, hwf, -⟩ :=
      mergeRegions_withRegions ty h.good (fun h' => h.nonempty h') h.bounded
    rw [withRegions_self h.totalOk] at hm
    refine ⟨0, 0, ty, ty', hwalk, hm, hwf (.inr hd), hsame, fun a => ?_⟩
    rw [ha, mapOn, hd.attrs_eq]
    split <;> rfl
  have hbounds : (L ++ M.map f ++ R).map (fun r => (r.base, r.size)) = (L ++ M ++ R).map fun r =>
    (r.base, r.size) := by
    simp [map_append, Function.comp_def, hbase, hsize]
  have hupd : updateRegions f (marks L M).1 ((marks L M).2 - (marks L M).1)
      (withRegions ty (L ++ M ++ R)) = withRegions ty (L ++ M.map f ++ R) := by
    rcases M with _ | ⟨m, M⟩
    · rfl
    have hmarks : marks L (m :: M) = (L.length, L.length + (m :: M).length) :=
      if_neg (by simp)
    rw [hmarks, Nat.add_sub_cancel_left]
    exact updateRegions_spec f hsize (m :: M) L (withRegions ty (L ++ (m :: M) ++ R)) rfl rfl
  have hp : Proper (L ++ M.map f ++ R) := by
    have := hiso.proper
    rw [proper_append, proper_append] at this ⊢
    refine ⟨⟨this.1.1, fun r hr => ?_⟩, this.2⟩
    obtain ⟨s, hs, rfl⟩ := mem_map.mp hr
    rw [hsize]
    exact this.1.2 s hs
  obtain ⟨ty', hm, ha, hsame, -, hwf, -⟩ := mergeRegions_withRegions ty
    (good_of_bounds_eq hbounds hiso.good) (by simpa using hne) (by simpa using hlen.trans hcap)
  refine ⟨_, _, _, ty', hwalk, by rw [hupd, hm], hwf (.inl hp), hsame, fun a => ?_⟩
  rw [ha, attrs, attrAt_map_middle hiso.below hiso.inside hiso.above (fun r _ => hbase r)
    (fun r _ => by simp only [Region.stop, hbase, hsize]) (fun r _ => hattr r)]
  simp only [mapOn, hiso.same.attrs]

end

end

end LinuxNote.Memblock
