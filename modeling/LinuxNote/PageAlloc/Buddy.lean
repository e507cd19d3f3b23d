import LinuxNote.PageAlloc.Lists

/-! Merging and splitting.

    While a call works on a block, the block is on no list and is not handed out. Each round of the merge
    loop and of `expand` keeps the pages divided among the free blocks, the blocks in use and the block
    in hand. -/

namespace LinuxNote.PageAlloc
open Config DyadicBlocks Nat Bool

variable [Config] {z z' : Zone} {b : Block} {O : Set Block} {p pfn order : ℕ} {mt : Migratetype}

/-- The free blocks and the blocks in use divide the managed pages. -/
structure Zone.Inv (z : Zone) (O : Set Block) : Prop where
  lists : z.Lists
  partition : Partition (maxOrder - 1) managed z.freeBlocks O

@[inherit_doc Carrying]
structure Zone.Holding (z : Zone) (b : Block) (O : Set Block) : Prop where
  lists : z.Lists
  carrying : Carrying (maxOrder - 1) managed z.freeBlocks b O

theorem Zone.Lists.of_eq (h : z.Lists) (hlist : z'.freeList = z.freeList) (hnr : z'.nrFree = z.nrFree)
    (hbuddy : z'.pageBuddy = z.pageBuddy) (hpriv : z'.pagePrivate = z.pagePrivate) : z'.Lists := by
  refine ⟨?_, ?_, ?_, ?_, ?_⟩
  · rw [hlist]
    exact h.nodup
  · rw [hlist, hbuddy, hpriv]
    exact h.mem
  · rw [hlist]
    exact h.type_unique
  · rw [hlist, hbuddy, hpriv]
    exact h.exists_list
  rw [hlist, hnr]
  exact h.nrFree_eq

theorem Zone.Inv.take (h : z.Inv O) {t : Migratetype} {o : ℕ} (hp : p ∈ z.freeList o t) :
    (z.take p o).Holding ⟨p, o⟩ O := by
  refine ⟨h.lists.take hp, ?_⟩
  rw [freeBlocks_take h.lists hp]
  exact h.partition.take ⟨t, hp⟩

theorem Zone.Inv.release (h : z.Inv O) (hb : b ∈ O) : z.Holding b (O \ {b}) :=
  ⟨h.lists, h.partition.release hb⟩

theorem order_lt_maxOrder {o : ℕ} (h : o ≤ maxOrder - 1) : o < maxOrder := by
  have htwo := two_le_maxOrder
  omega

namespace Zone.Holding
variable (h : z.Holding b O)
include h

theorem order_lt : b.order < maxOrder :=
  order_lt_maxOrder h.carrying.order_le

theorem managed_of_mem (hp : p ∈ b) : p ∈ managed :=
  h.carrying.partition.mem_of_block (.inr (.inl rfl)) hp

/-- No page of the block in hand is the head of a free block. -/
theorem pageBuddy_eq_false (hp : p ∈ b) : z.pageBuddy p = false := by
  rw [← not_eq_true]
  intro hbuddy
  obtain ⟨t, ht⟩ := h.lists.exists_list (ours_of_managed (h.managed_of_mem hp)) hbuddy
  exact h.carrying.notMem (.inl (show (⟨p, z.pagePrivate p⟩ : Block) ∈ z.freeBlocks from ⟨t, ht⟩))
    (start_mem _) hp

/-- The check of the merge loop is right. -/
theorem isBuddy_iff : (pfnValidWithin (findBuddyPfn b.start b.order) &&
    z.pageIsBuddy b.start (findBuddyPfn b.start b.order) b.order) = true ↔ b.buddy ∈ z.freeBlocks := by
  have hzone := managed_zone _ h.carrying.start_mem
  rw [Zone.pageIsBuddy, and_eq_true, and_eq_true, and_eq_true, beq_iff_eq, beq_iff_eq]
  constructor
  · rintro ⟨hvalid, ⟨hbuddy, hpriv⟩, hid⟩
    have hours : Ours (findBuddyPfn b.start b.order) := ⟨hvalid, hid.symm.trans hzone⟩
    exact (h.lists.mem_freeBlocks_iff hours).mpr ⟨hbuddy, hpriv⟩
  rintro ⟨t, ht⟩
  obtain ⟨-, ⟨hvalid, hid⟩, hbuddy, hpriv⟩ := h.lists.mem ht
  exact ⟨hvalid, ⟨hbuddy, hpriv⟩, hzone.trans hid.symm⟩

theorem give (hg : Given z z' b.start b.order mt)
    (hbuddy : b.order < maxOrder - 1 → b.buddy ∉ z.freeBlocks) : z'.Inv O := by
  refine ⟨hg.lists h.lists h.order_lt (ours_of_managed h.carrying.start_mem)
    (h.pageBuddy_eq_false (start_mem b)), ?_⟩
  rw [hg.freeBlocks_eq]
  exact h.carrying.give hbuddy

end Zone.Holding

/-! ### Freeing -/

/-- What the merge loop leaves, when it started in `z` with the block `b` and the bound `bound`. -/
structure Merging (z : Zone) (b : Block) (O : Set Block) (bound : ℕ) (r : Merged) : Prop where
  holding : r.zone.Holding ⟨r.pfn, r.order⟩ O
  freePages_eq : r.zone.freePages + 2 ^ r.order = z.freePages + 2 ^ b.order
  quiet : Quiet z r.zone
  atBound : r.atBound = true → bound ≤ r.order
  stopped : r.atBound = false → (⟨r.pfn, r.order⟩ : Block).buddy ∉ r.zone.freeBlocks

theorem mergeLoop_spec {n : ℕ} (h : z.Holding ⟨pfn, order⟩ O) (hn : order + n ≤ maxOrder - 1) :
    Merging z ⟨pfn, order⟩ O (order + n) (mergeLoop n z pfn order) := by
  induction n generalizing z pfn order with
  | zero => exact ⟨h, rfl, .refl z, fun _ => le_rfl, fun hb : true = false => nomatch hb⟩
  | succ n ih =>
    rw [mergeLoop]
    split
    case isTrue hbuddy =>
      -- the free buddy is taken off its list and joins the block in hand
      have hmem := h.isBuddy_iff.mp hbuddy
      have hcarry := h.carrying.absorb (show order < maxOrder - 1 by omega) hmem
      obtain ⟨t, ht⟩ : ∃ t, findBuddyPfn pfn order ∈ z.freeList order t := hmem
      have hpages := freePages_take h.lists ht
      have hmerged : (z.take (findBuddyPfn pfn order) order).Holding
        ⟨findBuddyPfn pfn order &&& pfn, order + 1⟩ O := by
        refine ⟨h.lists.take ht, ?_⟩
        rw [freeBlocks_take h.lists ht, land_comm]
        exact hcarry
      have hrest := ih hmerged (by omega)
      rw [show order + 1 + n = order + (n + 1) by omega] at hrest
      exact ⟨hrest.holding, hrest.freePages_eq.trans (by dsimp only; omega),
        (quiet_take ..).trans hrest.quiet, hrest.atBound, hrest.stopped⟩
    case isFalse hbuddy =>
      exact ⟨h, rfl, .refl z, fun hb : false = true => (nomatch hb),
        fun _ hmem => hbuddy (h.isBuddy_iff.mpr hmem)⟩

/-- Raising the bound in rounds merges up to the largest order. -/
theorem mergeRounds_spec (mt : Migratetype) {n maxOrd : ℕ} (h : z.Holding ⟨pfn, order⟩ O)
    (hiso : z.nrIsolatePageblock = 0) (hpos : 0 < maxOrd) (hn : maxOrd + n = maxOrder) :
    Merging z ⟨pfn, order⟩ O (maxOrder - 1) (mergeRounds mt n z pfn order maxOrd) := by
  have hle : order ≤ maxOrder - 1 := h.carrying.order_le
  have hloop := mergeLoop_spec (n := maxOrd - 1 - order) h (by omega)
  induction n generalizing z pfn order maxOrd with
  | zero =>
    refine { hloop with atBound := fun hb => ?_ }
    exact le_trans (by omega) (hloop.atBound hb)
  | succ n ih =>
    rw [mergeRounds]
    have hnone : (mergeLoop (maxOrd - 1 - order) z pfn order).zone.hasIsolatePageblock = false := by
      rw [Zone.hasIsolatePageblock, hloop.quiet.nrIsolatePageblock_eq, hiso]
      rfl
    rw [hnone, Bool.false_and, Bool.or_false]
    split
    case isTrue hstop =>
      rw [not_eq_true'] at hstop
      exact { hloop with atBound := fun hb => absurd (hstop.symm.trans hb) (by decide) }
    case isFalse =>
      have hle' := hloop.holding.carrying.order_le
      have hrest := ih hloop.holding (hloop.quiet.nrIsolatePageblock_eq.trans hiso) (succ_pos maxOrd)
        (by omega) hle' (mergeLoop_spec hloop.holding (by dsimp only at hle'; omega))
      exact ⟨hrest.holding, hrest.freePages_eq.trans hloop.freePages_eq, hloop.quiet.trans hrest.quiet,
        hrest.atBound, hrest.stopped⟩

/-- What freeing a block does. -/
structure Freed (z : Zone) (O : Set Block) (b : Block) (mt : Migratetype) (z' : Zone) : Prop where
  inv : z'.Inv (O \ {b})
  freePages_eq : z'.freePages = z.freePages + 2 ^ b.order
  nrFreePages_eq : z'.nrFreePages = if mt = .isolate then z.nrFreePages else z.nrFreePages +
    (2 ^ b.order : ℕ)
  nrIsolatePageblock_eq : z'.nrIsolatePageblock = z.nrIsolatePageblock

theorem freeOnePageLocked_freed (mt : Migratetype) (h : z.Inv O) (hiso : z.nrIsolatePageblock = 0)
    (hb : b ∈ O) : Freed z O b mt (freeOnePageLocked z b.start b.order mt) := by
  have hpos : 0 < min maxOrder (pageblockOrder + 1) := by
    have htwo := two_le_maxOrder
    omega
  -- the counter is the only thing that changes before the merges
  have hcount : ∀ z1 : Zone,
      z1 = (if mt = .isolate then z else z.modFreepageState (2 ^ b.order : ℕ) mt) →
      z1.Holding b (O \ {b}) ∧ z1.freePages = z.freePages ∧
      z1.nrIsolatePageblock = z.nrIsolatePageblock ∧
      z1.nrFreePages = if mt = .isolate then z.nrFreePages else z.nrFreePages + (2 ^ b.order : ℕ) := by
    rintro _ rfl
    have hheld := h.release hb
    split
    · exact ⟨hheld, rfl, rfl, rfl⟩
    · exact ⟨⟨hheld.lists.of_eq rfl rfl rfl rfl, hheld.carrying⟩, rfl, rfl, rfl⟩
  obtain ⟨hheld, hpages, hisolate, hnr⟩ := hcount _ rfl
  have hmerge := mergeRounds_spec mt (n := maxOrder - min maxOrder (pageblockOrder + 1)) hheld
    (hisolate.trans hiso) hpos (by omega)
  rw [freeOnePageLocked]
  generalize hr : mergeRounds mt _ _ b.start b.order _ = r at hmerge ⊢
  have hg : Given r.zone (doneMerging r.zone r.pfn r.order mt) r.pfn r.order mt := by
    rw [doneMerging]
    split
    · exact given_addTail ..
    · exact given_add ..
  refine ⟨hmerge.holding.give hg fun hlt => ?_, ?_, ?_, ?_⟩
  · refine hmerge.stopped ?_
    rw [← not_eq_true]
    exact fun hbound => absurd (hmerge.atBound hbound) (not_le.mpr hlt)
  · rw [hg.freePages_eq hmerge.holding.order_lt, hmerge.freePages_eq, hpages]
  · rw [hg.quiet.nrFreePages_eq, hmerge.quiet.nrFreePages_eq, hnr]
  · rw [hg.quiet.nrIsolatePageblock_eq, hmerge.quiet.nrIsolatePageblock_eq, hisolate]

/-! ### Splitting -/

theorem expand_spec (mt : Migratetype) {n low page : ℕ} (h : z.Holding ⟨page, low + n⟩ O) :
    (expand page low mt n z).Holding ⟨page, low⟩ O ∧ (expand page low mt n z).freePages + 2 ^ low =
      z.freePages + 2 ^ (low + n) ∧ Quiet z (expand page low mt n z) := by
  induction n generalizing z with
  | zero => exact ⟨h, rfl, .refl z⟩
  | succ n ih =>
    have hhigh : page + 2 ^ (low + n) ∈ (⟨page, low + (n + 1)⟩ : Block) :=
      (mem_halves h.carrying.aligned).mpr (.inr (start_mem _))
    have hlt : low + n < maxOrder := (lt_succ_self _).trans h.order_lt
    have hg := given_add z (page + 2 ^ (low + n)) (low + n) mt
    have hsplit : Carrying _ _ (insert ⟨page + 2 ^ (low + n), low + n⟩ z.freeBlocks) _ _ :=
      h.carrying.split
    rw [← hg.freeBlocks_eq] at hsplit
    have hheld := Zone.Holding.mk (hg.lists h.lists hlt (ours_of_managed (h.managed_of_mem hhigh))
      (h.pageBuddy_eq_false hhigh)) hsplit
    obtain ⟨hrest, hpages, hquiet⟩ := ih hheld
    have hsum := hg.freePages_eq hlt
    refine ⟨hrest, hpages.trans ?_, hg.quiet.trans hquiet⟩
    rw [hsum, ← add_assoc low]
    omega

/-- What taking a block out of the lists does. -/
structure Took (z : Zone) (O : Set Block) (b : Block) (z' : Zone) : Prop where
  inv : z'.Inv (insert b O)
  fresh : b ∉ O
  freePages_eq : z'.freePages + 2 ^ b.order = z.freePages
  quiet : Quiet z z'

theorem rmqueueSmallestLoop_took {n currentOrder page : ℕ} (h : z.Inv O) (hle : order ≤ currentOrder)
    (hr : rmqueueSmallestLoop order mt z n currentOrder = some (page, z')) :
    Took z O ⟨page, order⟩ z' := by
  induction n generalizing currentOrder with
  | zero => exact absurd hr (by simp [rmqueueSmallestLoop])
  | succ n ih =>
    rw [rmqueueSmallestLoop] at hr
    rcases hlist : z.freeList currentOrder mt with _ | ⟨p, rest⟩
    · rw [hlist] at hr
      exact ih (hle.trans (le_succ _)) hr
    rw [hlist] at hr
    obtain ⟨rfl, rfl⟩ := Prod.mk.inj (Option.some.inj hr)
    have hmem : p ∈ z.freeList currentOrder mt := hlist ▸ List.mem_cons_self
    have hheld := h.take hmem
    have hpages := freePages_take h.lists hmem
    rw [← Nat.add_sub_cancel' hle] at hheld
    obtain ⟨hrest, hexp, hquiet⟩ := expand_spec mt hheld
    rw [Nat.add_sub_cancel' hle] at hexp hrest hquiet
    exact ⟨⟨hrest.lists.of_eq rfl rfl rfl rfl, hrest.carrying.partition⟩, hrest.carrying.fresh,
      hexp.trans hpages, (quiet_take ..).trans (hquiet.trans (Quiet.mk rfl rfl))⟩

theorem rmqueueSmallest_took {page : ℕ} (h : z.Inv O)
    (hr : rmqueueSmallest z order mt = some (page, z')) : Took z O ⟨page, order⟩ z' :=
  rmqueueSmallestLoop_took h le_rfl hr

end LinuxNote.PageAlloc
