import LinuxNote.PageAlloc.Buddy

/-! Taking blocks from the lists of other types.

    Whatever `steal_suitable_fallback` decides, it moves free blocks between lists, and the block that
    was found ends on a list of the type that is asked for. A retry of `__rmqueue` therefore starts with
    more blocks of that type than the one before. -/

namespace LinuxNote.PageAlloc
open Config DyadicBlocks List Nat Bool Option Zone

variable [Config] {z z' : Zone} {O : Set Block} {p o order page last : ℕ}
  {t mt : Migratetype} {env : Env} {flags : AllocFlags}

theorem Moved.inv (h : Moved mt z z') (hz : z.Inv O) : z'.Inv O :=
  ⟨h.lists, h.freeBlocks_eq ▸ hz.partition⟩

theorem Moved.freePages_eq (h : Moved mt z z') : z'.freePages = z.freePages := by
  rw [freePages, freePages, h.nrFree_eq]

theorem Moved.exists_list (h : Moved mt z z') (hp : p ∈ z.freeList o t) :
    ∃ t', p ∈ z'.freeList o t' := by
  have hblock : (⟨p, o⟩ : Block) ∈ z'.freeBlocks := h.freeBlocks_eq ▸ ⟨t, hp⟩
  exact hblock

/-! ### `move_freepages` -/

variable {n : ℕ} {t' : Migratetype} {r : Migratetype × Bool}

theorem moveFreepages_moved (h : z.Lists) (hspan : ∀ q, page ≤ q → q ≤ last → zoneSpansPfn q = true) :
    Moved mt z (moveFreepages env mt last n z page).1 := by
  induction n generalizing z page with
  | zero => exact .refl h
  | succ n ih =>
    have hnext : ∀ k, page ≤ k → ∀ q, k ≤ q → q ≤ last → zoneSpansPfn q = true :=
      fun k hk q hq => hspan q (hk.trans hq)
    rw [moveFreepages]
    split
    · exact .refl h
    split
    · exact ih h (hnext _ (le_succ page))
    split
    · exact ih h (hnext _ (le_succ page))
    rename_i hlast hvalid hbuddy
    rw [not_eq_true', not_eq_false] at hvalid hbuddy
    obtain ⟨t, ht⟩ := h.exists_list (ours_of_span (hspan page le_rfl (not_lt.mp hlast)) hvalid) hbuddy
    have hmove : Moved mt z _ := moved_listMove h ht
    exact hmove.trans (ih hmove.lists (hnext _ (Nat.le_add_right ..)))

/-- The walk comes to every head of a free block, because it steps over whole blocks. -/
theorem moveFreepages_mem {m : ℕ} (h : z.Lists) (htile : Tiling m z.freeBlocks)
    (hspan : ∀ q, page ≤ q → q ≤ last → zoneSpansPfn q = true) (hp : p ∈ z.freeList o t) (hge : page ≤ p)
    (hle : p ≤ last) (hn : last < page + n) :
    p ∈ (moveFreepages env mt last n z page).1.freeList o mt := by
  induction n generalizing z page t with
  | zero => omega
  | succ n ih =>
    have hnext : ∀ k, page ≤ k → ∀ q, k ≤ q → q ≤ last → zoneSpansPfn q = true :=
      fun k hk q hq => hspan q (hk.trans hq)
    obtain ⟨-, hours, hbuddyp, hpriv⟩ := h.mem hp
    rw [moveFreepages, if_neg (by omega)]
    have hskip := fun hne => ih h htile (hnext _ (le_succ page)) hp (lt_of_le_of_ne hge hne) (by omega)
    split
    case isTrue hinvalid => exact hskip fun heq => by simp [heq, hours.1] at hinvalid
    case isFalse hvalid =>
      split
      case isTrue hnot => exact hskip fun heq => by simp [heq, hbuddyp] at hnot
      case isFalse hbuddy =>
        rw [not_eq_true', not_eq_false] at hvalid hbuddy
        obtain ⟨t', ht⟩ := h.exists_list (ours_of_span (hspan page le_rfl (hge.trans hle)) hvalid) hbuddy
        have hmove : Moved mt z _ := moved_listMove h ht
        rcases eq_or_lt_of_le hge with rfl | hlt
        · refine (moveFreepages_moved hmove.lists (hnext _ (Nat.le_add_right ..))).keeps o ?_
          rw [← hpriv]
          exact listMove_mem h
        obtain ⟨t'', ht''⟩ := hmove.exists_list hp
        have hstep : page + 2 ^ z.pagePrivate page ≤ p := by
          by_contra hmeet
          have heq := htile.disjoint ⟨page, z.pagePrivate page⟩ ⟨t', ht⟩ ⟨p, o⟩ ⟨t, hp⟩ p
            ⟨hge, not_le.mp hmeet⟩ (start_mem _)
          exact absurd (congrArg Block.start heq) hlt.ne
        have hpos := Nat.two_pow_pos (z.pagePrivate page)
        exact ih hmove.lists (hmove.freeBlocks_eq ▸ htile) (hnext _ (Nat.le_add_right ..)) ht'' hstep
          (by omega)

/-- The block either is on a list of `mt` afterwards, or nothing was moved. -/
theorem moveFreepagesBlock_spec (h : z.Inv O) (hp : p ∈ z.freeList o t) :
    Moved mt z (moveFreepagesBlock env z p mt).1 ∧ ((moveFreepagesBlock env z p mt).2.1 ≠ 0 →
      p ∈ (moveFreepagesBlock env z p mt).1.freeList o mt) := by
  have hmanaged : p ∈ managed := h.partition.mem_of_block (.inl ⟨t, hp⟩) (start_mem ⟨p, o⟩)
  have hpos : 0 < pageblockNrPages := Nat.two_pow_pos _
  have hstart : p / pageblockNrPages * pageblockNrPages ≤ p := div_mul_le_self ..
  have hend : p < p / pageblockNrPages * pageblockNrPages + pageblockNrPages := by
    have hmod := mod_lt p hpos
    have hdiv := div_add_mod' p pageblockNrPages
    omega
  rw [moveFreepagesBlock]
  generalize p / pageblockNrPages * pageblockNrPages = start at hstart hend ⊢
  split
  · exact ⟨.refl h.lists, fun hne => absurd rfl hne⟩
  case isFalse hspan =>
    rw [not_eq_true', not_eq_false] at hspan
    generalize hfirst : (if zoneSpansPfn start = true then start else p) = first
    have hle : first ≤ p := by
      rw [← hfirst]
      split
      · exact hstart
      · exact le_rfl
    have hspans : zoneSpansPfn first = true := by
      rw [← hfirst]
      split
      case isTrue hs => exact hs
      case isFalse => simpa [zoneSpansPfn] using managed_span _ hmanaged
    have hall : ∀ q, first ≤ q → q ≤ start + pageblockNrPages - 1 → zoneSpansPfn q = true := by
      intro q hq hq'
      rw [zoneSpansPfn, and_eq_true, decide_eq_true_iff, decide_eq_true_iff] at hspans hspan ⊢
      omega
    exact ⟨moveFreepages_moved h.lists hall, fun _ =>
      moveFreepages_mem h.lists h.partition.tiling_free hall hp hle (by omega) (by omega)⟩

/-! ### Stealing -/

theorem moved_setPageblockMigratetype (h : z.Lists) :
    Moved mt z (z.setPageblockMigratetype env page t') :=
  ⟨h.of_eq rfl rfl rfl rfl, rfl, fun _ => Subset.refl _, rfl, rfl, rfl, ⟨rfl, rfl⟩⟩

theorem changePageblockRange_moved (h : z.Lists) :
    Moved mt z (changePageblockRange env t' n z page) := by
  induction n generalizing z page with
  | zero => exact .refl h
  | succ n ih =>
    have hset : Moved mt z (z.setPageblockMigratetype env page t') := moved_setPageblockMigratetype h
    exact hset.trans (ih hset.lists)

/-- The block that was found is moved to the type that is asked for. -/
theorem Moved.single (h : Moved mt z z') (hp : p ∈ z.freeList o t) :
    Moved mt z (z'.listMove p o mt) ∧ p ∈ (z'.listMove p o mt).freeList o mt := by
  obtain ⟨t', ht⟩ := h.exists_list hp
  exact ⟨h.trans (moved_listMove h.lists ht), listMove_mem h.lists⟩

theorem stealSuitableFallback_spec {wholeBlock : Bool} (h : z.Inv O) (hp : p ∈ z.freeList o t) :
    Moved mt z (stealSuitableFallback env z p mt wholeBlock) ∧
      p ∈ (stealSuitableFallback env z p mt wholeBlock).freeList o mt := by
  have hpriv := (h.lists.mem hp).2.2.2
  obtain ⟨hblock, hmem⟩ : Moved mt z (moveFreepagesBlock env z p mt).1 ∧ _ :=
    moveFreepagesBlock_spec h hp
  rw [stealSuitableFallback, hpriv]
  split
  · exact (Moved.refl h.lists).single hp
  split
  · exact (changePageblockRange_moved h.lists).single hp
  split
  · exact (Moved.refl h.lists).single hp
  dsimp only
  split
  · exact hblock.single hp
  case isFalse hmoved =>
    split
    · exact ⟨hblock.trans (moved_setPageblockMigratetype hblock.lists), hmem hmoved⟩
    · exact ⟨hblock, hmem hmoved⟩

theorem changePageblockRange_freeList :
    (changePageblockRange env t' n z page).freeList = z.freeList := by
  induction n generalizing z page with
  | zero => rfl
  | succ n ih => exact ih

/-! ### The search -/

theorem findSuitableFallback_mem {only : Bool}
    (hr : findSuitableFallback env z o mt only = some r) : r.1 ∈ fallbacks mt ∧
    z.freeList o r.1 ≠ [] := by
  rw [findSuitableFallback] at hr
  split at hr
  · exact absurd hr (by simp)
  obtain ⟨t, ht, rfl⟩ := map_eq_some_iff.mp hr
  refine ⟨mem_of_find?_eq_some ht, fun hnil => ?_⟩
  have hprop := find?_some ht
  rw [show z.freeList o t = [] from hnil] at hprop
  exact absurd hprop (by simp)

theorem findSuitableFallback_isSome (env : Env) (h : z.Lists) (ht : t ∈ fallbacks mt)
    (hp : p ∈ z.freeList o t) : ∃ r, findSuitableFallback env z o mt false = some r := by
  rw [findSuitableFallback, if_neg (h.nrFree_pos hp).ne', ← isSome_iff_exists, isSome_map, find?_isSome]
  exact ⟨t, ht, by simpa using ne_nil_of_mem hp⟩

theorem largestFallback_some {minOrder : ℕ} (hr : largestFallback env z mt minOrder n = some (o, r)) :
    findSuitableFallback env z o mt false = some r ∧ minOrder ≤ o ∧ o < n := by
  induction n with
  | zero => exact absurd hr (by simp [largestFallback])
  | succ n ih =>
    rw [largestFallback] at hr
    split at hr
    · exact absurd hr (by simp)
    case isFalse hle =>
      rcases hfind : findSuitableFallback env z n mt false with _ | r'
      · rw [hfind] at hr
        obtain ⟨hsome, hge, hlt⟩ := ih hr
        exact ⟨hsome, hge, hlt.trans (lt_succ_self n)⟩
      rw [hfind] at hr
      obtain ⟨rfl, rfl⟩ := Prod.mk.inj (some.inj hr)
      exact ⟨hfind, not_lt.mp hle, lt_succ_self n⟩

theorem largestFallback_isSome {minOrder : ℕ} (hfind : findSuitableFallback env z o mt false = some r)
    (hge : minOrder ≤ o) (hlt : o < n) : ∃ r', largestFallback env z mt minOrder n = some r' ∧
    o ≤ r'.1 := by
  induction n with
  | zero => omega
  | succ n ih =>
    rw [largestFallback, if_neg (by omega)]
    rcases hhere : findSuitableFallback env z n mt false with _ | r'
    · have hne : o ≠ n := by
        rintro rfl
        exact absurd (hhere.symm.trans hfind) (by simp)
      exact ih (by omega)
    · exact ⟨_, rfl, le_of_lt_succ hlt⟩

theorem smallestFallback_spec (hfind : findSuitableFallback env z o mt false = some r) (hge : order ≤ o)
    (hlt : o < order + n) : ∃ o' r', smallestFallback env z mt n order = some (o', r') ∧
      findSuitableFallback env z o' mt false = some r' ∧ order ≤ o' := by
  induction n generalizing order with
  | zero => omega
  | succ n ih =>
    rw [smallestFallback]
    rcases hhere : findSuitableFallback env z order mt false with _ | r'
    · have hne : order ≠ o := by
        rintro rfl
        exact absurd (hhere.symm.trans hfind) (by simp)
      obtain ⟨o', r', heq, hfind', hle⟩ := ih (show order + 1 ≤ o by omega) (by omega)
      exact ⟨o', r', heq, hfind', by omega⟩
    · exact ⟨order, r', rfl, hhere, le_rfl⟩

/-- A step of `__rmqueue_fallback` that returns true. -/
structure Stole (mt : Migratetype) (z z' : Zone) : Prop where
  moved : Moved mt z z'
  gained : ∃ p o t, p ∈ z.freeList o t ∧ t ≠ mt ∧ p ∈ z'.freeList o mt

/-- The step moves a block of order `o`. -/
structure StoleAt (mt : Migratetype) (o : ℕ) (z z' : Zone) : Prop extends Stole mt z z' where
  block : ∃ p, p ∈ z'.freeList o mt
  others : pageblockOrder ≤ o → ∀ o' ≠ o, z'.freeList o' mt ⊆ z.freeList o' mt

theorem doSteal_stole (h : z.Inv O) (hfind : findSuitableFallback env z o mt false = some r) :
    ∃ z', doSteal env z mt (some (o, r)) = .ok z' ∧ StoleAt mt o z z' := by
  obtain ⟨hmem, hne⟩ := findSuitableFallback_mem hfind
  rw [doSteal]
  rcases hlist : z.freeList o r.1 with _ | ⟨p, rest⟩
  · exact absurd hlist hne
  have hp : p ∈ z.freeList o r.1 := hlist ▸ mem_cons_self
  obtain ⟨hmoved, hgained⟩ : Moved mt z (stealSuitableFallback env z p mt r.2) ∧ _ :=
    stealSuitableFallback_spec h hp
  have hother : r.1 ≠ mt := fun heq => by cases mt <;> simp [fallbacks, heq] at hmem
  refine ⟨_, rfl, ⟨hmoved, p, o, r.1, hp, hother, hgained⟩, ⟨p, hgained⟩, fun ho o' hne q hq => ?_⟩
  -- with a block that is a pageblock or more, nothing else is moved
  rw [stealSuitableFallback, (h.lists.mem hp).2.2.2, if_pos ho] at hq
  split at hq
  · exact (((mem_listMove h.lists).mp hq).resolve_left fun hc => hne hc.2.1).2
  have hchange : Moved mt z (changePageblockRange env mt (2 ^ (o - pageblockOrder)) z p) :=
    changePageblockRange_moved h.lists
  have hmem := ((mem_listMove hchange.lists).mp hq).resolve_left fun hc => hne hc.2.1
  rw [changePageblockRange_freeList] at hmem
  exact hmem.2

/-- The block is the largest one, or one that is large enough. -/
theorem rmqueueFallback_cases (env : Env) (order : ℕ) (mt : Migratetype) (flags : AllocFlags)
    (h : z.Inv O) :
    (largestFallback env z mt (if flags.noFragment then pageblockOrder else order) maxOrder = none ∧
      rmqueueFallback env z order mt flags = .ok none) ∨
    ∃ z' o r, rmqueueFallback env z order mt flags = .ok (some z') ∧ StoleAt mt o z z' ∧
    findSuitableFallback env z o mt false = some r ∧ (order ≤ o ∨
      largestFallback env z mt (if flags.noFragment then pageblockOrder else order) maxOrder =
        some (o, r)) := by
  rw [rmqueueFallback]
  rcases hlarge :
    largestFallback env z mt (if flags.noFragment then pageblockOrder else order) maxOrder with
    _ | ⟨o, t, canSteal⟩
  · exact .inl ⟨rfl, rfl⟩
  obtain ⟨hfind, -, hlt⟩ := largestFallback_some hlarge
  dsimp only
  split
  case isTrue hsmall =>
    -- the larger block that was found ends the second search at the latest
    simp only [and_eq_true, decide_eq_true_eq] at hsmall
    obtain ⟨o', r', hr', hfind', hge⟩ :=
      smallestFallback_spec (n := maxOrder - order) hfind hsmall.2.le (by omega)
    obtain ⟨z', hz', hstole⟩ := doSteal_stole h hfind'
    rw [hr', hz']
    exact .inr ⟨z', o', r', rfl, hstole, hfind', .inl hge⟩
  case isFalse =>
    obtain ⟨z', hz', hstole⟩ := doSteal_stole h hfind
    rw [hz']
    exact .inr ⟨z', o, _, rfl, hstole, hfind, .inr rfl⟩

/-! ### `__rmqueue` -/

/-- The number of free blocks of type `mt`. -/
def Zone.ownBlocks (z : Zone) (mt : Migratetype) : ℕ :=
  ∑ o ∈ Finset.range maxOrder, (z.freeList o mt).length

theorem ownBlocks_le (h : z.Lists) : z.ownBlocks mt ≤ z.nrBlocks := by
  refine Finset.sum_le_sum fun o _ => ?_
  rw [h.nrFree_eq]
  exact Finset.single_le_sum_of_canonicallyOrdered (f := fun t => (z.freeList o t).length)
    (Finset.mem_univ mt)

theorem Stole.ownBlocks_lt (h : z.Lists) (hs : Stole mt z z') : z.ownBlocks mt < z'.ownBlocks mt := by
  obtain ⟨p, o, t, hp, hne, hp'⟩ := hs.gained
  refine Finset.sum_lt_sum (fun o' _ => ?_) ⟨o, Finset.mem_range.mpr (h.mem hp).1, ?_⟩
  · exact (subperm_of_subset (h.nodup o' mt) (hs.moved.keeps o')).length_le
  have hnot : p ∉ z.freeList o mt := fun hmem => hne (h.type_unique hp hmem)
  have hsub : p :: z.freeList o mt ⊆ z'.freeList o mt := cons_subset.mpr ⟨hp', hs.moved.keeps o⟩
  exact (subperm_of_subset (nodup_cons.mpr ⟨hnot, h.nodup o mt⟩) hsub).length_le

/-- What a request for a block of order `order` comes to. -/
def Obtained (z : Zone) (O : Set Block) (order : ℕ) : Zone × Option ℕ → Prop
  | (z', none) => z'.Inv O ∧ z'.freePages = z.freePages ∧ Quiet z z'
  | (z', some page) => Took z O ⟨page, order⟩ z'

theorem Moved.obtained (h : Moved mt z z') {r : Zone × Option ℕ} (hr : Obtained z' O order r) :
    Obtained z O order r := by
  obtain ⟨z'', _ | page⟩ := r
  · exact ⟨hr.1, hr.2.1.trans h.freePages_eq, h.quiet.trans hr.2.2⟩
  · exact ⟨hr.inv, hr.fresh, hr.freePages_eq.trans h.freePages_eq, h.quiet.trans hr.quiet⟩

theorem rmqueueRetry_obtained (h : z.Inv O) (hn : z.nrBlocks < z.ownBlocks mt + n) :
    ∃ r, rmqueueRetry env order mt flags n z = .ok r ∧ Obtained z O order r := by
  induction n generalizing z with
  | zero => exact absurd hn (not_lt.mpr (ownBlocks_le h.lists))
  | succ n ih =>
    rw [rmqueueRetry]
    rcases hsmall : rmqueueSmallest z order mt with _ | ⟨page, z'⟩
    · dsimp only
      rcases hcma : (if mt = .movable then rmqueueSmallest z order .cma else none) with _ | ⟨page, z'⟩
      · obtain ⟨-, hr⟩ | ⟨z', o, r, hr, hs, -⟩ := rmqueueFallback_cases env order mt flags h <;> rw [hr]
        · exact ⟨_, rfl, h, rfl, .refl z⟩
        have hown := hs.toStole.ownBlocks_lt h.lists
        have hblocks : z'.nrBlocks = z.nrBlocks := by rw [nrBlocks, nrBlocks, hs.moved.nrFree_eq]
        obtain ⟨r, hr, hobt⟩ := ih (hs.moved.inv h) (by omega)
        exact ⟨r, hr, hs.moved.obtained hobt⟩
      split at hcma
      · exact ⟨_, rfl, rmqueueSmallest_took h hcma⟩
      · exact absurd hcma (by simp)
    · exact ⟨_, rfl, rmqueueSmallest_took h hsmall⟩

theorem rmqueueLocked_obtained (env : Env) (order : ℕ) (mt : Migratetype) (flags : AllocFlags)
    (h : z.Inv O) : ∃ r, rmqueueLocked env z order mt flags = .ok r ∧ Obtained z O order r :=
  rmqueueRetry_obtained h (by omega)

end LinuxNote.PageAlloc
