import LinuxNote.Lib.Outcome
import LinuxNote.PageAlloc.Fallback

/-! Histories of `__rmqueue` and `__free_one_page`.

    A zone starts with empty lists and all of its pages in use, in blocks of any sizes; boot frees
    them. -/

namespace LinuxNote.PageAlloc
open Config DyadicBlocks List Prod Option Except Set

section
variable [Config]

/-- A zone before any page was freed to it. -/
structure Zone.Fresh (z : Zone) : Prop where
  freeList : ∀ o t, z.freeList o t = []
  nrFree : ∀ o, z.nrFree o = 0
  pageBuddy : ∀ p, Ours p → z.pageBuddy p = false
  nrFreePages : z.nrFreePages = 0
  nrIsolatePageblock : z.nrIsolatePageblock = 0

/-- The zone and the blocks in use after some calls. -/
inductive Runs : Zone → Set Block → Prop
  | init {z O} : z.Fresh → Tiling (maxOrder - 1) O → pages O = managed → Runs z O
  | full {z O env order mt flags z'} : Runs z O → order < maxOrder → mt.isPcp = true →
      rmqueueLocked env z order mt flags = .ok (z', none) → Runs z' O
  | alloc {z O env order mt flags z' page} : Runs z O → order < maxOrder → mt.isPcp = true →
      rmqueueLocked env z order mt flags = .ok (z', some page) → Runs z' (insert ⟨page, order⟩ O)
  | free {z O b} (mt) : Runs z O → b ∈ O → mt ≠ .isolate →
      Runs (freeOnePageLocked z b.start b.order mt) (O \ {b})

variable {z z' : Zone} {O : Set Block} {b : Block}

theorem Zone.Fresh.freeBlocks (h : z.Fresh) : z.freeBlocks = ∅ := by
  ext b
  refine ⟨?_, False.elim⟩
  rintro ⟨t, ht⟩
  rw [h.freeList] at ht
  cases ht

theorem Zone.Fresh.freePages (h : z.Fresh) : z.freePages = 0 :=
  Finset.sum_eq_zero fun o _ => by rw [h.nrFree, zero_mul]

theorem Zone.Fresh.inv (h : z.Fresh) (htile : Tiling (maxOrder - 1) O) (hpages : pages O = managed) :
    z.Inv O := by
  have hnot : ∀ {p o t}, p ∉ z.freeList o t := fun {p o t} hp => not_mem_nil (h.freeList o t ▸ hp)
  refine ⟨⟨?_, fun hp => absurd hp hnot, fun hp => absurd hp hnot, ?_, ?_⟩, ?_⟩
  · intro o t
    rw [h.freeList]
    exact nodup_nil
  · intro p hours hbuddy
    exact absurd ((h.pageBuddy p hours).symm.trans hbuddy) Bool.false_ne_true
  · intro o
    rw [h.nrFree, Finset.sum_eq_zero]
    intro t _
    rw [h.freeList]
    rfl
  rw [h.freeBlocks]
  refine ⟨?_, fun b hb => hb.elim, ?_, fun b hb => hb.elim⟩
  · rwa [empty_union]
  · rwa [empty_union]

theorem Runs.inv (h : Runs z O) : z.Inv O ∧ z.nrIsolatePageblock = 0 := by
  induction h with
  | init hfresh htile hpages => exact ⟨hfresh.inv htile hpages, hfresh.nrIsolatePageblock⟩
  | @full z O env order mt flags z' _ _ _ hr ih =>
    obtain ⟨r, hr', hobt⟩ := rmqueueLocked_obtained env order mt flags ih.1
    obtain rfl := ok.inj (hr.symm.trans hr')
    exact ⟨hobt.1, hobt.2.2.nrIsolatePageblock_eq.trans ih.2⟩
  | @alloc z O env order mt flags z' page _ _ _ hr ih =>
    obtain ⟨r, hr', hobt⟩ := rmqueueLocked_obtained env order mt flags ih.1
    obtain rfl := ok.inj (hr.symm.trans hr')
    exact ⟨hobt.inv, hobt.quiet.nrIsolatePageblock_eq.trans ih.2⟩
  | free mt _ hb _ ih =>
    have hfreed := freeOnePageLocked_freed mt ih.1 ih.2 hb
    exact ⟨hfreed.inv, hfreed.nrIsolatePageblock_eq.trans ih.2⟩

/-! ### The buddy system -/

/-- The free blocks are known from the blocks in use. -/
theorem Zone.Inv.freeBlocks_eq (h : z.Inv O) (h' : z'.Inv O) : z.freeBlocks = z'.freeBlocks := by
  refine h.partition.unique h'.partition ?_
  rw [h.partition.pages_free, h'.partition.pages_free]

/-- A step that returns true serves the retry, unless it had to make do with a pageblock that is too
    small. -/
theorem rmqueueFallback_serves (env : Env) (order : ℕ) (mt : Migratetype) (flags : AllocFlags)
    (h : z.Inv O) : ∃ r, rmqueueFallback env z order mt flags = .ok r ∧
    ((∀ z', r = some z' → ∃ o p, order ≤ o ∧ p ∈ z'.freeList o mt) ↔
      (flags.noFragment = true → (∃ o p, ∃ t ∈ fallbacks mt, pageblockOrder ≤ o ∧ p ∈ z.freeList o t) →
        ∃ o p, ∃ t ∈ mt :: fallbacks mt, order ≤ o ∧ p ∈ z.freeList o t)) := by
  obtain ⟨hlarge, hrun⟩ | ⟨z', o, r, hrun, hstole, hfind, hor⟩ :=
    rmqueueFallback_cases env order mt flags h
  · refine ⟨none, hrun, iff_of_true (by simp) fun hflag ⟨o, p, t, ht, ho, hp⟩ => ?_⟩
    obtain ⟨r, hr⟩ := findSuitableFallback_isSome env h.lists ht hp
    obtain ⟨r', hr', -⟩ := largestFallback_isSome (n := maxOrder) hr ho (h.lists.mem hp).1
    rw [if_pos hflag, hr'] at hlarge
    cases hlarge
  obtain ⟨hmem, hne⟩ := findSuitableFallback_mem hfind
  obtain ⟨p, hp⟩ := exists_mem_of_ne_nil _ hne
  refine ⟨some z', hrun, ?_⟩
  by_cases hge : order ≤ o
  · refine iff_of_true ?_ fun _ _ => ⟨o, p, r.1, mem_cons_of_mem _ hmem, hge, hp⟩
    rintro _ ⟨⟩
    exact ⟨o, hstole.block.choose, hge, hstole.block.choose_spec⟩
  have hlarge := hor.resolve_left hge
  obtain ⟨-, hmin, -⟩ := largestFallback_some hlarge
  have hflag : flags.noFragment = true := by
    by_contra hflag
    rw [if_neg hflag] at hmin
    exact hge hmin
  rw [if_pos hflag] at hlarge hmin
  constructor
  · intro hserves _ _
    obtain ⟨o', q, ho', hq⟩ := hserves z' rfl
    exact ⟨o', q, mt, mem_cons_self, ho', hstole.others hmin o' (by omega) hq⟩
  rintro hwide _ ⟨⟩
  obtain ⟨o', q, t, ht, ho', hq⟩ := hwide hflag ⟨o, p, r.1, hmem, hmin, hp⟩
  rcases mem_cons.mp ht with rfl | ht
  · exact ⟨o', q, ho', hstole.moved.keeps o' hq⟩
  -- the first search would have found the larger block
  obtain ⟨r', hr'⟩ := findSuitableFallback_isSome env h.lists ht hq
  obtain ⟨_, hr', hle⟩ :=
    largestFallback_isSome (n := maxOrder) hr' (by omega : pageblockOrder ≤ o') (h.lists.mem hq).1
  obtain rfl := some.inj (hlarge.symm.trans hr')
  exact absurd (ho'.trans hle) hge

end

/-! ### A small zone -/

/-- A zone of four pages, in two pageblocks of two pages. -/
@[reducible] def fourPages : Config where
  maxOrder := 3
  two_le_maxOrder := by decide
  pageblockOrder := 1
  pageblockOrder_pos := by decide
  pfnValidWithin := fun _ => true
  pageZoneId := fun p => if p < 4 then 0 else 1
  zoneId := 0
  zoneStartPfn := 0
  spannedPages := 4
  managed := {p | p < 4}
  managed_valid := fun _ _ => rfl
  managed_zone := fun _ hp => if_pos hp
  managed_span := fun p hp => ⟨Nat.zero_le p, hp⟩
  span_zone := fun _ _ hp _ => if_pos hp

/-- The zone with nothing free. -/
def emptyZone : Zone where
  freeList := fun _ _ => []
  nrFree := fun _ => 0
  pageBuddy := fun _ => false
  pagePrivate := fun _ => 0
  pcppageMigratetype := fun _ => .unmovable
  blockType := fun _ => .movable
  nrFreePages := 0
  nrFreeCmaPages := 0
  nrIsolatePageblock := 0

theorem emptyZone_fresh : @Zone.Fresh fourPages emptyZone :=
  let _ := fourPages
  ⟨fun _ _ => rfl, fun _ => rfl, fun _ _ => rfl, rfl, rfl⟩

theorem runs_emptyZone : @Runs fourPages emptyZone {⟨0, 1⟩, ⟨2, 1⟩} := by
  let _ := fourPages
  have haligned : (⟨0, 1⟩ : Block).Aligned := ⟨0, rfl⟩
  refine .init emptyZone_fresh (tiling_pair haligned (by decide)) ?_
  rw [show (⟨2, 1⟩ : Block) = (⟨0, 1⟩ : Block).buddy from rfl, pages_pair haligned]
  ext p
  exact ⟨fun hp => hp.2, fun hp => ⟨Nat.zero_le p, hp⟩⟩

def quietEnv : Env := ⟨false, fun _ => false, fun _ => false⟩

/-- The first block is free, or both are, and have merged. -/
def halfFreed : Zone := @freeOnePageLocked fourPages emptyZone 0 1 .movable

def allFreed : Zone := @freeOnePageLocked fourPages halfFreed 2 1 .movable

theorem runs_halfFreed : @Runs fourPages halfFreed ({⟨0, 1⟩, ⟨2, 1⟩} \ {⟨0, 1⟩}) :=
  @Runs.free fourPages _ _ _ .movable runs_emptyZone (.inl rfl) (by decide)

theorem runs_allFreed : @Runs fourPages allFreed (({⟨0, 1⟩, ⟨2, 1⟩} \ {⟨0, 1⟩}) \ {⟨2, 1⟩}) :=
  @Runs.free fourPages _ _ _ .movable runs_halfFreed ⟨.inr rfl, by simp⟩ (by decide)

/-- The request for two pages is served from the four that are free. -/
theorem rmqueueFallback_serves_two :
    ∃ r, @rmqueueFallback fourPages quietEnv allFreed 1 .unmovable ⟨true, false⟩ = .ok r ∧
    ∀ z', r = some z' → ∃ o p, 1 ≤ o ∧ p ∈ z'.freeList o .unmovable := by
  let _ := fourPages
  obtain ⟨r, hr, hiff⟩ := rmqueueFallback_serves quietEnv 1 .unmovable ⟨true, false⟩ runs_allFreed.inv.1
  exact ⟨r, hr, hiff.mpr fun _ _ => ⟨2, 0, .movable, by decide, by decide, by decide +kernel⟩⟩

/-- The block of two pages is moved for a request for four. -/
theorem rmqueueFallback_too_small : (∃ O, @Zone.Inv fourPages halfFreed O) ∧ ∃ z',
    @rmqueueFallback fourPages quietEnv halfFreed 2 .unmovable ⟨true, false⟩ = .ok (some z') ∧
      z'.freeList 1 .unmovable = [0] ∧ z'.freeList 2 .unmovable = [] := by
  let _ := fourPages
  refine ⟨⟨_, runs_halfFreed.inv.1⟩, ?_⟩
  have heval : (rmqueueFallback quietEnv halfFreed 2 .unmovable ⟨true, false⟩).toOption.map
      (Option.map fun z => (z.freeList 1 .unmovable, z.freeList 2 .unmovable)) =
      some (some ([0], [])) := by decide +kernel
  obtain ⟨-, hr⟩ | ⟨z', -, -, hr, -⟩ :=
    rmqueueFallback_cases quietEnv 2 .unmovable ⟨true, false⟩ runs_halfFreed.inv.1
  · rw [hr] at heval
    cases heval
  rw [hr] at heval
  obtain ⟨h1, h2⟩ := mk.inj (some.inj (some.inj heval))
  exact ⟨z', hr, h1, h2⟩

end LinuxNote.PageAlloc
