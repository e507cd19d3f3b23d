import LinuxNote.PageAlloc.History

/-! The counter of free pages. `rmqueue` and `rmqueue_bulk` take blocks off the lists first and adjust
    `NR_FREE_PAGES` once, at the end. The second counts every block it took. The first counts only the
    block it returns, so every block that `check_new_pages` rejects stays in the counter for good. -/

namespace LinuxNote.PageAlloc
open Config DyadicBlocks List Finset Prod Relation Except Zone

/-! ### Pages of a per-cpu list -/

/-- The pages on the lists of `pcp`. -/
def PerCpuPages.pages (pcp : PerCpuPages) : List ℕ :=
  pcp.lists .unmovable ++ pcp.lists .movable ++ pcp.lists .reclaimable

section
variable {pcp : PerCpuPages} {env : Env} {mt : Migratetype} {d d' : Drain} {n : ℕ}

theorem nextPcp_isPcp (mt : Migratetype) : mt.nextPcp.isPcp = true := by
  cases mt <;> rfl

/-- The pages when the last one of a list is taken. -/
theorem pages_dropLast {page : ℕ} (hmt : mt.isPcp = true) (hlast : (pcp.lists mt).getLast? = some page)
    (c : ℕ) : pcp.pages.Perm
    (page :: (⟨c, Function.update pcp.lists mt (pcp.lists mt).dropLast⟩ : PerCpuPages).pages) := by
  have hlist : (pcp.lists mt).Perm (page :: (pcp.lists mt).dropLast) := by
    have hsplit := dropLast_append_getLast? page hlast
    nth_rewrite 1 [← hsplit]
    exact perm_append_singleton ..
  rw [PerCpuPages.pages, PerCpuPages.pages]
  cases mt with
  | unmovable => exact (hlist.append_right _).append_right _
  | movable =>
    refine ((hlist.append_left _).append_right _).trans ?_
    rw [append_assoc, append_assoc]
    exact perm_middle
  | reclaimable => exact (hlist.append_left _).trans perm_middle
  | highatomic | cma | isolate => exact absurd hmt (by decide)

/-- The search for a list that is not empty ends within one round, if there is one. -/
theorem pcpNextList_spec (mt : Migratetype) (hne : pcp.pages ≠ []) (batchFree : ℕ) :
    ∃ mt' b, pcpNextList pcp migratePcptypes mt batchFree = .ok (mt', b) ∧ mt'.isPcp = true ∧
    pcp.lists mt' ≠ [] := by
  have hsome : pcp.lists mt.nextPcp ≠ [] ∨ pcp.lists mt.nextPcp.nextPcp ≠ [] ∨
    pcp.lists mt.nextPcp.nextPcp.nextPcp ≠ [] := by
    by_contra hall
    simp only [not_or, ne_eq, not_not] at hall
    refine hne ?_
    rw [PerCpuPages.pages]
    cases mt <;> simp only [Migratetype.nextPcp] at hall <;> simp [hall.1, hall.2.1, hall.2.2]
  rw [migratePcptypes, pcpNextList, pcpNextList, pcpNextList]
  simp only [List.isEmpty_iff]
  split
  · split
    · split
      · rename_i h1 h2 h3
        exact absurd hsome (by simp [h1, h2, h3])
      · exact ⟨_, _, rfl, nextPcp_isPcp _, ‹_›⟩
    · exact ⟨_, _, rfl, nextPcp_isPcp _, ‹_›⟩
  · exact ⟨_, _, rfl, nextPcp_isPcp _, ‹_›⟩

/-- The pages collected and those left come from the pages there were before, and a page is taken for
    each step of the count. -/
structure Drained (d d' : Drain) : Prop where
  subperm : (d'.head ++ d'.pcp.pages).Subperm (d.head ++ d.pcp.pages)
  length_eq : d'.pcp.pages.length + d.count = d.pcp.pages.length + d'.count

/-- A round of the inner loop, which takes the last page of a list. -/
def TakesPage (env : Env) (d d' : Drain) : Prop :=
  ∃ mt page, mt.isPcp = true ∧ (d.pcp.lists mt).getLast? = some page ∧ d.count ≠ 0 ∧
    d' = { d.takeLast env mt page with batchFree := d'.batchFree }

theorem drained_of_takes (h : ReflTransGen (TakesPage env) d d') : Drained d d' := by
  induction h with
  | refl => exact ⟨Subperm.refl _, rfl⟩
  | @tail d1 _ _ hstep ih =>
    obtain ⟨mt, page, hmt, hlast, hcount, heq⟩ := hstep
    have hperm := pages_dropLast hmt hlast (d1.pcp.count - 1)
    have hlen := hperm.length_eq
    have := ih.length_eq
    rw [length_cons] at hlen
    rw [heq, Drain.takeLast]
    refine ⟨(Subperm.trans ?_ (hperm.symm.append_left _).subperm).trans ih.subperm, by dsimp only; omega⟩
    dsimp only
    split
    · exact ((sublist_cons_self page _).append_left _).subperm
    rw [append_assoc]
    exact Subperm.refl _

theorem pcpDrainList_spec (env : Env) {n b : ℕ} {d : Drain} (hmt : mt.isPcp = true)
    (hne : d.pcp.lists mt ≠ []) (hcount : d.count ≠ 0) (hn : d.count ≤ n + 1) :
    ∃ d', pcpDrainList env mt n { d with batchFree := b } = .ok d' ∧ ReflTransGen (TakesPage env) d d' ∧
    d'.count < d.count := by
  obtain ⟨page, hlast⟩ : ∃ page, (d.pcp.lists mt).getLast? = some page :=
    ⟨_, getLast?_eq_some_getLast hne⟩
  have hstep : ∀ b, TakesPage env d { d.takeLast env mt page with batchFree := b } :=
    fun _ => ⟨mt, page, hmt, hlast, hcount, rfl⟩
  have hlt : d.count - 1 < d.count := by omega
  rw [pcpDrainList.eq_def]
  dsimp only
  rw [hlast]
  dsimp only
  split
  · exact ⟨_, rfl, .single (hstep b), hlt⟩
  case isFalse hcount' =>
    split
    · exact ⟨_, rfl, .single (hstep (b - 1)), hlt⟩
    case isFalse hgo =>
      rw [Bool.or_eq_true, List.isEmpty_iff, not_or] at hgo
      have hdec : d.count - 1 ≠ 0 := hcount'
      cases n with
      | zero => omega
      | succ n =>
        obtain ⟨d', hd', htakes, hlt'⟩ :=
          pcpDrainList_spec env (d := d.takeLast env mt page) (n := n) (b := b - 1) hmt hgo.2 hcount'
            (show d.count - 1 ≤ n + 1 by omega)
        exact ⟨d', hd', .head (hstep _) htakes, hlt'.trans hlt⟩
termination_by n

theorem pcpCollect_spec (env : Env) (mt : Migratetype) (hcount : d.count ≤ d.pcp.pages.length)
    (hn : d.count ≤ n) :
    ∃ d', pcpCollect env n mt d = .ok d' ∧ ReflTransGen (TakesPage env) d d' ∧ d'.count = 0 := by
  induction n generalizing d mt with
  | zero =>
    rw [pcpCollect, if_pos (Nat.le_zero.mp hn)]
    exact ⟨d, rfl, .refl, Nat.le_zero.mp hn⟩
  | succ n ih =>
    rw [pcpCollect]
    split
    · exact ⟨d, rfl, .refl, ‹_›⟩
    case isFalse hpos =>
      have hne : d.pcp.pages ≠ [] := ne_nil_of_length_pos (by omega)
      obtain ⟨mt', b, hnext, hmt', hlist⟩ := pcpNextList_spec mt hne d.batchFree
      rw [hnext]
      obtain ⟨d1, hd1, htakes, hlt⟩ := pcpDrainList_spec env (n := d.count)
        (b := if b = migratePcptypes then d.count else b) hmt' hlist hpos (Nat.le_succ _)
      dsimp only
      rw [hd1]
      have hlen := (drained_of_takes htakes).length_eq
      obtain ⟨d', hd', hrest, hzero⟩ := ih mt' (d := d1) (by omega) (by omega)
      exact ⟨d', hd', htakes.trans hrest, hzero⟩

/-- The pages taken, in order: each list has lost its end, those that pass the check are collected, and
    `pcp->count` is kept. -/
structure Takes (env : Env) (taken : List (Migratetype × ℕ)) (d d' : Drain) : Prop where
  lists : ∀ mt, d.pcp.lists mt = d'.pcp.lists mt ++ ((taken.filter (·.1 = mt)).map snd).reverse
  head : d'.head = d.head ++ (taken.map snd).filter fun page => !env.bad page
  length : taken.length + d'.count = d.count
  count : d.pcp.count = d.pcp.pages.length → d'.pcp.count = d'.pcp.pages.length

theorem TakesPage.takes {d''} {taken : List (Migratetype × ℕ)} (h : Takes env taken d d')
    (hstep : TakesPage env d' d'') :
    ∃ t, Takes env (taken ++ [t]) d d'' := by
  obtain ⟨mt, page, hmt, hlast, hcount, heq⟩ := hstep
  have hlength := h.length
  have hpages := (pages_dropLast hmt hlast (d'.pcp.count - 1)).length_eq
  rw [heq]
  refine ⟨(mt, page), ⟨fun mt' => ?_, ?_, ?_, fun hc => ?_⟩⟩
  · rw [h.lists mt']
    by_cases hmt' : mt' = mt
    · subst hmt'
      nth_rewrite 1 [← dropLast_append_getLast? page hlast]
      simp [Drain.takeLast]
    · simp [Drain.takeLast, Ne.symm hmt', hmt']
  · cases hbad : env.bad page <;> simp [Drain.takeLast, h.head, hbad]
  · simp [Drain.takeLast]
    omega
  have := h.count hc
  simp only [Drain.takeLast, length_cons] at *
  omega

/-- The loop of `free_pcppages_bulk` ends, with `count` pages taken from the ends of the lists. -/
theorem pcpCollect_takes (env : Env) (pcp : PerCpuPages) (count : ℕ)
    (hcount : pcp.count = pcp.pages.length) (hle : count ≤ pcp.count) :
    ∃ d, ∃ taken : List (Migratetype × ℕ),
    pcpCollect env count .unmovable ⟨pcp, count, 0, []⟩ = .ok d ∧ taken.length = count ∧
    d.pcp.count = d.pcp.pages.length ∧
    (∀ mt, pcp.lists mt = d.pcp.lists mt ++ ((taken.filter (·.1 = mt)).map snd).reverse) ∧
    d.head = (taken.map snd).filter fun page => !env.bad page := by
  obtain ⟨d, hd, hsteps, hzero⟩ :=
    pcpCollect_spec env .unmovable (d := ⟨pcp, count, 0, []⟩) (hcount ▸ hle) (le_refl count)
  have htakes : ∃ taken, Takes env taken ⟨pcp, count, 0, []⟩ d := by
    clear hd hzero
    induction hsteps with
    | refl => exact ⟨[], by simp, by simp, by simp, id⟩
    | tail _ hstep ih =>
      obtain ⟨taken, htakes⟩ := ih
      obtain ⟨t, ht⟩ := hstep.takes htakes
      exact ⟨_, ht⟩
  obtain ⟨taken, htakes⟩ := htakes
  exact ⟨d, taken, hd, by simpa [hzero] using htakes.length, htakes.count hcount, htakes.lists,
    htakes.head⟩

/-- Two lists with four pages. -/
def fourCached : PerCpuPages :=
    ⟨4, fun mt => if mt = .movable then [0, 1, 2] else if mt = .unmovable then [3] else []⟩

theorem pcpCollect_takes_three : ∃ d, pcpCollect quietEnv 3 .unmovable ⟨fourCached, 3, 0, []⟩ = .ok d ∧
    d.pcp.count = d.pcp.pages.length := by
  obtain ⟨d, -, hd, -, hcount, -⟩ := pcpCollect_takes quietEnv fourCached 3 rfl (by decide)
  exact ⟨d, hd, hcount⟩

end

/-! ### Blocks that are not free -/

section
variable [Config] {z z' : Zone} {O : Set Block} {b : Block} {order n : ℕ} {mt : Migratetype} {env : Env}
 

/-- A block of managed pages, none of which is free. -/
structure Zone.InUse (z : Zone) (b : Block) : Prop where
  aligned : b.Aligned
  order_lt : b.order < maxOrder
  managed : ∀ p ∈ b, p ∈ Config.managed
  not_free : ∀ p ∈ b, p ∉ pages z.freeBlocks

theorem Zone.Inv.mem_pages_iff (h : z.Inv O) {p : ℕ} :
    p ∈ pages O ↔ p ∈ managed ∧ p ∉ pages z.freeBlocks := by
  rw [h.partition.pages_free]
  constructor
  · rintro ⟨c, hc, hp⟩
    exact ⟨h.partition.mem_of_block (.inr hc) hp, fun hnot => hnot.2 ⟨c, hc, hp⟩⟩
  rintro ⟨hp, hnot⟩
  by_contra hout
  exact hnot ⟨hp, hout⟩

theorem Zone.InUse.regroup (hb : z.InUse b) (h : z.Inv O) : ∃ O', z.Inv O' ∧ b ∈ O' := by
  have hle : b.order ≤ maxOrder - 1 := Nat.le_sub_one_of_lt hb.order_lt
  obtain ⟨O', hpart, hmem⟩ := h.partition.regroup hb.aligned hle fun p hp =>
    h.mem_pages_iff.mpr ⟨hb.managed p hp, hb.not_free p hp⟩
  exact ⟨O', ⟨h.lists, hpart⟩, hmem⟩

theorem Zone.Inv.inUse (h : z.Inv O) (hb : b ∈ O) : z.InUse b :=
  ⟨h.partition.tiling.aligned b (.inr hb), order_lt_maxOrder (h.partition.tiling.order_le b (.inr hb)),
    fun _ hp => h.partition.mem_of_block (.inr hb) hp, fun _ hp => (h.mem_pages_iff.mp ⟨b, hb, hp⟩).2⟩

/-! ### `rmqueue` -/

variable (env)

theorem rmqueueCandidate_obtained (order : ℕ) (mt : Migratetype) (flags : AllocFlags) (h : z.Inv O) :
    ∃ r, rmqueueCandidate env z order mt flags = .ok r ∧ Obtained z O order r := by
  rw [rmqueueCandidate]
  rcases hatomic :
    (if flags.harder then rmqueueSmallest z order .highatomic else none) with _ | ⟨page, z'⟩
  · exact rmqueueLocked_obtained env order mt flags h
  split at hatomic
  · exact ⟨_, rfl, rmqueueSmallest_took h hatomic⟩
  · exact absurd hatomic (by simp)

/-- No candidate of the call is rejected: the first one is the last. -/
def Accepts (z : Zone) (order : ℕ) (mt : Migratetype) (flags : AllocFlags) : Prop :=
  ∀ z' page, rmqueueCandidate env z order mt flags = .ok (z', some page) →
    checkNewPages env page order = false

/-- What the loop of `rmqueue` did: `k` blocks were rejected. -/
structure Tried (z : Zone) (order k : ℕ) (r : Zone × Option ℕ) : Prop where
  inv : ∃ O, r.1.Inv O
  freePages_eq : r.1.freePages + (k + if r.2 = none then 0 else 1) * 2 ^ order = z.freePages
  quiet : Quiet z r.1

theorem rmqueueLoop_tried (order : ℕ) (mt : Migratetype) (flags : AllocFlags) (h : z.Inv O)
    (hn : z.freePages < n) : ∃ r k, rmqueueLoop env order mt flags n z = .ok r ∧
      Tried z order k r ∧ (k = 0 ↔ Accepts env z order mt flags) := by
  induction n generalizing z O with
  | zero => omega
  | succ n ih =>
    obtain ⟨⟨z', page⟩, hr, hobt⟩ := rmqueueCandidate_obtained env order mt flags h
    rw [rmqueueLoop, hr]
    rcases page with _ | page
    · refine ⟨_, 0, rfl, ⟨⟨O, hobt.1⟩, ?_, hobt.2.2⟩, ?_⟩
      · rw [if_pos rfl, add_zero, zero_mul, add_zero]
        exact hobt.2.1
      refine ⟨fun _ z1 page1 hr1 => ?_, fun _ => rfl⟩
      exact absurd (ok.inj (hr.symm.trans hr1)) (by simp)
    have hpages : z'.freePages + 2 ^ order = z.freePages := hobt.freePages_eq
    have hpow := Nat.two_pow_pos order
    dsimp only
    split
    case isTrue hbad =>
      obtain ⟨r, k, hloop, htried, -⟩ := ih hobt.inv (by omega)
      refine ⟨r, k + 1, hloop, ⟨htried.inv, ?_, hobt.quiet.trans htried.quiet⟩, ?_⟩
      · have hrest := htried.freePages_eq
        rw [add_right_comm, Nat.succ_mul]
        omega
      · refine ⟨fun hk => absurd hk (Nat.succ_ne_zero k), fun hacc => ?_⟩
        exact absurd (hbad.symm.trans (hacc z' page hr)) (by decide)
    case isFalse hgood =>
      refine ⟨_, 0, rfl, ⟨⟨_, hobt.inv⟩, ?_, hobt.quiet⟩, ?_⟩
      · rw [if_neg (by simp), zero_add, one_mul]
        exact hpages
      refine ⟨fun _ z1 page1 hr1 => ?_, fun _ => rfl⟩
      obtain ⟨-, heq⟩ := mk.inj (ok.inj (hr.symm.trans hr1))
      rw [← Option.some.inj heq]
      exact Bool.eq_false_iff.mpr hgood

theorem Zone.Inv.of_eq (h : z.Inv O) (hlist : z'.freeList = z.freeList) (hnr : z'.nrFree = z.nrFree)
    (hbuddy : z'.pageBuddy = z.pageBuddy) (hpriv : z'.pagePrivate = z.pagePrivate) : z'.Inv O := by
  refine ⟨h.lists.of_eq hlist hnr hbuddy hpriv, ?_⟩
  rw [show z'.freeBlocks = z.freeBlocks by rw [freeBlocks, freeBlocks, hlist]]
  exact h.partition

/-- The zone is sound and holds no isolated pageblock. -/
structure Zone.Sound (z : Zone) : Prop where
  inv : ∃ O, z.Inv O
  nrIsolatePageblock : z.nrIsolatePageblock = 0

/-- By how much the counter is ahead of the lists. -/
def Zone.drift (z : Zone) : ℤ := z.nrFreePages - z.freePages

theorem rmqueue_drift (order : ℕ) (mt : Migratetype) (flags : AllocFlags) (h : z.Sound) :
    ∃ r k, rmqueue env z order mt flags = .ok r ∧ r.1.Sound ∧
    r.1.drift = z.drift + (k * 2 ^ order : ℕ) ∧ (k = 0 ↔ Accepts env z order mt flags) := by
  obtain ⟨O, hinv⟩ := h.inv
  obtain ⟨⟨z', page⟩, k, hr, htried, hk⟩ :=
    rmqueueLoop_tried env order mt flags hinv (Nat.lt_succ_self z.freePages)
  obtain ⟨O', hinv'⟩ := htried.inv
  have hiso := htried.quiet.nrIsolatePageblock_eq.trans h.nrIsolatePageblock
  have hnr := htried.quiet.nrFreePages_eq
  have hpages := htried.freePages_eq
  rw [rmqueue, hr]
  rcases page with _ | page
  · refine ⟨_, k, rfl, ⟨⟨O', hinv'⟩, hiso⟩, ?_, hk⟩
    rw [if_pos rfl, add_zero] at hpages
    rw [drift, drift, hnr, ← hpages]
    omega
  refine ⟨_, k, rfl, ⟨⟨O', hinv'.of_eq rfl rfl rfl rfl⟩, hiso⟩, ?_, hk⟩
  rw [if_neg (by simp), Nat.succ_mul] at hpages
  rw [drift, drift, ← hpages]
  change z'.nrFreePages + -((2 ^ order : ℕ) : ℤ) - (z'.freePages : ℤ) = _
  rw [hnr]
  push_cast
  omega

/-! ### `rmqueue_bulk` -/

theorem rmqueueBulkLoop_spec (order : ℕ) (mt : Migratetype) (flags : AllocFlags) (n : ℕ) {b : Bulk}
    (h : b.zone.Sound) : ∃ b', rmqueueBulkLoop env order mt flags n b = .ok b' ∧
    b'.zone.Sound ∧ b'.zone.nrFreePages = b.zone.nrFreePages ∧
    b'.zone.freePages + b'.i * 2 ^ order = b.zone.freePages + b.i * 2 ^ order := by
  induction n generalizing b with
  | zero => exact ⟨b, rfl, h, rfl, rfl⟩
  | succ n ih =>
    obtain ⟨O, hinv⟩ := h.inv
    obtain ⟨⟨z', page⟩, hr, hobt⟩ := rmqueueLocked_obtained env order mt flags hinv
    rw [rmqueueBulkLoop, hr]
    rcases page with _ | page
    · refine ⟨_, rfl, ⟨⟨O, hobt.1⟩, hobt.2.2.nrIsolatePageblock_eq.trans h.nrIsolatePageblock⟩,
        hobt.2.2.nrFreePages_eq, ?_⟩
      rw [hobt.2.1]
    have hpages : z'.freePages + 2 ^ order = b.zone.freePages := hobt.freePages_eq
    have hiso := hobt.quiet.nrIsolatePageblock_eq.trans h.nrIsolatePageblock
    dsimp only
    -- the round takes a block, whether or not the page is put on the list
    split
    all_goals
      refine (ih ?_).imp fun b' ⟨hb', hsound, hnr, hsum⟩ =>
        ⟨hb', hsound, hnr.trans hobt.quiet.nrFreePages_eq, hsum.trans ?_⟩
      · exact ⟨⟨_, hobt.inv.of_eq rfl rfl rfl rfl⟩, hiso⟩
      show z'.freePages + (b.i + 1) * 2 ^ order = _
      rw [Nat.succ_mul]
      omega

theorem rmqueueBulk_drift (order count : ℕ) (list : List ℕ) (mt : Migratetype) (flags : AllocFlags)
    (h : z.Sound) :
    ∃ r, rmqueueBulk env z order count list mt flags = .ok r ∧ r.1.Sound ∧ r.1.drift = z.drift := by
  obtain ⟨b, hb, hsound, hnr, hsum⟩ :=
    rmqueueBulkLoop_spec env order mt flags count (b := ⟨z, 0, 0, list⟩) h
  rw [rmqueueBulk, hb]
  obtain ⟨O, hinv⟩ := hsound.inv
  refine ⟨_, rfl, ⟨⟨O, hinv.of_eq rfl rfl rfl rfl⟩, hsound.nrIsolatePageblock⟩, ?_⟩
  rw [zero_mul, add_zero] at hsum
  rw [drift, drift, ← hsum]
  change b.zone.nrFreePages - ((b.i * 2 ^ order : ℕ) : ℤ) - (b.zone.freePages : ℤ) = _
  rw [hnr]
  push_cast
  omega

/-! ### Freeing -/

theorem Freed.drift_eq (h : Freed z O b mt z') (hmt : mt ≠ .isolate) : z'.drift = z.drift := by
  rw [drift, drift, h.nrFreePages_eq, if_neg hmt, h.freePages_eq]
  omega

theorem freeOnePage_drift (h : z.Sound) (hb : z.InUse b) (hmt : mt ≠ .isolate) :
    (freeOnePage z b.start b.order mt).Sound ∧ (freeOnePage z b.start b.order mt).drift = z.drift := by
  obtain ⟨O, hinv⟩ := h.inv
  obtain ⟨O', hinv', hmem⟩ := hb.regroup hinv
  have hfreed := freeOnePageLocked_freed mt hinv' h.nrIsolatePageblock hmem
  have hno : (z.hasIsolatePageblock || mt == .isolate) = false := by
    rw [hasIsolatePageblock, h.nrIsolatePageblock, beq_eq_false_iff_ne.mpr hmt]
    rfl
  rw [freeOnePage, hno, if_neg Bool.false_ne_true]
  exact ⟨⟨⟨_, hfreed.inv⟩, hfreed.nrIsolatePageblock_eq.trans h.nrIsolatePageblock⟩, hfreed.drift_eq hmt⟩

theorem mergeLoop_pcppageMigratetype {pfn : ℕ} :
    (mergeLoop n z pfn order).zone.pcppageMigratetype = z.pcppageMigratetype := by
  induction n generalizing z pfn order with
  | zero => rfl
  | succ n ih =>
    rw [mergeLoop]
    split
    · exact ih
    · rfl

theorem mergeRounds_pcppageMigratetype {pfn maxOrd : ℕ} :
    (mergeRounds mt n z pfn order maxOrd).zone.pcppageMigratetype = z.pcppageMigratetype := by
  induction n generalizing z pfn order maxOrd with
  | zero => exact mergeLoop_pcppageMigratetype
  | succ n ih =>
    rw [mergeRounds]
    split
    · exact mergeLoop_pcppageMigratetype
    · exact ih.trans mergeLoop_pcppageMigratetype

theorem freeOnePageLocked_pcppageMigratetype {pfn : ℕ} :
    (freeOnePageLocked z pfn order mt).pcppageMigratetype = z.pcppageMigratetype := by
  have hdone : ∀ z1 pfn1 order1, (doneMerging z1 pfn1 order1 mt).pcppageMigratetype =
    z1.pcppageMigratetype := by
    intro z1 pfn1 order1
    rw [doneMerging]
    split <;> rfl
  rw [freeOnePageLocked, hdone, mergeRounds_pcppageMigratetype]
  split <;> rfl

theorem pcpFreeAll_drift {l : List ℕ} (h : z.Inv O) (hiso : z.nrIsolatePageblock = 0) (hl : l.Nodup)
    (hO : ∀ p ∈ l, ⟨p, 0⟩ ∈ O) (hmt : ∀ p ∈ l, z.pcppageMigratetype p ≠ .isolate) :
    ∃ z', pcpFreeAll z.hasIsolatePageblock l z = .ok z' ∧ z'.Sound ∧ z'.drift = z.drift := by
  have hno : z.hasIsolatePageblock = false := by
    rw [hasIsolatePageblock, hiso]
    rfl
  rw [hno]
  clear hno
  induction l generalizing z O with
  | nil => exact ⟨z, rfl, ⟨⟨O, h⟩, hiso⟩, rfl⟩
  | cons p l ih =>
    have hp := hmt p mem_cons_self
    have hfreed := freeOnePageLocked_freed (z.pcppageMigratetype p) h hiso (hO p mem_cons_self)
    rw [nodup_cons] at hl
    rw [pcpFreeAll, if_neg hp]
    obtain ⟨z', hz', hsound, hdrift⟩ := ih hfreed.inv (hfreed.nrIsolatePageblock_eq.trans hiso) hl.2
      (fun q hq => ⟨hO q (mem_cons_of_mem _ hq), fun heq => hl.1 ((Block.mk.inj heq).1 ▸ hq)⟩)
      (fun q hq => by
        rw [freeOnePageLocked_pcppageMigratetype]
        exact hmt q (mem_cons_of_mem _ hq))
    exact ⟨z', hz', hsound, hdrift.trans (hfreed.drift_eq hp)⟩

/-- The pages on the lists of `pcp` are single pages in use, of which there are at least `count`. -/
structure PerCpuPages.Ready (pcp : PerCpuPages) (z : Zone) (count : ℕ) : Prop where
  nodup : pcp.pages.Nodup
  inUse : ∀ p ∈ pcp.pages, z.InUse ⟨p, 0⟩
  type_ne : ∀ p ∈ pcp.pages, z.pcppageMigratetype p ≠ .isolate
  count_le : count ≤ pcp.pages.length

theorem freePcppagesBulk_drift {pcp : PerCpuPages} {count : ℕ} (env : Env) (h : z.Sound)
    (hpcp : pcp.Ready z count) :
    ∃ r, freePcppagesBulk env z count pcp = .ok r ∧ r.1.Sound ∧ r.1.drift = z.drift := by
  obtain ⟨O, hinv⟩ := h.inv
  have hunits : z.Inv (units (pages O)) := ⟨hinv.lists, hinv.partition.toUnits⟩
  obtain ⟨d, hd, htakes, -⟩ :=
    pcpCollect_spec env .unmovable (d := ⟨pcp, count, 0, []⟩) (n := count) hpcp.count_le (le_refl count)
  have hsub : (d.head ++ d.pcp.pages).Subperm pcp.pages := (drained_of_takes htakes).subperm
  have hmem : ∀ p ∈ d.head, p ∈ pcp.pages := fun p hp => hsub.subset (mem_append_left _ hp)
  have hnodup : d.head.Nodup := by
    obtain ⟨l, hperm, hsublist⟩ := hsub
    exact (nodup_append.mp (hperm.nodup_iff.mp (hpcp.nodup.sublist hsublist))).1
  obtain ⟨z', hz', hsound, hdrift⟩ := pcpFreeAll_drift hunits h.nrIsolatePageblock hnodup
    (fun p hp => ⟨p, hinv.mem_pages_iff.mpr ⟨(hpcp.inUse p (hmem p hp)).managed p (start_mem _),
      (hpcp.inUse p (hmem p hp)).not_free p (start_mem _)⟩, rfl⟩)
    (fun p hp => hpcp.type_ne p (hmem p hp))
  rw [freePcppagesBulk, hd]
  dsimp only
  rw [hz']
  exact ⟨_, rfl, hsound, hdrift⟩

end

/-! ### Histories -/

/-- A call, and what it finds. The type of a page on a per-cpu list is set when the page is put there. -/
inductive Op
  | rmqueue (env : Env) (order : ℕ) (mt : Migratetype) (flags : AllocFlags)
  | rmqueueBulk (env : Env) (order count : ℕ) (list : List ℕ) (mt : Migratetype) (flags : AllocFlags)
  | freeOnePage (b : Block) (mt : Migratetype)
  | freePcppagesBulk (env : Env) (count : ℕ) (pcp : PerCpuPages) (types : ℕ → Migratetype)

section
variable [Config]

/-- What the callers promise. -/
def Op.Allowed (z : Zone) : Op → Prop
  | .rmqueue _ order mt _ => 0 < order ∧ order < maxOrder ∧ mt.isPcp = true
  | .rmqueueBulk _ order _ _ mt _ => order < maxOrder ∧ mt.isPcp = true
  | .freeOnePage b mt => z.InUse b ∧ mt ≠ .isolate
  | .freePcppagesBulk _ count pcp types => pcp.Ready { z with pcppageMigratetype := types } count

/-- The zone after a call. -/
def Op.run (z : Zone) : Op → Except Fault Zone
  | .rmqueue env order mt flags => (PageAlloc.rmqueue env z order mt flags).map fst
  | .rmqueueBulk env order count list mt flags =>
    (PageAlloc.rmqueueBulk env z order count list mt flags).map fst
  | .freeOnePage b mt => .ok (PageAlloc.freeOnePage z b.start b.order mt)
  | .freePcppagesBulk env count pcp types =>
    (PageAlloc.freePcppagesBulk env { z with pcppageMigratetype := types } count pcp).map fst

/-- `check_new_pages` rejects nothing that `rmqueue` finds. -/
def Op.Accepts (z : Zone) : Op → Prop
  | .rmqueue env order mt flags => PageAlloc.Accepts env z order mt flags
  | .rmqueueBulk .. | .freeOnePage .. | .freePcppagesBulk .. => True

/-- The zone after some calls, each of which meets `ok`. -/
inductive Calls (ok : Zone → Op → Prop) : Zone → Prop
  | init {z} : z.Fresh → Calls ok z
  | step {z z'} (op : Op) : Calls ok z → op.Allowed z → ok z op → op.run z = .ok z' → Calls ok z'

variable {z : Zone} {op : Op}

theorem Zone.Fresh.sound (h : z.Fresh) : z.Sound :=
  ⟨⟨units managed, h.inv (tiling_units _) (pages_units _)⟩, h.nrIsolatePageblock⟩

/-- A call returns, and the counter gets ahead of the lists exactly when a block is rejected. -/
theorem Op.run_drift (h : z.Sound) (hop : op.Allowed z) : ∃ z', op.run z = .ok z' ∧ z'.Sound ∧
    (z'.drift = z.drift ↔ op.Accepts z) := by
  cases op with
  | rmqueue env order mt flags =>
    obtain ⟨r, k, hr, hsound, hdrift, hk⟩ := rmqueue_drift env order mt flags h
    refine ⟨r.1, by rw [Op.run, hr]; rfl, hsound, ?_⟩
    have hpow := Nat.two_pow_pos order
    have hzero : k * 2 ^ order = 0 ↔ k = 0 := by
      rw [mul_eq_zero, or_iff_left hpow.ne']
    rw [Op.Accepts, ← hk, ← hzero]
    omega
  | rmqueueBulk env order count list mt flags =>
    obtain ⟨r, hr, hsound, hdrift⟩ := rmqueueBulk_drift env order count list mt flags h
    exact ⟨r.1, by rw [Op.run, hr]; rfl, hsound, iff_of_true hdrift trivial⟩
  | freeOnePage b mt =>
    obtain ⟨hsound, hdrift⟩ := freeOnePage_drift h hop.1 hop.2
    exact ⟨_, rfl, hsound, iff_of_true hdrift trivial⟩
  | freePcppagesBulk env count pcp types =>
    obtain ⟨O, hinv⟩ := h.inv
    have hsound' : Sound { z with pcppageMigratetype := types } :=
      ⟨⟨O, hinv.of_eq rfl rfl rfl rfl⟩, h.nrIsolatePageblock⟩
    obtain ⟨r, hr, hsound, hdrift⟩ := freePcppagesBulk_drift env hsound' hop
    exact ⟨r.1, by rw [Op.run, hr]; rfl, hsound, iff_of_true hdrift trivial⟩

theorem Calls.sound {ok : Zone → Op → Prop} (h : Calls ok z) : z.Sound := by
  induction h with
  | init hfresh => exact hfresh.sound
  | step op _ hop _ hrun ih =>
    obtain ⟨z', hz', hsound, -⟩ := Op.run_drift ih hop
    obtain rfl := Except.ok.inj (hrun.symm.trans hz')
    exact hsound

/-- While nothing is rejected the counter equals the free pages on the lists, and any next call keeps it
    so exactly when it rejects nothing. -/
theorem calls_nrFreePages (h : Calls (fun z op => op.Accepts z) z) :
    z.nrFreePages = (∑ o ∈ range maxOrder, z.nrFree o * 2 ^ o : ℕ) ∧
    ∀ op : Op, op.Allowed z → ∃ z', op.run z = .ok z' ∧
    (z'.nrFreePages = (∑ o ∈ range maxOrder, z'.nrFree o * 2 ^ o : ℕ) ↔ op.Accepts z) := by
  have hzero : ∀ z : Zone, z.drift = 0 ↔
    z.nrFreePages = (∑ o ∈ range maxOrder, z.nrFree o * 2 ^ o : ℕ) :=
    fun _ => Int.sub_eq_zero
  have hdrift : z.drift = 0 := by
    induction h with
    | init hfresh =>
      rw [drift, hfresh.nrFreePages, hfresh.freePages]
      rfl
    | step op hcalls hop hok hrun ih =>
      obtain ⟨z', hz', -, hiff⟩ := Op.run_drift hcalls.sound hop
      obtain rfl := ok.inj (hrun.symm.trans hz')
      exact (hiff.mpr hok).trans ih
  refine ⟨(hzero z).mp hdrift, fun op hop => ?_⟩
  obtain ⟨z', hz', -, hiff⟩ := Op.run_drift h.sound hop
  refine ⟨z', hz', ?_⟩
  rw [← hzero, ← hiff, hdrift]

end

/-- The four pages freed as two blocks, which merge. -/
def mergedZone : Zone :=
  @freeOnePage fourPages (@freeOnePage fourPages emptyZone 0 1 .movable) 2 1 .movable

theorem calls_mergedZone (ok : Zone → Op → Prop) (hok : ∀ z b mt, ok z (.freeOnePage b mt)) :
    @Calls fourPages ok mergedZone := by
  let _ := fourPages
  have hcalls : Calls ok (freeOnePage emptyZone 0 1 .movable) :=
    .step (.freeOnePage ⟨0, 1⟩ .movable) (.init emptyZone_fresh)
      ⟨runs_emptyZone.inv.1.inUse (.inl rfl), by decide⟩ (hok ..) rfl
  refine .step (.freeOnePage ⟨2, 1⟩ .movable) hcalls ⟨?_, by decide⟩ (hok ..) rfl
  exact runs_halfFreed.inv.1.inUse ⟨.inr rfl, by simp⟩

/-- With no page rejected, half of the merged block is taken. -/
theorem calls_nrFreePages_half : mergedZone.nrFreePages = 4 ∧
    ∃ z, @Op.run fourPages mergedZone (.rmqueue quietEnv 1 .movable ⟨false, false⟩) = .ok z ∧
      z.nrFreePages = (∑ o ∈ range 3, z.nrFree o * 2 ^ o : ℕ) := by
  let _ := fourPages
  have hcalls := calls_mergedZone (fun z op => op.Accepts z) fun _ _ _ => trivial
  obtain ⟨z, hrun, hiff⟩ := (calls_nrFreePages hcalls).2 (.rmqueue quietEnv 1 .movable ⟨false, false⟩)
    ⟨by decide, by decide, rfl⟩
  refine ⟨by decide +kernel, z, hrun, hiff.mpr fun z' page _ => ?_⟩
  rw [checkNewPages, List.any_eq_false]
  exact fun _ _ => Bool.false_ne_true

/-- A request for two pages while page 0 fails the check. -/
def rejectingOp : Op := .rmqueue ⟨false, fun _ => false, fun p => p == 0⟩ 1 .movable ⟨false, false⟩

/-- Page 0 fails the check: the block at 0 is dropped and the block at 2 returned, but the counter is
    lowered for the second one only. -/
theorem calls_rejected : ∃ z, @Calls fourPages (fun _ _ => True) z ∧ z.nrFreePages = 2 ∧
    (∑ o ∈ range 3, z.nrFree o * 2 ^ o) = 0 := by
  let _ := fourPages
  have hcalls := calls_mergedZone (fun _ _ => True) fun _ _ _ => trivial
  have heval : (rejectingOp.run mergedZone).toOption.map
      (fun z => (z.nrFreePages, ∑ o ∈ range 3, z.nrFree o * 2 ^ o)) = some (2, 0) := by
    decide +kernel
  obtain ⟨z, hrun, hall⟩ := Outcome.exists_ok heval
  obtain ⟨hcount, hlists⟩ := mk.inj hall
  exact ⟨z, hcalls.step rejectingOp ⟨by decide, by decide, rfl⟩ trivial hrun, hcount, hlists⟩

end LinuxNote.PageAlloc
