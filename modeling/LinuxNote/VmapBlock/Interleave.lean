import LinuxNote.VmapBlock.Invariant

/-! Every step keeps the invariant and runs into none of the `BUG_ON`s, so both hold along every
    interleaving of `vb_alloc`, `vb_free` and `purge_fragmented_blocks`. -/

namespace LinuxNote.VmapBlock
open Function Nat List Option

variable {T C B : Type} [DecidableEq B] {s s' : State T C B} {t : T} {b b' : B} {vb : Block C}
  {a a' : Alloc B} {cpu : C} {p : Pc C B} {l : List B} {pages va : ℕ}

/-! ### Queues -/

omit [DecidableEq B] in
theorem nodup_append_singleton (hl : l.Nodup) (hb : b ∉ l) : (l ++ [b]).Nodup := by
  refine nodup_append.mpr ⟨hl, pairwise_singleton .., fun b' hb' b'' hb'' heq => ?_⟩
  rw [heq, mem_singleton.mp hb''] at hb'
  exact hb hb'

section
variable [DecidableEq C] {queue : C → List B} {cpu' : C}

theorem mem_listDel (hne : b' ≠ b) : b' ∈ listDel queue cpu b cpu' ↔ b' ∈ queue cpu' := by
  by_cases hcpu : cpu' = cpu
  · rw [hcpu, listDel, update_self, mem_erase_of_ne hne]
  · rw [listDel, update_of_ne hcpu]

theorem nodup_listDel (h : ∀ cpu, (queue cpu).Nodup) : (listDel queue cpu b cpu').Nodup := by
  by_cases hcpu : cpu' = cpu
  · rw [hcpu, listDel, update_self]
    exact (h cpu).erase b
  rw [listDel, update_of_ne hcpu]
  exact h cpu'

/-- A block is on one queue only. -/
theorem not_mem_listDel [Config] (h : Inv s) (hvb : s.blocks b = some vb) (hhome : vb.home = some cpu) :
    b ∉ listDel s.queue cpu b cpu' := by
  by_cases hcpu : cpu' = cpu
  · rw [hcpu, listDel, update_self, (h.queue_nodup cpu).mem_erase_iff]
    exact fun hmem => hmem.1 rfl
  rw [listDel, update_of_ne hcpu, (h.block b vb hvb).queue, hhome]
  exact fun hmem => hcpu (some.inj hmem.1).symm

end

/-! ### Steps that change a block -/

section
variable [DecidableEq T] [Config]

/-- `vb_alloc` takes pages of a block. -/
theorem Inv.tryBlock [DecidableEq C] (h : Inv s) (hpc : s.pc t = .walk cpu pages)
    (hvb : s.blocks b = some vb) (hhome : vb.home = some cpu) : ∃ s', tryBlock s t cpu pages b vb =
      .ok s' ∧ Inv s' := by
  rw [VmapBlock.tryBlock]
  by_cases hfull : vb.free < rounded pages
  · exact ⟨s, if_pos hfull, h⟩
  rw [if_neg hfull]
  have hblock := h.block b vb hvb
  have haccount := hblock.account
  have hpos := rounded_pos pages
  have hdirty : vb.dirty ≠ bbmapBits := by omega
  have hne : vb.home ≠ none := by
    rw [hhome]
    exact some_ne_none cpu
  have htree := hblock.linked hne hdirty
  have hown := h.not_owned hvb hne hdirty
  have hoff : bbmapBits - vb.free < bbmapBits := by omega
  rw [vmapBlockVaddr_eq hblock.dvd hblock.start_le hoff]
  refine ⟨_, rfl, h.step hpc (p := .idle) (b := b) ?_ ?_ ?_⟩
  · refine ⟨fun b' hb => update_of_ne hb .., fun _ _ _ => .rfl, fun cpu' b' hb => ?_,
      fun _ _ _ _ _ hin => hin, fun _ _ => .rfl, fun a ha => ?_, fun b' hb => ?_, rfl, nofun, nofun⟩
    · dsimp only
      split_ifs
      · exact mem_listDel hb
      · rfl
    · rw [mem_cons]
      exact or_iff_right fun heq => ha (heq ▸ rfl)
    · rw [livePages_cons, if_neg hb.symm, zero_add]
  · refine .of_update h hvb (update_self ..) rfl (fun _ => h.tree_at hvb) rfl id
      ?_ (fun a ha hb => ?_) ?_ fun cpu' => ?_
    · refine ⟨hblock.dvd, hblock.start_le, ?_, hblock.inUse, fun _ _ => htree, fun cpu' => ?_,
        fun hd => absurd hd hdirty⟩
      · rw [livePages_cons, if_pos rfl]
        dsimp only
        omega
      dsimp only
      split_ifs with hzero
      · exact iff_of_false (not_mem_listDel h hvb hhome) fun hmem => by omega
      rw [hblock.queue cpu']
      exact and_congr_right fun _ => by omega
    · rcases mem_cons.mp ha with rfl | ha
      · refine ⟨?_, ?_, .inl htree⟩
        · rw [offset_add hblock.dvd hoff]
        rw [offset_add hblock.dvd hoff]
        dsimp only
        omega
      have hok := h.alloc_at ha hb hvb
      refine ⟨hok.addr, ?_, .inl (hb ▸ htree)⟩
      have := hok.below
      dsimp only
      omega
    · refine pairwise_cons.mpr ⟨fun a ha heq => .inr ?_, h.disjoint⟩
      have hok := h.alloc_at ha heq.symm hvb
      have := hok.below
      rw [offset_add hblock.dvd hoff]
      omega
    dsimp only
    split_ifs
    · exact nodup_listDel h.queue_nodup
    · exact h.queue_nodup cpu'
  · exact ⟨rolesOn_idle, fun t' _ => h.roles_of_not_owns (hown t') fun a _ _ ha => mem_cons_of_mem _ ha,
      fun b' _ => rolesOn_idle, nodup_nil, nofun, nodup_nil, nofun⟩

/-- `new_vmap_block` fills in a block in a range that nobody uses. -/
theorem Inv.newVmapBlock (h : Inv s) (hpc : s.pc t = .walk cpu pages) (hb : s.blocks b = none)
    (hdvd : blockSize ∣ va) (hle : vmallocStart ≤ va) (huse : s.inUse va = false) :
    ∃ s', newVmapBlock s t pages b va = .ok s' ∧ Inv s' := by
  have hge := bbmapBits_ge
  have hsmall := rounded_le ((h.roles t b).pages cpu pages hpc).2
  have hlive : ∀ a ∈ s.live, a.block ≠ b := by
    rintro a ha rfl
    obtain ⟨vb, hvb, -⟩ := h.alloc a ha
    cases hb.symm.trans hvb
  have hrel : b ∉ s.released := by
    intro hmem
    obtain ⟨vb, hvb, -⟩ := h.released b hmem
    cases hb.symm.trans hvb
  have htree : ∀ i, s.tree i ≠ some b := by
    intro i hi
    obtain ⟨vb, hvb, -⟩ := h.tree i b hi
    cases hb.symm.trans hvb
  have hown : ∀ t', b ∉ (s.pc t').owns := by
    intro t' hmem
    obtain ⟨vb, hvb, -⟩ := h.owned hmem
    cases hb.symm.trans hvb
  have hqueue : ∀ cpu', b ∉ s.queue cpu' := by
    intro cpu' hmem
    obtain ⟨vb, hvb⟩ := h.queue_mem cpu' b hmem
    cases hb.symm.trans hvb
  rw [VmapBlock.newVmapBlock, vmapBlockVaddr_eq hdvd hle (by omega), zero_mul, add_zero]
  dsimp only
  rw [if_neg (by omega)]
  refine ⟨_, rfl, h.step hpc (p := .insert ⟨b, va, pages⟩) (b := b) ?_ ?_ ?_⟩
  · refine ⟨fun b' hne => update_of_ne hne .., fun _ _ _ => .rfl, fun _ _ _ => .rfl,
      fun b' _ vb _ _ hin => ?_, fun _ _ => .rfl, fun a ha => ?_, fun b' hne => ?_, rfl, nofun, nofun⟩
    · by_cases hva : vb.vaStart = va
      · rw [hva]
        exact update_self ..
      · exact (update_of_ne hva ..).trans hin
    · rw [mem_cons]
      exact or_iff_right fun heq => ha (heq ▸ rfl)
    · rw [livePages_cons, if_neg hne.symm, zero_add]
  · refine ⟨fun vb hvb => ?_, fun a ha heq => ⟨_, update_self .., ?_⟩, ?_,
      fun i hi => absurd hi (htree i), fun b' vb vb' hne hvb hvb' _ hrel' heq => ?_, h.queue_nodup,
      fun cpu' hmem => absurd hmem (hqueue cpu'), fun hmem => absurd hmem hrel, h.released_nodup⟩
    · obtain rfl := some.inj ((update_self b _ s.blocks).symm.trans hvb)
      refine ⟨hdvd, hle, ?_, fun _ => update_self .., fun hhome => absurd rfl hhome, fun cpu' => ?_,
        fun hd => ?_⟩
      · rw [livePages_cons, if_pos rfl, livePages_eq_zero hlive]
        dsimp only
        omega
      · exact iff_of_false (hqueue cpu') nofun
      · dsimp only at hd
        omega
    · rcases mem_cons.mp ha with rfl | ha
      · have hoff : offset va = 0 := by
          have := offset_add hdvd (show 0 < bbmapBits by omega)
          rwa [zero_mul, add_zero] at this
        refine ⟨?_, ?_, .inr ⟨t, update_self ..⟩⟩
        · rw [hoff, zero_mul, add_zero]
        rw [hoff]
        dsimp only
        omega
      · exact absurd heq (hlive a ha)
    · exact pairwise_cons.mpr ⟨fun a ha heq => absurd heq.symm (hlive a ha), h.disjoint⟩
    obtain rfl := some.inj ((update_self b _ s.blocks).symm.trans hvb)
    have hin := (h.block b' vb' hvb').inUse hrel'
    rw [← heq, huse] at hin
    cases hin
  refine ⟨?_, fun t' _ => h.roles_of_not_owns (hown t') fun a _ _ ha => mem_cons_of_mem _ ha,
    fun b' hne => rolesOn_of_not_owns ?_ (fun a ha heq => ?_) nofun nofun, pairwise_singleton ..,
    fun a ha => .inr ?_, pairwise_singleton .., fun b' hmem => .inr ?_⟩
  · refine ⟨fun a ha _ => ?_, nofun, nofun, fun a _ _ => ⟨htree, _, update_self .., rfl, ?_⟩, nofun,
      nofun, nofun⟩
    · rw [mem_singleton.mp ha]
      exact mem_cons_self
    dsimp only
    omega
  · exact fun hmem => hne (mem_singleton.mp hmem)
  · rw [mem_singleton.mp ha] at heq
    exact absurd heq.symm hne
  · rw [mem_singleton.mp ha]
    exact fun t' hmem => hlive _ ((h.roles t' b).live _ hmem rfl) rfl
  · rw [mem_singleton.mp hmem]
    exact hown

omit [DecidableEq T] in
/-- The other threads, when the block belongs to the thread that takes the step. -/
theorem Inv.roles_others (h : Inv s) (hown : b ∈ (s.pc t).owns) (hlive : s'.live = s.live) (t' : T)
    (htt : t' ≠ t) : RolesOn s' b (s.pc t') :=
  h.roles_of_not_owns (fun hmem => htt (h.owns.unique t' t b hmem hown)) fun _ _ _ ha => hlive ▸ ha

/-- `new_vmap_block` puts the block into the tree, where nothing has its index. -/
theorem Inv.insertBlock (h : Inv s) (hpc : s.pc t = .insert a) (hvb : s.blocks a.block = some vb) :
    ∃ s', insertBlock s t a vb = .ok s' ∧ Inv s' := by
  have hroles := h.roles t a.block
  rw [hpc] at hroles
  have hown : a.block ∈ (s.pc t).owns := hpc ▸ mem_cons_self
  have ha := hroles.live a mem_cons_self rfl
  have hrel := h.live_not_released ha
  have hblock := h.block _ vb hvb
  have hdirty := (h.dirty_lt ha hvb).ne
  obtain ⟨hno, vb', hvb', hhome, hfree⟩ := hroles.insert a rfl rfl
  obtain rfl := mem_unique hvb hvb'
  have hnone : s.tree (addrToVbIdx vb.vaStart) = none := by
    refine eq_none_iff_forall_ne_some.mpr fun b hb => ?_
    obtain ⟨vb', hvb', hidx, hrel'⟩ := h.tree _ b hb
    have hblock' := h.block b vb' hvb'
    have hva := addrToVbIdx_inj hblock.dvd hblock'.dvd hblock.start_le hblock'.start_le hidx
    rw [← h.distinct _ _ vb vb' hvb hvb' hrel hrel' hva] at hb
    exact hno _ hb
  rw [VmapBlock.insertBlock, hnone]
  refine ⟨_, rfl, h.step hpc (p := .enqueue a) (b := a.block) ?_ ?_ ?_⟩
  · refine ⟨fun _ _ => rfl, fun i b' hne => ?_, fun _ _ _ => .rfl, fun _ _ _ _ _ hin => hin,
      fun _ _ => .rfl, fun _ _ => .rfl, fun _ _ => rfl, rfl,
      fun b' hne hmem => absurd (mem_singleton.mp hmem) hne, ?_⟩
    · dsimp only
      by_cases hi : i = addrToVbIdx vb.vaStart
      · rw [hi, update_self, hnone]
        exact iff_of_false (fun heq => hne (some.inj heq).symm) nofun
      · rw [update_of_ne hi]
    · rintro a' ⟨⟩
      rfl
  · refine .of_update h hvb hvb rfl (fun i hi => ⟨?_, hrel⟩) rfl id { hblock with
      linked := fun _ _ => update_self .., duty := fun hd => absurd hd hdirty } (fun a' ha' heq => ?_)
      h.disjoint h.queue_nodup
    · dsimp only at hi
      by_contra hne
      rw [update_of_ne hne] at hi
      exact hno i hi
    · have hok := h.alloc_at ha' heq hvb
      exact ⟨hok.addr, hok.below, .inl (heq ▸ update_self ..)⟩
  refine ⟨⟨fun a' ha' _ => ?_, nofun, nofun, nofun, fun _ _ _ => ⟨vb, hvb, hhome, hfree, update_self ..⟩,
    nofun, nofun⟩, h.roles_others hown rfl,
    fun b' hne => rolesOn_of_not_owns ?_ (fun a' ha' heq => ?_) nofun nofun, pairwise_singleton ..,
    fun _ => .inl, pairwise_singleton .., fun _ => .inl⟩
  · rw [mem_singleton.mp ha']
    exact ha
  · exact fun hmem => hne (mem_singleton.mp hmem)
  rw [mem_singleton.mp ha'] at heq
  exact absurd heq.symm hne

/-- `new_vmap_block` puts the block on a queue. -/
theorem Inv.enqueueBlock [DecidableEq C] (h : Inv s) (hpc : s.pc t = .enqueue a)
    (hvb : s.blocks a.block = some vb) : Inv (enqueueBlock s t cpu a vb) := by
  have hroles := h.roles t a.block
  rw [hpc] at hroles
  have hown : a.block ∈ (s.pc t).owns := hpc ▸ mem_cons_self
  have ha := hroles.live a mem_cons_self rfl
  have hblock := h.block _ vb hvb
  have hdirty := (h.dirty_lt ha hvb).ne
  obtain ⟨vb', hvb', hhome, hfree, htree⟩ := hroles.enqueue a rfl rfl
  obtain rfl := mem_unique hvb hvb'
  have hqueue : ∀ cpu', a.block ∉ s.queue cpu' := by
    intro cpu' hmem
    rw [hblock.queue, hhome] at hmem
    cases hmem.1
  refine h.step hpc (p := .idle) (b := a.block) ?_ ?_ ?_
  · refine ⟨fun b' hne => update_of_ne hne .., fun _ _ _ => .rfl, fun cpu' b' hne => ?_,
      fun _ _ _ _ _ hin => hin, fun _ _ => .rfl, fun _ _ => .rfl, fun _ _ => rfl, rfl,
      fun b' hne hmem => absurd (mem_singleton.mp hmem) hne, nofun⟩
    dsimp only [VmapBlock.enqueueBlock]
    by_cases hcpu : cpu' = cpu
    · rw [hcpu, update_self, mem_append, mem_singleton]
      exact or_iff_left hne
    · rw [update_of_ne hcpu]
  · refine .of_update h hvb (update_self ..) rfl (fun _ => h.tree_at hvb) rfl id
      ?_ (fun a' ha' heq => ?_) h.disjoint fun cpu' => ?_
    · refine { hblock with
        linked := fun _ _ => htree, queue := fun cpu' => ?_, duty := fun hd => absurd hd hdirty }
      dsimp only [VmapBlock.enqueueBlock]
      by_cases hcpu : cpu' = cpu
      · rw [hcpu, update_self]
        exact iff_of_true (mem_append_right _ mem_cons_self) ⟨rfl, hfree⟩
      rw [update_of_ne hcpu]
      exact iff_of_false (hqueue cpu') fun hmem => hcpu (some.inj hmem.1).symm
    · have hok := h.alloc_at ha' heq hvb
      exact ⟨hok.addr, hok.below, .inl (heq ▸ htree)⟩
    dsimp only [VmapBlock.enqueueBlock]
    by_cases hcpu : cpu' = cpu
    · rw [hcpu, update_self]
      exact nodup_append_singleton (h.queue_nodup cpu) (hqueue cpu)
    rw [update_of_ne hcpu]
    exact h.queue_nodup cpu'
  · exact ⟨rolesOn_idle, h.roles_others hown rfl, fun _ _ => rolesOn_idle, nodup_nil, nofun,
      nodup_nil, nofun⟩

/-- Where `vb_free` goes on. -/
def afterCount (vb : Block C) (a : Alloc B) : Pc C B :=
  if (vb.count a).dirty = bbmapBits then .draining [a.block] else .idle

section
variable (h : Inv s) (hpc : s.pc t = .freeing a.block a) (hvb : s.blocks a.block = some vb)
include h hpc hvb

omit [DecidableEq T] hvb in
theorem Inv.freeing_live : a ∈ s.live := by
  have hroles := h.roles t a.block
  rw [hpc] at hroles
  exact hroles.live a mem_cons_self rfl

omit [DecidableEq T] hvb in
/-- The allocations of the other threads stay. -/
theorem Inv.freeing_stay {t' : T} (htt : t' ≠ t) (ha' : a' ∈ (s.pc t').allocs) (hlive : a' ∈ s.live) :
    a' ∈ s.live.erase a := by
  refine (mem_erase_of_ne fun heq => htt ?_).mpr hlive
  rw [heq] at ha'
  refine h.allocs.unique t' t a ha' ?_
  rw [hpc]
  exact mem_cons_self

omit [DecidableEq T] in
theorem Inv.freeing_tree : s.tree (addrToVbIdx vb.vaStart) = some a.block := by
  refine (h.alloc_at (h.freeing_live hpc) rfl hvb).linked.resolve_right fun ⟨t', hins⟩ => ?_
  have hheld : a ∈ (s.pc t').allocs := by
    rw [hins]
    exact mem_cons_self
  have hheld' : a ∈ (s.pc t).allocs := by
    rw [hpc]
    exact mem_cons_self
  rw [h.allocs.unique t' t a hheld hheld', hpc] at hins
  cases hins

omit [DecidableEq T] in
/-- The counters, and what is left of the allocations. -/
theorem Inv.freeing_account :
    vb.free + (vb.count a).dirty + livePages (s.live.erase a) a.block = bbmapBits := by
  have haccount := (h.block _ vb hvb).account
  have hpages := livePages_erase (h.freeing_live hpc) a.block
  rw [if_pos rfl] at hpages
  dsimp only [Block.count]
  omega

omit [DecidableEq T] in
/-- When all pages are dirty, nobody else works on the block. -/
theorem Inv.freeing_last (hfull : (vb.count a).dirty = bbmapBits) (t' : T) :
    a.block ∉ (s.pc t').owns := by
  intro hown
  have haccount := h.freeing_account hpc hvb
  have hdirty := (h.dirty_lt (h.freeing_live hpc) hvb).ne
  obtain ⟨vb', hvb', hor⟩ := h.owned hown
  obtain rfl := mem_unique hvb hvb'
  rcases hor with hd | ⟨-, a', ha', hblock⟩
  · exact hdirty hd
  have htt : t' ≠ t := by
    rintro rfl
    rw [hpc] at hown
    cases hown
  have hlive := h.freeing_stay hpc htt ha' ((h.roles t' a.block).live a' ha' hblock)
  have hle := rounded_le_livePages hlive
  rw [hblock] at hle
  have hpos := rounded_pos a'.pages
  omega

/-- The pages are counted; the thread has to release the block when all of them are dirty. -/
theorem Inv.counted : Inv (({ s with
    blocks := update s.blocks a.block (some (vb.count a))
    live := s.live.erase a } : State T C B).goto t (afterCount vb a)) := by
  have ha := h.freeing_live hpc
  have hblock := h.block _ vb hvb
  have hdirty := (h.dirty_lt ha hvb).ne
  have hrel := h.live_not_released ha
  have htree := h.freeing_tree hpc hvb
  refine h.step hpc (p := afterCount vb a) (b := a.block) ?_ ?_ ?_
  · refine ⟨fun b' hne => update_of_ne hne .., fun _ _ _ => .rfl, fun _ _ _ => .rfl,
      fun _ _ _ _ _ hin => hin, fun _ _ => .rfl, fun a' hne => ?_, fun b' hne => ?_, rfl, nofun, nofun⟩
    · exact mem_erase_of_ne fun heq => hne (heq ▸ rfl)
    have hpages := livePages_erase ha b'
    rwa [if_neg hne.symm, zero_add] at hpages
  · refine .of_update h hvb (update_self ..) rfl (fun _ => h.tree_at hvb) rfl
      (fun hd => absurd hd hdirty) ?_ (fun a' ha' heq => ?_) (h.disjoint.sublist erase_sublist)
      h.queue_nodup
    · refine ⟨hblock.dvd, hblock.start_le, h.freeing_account hpc hvb, hblock.inUse, fun _ _ => htree,
        hblock.queue, fun hfull _ => ⟨t, ?_⟩⟩
      rw [goto_pc_self, afterCount, if_pos hfull]
      exact mem_cons_self
    · have hok := h.alloc_at (mem_of_mem_erase ha') heq hvb
      exact ⟨hok.addr, hok.below, .inl (heq ▸ htree)⟩
  have hallocs : (afterCount vb a : Pc C B).allocs = [] := by
    rw [afterCount]
    split_ifs
    · rfl
    · rfl
  refine ⟨?_, fun t' htt => ?_, fun b' hne => ?_, hallocs ▸ nodup_nil, fun a' ha' => ?_, ?_,
    fun b' hmem => ?_⟩
  · rw [afterCount]
    split_ifs with hfull
    · exact ⟨nofun, nofun, nofun, nofun, nofun,
        fun _ => ⟨hrel, vb.count a, update_self .., hfull, htree⟩, nofun⟩
    · exact rolesOn_idle
  · have hroles := h.roles t' a.block
    refine ⟨fun a' ha' heq => h.freeing_stay hpc htt ha' (hroles.live a' ha' heq), hroles.pages,
      hroles.freeing, fun a' ha' heq => ?_, fun a' ha' heq => ?_, fun hw => ?_, fun l hl => ?_⟩
    · exact absurd htree ((hroles.insert a' ha' heq).1 _)
    · obtain ⟨vb', hvb', hhome, hfree, -⟩ := hroles.enqueue a' ha' heq
      obtain rfl := mem_unique hvb hvb'
      exact ⟨vb.count a, update_self .., hhome, hfree, htree⟩
    · obtain ⟨-, vb', hvb', hd, -⟩ := hroles.waiting hw
      obtain rfl := mem_unique hvb hvb'
      exact absurd hd hdirty
    obtain ⟨-, -, vb', hvb', hd⟩ := hroles.leaving l hl
    obtain rfl := mem_unique hvb hvb'
    exact absurd hd hdirty
  · rw [afterCount]
    split_ifs
    · exact rolesOn_of_not_owns (fun hmem => hne (mem_singleton.mp hmem)) nofun nofun nofun
    · exact rolesOn_idle
  · rw [hallocs] at ha'
    cases ha'
  · rw [afterCount]
    split_ifs
    · exact pairwise_singleton ..
    · exact nodup_nil
  · rw [afterCount] at hmem
    split_ifs at hmem with hfull
    · obtain rfl := mem_singleton.mp hmem
      exact .inr (h.freeing_last hpc hvb hfull)
    · cases hmem

end

/-- `BUG_ON(vb->free)` is not reached. -/
theorem Inv.freePages (h : Inv s) (hpc : s.pc t = .freeing b a) (hvb : s.blocks b = some vb) :
    ∃ s', freePages s t b a vb = .ok s' ∧ Inv s' := by
  have hroles := h.roles t b
  rw [hpc] at hroles
  obtain rfl := hroles.freeing b a rfl
  refine ⟨_, ?_, h.counted hpc hvb⟩
  have haccount := h.freeing_account hpc hvb
  rw [VmapBlock.freePages, afterCount]
  split_ifs with hfull hfree
  · omega
  · rfl
  · rfl

/-- `purge_fragmented_blocks` takes over a block of which nothing is in use. -/
theorem Inv.tryPurge [DecidableEq C] (h : Inv s) (hpc : s.pc t = .purging cpu l)
    (hvb : s.blocks b = some vb) (hhome : vb.home = some cpu) : Inv (tryPurge s t cpu l b vb) := by
  rw [VmapBlock.tryPurge]
  split_ifs with hcond
  swap
  · exact h
  have hblock := h.block b vb hvb
  have haccount := hblock.account
  have hne : vb.home ≠ none := by
    rw [hhome]
    exact some_ne_none cpu
  have htree := hblock.linked hne hcond.2
  have hrel := h.not_released hvb hcond.2
  have hown := h.not_owned hvb hne hcond.2
  have hlive : ∀ a ∈ s.live, a.block ≠ b := by
    rintro a ha rfl
    have hle := rounded_le_livePages ha
    have hpos := rounded_pos a.pages
    omega
  have hroles := h.roles t
  rw [hpc] at hroles
  have hnodup := h.owns.nodup t
  rw [hpc] at hnodup
  have hnot : b ∉ l := by
    have := hown t
    rwa [hpc] at this
  refine h.step hpc (p := .purging cpu (l ++ [b])) (b := b) ?_ ?_ ?_
  · exact ⟨fun b' hb => update_of_ne hb .., fun _ _ _ => .rfl, fun cpu' b' hb => mem_listDel hb,
      fun _ _ _ _ _ hin => hin, fun _ _ => .rfl, fun _ _ => .rfl, fun _ _ => rfl, rfl,
      fun b' _ => mem_append_left _, nofun⟩
  · refine .of_update h hvb (update_self ..) rfl (fun _ => h.tree_at hvb) rfl
      (fun _ => rfl) ?_ (fun a ha heq => absurd heq (hlive a ha)) h.disjoint fun cpu' =>
      nodup_listDel h.queue_nodup
    refine ⟨hblock.dvd, hblock.start_le, ?_, hblock.inUse, fun _ hd => absurd rfl hd, fun cpu' => ?_,
      fun _ _ => ⟨t, ?_⟩⟩
    · dsimp only
      omega
    · exact iff_of_false (not_mem_listDel h hvb hhome) fun hmem => absurd hmem.2 (lt_irrefl 0)
    dsimp only
    rw [update_self]
    exact mem_append_right _ mem_cons_self
  refine ⟨⟨nofun, nofun, nofun, nofun, nofun, fun _ => ⟨hrel, _, update_self .., rfl, htree⟩, nofun⟩,
    fun t' _ => h.roles_of_not_owns (hown t') fun _ _ _ ha => ha, fun b' hb => ?_, nodup_nil, nofun,
    nodup_append_singleton hnodup hnot, fun b' hmem => ?_⟩
  · refine ⟨nofun, nofun, nofun, nofun, nofun, fun hmem => (hroles b').waiting ?_, nofun⟩
    exact (mem_append.mp hmem).resolve_right fun heq => hb (mem_singleton.mp heq)
  rcases mem_append.mp hmem with hmem | heq
  · exact .inl hmem
  rw [mem_singleton.mp heq]
  exact .inr hown

/-- `BUG_ON(tmp != vb)` is not reached. -/
theorem Inv.unlinkBlock (h : Inv s) (hpc : s.pc t = .draining (b :: l)) (hvb : s.blocks b = some vb) :
    ∃ s', unlinkBlock s t b l vb = .ok s' ∧ Inv s' := by
  have hroles := h.roles t
  rw [hpc] at hroles
  have hown : b ∈ (s.pc t).owns := hpc ▸ mem_cons_self
  have hnodup := h.owns.nodup t
  rw [hpc] at hnodup
  obtain ⟨hrel, vb', hvb', hdirty, htree⟩ := (hroles b).waiting mem_cons_self
  obtain rfl := mem_unique hvb hvb'
  have hblock := h.block b vb hvb
  rw [VmapBlock.unlinkBlock, if_neg (not_not.mpr htree)]
  have hno : ∀ i, update s.tree (addrToVbIdx vb.vaStart) none i ≠ some b := by
    intro i hi
    by_cases heq : i = addrToVbIdx vb.vaStart
    · rw [heq, update_self] at hi
      cases hi
    rw [update_of_ne heq] at hi
    exact heq (h.tree_at hvb hi).1
  refine ⟨_, rfl, h.step hpc (p := .releasing b l) (b := b) ?_ ?_ ?_⟩
  · refine ⟨fun _ _ => rfl, fun i b' hne => ?_, fun _ _ _ => .rfl, fun _ _ _ _ _ hin => hin,
      fun _ _ => .rfl, fun _ _ => .rfl, fun _ _ => rfl, rfl, fun _ _ hmem => hmem, nofun⟩
    dsimp only
    by_cases hi : i = addrToVbIdx vb.vaStart
    · rw [hi, update_self, htree]
      exact iff_of_false nofun fun heq => hne (some.inj heq).symm
    · rw [update_of_ne hi]
  · refine .of_update h hvb hvb rfl (fun i hi => absurd hi (hno i)) rfl id ⟨hblock.dvd, hblock.start_le,
      hblock.account, hblock.inUse, fun _ hd => absurd hdirty hd, hblock.queue, fun _ _ => ⟨t, ?_⟩⟩
      (fun a ha heq => ?_) h.disjoint h.queue_nodup
    · dsimp only
      rw [update_self]
      exact mem_cons_self
    · rw [← heq] at hvb
      exact absurd hdirty (h.dirty_lt ha hvb).ne
  refine ⟨⟨nofun, nofun, nofun, nofun, nofun, fun hmem => absurd hmem (nodup_cons.mp hnodup).1,
    fun _ _ => ⟨hrel, hno, vb, hvb, hdirty⟩⟩, h.roles_others hown rfl, fun b' hne => ?_, nodup_nil,
    nofun, hnodup, fun _ => .inl⟩
  refine ⟨nofun, nofun, nofun, nofun, nofun, fun hmem => (hroles b').waiting (mem_cons_of_mem _ hmem),
    ?_⟩
  rintro l' ⟨⟩
  exact absurd rfl hne

/-- `free_vmap_block` gives the range back. -/
theorem Inv.releaseBlock (h : Inv s) (hpc : s.pc t = .releasing b l) (hvb : s.blocks b = some vb) :
    Inv (releaseBlock s t b l vb) := by
  have hroles := h.roles t
  rw [hpc] at hroles
  have hown : b ∈ (s.pc t).owns := hpc ▸ mem_cons_self
  have hnodup := h.owns.nodup t
  rw [hpc] at hnodup
  obtain ⟨hrel, hno, vb', hvb', hdirty⟩ := (hroles b).leaving l rfl
  obtain rfl := mem_unique hvb hvb'
  have hblock := h.block b vb hvb
  refine h.step hpc (p := .draining l) (b := b) ?_ ?_ ?_
  · refine ⟨fun _ _ => rfl, fun _ _ _ => .rfl, fun _ _ _ => .rfl, fun b' hne vb' hvb' hrel' hin => ?_,
      fun b' hne => mem_cons.trans (or_iff_right hne), fun _ _ => .rfl, fun _ _ => rfl, rfl,
      fun b' hne hmem => (mem_cons.mp hmem).resolve_left hne, nofun⟩
    have hva : vb'.vaStart ≠ vb.vaStart :=
      fun heq => hne (h.distinct b' b vb' vb hvb' hvb hrel' hrel heq)
    exact (update_of_ne hva ..).trans hin
  · have hmem : b ∈ (VmapBlock.releaseBlock s t b l vb).released := mem_cons_self
    refine ⟨fun vb' hvb' => ?_, fun a ha heq => ?_, h.disjoint, fun i hi => absurd hi (hno i),
      fun _ _ _ _ _ _ hrel' => absurd hmem hrel', h.queue_nodup, fun _ _ => ⟨vb, hvb⟩,
      fun _ => ⟨vb, hvb, hdirty⟩, nodup_cons.mpr ⟨hrel, h.released_nodup⟩⟩
    · obtain rfl := mem_unique hvb hvb'
      exact { hblock with
        inUse := fun hrel' => absurd hmem hrel', duty := fun _ hrel' => absurd hmem hrel' }
    · rw [← heq] at hvb
      exact absurd hdirty (h.dirty_lt ha hvb).ne
  have hnot := (nodup_cons.mp hnodup).1
  exact ⟨rolesOn_of_not_owns hnot nofun nofun nofun, h.roles_others hown rfl,
    fun b' _ => ⟨nofun, nofun, nofun, nofun, nofun, (hroles b').waiting, nofun⟩, nodup_nil, nofun,
    (nodup_cons.mp hnodup).2, fun _ hmem => .inl (mem_cons_of_mem _ hmem)⟩

/-! ### Interleavings -/

omit [DecidableEq T] in
theorem inv_init : Inv (.init T C B) :=
  ⟨nofun, nofun, .nil, nofun, nofun, fun _ => nodup_nil, nofun, nofun, nodup_nil,
    fun _ _ => rolesOn_idle, ⟨fun _ => nodup_nil, nofun⟩, ⟨fun _ => nodup_nil, nofun⟩⟩

/-- A step reaches none of the `BUG_ON`s and keeps the invariant. -/
theorem Inv.next [DecidableEq C] {x : Except Bug (State T C B)} (h : Inv s) (hstep : Step s t x) :
    ∃ s', x = .ok s' ∧ Inv s' := by
  cases hstep with
  | alloc cpu hpc hpos hle =>
    refine ⟨_, rfl, h.goto_plain (by rw [hpc]; rfl) (by rw [hpc]; rfl) rfl fun b => ?_⟩
    refine rolesOn_of_not_owns nofun nofun ?_ nofun
    rintro _ _ ⟨⟩
    exact ⟨hpos, hle⟩
  | look hpc hvb hhome => exact h.tryBlock hpc hvb hhome
  | create hpc hb hdvd hle huse => exact h.newVmapBlock hpc hb hdvd hle huse
  | noMemory hpc =>
    exact ⟨_, rfl, h.goto_plain (by rw [hpc]; rfl) (by rw [hpc]; rfl) rfl fun _ => rolesOn_idle⟩
  | insert hpc hvb => exact h.insertBlock hpc hvb
  | enqueue cpu hpc hvb => exact ⟨_, rfl, h.enqueueBlock hpc hvb⟩
  | free hpc ha hheld => exact h.lookup hpc ha hheld
  | count hpc hvb => exact h.freePages hpc hvb
  | purge cpu hpc =>
    exact ⟨_, rfl, h.goto_plain (by rw [hpc]; rfl) (by rw [hpc]; rfl) rfl fun _ =>
      rolesOn_of_not_owns nofun nofun nofun nofun⟩
  | collect hpc hvb hhome => exact ⟨_, rfl, h.tryPurge hpc hvb hhome⟩
  | drain hpc =>
    refine ⟨_, rfl, h.goto_plain (by rw [hpc]; rfl) (by rw [hpc]; rfl) rfl fun b => ?_⟩
    have hroles := h.roles t b
    rw [hpc] at hroles
    exact ⟨nofun, nofun, nofun, nofun, nofun, hroles.waiting, nofun⟩
  | unlink hpc hvb => exact h.unlinkBlock hpc hvb
  | release hpc hvb => exact ⟨_, rfl, h.releaseBlock hpc hvb⟩
  | done hpc =>
    exact ⟨_, rfl, h.goto_plain (by rw [hpc]; rfl) (by rw [hpc]; rfl) rfl fun _ => rolesOn_idle⟩

theorem Reachable.inv [DecidableEq C] (h : Reachable s) : Inv s := by
  induction h with
  | init => exact inv_init
  | step _ hstep ih =>
    obtain ⟨s', heq, hinv⟩ := ih.next hstep
    cases heq
    exact hinv

/-- The state after a step. -/
theorem Reachable.next [DecidableEq C] {x : Except Bug (State T C B)} (h : Reachable s)
    (hstep : Step s t x) : Reachable (x.toOption.getD s) := by
  obtain ⟨s', rfl, -⟩ := h.inv.next hstep
  exact h.step hstep

omit [DecidableEq B] [DecidableEq T] [Config] in
/-- A thread that is going to release a block owns it and works on no allocation. -/
theorem Pc.owns_of_duties (hmem : b ∈ p.duties) : b ∈ p.owns ∧ p.allocs = [] := by
  cases p with
  | purging cpu l | draining l | releasing b' l => exact ⟨hmem, rfl⟩
  | _ => cases hmem

omit [DecidableEq B] [DecidableEq T] [Config] in
theorem Pc.duties_of_owns (hmem : b ∈ p.owns) : b ∈ p.duties ∨ ∃ a ∈ p.allocs, a.block = b := by
  cases p with
  | insert a | enqueue a => exact .inr ⟨a, mem_cons_self, (mem_singleton.mp hmem).symm⟩
  | purging cpu l | draining l | releasing b' l => exact .inl hmem
  | _ => cases hmem

/-- For every block, the free, the dirty and the used pages add up; the allocations of a block do not
    overlap; no step of any thread reaches a `BUG_ON`; the range of a block is given back at most once,
    only when nothing of it is in use, and once all pages are dirty exactly one thread is about to do
    so. -/
theorem reachable_blocks [DecidableEq C] (h : Reachable s) :
    (∀ b vb, s.blocks b = some vb → vb.free + vb.dirty + livePages s.live b = bbmapBits) ∧
    s.live.Pairwise Alloc.Disjoint ∧ (∀ t x, Step s t x → ∃ s', x = .ok s') ∧ s.released.Nodup ∧
    (∀ b, (b ∈ s.released ∨ ∃ t, b ∈ (s.pc t).duties) → ∀ a ∈ s.live, a.block ≠ b) ∧
    ∀ b vb, s.blocks b = some vb → vb.dirty = bbmapBits → b ∉ s.released →
    ∃! t, b ∈ (s.pc t).duties := by
  have hinv := h.inv
  refine ⟨fun b vb hvb => (hinv.block b vb hvb).account, hinv.disjoint, fun t x hstep => ?_,
    hinv.released_nodup, fun b hor a ha heq => ?_, fun b vb hvb hdirty hrel => ?_⟩
  · obtain ⟨s', hx, -⟩ := hinv.next hstep
    exact ⟨s', hx⟩
  · -- a block that is to be released, or was, is all dirty
    obtain ⟨vb, hvb, hdirty⟩ : ∃ vb, s.blocks b = some vb ∧ vb.dirty = bbmapBits := by
      rcases hor with hrel | ⟨t, hmem⟩
      · exact hinv.released b hrel
      obtain ⟨hown, hallocs⟩ := Pc.owns_of_duties hmem
      obtain ⟨vb, hvb, hd | ⟨-, a, ha, -⟩⟩ := hinv.owned hown
      · exact ⟨vb, hvb, hd⟩
      rw [hallocs] at ha
      cases ha
    exact (hinv.dirty_lt ha (heq ▸ hvb)).ne hdirty
  obtain ⟨t, hown⟩ := (hinv.block b vb hvb).duty hdirty hrel
  refine ⟨t, (Pc.duties_of_owns hown).resolve_right ?_, fun t' ht' => ?_⟩
  · rintro ⟨a, ha, rfl⟩
    exact (hinv.dirty_lt ((hinv.roles t _).live a ha rfl) hvb).ne hdirty
  · exact hinv.owns.unique t' t b (Pc.owns_of_duties ht').1 hown

/-- No two allocations that are in use share an address, be they of one block or of two. -/
theorem reachable_addresses [DecidableEq C] (h : Reachable s) : s.live.Pairwise fun a a' =>
    a.addr + rounded a.pages * pageSize ≤ a'.addr ∨ a'.addr + rounded a'.pages * pageSize ≤ a.addr := by
  have hinv := h.inv
  refine hinv.disjoint.imp_of_mem fun {a a'} ha ha' hdisj => ?_
  obtain ⟨vb, hvb, ⟨haddr, hbelow, -⟩⟩ := hinv.alloc a ha
  obtain ⟨vb', hvb', ⟨haddr', hbelow', -⟩⟩ := hinv.alloc a' ha'
  by_cases heq : a.block = a'.block
  · obtain rfl := mem_unique hvb (heq ▸ hvb')
    have hpages := (hdisj heq).imp (Nat.mul_le_mul_right pageSize) (Nat.mul_le_mul_right pageSize)
    rw [add_mul, add_mul] at hpages
    omega
  -- two blocks start at different multiples of their size, and an allocation ends in its block
  have hne :=
    mt (hinv.distinct _ _ vb vb' hvb hvb' (hinv.live_not_released ha) (hinv.live_not_released ha')) heq
  have hdvd := (hinv.block _ vb hvb).dvd
  have hdvd' := (hinv.block _ vb' hvb').dvd
  have hle := fun h => Nat.le_of_lt_add_of_dvd h hdvd hdvd'
  have hle' := fun h => Nat.le_of_lt_add_of_dvd h hdvd' hdvd
  have hstop := Nat.mul_le_mul_right pageSize (le_of_add_right_le hbelow)
  have hstop' := Nat.mul_le_mul_right pageSize (le_of_add_right_le hbelow')
  rw [add_mul, ← blockSize] at hstop hstop'
  omega

end

/-- Blocks of 128 pages. -/
local instance smallBlocks : Config := ⟨4096, 128, 0, by decide, by decide⟩

/-- One thread takes three pages of a new block, and another one takes a page of the same block. -/
theorem reachable_blocks_shared :
    ∃ s : State Bool Unit ℕ, Reachable s ∧ s.live = [⟨0, 16384, 1⟩, ⟨0, 0, 3⟩] ∧
    (∃ vb, s.blocks 0 = some vb ∧ vb.free + livePages s.live 0 = 128) ∧
    s.live.Pairwise Alloc.Disjoint := by
  have h0 : Reachable (State.init Bool Unit ℕ) := .init
  have h1 := h0.next (.alloc (t := true) () rfl (show 0 < 3 by decide) (by decide))
  have h2 := h1.next (.create (t := true) (b := 0) rfl rfl (Nat.dvd_zero _) (Nat.zero_le _) rfl)
  have h3 := h2.next (.insert (t := true) (a := ⟨0, 0, 3⟩) rfl rfl)
  have h4 := h3.next (.enqueue (t := true) (a := ⟨0, 0, 3⟩) () rfl rfl)
  have h5 := h4.next (.alloc (t := false) () rfl (show 0 < 1 by decide) (by decide))
  have h6 := h5.next (.look (t := false) (b := 0) rfl rfl rfl)
  obtain ⟨haccount, hdisj, -⟩ := reachable_blocks h6
  exact ⟨_, h6, rfl, ⟨_, rfl, haccount 0 _ rfl⟩, hdisj⟩

/-- Two threads take pages of two blocks. -/
theorem reachable_addresses_two :
    ∃ s : State Bool Unit ℕ, Reachable s ∧ s.live = [⟨1, 524288, 1⟩, ⟨0, 0, 1⟩] ∧
    (524288 + rounded 1 * 4096 ≤ 0 ∨ 0 + rounded 1 * 4096 ≤ 524288) := by
  have h1 := Reachable.init.next (.alloc (T := Bool) (B := ℕ) (t := true) () rfl one_pos (by decide))
  have h2 := h1.next (.create (t := true) (b := 0) rfl rfl (Nat.dvd_zero _) (Nat.zero_le _) rfl)
  have h3 := h2.next (.alloc (t := false) () rfl one_pos (by decide))
  have h4 :=
    h3.next (.create (t := false) (b := 1) rfl rfl (show _ ∣ 524288 by decide) (Nat.zero_le _) rfl)
  have hpair : Pairwise _ [(⟨1, 524288, 1⟩ : Alloc ℕ), ⟨0, 0, 1⟩] := reachable_addresses h4
  have hapart := pairwise_pair.mp hpair
  exact ⟨_, h4, rfl, hapart⟩

end LinuxNote.VmapBlock
