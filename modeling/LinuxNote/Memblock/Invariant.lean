import LinuxNote.Memblock.AddressMap

/-! The invariant of the region arrays over whole runs of calls. One situation breaks it.
    `memblock_add_range` counts the pieces it needs, doubles the array, and then inserts. Doubling the
    reserved array gives the memory of the old array back. When slab provides the new array nothing is
    reserved in its place, so a reserved type that had no region outside its own old array is empty by
    the time the pieces are inserted, and they go in behind the dummy entry. -/

namespace LinuxNote.Memblock
open Intervals Outcome Relation List Region

/-- The calls of a run, one after the other; what they return is not looked at. -/
def runCalls : List (Env × Request) → MemblockState → Except Fault MemblockState
  | [], mb => .ok mb
  | (env, q) :: calls, mb => q.run env mb >>= fun p => runCalls calls p.2

/-- The call doubles the reserved array through slab while all reserved regions lie in the memory of the
    old array. -/
def EmptiesReserved (env : Env) (q : Request) (mb : MemblockState) : Prop :=
  ∃ base size nid flags, q = .addRange .reserved base size nid flags ∧
    mb.reserved.max < mb.reserved.cnt + gaps (base + capSize base size) base mb.reserved.regions ∧
    env.canResize = true ∧ env.slabIsAvailable = true ∧
    (∃ addr ≠ 0, env.kmalloc (2 * mb.reserved.max * regionBytes) = some addr) ∧
    ∃ pa len, arrayBlock env mb.reserved = some (pa, len) ∧ ∀ r ∈ mb.reserved.regions, pa ≤ r.base ∧
    r.stop ≤ pa + len

/-- No call of the run empties the reserved type half way. -/
def Clear : List (Env × Request) → MemblockState → Prop
  | [], _ => True
  | (env, q) :: calls, mb =>
    ¬EmptiesReserved env q mb ∧ ∀ p, q.run env mb = .ok p → Clear calls p.2

/-! ### What relocations leave of the reserved map -/

section
variable {env : Env} {start size : ℕ} {mb mid : MemblockState}

/-- Relocations through memblock leave the new array reserved. -/
theorem relocations_memblock (hslab : env.slabIsAvailable = false) (hv : Valid mb)
    (h : ReflTransGen (Relocates env start size) mb mid) :
    Valid mid ∧ (mid = mb ∨ Proper mid.reserved.regions) := by
  induction h with
  | refl => exact ⟨hv, .inl rfl⟩
  | tail _ hrel ih =>
    have := ih.1.reservedMax
    exact ⟨hrel.valid ih.1, .inr (hrel.proper hslab (by omega))⟩

/-- Relocations through slab give the memory of the first array back, and change nothing more. -/
theorem relocations_slab (hslab : env.slabIsAvailable = true)
    (h : ReflTransGen (Relocates env start size) mb mid) :
    mid = mb ∨ mid.reserved.inSlab = true ∧ ∀ a, attrs mid.reserved.regions a =
        freedMap env mb.reserved (attrs mb.reserved.regions) a := by
  induction h with
  | refl => exact .inl rfl
  | @tail c d _ hrel ih =>
    obtain ⟨addr, -, hmap, -⟩ := hrel.moved
    refine .inr ⟨hrel.inSlab.trans hslab, fun a => ?_⟩
    rw [hmap, relocatedMap, if_pos hslab]
    rcases ih with rfl | ⟨hin, hmap'⟩
    · rfl
    have : arrayBlock env c.reserved = none := by rw [arrayBlock, if_pos hin]
    rw [freedMap, this]
    exact hmap' a

/-- Relocations that leave the type empty went through slab, and all regions were in the memory of the
    old array. -/
theorem emptied_by_relocations (hv : Valid mb) (hp : Proper mb.reserved.regions)
    (h : ReflTransGen (Relocates env start size) mb mid) (hd : IsDummy mid.reserved.regions) :
    env.slabIsAvailable = true ∧ ∃ pa len, arrayBlock env mb.reserved = some (pa, len) ∧
      ∀ r ∈ mb.reserved.regions, pa ≤ r.base ∧ r.stop ≤ pa + len := by
  have hnd : ¬Proper mid.reserved.regions := by
    obtain ⟨nid, flags, hd⟩ := hd
    intro hp'
    have := hp' ⟨0, 0, nid, flags⟩ (by simp [hd])
    simp at this
  have hne : mid ≠ mb := by rintro rfl; exact hnd hp
  rcases hslab : env.slabIsAvailable with _ | _
  · exact absurd ((relocations_memblock hslab hv h).2.resolve_left hne) hnd
  obtain ⟨-, hmap⟩ := (relocations_slab hslab h).resolve_left hne
  have hnone : ∀ a, freedMap env mb.reserved (attrs mb.reserved.regions) a = none := fun a =>
    (hmap a).symm.trans (hd.attrs_eq a)
  refine ⟨rfl, ?_⟩
  rcases hb : arrayBlock env mb.reserved with _ | b
  · -- no array to give back, so some address is still covered
    obtain ⟨r, l, hl⟩ := exists_cons_of_ne_nil hv.reserved.nonempty
    have hr : r ∈ mb.reserved.regions := by simp [hl]
    have := hnone r.base
    rw [freedMap, hb] at this
    have hpos := hp r hr
    exact absurd ⟨le_rfl, by simp only [stop]; omega⟩ (attrAt_eq_none_iff.mp this r hr)
  obtain ⟨pa, len⟩ := b
  refine ⟨pa, len, rfl, fun r hr => ?_⟩
  simp only [freedMap, hb] at hnone
  have hpos := hp r hr
  have hin : ∀ a, r.base ≤ a → a < r.stop → pa ≤ a ∧ a < pa + capSize pa len := by
    intro a h1 h2
    by_contra hout
    have ha := hnone a
    rw [eraseOn, if_neg hout] at ha
    exact attrAt_eq_none_iff.mp ha r hr ⟨h1, h2⟩
  have h1 := hin r.base le_rfl (by simp only [stop]; omega)
  have h2 := hin (r.stop - 1) (by simp only [stop]; omega) (by simp only [stop]; omega)
  have hcap : capSize pa len ≤ len := min_le_left ..
  omega

end

/-! ### Runs -/

/-- A call that does not empty the reserved type half way keeps both types well-formed. -/
theorem Did.valid {env : Env} {q : Request} {mb mid : MemblockState} {p : Ret × MemblockState}
    (h : Did env q mb p mid) (hv : Valid mb) (hclear : ¬EmptiesReserved env q mb) : Valid p.2 := by
  obtain ⟨ret, mb'⟩ := p
  have hmid := h.grown.valid
  cases ret with
  | enomem =>
    obtain rfl : mb' = mid := h.enomem rfl
    exact hmid
  | ok =>
    have hwf : WellFormed (mb'.get q.type) := by
      refine h.wellFormed rfl ?_
      by_contra hcon
      rw [not_or, not_or] at hcon
      obtain ⟨hne, hnp, hadd⟩ := hcon
      push Not at hadd
      obtain ⟨t, base, size, nid, flags, rfl⟩ := hadd
      obtain ⟨hp, hfull⟩ := (h.needed t base size nid flags rfl).resolve_left hne
      rcases t with _ | _
      · -- the regions are those from before, and they are not empty
        refine hnp ?_
        show Proper mid.memory.regions
        rw [h.grown.memory rfl]
        exact hp
      have hsteps := h.grown.reserved rfl
      have hd : IsDummy mid.reserved.regions := hmid.reserved.proper.resolve_left hnp
      obtain ⟨hslab, hblock⟩ := emptied_by_relocations hv hp hsteps hd
      rcases hsteps.cases_head with heq | ⟨c, hrel, -⟩
      · exact hne heq.symm
      obtain ⟨addr, -, -, -, hk⟩ := hrel.moved
      exact hclear ⟨base, size, nid, flags, rfl, hfull, hrel.canResize, hslab,
        ⟨addr, (hk hslab).1, (hk hslab).2⟩, hblock⟩
    have hmax : (mb'.get q.type).max = (mid.get q.type).max := (h.same rfl).max
    have hframe : mb' = mid.set q.type (mb'.get q.type) := h.frame rfl
    rw [hframe]
    generalize mb'.get q.type = ty at hwf hmax
    generalize q.type = t at hmax
    cases t with
    | memory => exact ⟨hwf, hmid.reserved, hmax ▸ hmid.memoryMax, hmid.reservedMax⟩
    | reserved => exact ⟨hmid.memory, hwf, hmid.memoryMax, hmax ▸ hmid.reservedMax⟩

/-- The run keeps both types well-formed, and faults in no other way than the three that remain. -/
theorem runCalls_spec : ∀ (calls : List (Env × Request)) (mb : MemblockState), Valid mb →
    Clear calls mb → Ensures (runCalls calls mb) Valid
      (fun e => e = .clobber ∨ e = .bugReserve ∨ e = .bugInsert)
  | [], _, hv, _ => hv
  | (env, q) :: calls, mb, hv, hclear => by
    rw [runCalls]
    have hspec := run_spec env q hv
    rcases hrun : q.run env mb with e | p
    · rcases hspec.of_error hrun with he | he
      · exact he.eq.imp_right .inl
      · exact .inr (.inr he)
    obtain ⟨mid, hdid⟩ := hspec.of_ok hrun
    exact runCalls_spec calls p.2 (hdid.valid hv hclear.1) (hclear.2 p hrun)

/-- The state at boot: both types hold their dummy entry. -/
structure Start (mb : MemblockState) : Prop where
  dummy : ∀ t, IsDummy (mb.get t).regions
  total : ∀ t, (mb.get t).totalSize = 0
  max : ∀ t, 4 ≤ (mb.get t).max

theorem Start.valid {mb : MemblockState} (h : Start mb) : Valid mb := by
  have hwf : ∀ t, WellFormed (mb.get t) := by
    intro t
    have hmax := h.max t
    have htot := h.total t
    have hdum := h.dummy t
    obtain ⟨nid, flags, hd⟩ := h.dummy t
    refine ⟨?_, .inr hdum, ?_, ?_, ?_, ?_⟩
    · rw [hd]; exact good_cons.mpr ⟨Nat.zero_le _, by simp, good_nil⟩
    · rw [hd]; exact isChain_singleton _
    · rw [hd]; simp
    · rw [MemblockType.cnt, hd, length_singleton]; omega
    · rw [htot, hd]; rfl
  exact ⟨hwf .memory, hwf .reserved, h.max .memory, h.max .reserved⟩

theorem Good.sorted {l : List Region} (hg : Good l) (hp : Proper l) :
    l.Pairwise fun r s => r.base < s.base := by
  refine hg.ordered.imp_of_mem fun {r s} hr _ h => ?_
  have := hp r hr
  simp only [stop] at h
  omega

/-- After every run of calls from the boot state in which no call empties the reserved type half way,
    both region arrays are as they are meant to be, and no call of such a run reaches the `BUG_ON` of
    `memblock_merge_regions`. -/
theorem runCalls_invariant {mb₀ : MemblockState} (h₀ : Start mb₀) (calls : List (Env × Request))
    (hclear : Clear calls mb₀) :
    (∀ mb, runCalls calls mb₀ = .ok mb → ∀ t,
      (mb.get t).regions.Pairwise (fun r s => r.base < s.base) ∧
      (mb.get t).regions.Pairwise (fun r s => r.base + r.size ≤ s.base) ∧
      (∀ r ∈ (mb.get t).regions, r.base + r.size < 2 ^ 64) ∧
      ((∀ r ∈ (mb.get t).regions, 0 < r.size) ∨ ∃ nid flags, (mb.get t).regions = [⟨0, 0, nid, flags⟩]) ∧
      1 ≤ (mb.get t).cnt ∧ (mb.get t).cnt ≤ (mb.get t).max ∧
      (mb.get t).totalSize = ((mb.get t).regions.map size).sum ∧
      (mb.get t).regions.IsChain (fun r s =>
        ¬(r.base + r.size = s.base ∧ r.nid = s.nid ∧ r.flags = s.flags))) ∧
    runCalls calls mb₀ ≠ .error .bugMerge ∧ runCalls calls mb₀ ≠ .error .fuel := by
  have hspec := runCalls_spec calls mb₀ h₀.valid hclear
  refine ⟨fun mb hmb t => ?_, fun h => ?_, fun h => ?_⟩
  · have hwf := (hspec.of_ok hmb).get t
    refine ⟨?_, hwf.good.ordered, fun r hr => ?_, hwf.proper,
      length_pos_of_ne_nil hwf.nonempty, hwf.bounded, hwf.total, hwf.minimal⟩
    · rcases hwf.proper with hp | ⟨nid, flags, hd⟩
      · exact hwf.good.sorted hp
      · rw [hd]; exact pairwise_singleton ..
    have := hwf.good.fits r hr
    simp only [stop, physAddrMax] at this
    omega
  · simpa using hspec.of_error h
  · simpa using hspec.of_error h

/-! ### A run that keeps it and one that breaks it -/

/-- `memblock` as it is initialised statically, with arrays of `max` entries. -/
def bootState (max : ℕ) : MemblockState :=
  ⟨⟨[⟨0, 0, 0, 0⟩], max, 0, none, false⟩, ⟨[⟨0, 0, 0, 0⟩], max, 0, none, false⟩⟩

theorem start_bootState {max : ℕ} (h : 4 ≤ max) : Start (bootState max) where
  dummy t := by cases t <;> exact ⟨0, 0, rfl⟩
  total t := by cases t <;> rfl
  max t := by cases t <;> exact h

/-- The machine of `plainEnv` once slab is up. -/
def slabEnv : Env := { plainEnv with slabIsAvailable := true, kmalloc := fun _ => some 0x1000 }

/-- What is behind calls that do not empty the reserved type is looked at after them. -/
theorem Clear.append {calls calls' : List (Env × Request)} {mb : MemblockState} (h : Clear calls mb)
    (h' : ∀ mb', runCalls calls mb = .ok mb' → Clear calls' mb') : Clear (calls ++ calls') mb := by
  induction calls generalizing mb with
  | nil => exact h' mb rfl
  | cons call calls ih =>
    refine ⟨h.1, fun p hp => ih (h.2 p hp) fun mb' hrun => h' mb' ?_⟩
    rw [runCalls, hp]
    exact hrun

/-- Before slab is up no call can empty it. -/
theorem clear_map {env : Env} (hslab : env.slabIsAvailable = false) (l : List Request)
    (mb : MemblockState) : Clear (l.map fun q => (env, q)) mb := by
  induction l generalizing mb with
  | nil => trivial
  | cons q l ih =>
    refine ⟨?_, fun p _ => ih p.2⟩
    rintro ⟨_, _, _, _, -, -, -, h, -⟩
    cases hslab.symm.trans h

/-- Memory of two nodes with a flag on a part of it, five reservations, for which the array of the
    reserved type has to be doubled, and the middle of one of them freed. -/
def smallRun : List (Env × Request) :=
  [.addRange .memory 0 0x10000 0 0, .addRange .memory 0x20000 0x20000 1 0,
    .addRange .memory 0x8000 0x20000 0 0, .setNode 0x10000 0x10000 .memory 1,
    .setclrFlag 0x30000 0x8000 true 2, .addRange .reserved 0x1000 0x800 64 0,
    .addRange .reserved 0x3000 0x800 64 0, .addRange .reserved 0x5000 0x800 64 0,
    .addRange .reserved 0x7000 0x800 64 0, .addRange .reserved 0x9000 0x800 64 0,
    .removeRange .reserved 0x5200 0x100].map fun q => (plainEnv, q)

/-- After the run, the range of all reservations is reserved with slab up: the array is doubled once
    more and its memory given back, while the other reservations are there. -/
theorem runCalls_invariant_small : ∃ mb,
    runCalls (smallRun ++ [(slabEnv, .addRange .reserved 0 0xa000 64 0)]) (bootState 4) = .ok mb ∧
    mb.memory.cnt = 4 ∧ mb.reserved.regions = [⟨0, 0xa000, 64, 0⟩] ∧ mb.reserved.max = 16 ∧
    mb.memory.totalSize = (mb.memory.regions.map size).sum := by
  obtain ⟨mid, hmid, hstate⟩ : ∃ mb, runCalls smallRun (bootState 4) = .ok mb ∧
      (mb.reserved.loc, mb.reserved.regions.head?) = (some 0x3f000, some ⟨0x1000, 0x800, 64, 0⟩) :=
    exists_ok (by decide +kernel)
  obtain ⟨hloc, hhead⟩ := Prod.mk.inj hstate
  have hclear : Clear (smallRun ++ [(slabEnv, .addRange .reserved 0 0xa000 64 0)]) (bootState 4) := by
    refine (clear_map rfl _ _).append fun mb hmb => ⟨?_, fun _ _ => trivial⟩
    obtain rfl : mid = mb := Except.ok.inj (hmid.symm.trans hmb)
    -- the first reservation is not in the memory of the array
    rintro ⟨_, _, _, _, -, -, -, -, -, pa, len, hblock, hin⟩
    have := (hin _ (mem_of_head? hhead)).1
    rw [arrayBlock, hloc] at hblock
    split at hblock <;> cases hblock
    contradiction
  obtain ⟨mb, hmb, hstate⟩ : ∃ mb,
      runCalls (smallRun ++ [(slabEnv, .addRange .reserved 0 0xa000 64 0)]) (bootState 4) = .ok mb ∧
      (mb.memory.cnt, mb.reserved.regions, mb.reserved.max) = (4, [⟨0, 0xa000, 64, 0⟩], 16) :=
    exists_ok (by decide +kernel)
  simp only [Prod.mk.injEq] at hstate
  obtain ⟨-, -, -, -, -, -, htotal, -⟩ := (runCalls_invariant (start_bootState (by decide)) _
    hclear).1 mb hmb .memory
  exact ⟨mb, hmb, hstate.1, hstate.2.1, hstate.2.2, htotal⟩

/-- Free every second byte of `n` pairs of bytes from `base` on, from the top down. -/
def punch (base n : ℕ) : List (Env × Request) :=
  (range n).map fun i => (plainEnv, .removeRange .reserved (base + 2 * (n - 1 - i) + 1) 1)

/-- A run that ends with a dummy entry in front of a region. The reservation with 64 separate pieces
    makes the array move into the last two pages of memory; the other reservations are dropped; the
    reservation of the two pages is split into 128 pieces; and with slab up the range around them is
    reserved again. -/
def breakingRun : List (Env × Request) :=
  [(plainEnv, .addRange .memory 0 (2 ^ 30) 0 0), (plainEnv, .addRange .reserved 0x100000 0x1000 64 0)] ++
    punch 0x100000 63 ++
  [(plainEnv, .addRange .reserved 0xff000 0x3000 64 0),
    (plainEnv, .removeRange .reserved 0xff000 0x3000)] ++ punch 0x3fffe000 127 ++
  [(slabEnv, .addRange .reserved 0x3fffdfff 8194 64 0)]

theorem breakingRun_dummy : ∃ mb, runCalls breakingRun (bootState 128) = .ok mb ∧
    mb.reserved.regions = [⟨0, 0, 64, 0⟩, ⟨0x3fffdfff, 8194, 64, 0⟩] := by
  exact exists_ok (by decide +kernel)

end LinuxNote.Memblock
