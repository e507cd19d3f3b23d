import LinuxNote.Memblock.Ops

/-! What the calls do to the whole state, and what doubling an array does. A call that needs more room
    first doubles the array, which moves the array and so changes the reserved map: the memory of the old
    array is given back and that of the new one reserved. The state in which the room is there is called
    `mid` below; the call then acts on the type it was made for as it would on a type with room. -/

namespace LinuxNote.Memblock
open Intervals Outcome Nat Option

@[simp] theorem get_set_self (mb : MemblockState) (t : TypeId) (ty : MemblockType) :
    (mb.set t ty).get t = ty := by cases t <;> rfl

@[simp] theorem set_get_self (mb : MemblockState) (t : TypeId) : mb.set t (mb.get t) = mb := by
  cases t <;> rfl

@[simp] theorem set_set (mb : MemblockState) (t : TypeId) (ty ty' : MemblockType) :
    (mb.set t ty).set t ty' = mb.set t ty' := by cases t <;> rfl

theorem SameArray.refl (ty : MemblockType) : SameArray ty ty := ⟨rfl, rfl, rfl⟩

theorem padd_capSize (base size : ℕ) (h : capSize base size ≠ 0) :
    padd base (capSize base size) = base + capSize base size ∧
    base + capSize base size ≤ physAddrMax := by
  simp only [capSize, padd, physAddrMax] at *; omega

/-! ### Growing -/

variable {double : Call} {t : TypeId} {need : ℕ} {mb : MemblockState} {P : MemblockState → Prop}
  {E : Fault → Prop}

theorem grow_room (h : (mb.get t).cnt + need ≤ (mb.get t).max) :
    grow double t need mb = .ok (.ok, mb) := by
  rw [grow, growLoop, if_neg (by omega)]

/-- The loop ends: each doubling brings the array closer to the room asked for. -/
theorem grow_spec (need : ℕ) (hmax : ∀ mb, P mb → 4 ≤ (mb.get t).max)
    (hd : ∀ mb, P mb → Ensures (double mb) (fun p => P p.2 ∧ (p.1 = .ok →
      (p.2.get t).max = 2 * (mb.get t).max ∧ (p.2.get t).cnt ≤ (mb.get t).cnt + 3)) E) (hP : P mb) :
    Ensures (grow double t need mb)
      (fun p => P p.2 ∧ (p.1 = .ok → (p.2.get t).cnt + need ≤ (p.2.get t).max)) E := by
  rw [grow]
  have hn : (mb.get t).cnt + need - (mb.get t).max < (mb.get t).cnt + need + 1 := by omega
  generalize (mb.get t).cnt + need + 1 = n at hn
  induction n generalizing mb with
  | zero => omega
  | succ n ih =>
    rw [growLoop]
    split
    · have h4 := hmax mb hP
      refine (hd mb hP).bind ?_
      rintro ⟨ret, mb'⟩ ⟨hP', hok⟩
      cases ret with
      | enomem => exact ⟨hP', by simp⟩
      | ok =>
        obtain ⟨h1, h2⟩ := hok rfl
        exact ih hP' (by simp only at h1 h2; omega)
    · exact ⟨hP, fun _ => Nat.le_of_not_lt (by assumption)⟩

/-! ### The calls, from what growing ensures -/

section
variable {double : TypeId → ℕ → ℕ → Call} {t : TypeId} {base size : ℕ} {mb : MemblockState}
  {P : Ret → MemblockState → Prop} {E : Fault → Prop}

/-- What a successful `memblock_add_range` made of `mid`. -/
structure Added (t : TypeId) (base size : ℕ) (nid : ℤ) (flags : Flags) (mid mb' : MemblockState) :
    Prop where
  frame : mb' = mid.set t (mb'.get t)
  same : SameArray (mid.get t) (mb'.get t)
  map : ∀ a, attrs (mb'.get t).regions a = addOn base (base + capSize base size) (nid, flags)
    (attrs (mid.get t).regions) a
  cnt : (mb'.get t).cnt ≤ (mid.get t).cnt + gaps (base + capSize base size) base (mid.get t).regions

/-- The array of the type has room for `n` more regions. -/
abbrev MemblockState.Room (mb : MemblockState) (t : TypeId) (n : ℕ) : Prop :=
  (mb.get t).cnt + n ≤ (mb.get t).max

/-- The regions that `memblock_add_range` inserts. -/
abbrev pieces (t : TypeId) (base size : ℕ) (mb : MemblockState) : ℕ :=
  gaps (base + capSize base size) base (mb.get t).regions

/-- Growing the array for `n` more regions ensures `P`. -/
abbrev Grows (double : TypeId → ℕ → ℕ → Call) (t : TypeId) (base size : ℕ)
    (P : Ret → MemblockState → Prop) (E : Fault → Prop) (n : ℕ) (mb : MemblockState) : Prop :=
  Ensures (grow (double t base (capSize base size)) t n mb)
    (fun p => P p.1 p.2 ∧ (p.1 = .ok → p.2.Room t n)) E

theorem grows_room (double : TypeId → ℕ → ℕ → Call) (base size : ℕ) {n : ℕ} (hroom : mb.Room t n) :
    Grows double t base size (fun ret mid => ret = .ok ∧ mid = mb) (fun _ => False) n mb := by
  rw [Grows, grow_room hroom]
  exact ⟨⟨rfl, rfl⟩, fun _ => hroom⟩

/-- Nothing to add. -/
theorem added_self (nid : ℤ) (flags : Flags)
    (h : pieces t base size mb = 0)
    (hg : Good (mb.get t).regions) : Added t base size nid flags mb mb := by
  refine ⟨by simp, SameArray.refl _, fun a => ?_, Nat.le_add_right ..⟩
  have hf : attrs (fill nid flags (base + capSize base size) base (mb.get t).regions) a = _ :=
    attrs_fill hg a
  rw [fill_eq_self h] at hf
  exact hf

theorem WellFormed.first_size (h : WellFormed (mb.get t)) :
    (mb.get t).regions[0]?.map Region.size = some 0 ↔ IsDummy (mb.get t).regions := by
  constructor
  · intro h0
    refine h.proper.resolve_left fun hp => ?_
    obtain ⟨r, hr, hs⟩ := map_eq_some_iff.mp h0
    have := hp r (List.mem_of_getElem? hr)
    omega
  · rintro ⟨nid, flags, hd⟩
    rw [hd]; rfl

/-- `memblock_add_range`: nothing is lost when it fails, and when it succeeds it adds to the state in
    which the room was there. -/
theorem addRange_spec (nid : ℤ) (flags : Flags) (hP : P .ok mb)
    (hwf : ∀ mid, P .ok mid → WellFormed (mid.get t))
    (hgrow : capSize base size ≠ 0 → Grows double t base size P E (pieces t base size mb) mb) :
    Ensures (addRange double t base size nid flags mb)
    (fun p => ∃ mid, P p.1 mid ∧
      (mid = mb ∨ Proper (mb.get t).regions ∧ ¬mb.Room t (pieces t base size mb)) ∧
      (p.1 = .enomem → p.2 = mid) ∧
      (p.1 = .ok → Added t base size nid flags mid p.2 ∧ (mid = mb ∨ Proper (mid.get t).regions →
          WellFormed (p.2.get t)))) (fun e => E e ∨ e = .bugInsert ∧ ∃ mid, P .ok mid ∧
      pieces t base size mb ≠ 0 ∧ mid.Room t (pieces t base size mb) ∧
      ¬mid.Room t (pieces t base size mid)) := by
  have hmb := hwf mb hP
  unfold addRange
  by_cases h0 : capSize base size = 0
  · rw [if_pos h0]
    refine ⟨mb, hP, .inl rfl, by simp, fun _ => ⟨added_self nid flags ?_ hmb.good, fun _ => hmb⟩⟩
    exact gaps_le_of_stop_le _ (by omega)
  obtain ⟨hstop, hle⟩ := padd_capSize base size h0
  rw [if_neg h0, hstop]
  by_cases hd : (mb.get t).regions[0]?.map Region.size = some 0
  · -- the dummy entry becomes the new region
    rw [if_pos hd]
    have hnone := (hmb.first_size.mp hd).attrs_eq
    obtain ⟨n, f, hd⟩ := hmb.first_size.mp hd
    have hset : (mb.get t).regions.set 0 ⟨base, capSize base size, nid, flags⟩ =
        [⟨base, capSize base size, nid, flags⟩] := by rw [hd]; rfl
    have hcnt : (mb.get t).cnt = 1 := by rw [MemblockType.cnt, hd]; rfl
    rw [hset]
    refine ⟨mb, hP, .inl rfl, by simp, fun _ => ⟨⟨by simp, ?_, fun a => ?_, ?_⟩, fun _ => ?_⟩⟩
    · rw [get_set_self]; exact ⟨rfl, rfl, rfl⟩
    · rw [get_set_self, addOn, hnone]; rfl
    · rw [get_set_self, hcnt]; exact Nat.le_add_right ..
    rw [get_set_self]
    refine ⟨good_cons.mpr ⟨hle, by simp, good_nil⟩, .inl ?_, List.isChain_singleton _, by simp, ?_, rfl⟩
    · exact proper_cons.mpr ⟨pos_of_ne_zero h0, by simp [Proper]⟩
    · exact hcnt.symm.trans_le hmb.bounded
  have hcount : addPass false (mb.get t) base (base + capSize base size) nid flags = _ :=
    addLoop_count _ [] _ base 0 _ rfl hmb.good (lt_succ_self _)
  rw [if_neg hd, hcount, zero_add]
  have hp' : Proper (mb.get t).regions := hmb.proper.resolve_right (mt hmb.first_size.mpr hd)
  show Ensures (if pieces t base size mb = 0 then _ else _) _ _
  split
  case isTrue hz =>
    exact ⟨mb, hP, .inl rfl, by simp, fun _ => ⟨added_self nid flags hz hmb.good, fun _ => hmb⟩⟩
  case isFalse hz =>
    have hgrow' : Ensures (grow (double t base (capSize base size)) t (pieces t base size mb) mb)
        (fun p => (P p.1 p.2 ∧ (p.1 = .ok → p.2.Room t (pieces t base size mb))) ∧
          (p.2 = mb ∨ Proper (mb.get t).regions ∧ ¬mb.Room t (pieces t base size mb))) E := by
      by_cases hr : mb.Room t (pieces t base size mb)
      · have := hgrow h0
        rw [Grows, grow_room hr] at this
        rw [grow_room hr]
        exact ⟨this, .inl rfl⟩
      · exact (hgrow h0).imp (fun p hp => ⟨hp, .inr ⟨hp', by omega⟩⟩) fun _ => id
    refine (hgrow'.imp (fun _ => id) fun _ => .inl).bind ?_
    rintro ⟨ret, mid⟩ ⟨⟨hmid, hroom⟩, hneed⟩
    cases ret with
    | enomem => exact ⟨mid, hmid, hneed, fun _ => rfl, by simp⟩
    | ok =>
      refine ((insertPieces_spec (hwf mid hmid) nid flags hle).imp (fun _ => id) fun e he => ?_).bind
        fun ty' h => ?_
      · exact .inr ⟨he.1, mid, hmid, hz, hroom rfl, not_le.mpr he.2⟩
      obtain ⟨hmap, hsame, hcnt, hwf'⟩ := h
      refine ⟨mid, hmid, hneed, by simp,
        fun _ => ⟨⟨by simp, by simpa, by simpa, by simpa⟩, ?_⟩⟩
      rw [get_set_self]
      rintro (rfl | h)
      · exact (hwf' hp').1
      · exact (hwf' h).1

/-- What a successful call made of `mid`, when it changes the map of one type by `f`. -/
structure Changed (t : TypeId) (f : (ℕ → Option (ℤ × Flags)) → ℕ → Option (ℤ × Flags))
    (mid mb' : MemblockState) : Prop where
  frame : mb' = mid.set t (mb'.get t)
  same : SameArray (mid.get t) (mb'.get t)
  map : ∀ a, attrs (mb'.get t).regions a = f (attrs (mid.get t).regions) a
  wellFormed : WellFormed (mb'.get t)

variable {f : (ℕ → Option (ℤ × Flags)) → ℕ → Option (ℤ × Flags)}

theorem changed_self (h : WellFormed (mb.get t)) (hf : ∀ m, f m = m) : Changed t f mb mb :=
  ⟨by simp, SameArray.refl _, fun a => by rw [hf], h⟩

theorem Changed.memory_eq {mid mb' : MemblockState} (h : Changed .reserved f mid mb') :
    mb'.memory = mid.memory :=
  (congrArg MemblockState.memory h.frame).trans rfl

theorem not_mem_empty {a : ℕ} (h : capSize base size = 0) :
    ¬(base ≤ a ∧ a < base + capSize base size) := by omega

section
variable (hgrow : capSize base size ≠ 0 → Grows double t base size P E 2 mb) (hP : P .ok mb)
  (hwf : ∀ mid, P .ok mid → WellFormed (mid.get t))
include hgrow hP hwf

/-- What `memblock_isolate_range` leaves: the walk was made over the state with room, or there was
    nothing to isolate. -/
theorem isolateRange_spec :
    Ensures (isolateRange double t base size mb)
    (fun p => ∃ mid, P p.1 mid ∧ (p.1 = .enomem → p.2.2 = mid) ∧
      (p.1 = .ok → (capSize base size = 0 ∧ p.2 = ((0, 0), mid)) ∨
        (base < base + capSize base size ∧ mid.Room t 2 ∧ ∃ ty, isolateWalk (mid.get t) base
          (base + capSize base size) = .ok (p.2.1.1, p.2.1.2, ty) ∧ p.2.2 = mid.set t ty))) E := by
  unfold isolateRange
  by_cases h0 : capSize base size = 0
  · rw [if_pos h0]
    exact ⟨mb, hP, by simp, fun _ => .inl ⟨h0, rfl⟩⟩
  obtain ⟨hstop, hle⟩ := padd_capSize base size h0
  rw [if_neg h0, hstop]
  refine (hgrow h0).bind ?_
  rintro ⟨ret, mid⟩ ⟨hmid, hroom⟩
  cases ret with
  | enomem => exact ⟨mid, hmid, fun _ => rfl, by simp⟩
  | ok =>
    have hb : base < base + capSize base size := by omega
    obtain ⟨i, j, ty, hwalk, -⟩ := removeRegions_isolated (hwf mid hmid) hb (hroom rfl) 0
    refine (show Ensures (isolateWalk (mid.get t) base (base + capSize base size))
      (fun q => q = (i, j, ty)) E by rw [hwalk]; rfl).bind ?_
    rintro _ rfl
    exact ⟨mid, hmid, by simp, fun _ => .inr ⟨hb, hroom rfl, ty, hwalk, rfl⟩⟩

/-- `memblock_remove_range`. -/
theorem removeRange_spec (maxNumNodes : ℤ) :
    Ensures (removeRange double maxNumNodes t base size mb)
    (fun p => ∃ mid, P p.1 mid ∧ (p.1 = .enomem → p.2 = mid) ∧
      (p.1 = .ok → Changed t (eraseOn base (base + capSize base size)) mid p.2 ∧
        (p.2.get t).cnt ≤ (mid.get t).cnt + 2)) E := by
  refine (isolateRange_spec hgrow hP hwf).bind ?_
  rintro ⟨ret, ⟨i, j⟩, mb'⟩ ⟨mid, hmid, herr, hok⟩
  cases ret with
  | enomem => exact ⟨mid, hmid, fun _ => herr rfl, by simp⟩
  | ok =>
    refine ⟨mid, hmid, by simp, fun _ => ?_⟩
    rcases hok rfl with ⟨h0, he⟩ | ⟨hb, hroom, ty, hwalk, he⟩
    · obtain ⟨⟨rfl, rfl⟩, rfl⟩ : (i = 0 ∧ j = 0) ∧ mb' = mid := by simpa using he
      simp only [removeRegions, set_get_self]
      refine ⟨changed_self (hwf _ hmid) fun m => ?_, Nat.le_add_right ..⟩
      funext a
      exact if_neg (not_mem_empty h0)
    obtain ⟨i', j', ty', hwalk', hwf', hsame, hcnt, hmap⟩ :=
      removeRegions_isolated (hwf mid hmid) hb hroom maxNumNodes
    obtain ⟨rfl, rfl, rfl⟩ : i = i' ∧ j = j' ∧ ty = ty' := by
      simpa using hwalk.symm.trans hwalk'
    obtain rfl : mb' = mid.set t ty := he
    rw [get_set_self, set_set]
    exact ⟨⟨by simp, by simpa, by simpa, by simpa⟩, by simpa⟩

/-- `memblock_set_node` and `memblock_setclr_flag`. -/
theorem updateRange_spec {f : Region → Region} {g : ℤ × Flags → ℤ × Flags}
    (hbase : ∀ r, (f r).base = r.base) (hsize : ∀ r, (f r).size = r.size)
    (hattr : ∀ r, (f r).attr = g r.attr) :
    Ensures (updateRange double f t base size mb)
      (fun p => ∃ mid, P p.1 mid ∧ (p.1 = .enomem → p.2 = mid) ∧
        (p.1 = .ok → Changed t (mapOn base (base + capSize base size) g) mid p.2)) E := by
  refine (isolateRange_spec hgrow hP hwf).bind ?_
  rintro ⟨ret, ⟨i, j⟩, mb'⟩ ⟨mid, hmid, herr, hok⟩
  cases ret with
  | enomem => exact ⟨mid, hmid, fun _ => herr rfl, by simp⟩
  | ok =>
    rcases hok rfl with ⟨h0, he⟩ | ⟨hb, hroom, ty, hwalk, he⟩
    · obtain ⟨⟨rfl, rfl⟩, rfl⟩ : (i = 0 ∧ j = 0) ∧ mb' = mid := by simpa using he
      -- no region changes; the merge pass keeps the map
      have hw := hwf _ hmid
      obtain ⟨ty', hm, ha, hsame, -, hwf', -⟩ :=
        mergeRegions_withRegions (mb'.get t) hw.good (fun h => hw.nonempty h) hw.bounded
      rw [withRegions_self hw.totalOk] at hm
      simp only [Nat.sub_zero, updateRegions, hm]
      refine ⟨mb', hmid, by simp, fun _ => ⟨by simp, by simpa, fun a => ?_, ?_⟩⟩
      · rw [get_set_self, ha, mapOn, if_neg (not_mem_empty h0)]
      · rw [get_set_self]; exact hwf' hw.proper
    obtain ⟨i', j', ty1, ty', hwalk', hmerge, hwf', hsame, hmap⟩ :=
      updateRegions_isolated (hwf mid hmid) hb hroom hbase hsize hattr
    obtain ⟨rfl, rfl, rfl⟩ : i = i' ∧ j = j' ∧ ty = ty1 := by
      simpa using hwalk.symm.trans hwalk'
    obtain rfl : mb' = mid.set t ty := he
    simp only [get_set_self, hmerge, set_set]
    exact ⟨mid, hmid, by simp, fun _ => ⟨by simp, by simpa, by simpa, by simpa⟩⟩

end

variable (double t base size) in
/-- With room for the pieces nothing is doubled. -/
theorem addRange_room (nid : ℤ) (flags : Flags) (hwf : WellFormed (mb.get t))
    (hroom : mb.Room t (pieces t base size mb)) :
    ∃ mb', addRange double t base size nid flags mb = .ok (.ok, mb') ∧
      Added t base size nid flags mb mb' ∧ WellFormed (mb'.get t) := by
  have h := addRange_spec (P := fun ret mid => ret = .ok ∧ mid = mb) nid flags ⟨rfl, rfl⟩
    (by rintro mid ⟨-, rfl⟩; exact hwf) fun _ => grows_room double _ _ hroom
  obtain ⟨⟨ret, mb'⟩, hcall, mid, ⟨hret, rfl⟩, -, -, hok⟩ := (h.imp (fun _ => id) fun e he => by
    rcases he with he | ⟨-, mid, ⟨-, rfl⟩, -, -, hlt⟩
    · exact he
    · omega).returns
  obtain rfl : ret = .ok := hret
  exact ⟨mb', hcall, (hok rfl).1, (hok rfl).2 (.inl rfl)⟩

end

/-! ### Doubling -/

/-- What the calls keep: both types well-formed, in arrays with at least the four entries of the smallest
    static one. -/
structure Valid (mb : MemblockState) : Prop where
  memory : WellFormed mb.memory
  reserved : WellFormed mb.reserved
  memoryMax : 4 ≤ mb.memory.max
  reservedMax : 4 ≤ mb.reserved.max

theorem Valid.get (h : Valid mb) (t : TypeId) : WellFormed (mb.get t) := by
  cases t
  · exact h.memory
  · exact h.reserved

theorem le_pageAlign (env : Env) (x : ℕ) : x ≤ pageAlign env x := by
  have hpos : 0 < env.pageSize := Nat.two_pow_pos _
  have h1 := div_add_mod (x + (env.pageSize - 1)) env.pageSize
  have h2 := mod_lt (x + (env.pageSize - 1)) hpos
  rw [pageAlign, mul_comm]
  omega

theorem allocSize_pos (env : Env) {max : ℕ} (h : 0 < max) : 0 < allocSize env max :=
  (mul_pos h (by decide)).trans_le (le_pageAlign ..)

section
variable {env : Env} {mb : MemblockState} {start size : ℕ}

/-- Where a new array from memblock is put: in free memory, and for `memblock.reserved` outside the
    area that is waiting to be reserved, unless that starts at 0. -/
structure Placed (env : Env) (mb : MemblockState) (t : TypeId) (start size len addr : ℕ) : Prop where
  block : ∃ flags, FreeBlock env numaNoNode flags mb env.pageSize physAddrMax len addr
  avoids : t = .reserved → start ≠ 0 → start + size ≤ addr ∨ addr + len ≤ start

theorem newArrayAddr_spec (hm : Good mb.memory.regions) (hr : Good mb.reserved.regions) (t : TypeId)
    {max : ℕ} (hmax : 0 < max) (hs : start + size ≤ physAddrMax) :
    Ensures (newArrayAddr env mb t start size max)
    (fun addr => addr ≠ 0 →
      (env.slabIsAvailable = false → Placed env mb t start size (allocSize env max) addr) ∧
      (env.slabIsAvailable = true → addr ≠ 0 ∧ env.kmalloc (max * regionBytes) = some addr))
    (fun _ => False) := by
  have hlen := allocSize_pos env hmax
  have hblock : ∀ {flags lo hi addr}, env.pageSize ≤ lo →
    FreeBlock env numaNoNode flags mb lo hi (allocSize env max) addr →
    FreeBlock env numaNoNode flags mb env.pageSize physAddrMax (allocSize env max) addr := by
    intro flags lo hi addr hlo h
    obtain ⟨m, hmem, -, -, hstop⟩ := h.region
    exact ⟨h.region, h.free, hlo.trans h.lower, hstop.trans (hm.fits m hmem)⟩
  unfold newArrayAddr
  split
  · rename_i hslab
    refine fun hne => ⟨by simp [hslab], fun _ => ⟨hne, ?_⟩⟩
    cases hk : env.kmalloc (max * regionBytes) with
    | none => simp [hk] at hne
    | some addr => rfl
  rename_i hslab
  generalize harea : (if t = .reserved then (start, size) else (0, 0)) = area
  have harea' : t = .reserved → area = (start, size) := fun h => by rw [← harea, if_pos h]
  have hle : area.1 + area.2 ≤ physAddrMax := by
    rw [← harea]; split
    · exact hs
    · exact zero_le _
  have hpadd : padd area.1 area.2 = area.1 + area.2 := by
    simp only [padd, physAddrMax] at *; omega
  refine (findInRange_spec hm hr hlen (hpadd.trans_le hle)).bind fun addr h => ?_
  split
  · rename_i hz
    refine (findInRange_spec hm hr hlen (zero_le _)).imp (fun addr h hne =>
      ⟨fun _ => ?_, fun h => absurd h hslab⟩) fun _ => id
    obtain ⟨flags, hb⟩ := h hne
    refine ⟨⟨flags, hblock (le_max_right ..) hb⟩, fun ht hs0 => .inr ?_⟩
    -- with `start` not 0 the second search ends below it
    have hup := hb.upper
    rw [harea' ht, searchEnd, memblockAllocAccessible] at hup
    split at hup
    · simp only at *; omega
    · simp only at hup; omega
  refine fun hne => ⟨fun _ => ?_, fun h => absurd h hslab⟩
  obtain ⟨flags, hb⟩ := h hne
  refine ⟨⟨flags, hblock (le_max_right ..) hb⟩, fun ht _ => .inl ?_⟩
  have hlow := hb.lower
  rw [hpadd, harea' ht] at hlow
  omega

/-- The reserved map after the memory of the array `ty` is given back. -/
def freedMap (env : Env) (ty : MemblockType) (m : ℕ → Option (ℤ × Flags)) :
    ℕ → Option (ℤ × Flags) :=
  match arrayBlock env ty with
  | none => m
  | some (pa, len) => eraseOn pa (pa + capSize pa len) m

/-- The reserved map after the array `ty` is moved to `addr` and doubled. -/
def relocatedMap (env : Env) (ty : MemblockType) (addr : ℕ) (m : ℕ → Option (ℤ × Flags)) :
    ℕ → Option (ℤ × Flags) :=
  if env.slabIsAvailable then freedMap env ty m
  else addOn addr (addr + allocSize env (2 * ty.max)) (env.maxNumNodes, 0) (freedMap env ty m)

/-- One successful doubling of the reserved array while `[start, start + size)` waits to be added. -/
structure Relocates (env : Env) (start size : ℕ) (mb mb' : MemblockState) : Prop where
  canResize : env.canResize = true
  memory : mb'.memory = mb.memory
  wellFormed : WellFormed mb'.reserved
  max : mb'.reserved.max = 2 * mb.reserved.max
  cnt : mb'.reserved.cnt ≤ mb.reserved.cnt + 3
  inSlab : mb'.reserved.inSlab = env.slabIsAvailable
  moved : ∃ addr, mb'.reserved.loc = some addr ∧ (∀ a, attrs mb'.reserved.regions a =
      relocatedMap env mb.reserved addr (attrs mb.reserved.regions) a) ∧ (env.slabIsAvailable = false →
      Placed env mb .reserved start size (allocSize env (2 * mb.reserved.max)) addr ∧
      clobbers env mb (addr, allocSize env (2 * mb.reserved.max)) = false) ∧
      (env.slabIsAvailable = true → addr ≠ 0 ∧
        env.kmalloc (2 * mb.reserved.max * regionBytes) = some addr)

theorem clobbers_eq_false {b : ℕ × ℕ} :
    clobbers env mb b = false ↔ ∀ t, ∀ c, arrayBlock env (mb.get t) = some c → ¬blocksOverlap b c := by
  simp only [clobbers, List.any_eq_false, any_eq_true, decide_eq_true_eq, not_exists, not_and]
  constructor
  · intro h t c hc
    exact h t (by cases t <;> simp) c hc
  intro h t _ c hc
  exact h t c hc

variable {ty : MemblockType} {a addr : ℕ}

/-- No region overlaps an interval that is not covered. -/
theorem apart_of_uncovered {lo hi : ℕ} (h : WellFormed ty)
    (hfree : ∀ a, lo ≤ a → a < hi → attrs ty.regions a = none) (hlt : lo < hi) :
    ∀ r ∈ ty.regions, r.stop ≤ lo ∨ hi ≤ r.base := by
  intro r hr
  rcases h.proper with hp | ⟨nid, flags, hd⟩
  · by_contra hov
    have hpos := hp r hr
    -- the first address in both is covered by `r`
    have :=
      attrAt_eq_none_iff.mp
        (hfree (max lo r.base) (le_max_left ..) (by simp only [Region.stop] at hov; omega)) r hr
    simp only [Region.stop] at *
    omega
  rw [hd] at hr
  obtain rfl := List.mem_singleton.mp hr
  exact .inl (zero_le _)

theorem freedMap_none {m : ℕ → Option (ℤ × Flags)} (h : m a = none) : freedMap env ty m a = none := by
  unfold freedMap
  rcases arrayBlock env ty with _ | ⟨pa, len⟩
  · exact h
  · simp only [eraseOn, h, ite_self]

/-- Giving the old array back, with room in the reserved array. -/
theorem freeArray_room (env : Env) (double : TypeId → ℕ → ℕ → Call) (ty : MemblockType)
    (hwf : WellFormed mb.reserved) (hroom : mb.reserved.cnt + 2 ≤ mb.reserved.max) :
    ∃ mb', freeArray double env ty mb = .ok mb' ∧ Changed .reserved (freedMap env ty) mb mb' ∧
      mb'.reserved.cnt ≤ mb.reserved.cnt + 2 := by
  unfold freeArray
  rcases hb : arrayBlock env ty with _ | b
  · refine ⟨mb, rfl, changed_self hwf fun m => ?_, Nat.le_add_right ..⟩
    simp [freedMap, hb]
  obtain ⟨pa, len⟩ := b
  obtain ⟨⟨ret, mb'⟩, hcall, mid, ⟨hret, rfl⟩, -, hok⟩ :=
    (removeRange_spec (t := .reserved) (P := fun ret mid => ret = .ok ∧ mid = mb)
      (fun _ => grows_room double pa len hroom) ⟨rfl, rfl⟩ (by rintro mid ⟨-, rfl⟩; exact hwf)
      env.maxNumNodes).returns
  obtain rfl : ret = .ok := hret
  obtain ⟨hch, hcnt⟩ := hok rfl
  refine ⟨mb', by simp only [memblockFree, hcall]; rfl, ?_, hcnt⟩
  have : freedMap env ty = eraseOn pa (pa + capSize pa len) := by
    funext m; simp [freedMap, hb]
  rw [this]
  exact hch

/-- Reserving the new array, with room in the reserved array. -/
theorem reserveArray_room (env : Env) (double : TypeId → ℕ → ℕ → Call) (addr : ℕ) {len : ℕ}
    (hwf : WellFormed mb.reserved) (hroom : mb.reserved.cnt + 1 ≤ mb.reserved.max) (hlen : 0 < len)
    (hfree : env.slabIsAvailable = false → addr + len ≤ physAddrMax ∧
      ∀ a, addr ≤ a → a < addr + len → attrs mb.reserved.regions a = none) :
    ∃ mb', reserveArray double env addr len mb = .ok mb' ∧ Changed .reserved
    (fun m => if env.slabIsAvailable then m else addOn addr (addr + len) (env.maxNumNodes, 0) m) mb
    mb' ∧ mb'.reserved.cnt ≤ mb.reserved.cnt + 1 := by
  rw [reserveArray]
  cases hslab : env.slabIsAvailable with
  | true => exact ⟨mb, rfl, changed_self hwf fun _ => rfl, Nat.le_add_right ..⟩
  | false =>
    obtain ⟨hle, hfree⟩ := hfree hslab
    have hcap : capSize addr len = len := by simp only [capSize]; omega
    have hgaps : gaps (addr + len) addr mb.reserved.regions ≤ 1 :=
      gaps_le_one (apart_of_uncovered hwf hfree (by omega))
    obtain ⟨mb', hcall, hadd, hwf'⟩ := addRange_room double .reserved addr len env.maxNumNodes
      0 hwf (by rw [pieces, hcap]; exact (Nat.add_le_add_left hgaps _).trans hroom)
    have hcnt := hadd.cnt
    have hmap := hadd.map
    rw [hcap] at hcnt hmap
    refine ⟨mb', ?_, ⟨hadd.frame, hadd.same, hmap, hwf'⟩, hcnt.trans (Nat.add_le_add_left hgaps _)⟩
    simp only [memblockReserve, hcall]
    rfl

/-- The new array at `addr`, the old one given back and the new one reserved: the doubled array has room
    for both. -/
theorem moveArray_reserved (double : TypeId → ℕ → ℕ → Call) (hv : Valid mb)
    (hresize : env.canResize = true)
    (hplace : env.slabIsAvailable = false →
      Placed env mb .reserved start size (allocSize env (2 * mb.reserved.max)) addr ∧
      clobbers env mb (addr, allocSize env (2 * mb.reserved.max)) = false)
    (hkmalloc : env.slabIsAvailable = true → addr ≠ 0 ∧
      env.kmalloc (2 * mb.reserved.max * regionBytes) = some addr) :
    ∃ mb', moveArray double env .reserved addr mb = .ok (.ok, mb') ∧
    Relocates env start size mb mb' := by
  have hmax := hv.reservedMax
  have hcnt := hv.reserved.bounded
  have hwf1 : WellFormed (mb.reserved.enlarge addr) :=
    hv.reserved.moved rfl rfl (show mb.reserved.max ≤ 2 * mb.reserved.max by omega)
  obtain ⟨mb2, hfree, hch, hcnt2⟩ := freeArray_room env double mb.reserved
    (show WellFormed (mb.set .reserved (mb.reserved.enlarge addr)).reserved from hwf1)
    (show mb.reserved.cnt + 2 ≤ 2 * mb.reserved.max by omega)
  have hmem2 : mb2.memory = mb.memory := hch.memory_eq
  have hmax2 : mb2.reserved.max = 2 * mb.reserved.max := hch.same.max
  have hloc2 : mb2.reserved.loc = some addr := hch.same.loc
  have hcnt2 : mb2.reserved.cnt ≤ mb.reserved.cnt + 2 := hcnt2
  have hmap2 : ∀ a, attrs mb2.reserved.regions a =
    freedMap env mb.reserved (attrs mb.reserved.regions) a := hch.map
  have hmove : moveArray double env .reserved addr mb =
      reserveArray double env addr (allocSize env (2 * mb.reserved.max)) mb2 >>= fun mb2 =>
        .ok (.ok, mb2.set .reserved (mb2.reserved.setInSlab env.slabIsAvailable)) := by
    show freeArray double env mb.reserved (mb.set .reserved (mb.reserved.enlarge addr)) >>= _ = _
    rw [hfree]; rfl
  obtain ⟨mb3, hres, hch3, hcnt3⟩ := reserveArray_room env double addr hch.wellFormed (by omega)
    (allocSize_pos env (show 0 < 2 * mb.reserved.max by omega)) fun hslab => by
      obtain ⟨flags, hblock⟩ := (hplace hslab).1.block
      exact ⟨hblock.upper, fun a h1 h2 => by rw [hmap2]; exact freedMap_none (hblock.free a h1 h2)⟩
  have hmax3 : mb3.reserved.max = mb2.reserved.max := hch3.same.max
  have hloc3 : mb3.reserved.loc = mb2.reserved.loc := hch3.same.loc
  refine ⟨mb3.set .reserved (mb3.reserved.setInSlab env.slabIsAvailable), ?_, hresize,
    hch3.memory_eq.trans hmem2, hch3.wellFormed.moved rfl rfl le_rfl, hmax3.trans hmax2, ?_, rfl, addr,
    hloc3.trans hloc2, fun a => ?_, hplace, hkmalloc⟩
  · rw [hmove, hres]; rfl
  · show mb3.reserved.cnt ≤ _
    omega
  have hmap3 := hch3.map a
  rw [show mb2.get .reserved = mb2.reserved from rfl, funext hmap2] at hmap3
  exact hmap3

/-- A relocation to memory from memblock leaves the reserved type with the new array in it. -/
theorem Relocates.proper {mb' : MemblockState} (h : Relocates env start size mb mb')
    (hslab : env.slabIsAvailable = false) (h0 : 0 < mb.reserved.max) :
    Proper mb'.reserved.regions := by
  obtain ⟨addr, -, hmap, -⟩ := h.moved
  have hlen := allocSize_pos env (show 0 < 2 * mb.reserved.max by omega)
  -- the new array is covered
  refine h.wellFormed.proper.resolve_right fun hd => (?_ : attrs _ addr ≠ none) (hd.attrs_eq addr)
  rw [hmap, relocatedMap, hslab]
  simp only [Bool.false_eq_true, if_false, addOn]
  rw [if_pos (by omega)]
  cases freedMap env mb.reserved (attrs mb.reserved.regions) addr <;> simp

/-- Memory that is not reserved holds an array in use, and the new reserved array would go there. -/
def Exposed (env : Env) (mb : MemblockState) : Prop :=
  ∃ addr, (∀ a, addr ≤ a → a < addr + allocSize env (2 * mb.reserved.max) →
    attrs mb.reserved.regions a = none) ∧
    clobbers env mb (addr, allocSize env (2 * mb.reserved.max)) = true

/-- Doubling the reserved array: it fails and nothing changes, or the array is moved. -/
theorem doubleArray_reserved (d : ℕ) (hv : Valid mb) (hs : start + size ≤ physAddrMax) :
    Ensures (doubleArray (d + 1) env .reserved start size mb)
      (fun p => (p.1 = .enomem ∧ p.2 = mb) ∨ (p.1 = .ok ∧ Relocates env start size mb p.2))
      (fun e => e = .clobber ∧ Exposed env mb) := by
  have hmax := hv.reservedMax
  rw [doubleArray]
  split
  · exact .inl ⟨rfl, rfl⟩
  rename_i hresize
  refine ((newArrayAddr_spec hv.memory.good hv.reserved.good .reserved
    (show 0 < 2 * mb.reserved.max by omega) hs).imp (fun _ => id) fun _ h => h.elim).bind
      fun addr hplace => ?_
  split
  · exact .inl ⟨rfl, rfl⟩
  rename_i hne
  split
  · rename_i hclob
    rw [Bool.and_eq_true, Bool.not_eq_true'] at hclob
    obtain ⟨flags, hblock⟩ := ((hplace hne).1 hclob.1).block
    exact ⟨rfl, addr, hblock.free, hclob.2⟩
  rename_i hclob
  obtain ⟨mb', hcall, hrel⟩ := moveArray_reserved (doubleArray d env) hv
    (by simpa using hresize)
    (fun hslab => ⟨(hplace hne).1 hslab, by
      simpa [hslab, show mb.get .reserved = mb.reserved from rfl] using hclob⟩) (hplace hne).2
  rw [hcall]
  exact .inr ⟨rfl, hrel⟩

/-! ### Doubling the memory array

The calls that free the old array and reserve the new one may have to double the reserved array
themselves. While they do, the new array of `memblock.memory` is not reserved yet. -/

/-- The memory type is `mem`, with a new array in `[addr, addr + len)` that is not reserved yet. -/
structure Holding (env : Env) (mem : MemblockType) (addr len : ℕ) (mb : MemblockState) : Prop where
  memory : mb.memory = mem
  reserved : WellFormed mb.reserved
  reservedMax : 4 ≤ mb.reserved.max
  free : env.slabIsAvailable = false → ∀ a, addr ≤ a → a < addr + len →
    attrs mb.reserved.regions a = none

/-- Whatever is doubled while `[start, start + size)` waits, the reserved array is not put over `[addr,
    addr + len)`. -/
def Beside (env : Env) (mem : MemblockType) (start size addr len : ℕ) : Prop :=
  env.slabIsAvailable = false → ∀ mb : MemblockState, mb.memory = mem → ∀ addr' len',
    Placed env mb .reserved start size len' addr' → clobbers env mb (addr', len') = false →
    addr' + len' ≤ addr ∨ addr + len ≤ addr'

section
variable {mem : MemblockType} {addr len : ℕ}

variable {mb' : MemblockState}

section
variable (h : Holding env mem addr len mb)
include h

/-- Moving the reserved array elsewhere leaves the new memory array alone. -/
theorem Holding.relocates (hrel : Relocates env start size mb mb')
    (hapart : Beside env mem start size addr len) :
    Holding env mem addr len mb' := by
  refine ⟨hrel.memory.trans h.memory, hrel.wellFormed, ?_, fun hslab a h1 h2 => ?_⟩
  · have := h.reservedMax
    rw [hrel.max]; omega
  obtain ⟨addr', -, hmap, hnew, -⟩ := hrel.moved
  obtain ⟨hpl, hclob⟩ := hnew hslab
  have := hapart hslab mb h.memory addr' _ hpl hclob
  rw [hmap, relocatedMap, hslab]
  simp only [Bool.false_eq_true, if_false, addOn, freedMap_none (h.free hslab a h1 h2), none_or]
  exact if_neg (by omega)

variable (hm : WellFormed mem) (h4 : 4 ≤ mem.max)
include hm h4

theorem Holding.valid : Valid mb :=
  ⟨h.memory ▸ hm, h.reserved, h.memory ▸ h4, h.reservedMax⟩

/-- Growing the reserved array while a new memory array is held, when nothing is put over it. -/
theorem grow_holding (d need : ℕ) (hs : start + size ≤ physAddrMax)
    (hapart : Beside env mem start size addr len) :
    Ensures (grow (doubleArray (d + 1) env .reserved start size) .reserved need mb)
    (fun p =>
      (Holding env mem addr len p.2 ∧
        (env.slabIsAvailable = false → p.2 = mb ∨ Proper p.2.reserved.regions)) ∧
      (p.1 = .ok → p.2.reserved.cnt + need ≤ p.2.reserved.max)) (fun e => e = .clobber) := by
  refine grow_spec (t := .reserved) need (fun mb' h' => h'.1.reservedMax) (fun mb' h' => ?_)
    (P := fun mb' => Holding env mem addr len mb' ∧
      (env.slabIsAvailable = false → mb' = mb ∨ Proper mb'.reserved.regions)) ⟨h, fun _ => .inl rfl⟩
  refine (doubleArray_reserved d (h'.1.valid hm h4) hs).imp ?_ (fun _ h => h.1)
  rintro ⟨ret, mb''⟩ (⟨hret, heq⟩ | ⟨-, hrel⟩)
  · obtain rfl : ret = .enomem := hret
    obtain rfl : mb'' = mb' := heq
    exact ⟨h', by simp⟩
  refine ⟨⟨h'.1.relocates hrel hapart, ?_⟩, fun _ => ⟨hrel.max, hrel.cnt⟩⟩
  intro hslab
  exact .inr (hrel.proper hslab (by have := h'.1.reservedMax; omega))

/-- Giving the old memory array back. -/
theorem freeArray_holding (d : ℕ) (ty : MemblockType)
    (harr : arrayBlock env ty ≠ none → arrayBlock env mem = some (addr, len)) :
    Ensures (freeArray (doubleArray (d + 1) env) env ty mb) (Holding env mem addr len)
      (fun e => e = .clobber) := by
  unfold freeArray
  rcases hb : arrayBlock env ty with _ | b
  · exact h
  obtain ⟨pa, len'⟩ := b
  have hapart : Beside env mem pa (capSize pa len') addr len := by
    intro _ mb hmem addr' size' _ hclob
    have := (clobbers_eq_false.mp hclob) .memory (addr, len)
      (by rw [show mb.get .memory = mb.memory from rfl, hmem]; exact harr (by simp [hb]))
    simp only [blocksOverlap] at this
    omega
  refine ((removeRange_spec (t := .reserved) (P := fun _ mid => Holding env mem addr len mid)
    (fun h0 => (grow_holding h hm h4 d 2 (padd_capSize pa len' h0).2 hapart).imp
      (fun p hp => ⟨hp.1.1, hp.2⟩) fun _ => id)
    h (fun mid hmid => hmid.reserved) env.maxNumNodes).bind ?_)
  rintro ⟨ret, mb'⟩ ⟨mid, hmid, herr, hok⟩
  cases ret with
  | enomem =>
    obtain rfl : mb' = mid := herr rfl
    exact hmid
  | ok =>
    obtain ⟨hch, -⟩ := hok rfl
    have hmax : mb'.reserved.max = mid.reserved.max := hch.same.max
    refine ⟨hch.memory_eq.trans hmid.memory, hch.wellFormed, hmax ▸ hmid.reservedMax,
      fun hslab a h1 h2 => (hch.map a).trans ?_⟩
    rw [eraseOn, show attrs (mid.get .reserved).regions a = none from hmid.free hslab a h1 h2, ite_self]

/-- Reserving the new memory array. -/
theorem reserveArray_holding (d : ℕ) (hlen : 0 < len) (haddr : addr ≠ 0)
    (hle : env.slabIsAvailable = false → addr + len ≤ physAddrMax) :
    Ensures (reserveArray (doubleArray (d + 1) env) env addr len mb)
      (fun mb' => mb'.memory = mem ∧ WellFormed mb'.reserved ∧ 4 ≤ mb'.reserved.max)
      (fun e => e = .clobber ∨ e = .bugReserve) := by
  unfold reserveArray
  split
  · exact ⟨h.memory, h.reserved, h.reservedMax⟩
  rename_i hslab
  have hslab : env.slabIsAvailable = false := by simpa using hslab
  have hle := hle hslab
  have hcap : capSize addr len = len := by simp only [capSize]; omega
  have hapart : Beside env mem addr (capSize addr len) addr len := by
    intro _ mb _ addr' size' hpl _
    have := hpl.avoids rfl haddr
    omega
  have hgaps : ∀ mid, Holding env mem addr len mid →
    gaps (addr + capSize addr len) addr mid.reserved.regions ≤ 1 := by
    intro mid hmid
    rw [hcap]
    exact gaps_le_one (apart_of_uncovered hmid.reserved (hmid.free hslab) (by omega))
  refine ((addRange_spec (t := .reserved) (P := fun _ mid => Holding env mem addr len mid ∧
      (mid = mb ∨ Proper mid.reserved.regions)) env.maxNumNodes 0 ⟨h, .inl rfl⟩
    (fun mid hmid => hmid.1.reserved) (fun h0 => (grow_holding h hm h4 d _
      (padd_capSize addr len h0).2 hapart).imp (fun p hp => ⟨⟨hp.1.1, hp.1.2 hslab⟩, hp.2⟩)
        fun _ => id)).imp (fun _ => id) ?_).bind ?_
  · -- the area is one piece, before the array is moved and after
    rintro e (he | ⟨-, mid, ⟨hmid, -⟩, hz, h1, h2⟩)
    · exact .inl he
    have : pieces .reserved addr len mid ≤ 1 := hgaps mid hmid
    omega
  rintro ⟨ret, mb'⟩ ⟨mid, ⟨hmid, hprop⟩, -, -, hok⟩
  cases ret with
  | enomem => exact .inr rfl
  | ok =>
    obtain ⟨hadd, hwf⟩ := hok rfl
    have hmem : mb'.memory = mid.memory := (congrArg MemblockState.memory hadd.frame).trans rfl
    have hmax : mb'.reserved.max = mid.reserved.max := hadd.same.max
    exact ⟨hmem.trans hmid.memory, hwf hprop, hmax ▸ hmid.reservedMax⟩

end

end

/-- What a successful doubling of the memory array keeps. -/
structure Enlarged (mb mb' : MemblockState) : Prop where
  regions : mb'.memory.regions = mb.memory.regions
  total : mb'.memory.totalSize = mb.memory.totalSize
  max : mb'.memory.max = 2 * mb.memory.max
  reserved : WellFormed mb'.reserved
  reservedMax : 4 ≤ mb'.reserved.max

/-- Doubling the memory array: it fails and nothing changes, or the array is moved. -/
theorem doubleArray_memory (d : ℕ) (hv : Valid mb) (hs : start + size ≤ physAddrMax) :
    Ensures (doubleArray (d + 2) env .memory start size mb)
      (fun p => (p.1 = .enomem ∧ p.2 = mb) ∨ (p.1 = .ok ∧ Enlarged mb p.2))
      (fun e => e = .clobber ∨ e = .bugReserve) := by
  have hmax := hv.memoryMax
  rw [doubleArray]
  split
  · exact .inl ⟨rfl, rfl⟩
  refine ((newArrayAddr_spec hv.memory.good hv.reserved.good .memory
    (show 0 < 2 * mb.memory.max by omega) hs).imp (fun _ => id) fun _ h => h.elim).bind
      fun addr hplace => ?_
  split
  · exact .inl ⟨rfl, rfl⟩
  rename_i hne
  split
  · exact .inl rfl
  have hm : WellFormed (mb.memory.enlarge addr) :=
    hv.memory.moved rfl rfl (show mb.memory.max ≤ 2 * mb.memory.max by omega)
  have h4 : 4 ≤ (mb.memory.enlarge addr).max := show 4 ≤ 2 * mb.memory.max by omega
  have hblock : env.slabIsAvailable = false → ∃ flags, FreeBlock env numaNoNode flags mb
      env.pageSize physAddrMax (allocSize env (2 * mb.memory.max)) addr := fun hslab =>
    ((hplace hne).1 hslab).block
  have hhold : Holding env (mb.memory.enlarge addr) addr (allocSize env (2 * mb.memory.max))
      (mb.set .memory (mb.memory.enlarge addr)) := by
    refine ⟨rfl, hv.reserved, hv.reservedMax, fun hslab => ?_⟩
    obtain ⟨flags, hb⟩ := hblock hslab
    exact hb.free
  have harr : arrayBlock env mb.memory ≠ none → arrayBlock env (mb.memory.enlarge addr) =
      some (addr, allocSize env (2 * mb.memory.max)) := by
    intro h
    have : mb.memory.inSlab = false := by
      by_contra hs; simp [arrayBlock, Bool.eq_true_of_not_eq_false hs] at h
    simp [arrayBlock, MemblockType.enlarge, this]
  refine ((freeArray_holding hhold hm h4 d mb.memory harr).imp (fun _ => id) fun _ => .inl).bind
    fun mb1 h1 => ?_
  refine (reserveArray_holding h1 hm h4 d (allocSize_pos env (by omega)) hne (fun hslab => by
    obtain ⟨flags, hb⟩ := hblock hslab; exact hb.upper)).bind fun mb2 h2 => ?_
  obtain ⟨hmem, hres, hresmax⟩ := h2
  refine .inr ⟨rfl, ?_, ?_, ?_, hres, hresmax⟩
  all_goals
    simp only [MemblockState.set, MemblockState.get, MemblockType.setInSlab, hmem]
    rfl

end

end LinuxNote.Memblock
