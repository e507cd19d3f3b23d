import LinuxNote.Memblock.Double

/-! What the changing calls mean for the map from addresses to node and flags. A call gives its range the
    new attributes, takes the range out of the map, or changes the node or a flag on the covered part of
    the range. When the array of `memblock.reserved` has to be doubled on the way, the memory of the old
    array is given back and that of the new one reserved first, and that shows in the map as well. -/

namespace LinuxNote.Memblock
open Intervals Outcome

/-- The calls that change a region array. -/
inductive Request where
  | addRange (t : TypeId) (base size : ℕ) (nid : ℤ) (flags : Flags)
  | removeRange (t : TypeId) (base size : ℕ)
  | setNode (base size : ℕ) (t : TypeId) (nid : ℤ)
  | setclrFlag (base size : ℕ) (set : Bool) (flag : Flags)
  deriving DecidableEq

/-- The type a call changes. -/
def Request.type : Request → TypeId
  | .addRange t _ _ _ _ => t
  | .removeRange t _ _ => t
  | .setNode _ _ t _ => t
  | .setclrFlag _ _ _ _ => .memory

def Request.base : Request → ℕ
  | .addRange _ base _ _ _ => base
  | .removeRange _ base _ => base
  | .setNode base _ _ _ => base
  | .setclrFlag base _ _ _ => base

/-- The size of the range, capped so that its end fits. -/
def Request.size : Request → ℕ
  | .addRange _ base size _ _ => capSize base size
  | .removeRange _ base size => capSize base size
  | .setNode base size _ _ => capSize base size
  | .setclrFlag base size _ _ => capSize base size

/-- The call itself; an array is doubled at most inside one other doubling. -/
def Request.run (env : Env) : Request → Call
  | .addRange t base size nid flags => Memblock.addRange (doubleArray 2 env) t base size nid flags
  | .removeRange t base size => Memblock.removeRange (doubleArray 2 env) env.maxNumNodes t base size
  | .setNode base size t nid => Memblock.setNode (doubleArray 2 env) base size t nid
  | .setclrFlag base size set flag => Memblock.setclrFlag (doubleArray 2 env) base size set flag

/-- What a call is for, on the map of its type. -/
def Request.effect (q : Request) (m : ℕ → Option (ℤ × Flags)) : ℕ → Option (ℤ × Flags) :=
  match q with
  | .addRange _ _ _ nid flags => addOn q.base (q.base + q.size) (nid, flags) m
  | .removeRange _ _ _ => eraseOn q.base (q.base + q.size) m
  | .setNode _ _ _ nid => mapOn q.base (q.base + q.size) (fun p => (nid, p.2)) m
  | .setclrFlag _ _ set flag => mapOn q.base (q.base + q.size)
      (fun p => (p.1, if set then p.2 ||| flag else p.2 &&& ~~~flag)) m

/-! ### Room for a call -/

/-- The state in which there is room for a call on type `t`, reached by doubling the array of `t`. -/
structure Grown (env : Env) (t : TypeId) (start size : ℕ) (mb mid : MemblockState) : Prop where
  valid : Valid mid
  memory : t = .memory → mid.memory.regions = mb.memory.regions
  reserved : t = .reserved → Relation.ReflTransGen (Relocates env start size) mb mid
  same : (mid.get t).max ≤ (mb.get t).max → mid = mb
  larger : (mb.get t).max ≤ (mid.get t).max

section
variable {env : Env} {t : TypeId} {start size : ℕ} {mb mid mid' : MemblockState}

theorem Grown.refl (h : Valid mb) : Grown env t start size mb mb :=
  ⟨h, fun _ => rfl, fun _ => .refl, fun _ => rfl, le_rfl⟩

theorem Relocates.valid (h : Relocates env start size mb mid) (hv : Valid mb) : Valid mid := by
  have := hv.reservedMax
  exact ⟨h.memory ▸ hv.memory, h.wellFormed, h.memory ▸ hv.memoryMax, by rw [h.max]; omega⟩

theorem Enlarged.valid (h : Enlarged mb mid) (hv : Valid mb) : Valid mid := by
  have := hv.memoryMax
  exact ⟨hv.memory.moved h.regions h.total (by rw [h.max]; omega), h.reserved,
    by rw [h.max]; omega, h.reservedMax⟩

theorem Grown.relocates (h : Grown env .reserved start size mb mid)
    (hrel : Relocates env start size mid mid') : Grown env .reserved start size mb mid' := by
  have h1 := h.larger
  have h2 := h.valid.reservedMax
  have h3 := hrel.max
  refine ⟨hrel.valid h.valid, by simp, fun _ => (h.reserved rfl).tail hrel, fun h' => ?_, ?_⟩
  all_goals simp only [MemblockState.get] at *; omega

theorem Grown.enlarged (h : Grown env .memory start size mb mid) (henl : Enlarged mid mid') :
    Grown env .memory start size mb mid' := by
  have h1 := h.larger
  have h2 := h.valid.memoryMax
  have h3 := henl.max
  refine ⟨henl.valid h.valid, fun _ => henl.regions.trans (h.memory rfl), by simp, fun h' => ?_, ?_⟩
  all_goals simp only [MemblockState.get] at *; omega

/-- How making room for a call on type `t` can fault. -/
def GrowFault (env : Env) (t : TypeId) (start size : ℕ) (mb : MemblockState) (e : Fault) : Prop :=
  (t = .memory ∧ (e = .clobber ∨ e = .bugReserve)) ∨
  (t = .reserved ∧ e = .clobber ∧ ∃ mid, Grown env t start size mb mid ∧ Exposed env mid)

theorem GrowFault.eq {e : Fault} (h : GrowFault env t start size mb e) :
    e = .clobber ∨ e = .bugReserve := by
  rcases h with ⟨-, h⟩ | ⟨-, h, -⟩
  · exact h
  · exact .inl h

/-- Making room: the loop ends with room, or with a state from which the array could not be doubled
    again. -/
theorem grow_grown (need : ℕ) (hv : Valid mb) (hs : start + size ≤ physAddrMax) :
    Ensures (grow (doubleArray 2 env t start size) t need mb)
      (fun p => Grown env t start size mb p.2 ∧ (p.1 = .ok → (p.2.get t).cnt + need ≤ (p.2.get t).max))
      (GrowFault env t start size mb) := by
  refine grow_spec need (P := Grown env t start size mb) (fun mid h => ?_) (fun mid h => ?_) (.refl hv)
  · cases t
    · exact h.valid.memoryMax
    · exact h.valid.reservedMax
  rcases t with _ | _
  · refine (doubleArray_memory 0 h.valid hs).imp ?_ (fun _ he => .inl ⟨rfl, he⟩)
    rintro ⟨ret, mid'⟩ (⟨hret, heq⟩ | ⟨-, henl⟩)
    · obtain rfl : ret = .enomem := hret
      obtain rfl : mid' = mid := heq
      exact ⟨h, by simp⟩
    refine ⟨h.enlarged henl, fun _ => ⟨henl.max, ?_⟩⟩
    show mid'.memory.regions.length ≤ mid.memory.regions.length + 3
    rw [henl.regions]; omega
  refine (doubleArray_reserved 1 h.valid hs).imp ?_ (fun _ he => .inr ⟨rfl, he.1, mid, h, he.2⟩)
  rintro ⟨ret, mid'⟩ (⟨hret, heq⟩ | ⟨-, hrel⟩)
  · obtain rfl : ret = .enomem := hret
    obtain rfl : mid' = mid := heq
    exact ⟨h, by simp⟩
  · exact ⟨h.relocates hrel, fun _ => ⟨hrel.max, hrel.cnt⟩⟩

end

/-! ### The calls -/

/-- What a call that returned did: with `-ENOMEM` nothing but make room; otherwise it changed the map
    of its type as it is meant to, and only that type. -/
structure Did (env : Env) (q : Request) (mb : MemblockState) (p : Ret × MemblockState)
    (mid : MemblockState) : Prop where
  grown : Grown env q.type q.base q.size mb mid
  enomem : p.1 = .enomem → p.2 = mid
  frame : p.1 = .ok → p.2 = mid.set q.type (p.2.get q.type)
  same : p.1 = .ok → SameArray (mid.get q.type) (p.2.get q.type)
  map : p.1 = .ok → ∀ a, attrs (p.2.get q.type).regions a = q.effect (attrs (mid.get q.type).regions) a
  needed : ∀ t base size nid flags, q = .addRange t base size nid flags → mid = mb ∨
    Proper (mb.get t).regions ∧ (mb.get t).max < (mb.get t).cnt + gaps (base + capSize base size) base
    (mb.get t).regions
  wellFormed : p.1 = .ok → (mid = mb ∨ Proper (mid.get q.type).regions ∨
    ∀ t base size nid flags, q ≠ .addRange t base size nid flags) → WellFormed (p.2.get q.type)

theorem run_spec (env : Env) (q : Request) {mb : MemblockState} (hv : Valid mb) :
    Ensures (q.run env mb) (fun p => ∃ mid, Did env q mb p mid)
      (fun e => GrowFault env q.type q.base q.size mb e ∨ e = .bugInsert) := by
  have hupd : ∀ {t : TypeId} {base size : ℕ} {f : Region → Region} {g : ℤ × Flags → ℤ × Flags},
      (∀ r, (f r).base = r.base) → (∀ r, (f r).size = r.size) → (∀ r, (f r).attr = g r.attr) →
      Ensures (updateRange (doubleArray 2 env) f t base size mb)
        (fun p => ∃ mid, Grown env t base (capSize base size) mb mid ∧ (p.1 = .enomem → p.2 = mid) ∧
          (p.1 = .ok → Changed t (mapOn base (base + capSize base size) g) mid p.2))
        (fun e => GrowFault env t base (capSize base size) mb e ∨ e = .bugInsert) := by
    intro t base size f g h1 h2 h3
    exact (updateRange_spec (P := fun _ => Grown env t base (capSize base size) mb)
      (fun h0 => grow_grown 2 hv (padd_capSize base size h0).2) (.refl hv) (fun mid h => h.valid.get t)
      h1 h2 h3).imp (fun _ => id) (fun _ => .inl)
  cases q with
  | addRange t base size nid flags =>
    refine (addRange_spec (P := fun _ => Grown env t base (capSize base size) mb) nid flags
      (.refl hv) (fun mid h => h.valid.get t)
      (fun h0 => grow_grown _ hv (padd_capSize base size h0).2)).imp ?_ ?_
    · rintro p ⟨mid, hg, hneed, herr, hok⟩
      refine ⟨mid, hg, herr, fun h => (hok h).1.frame, fun h => (hok h).1.same,
        fun h => (hok h).1.map, ?_, fun h hwf => (hok h).2 ?_⟩
      · rintro _ _ _ _ _ ⟨⟩
        exact hneed.imp_right (And.imp_right not_le.mp)
      rcases hwf with h | h | h
      · exact .inl h
      · exact .inr h
      · exact absurd rfl (h t base size nid flags)
    rintro e (he | ⟨he, -⟩)
    · exact .inl he
    · exact .inr he
  | removeRange t base size =>
    refine (removeRange_spec (P := fun _ => Grown env t base (capSize base size) mb)
      (fun h0 => grow_grown 2 hv (padd_capSize base size h0).2) (.refl hv)
      (fun mid h => h.valid.get t) env.maxNumNodes).imp ?_ (fun _ => .inl)
    rintro p ⟨mid, hg, herr, hok⟩
    exact ⟨mid, hg, herr, fun h => (hok h).1.frame, fun h => (hok h).1.same,
      fun h => (hok h).1.map, by simp, fun h _ => (hok h).1.wellFormed⟩
  | setNode base size t nid =>
    refine (hupd (f := fun r => { r with nid := nid }) (g := fun p => (nid, p.2)) (fun _ => rfl)
      (fun _ => rfl) (fun _ => rfl)).imp ?_ (fun _ => id)
    rintro p ⟨mid, hg, herr, hok⟩
    exact ⟨mid, hg, herr, fun h => (hok h).frame, fun h => (hok h).same, fun h => (hok h).map,
      by simp, fun h _ => (hok h).wellFormed⟩
  | setclrFlag base size set flag =>
    refine (hupd (f := fun r =>
        { r with flags := if set then r.flags ||| flag else r.flags &&& ~~~flag })
      (g := fun p => (p.1, if set then p.2 ||| flag else p.2 &&& ~~~flag)) (fun _ => rfl)
      (fun _ => rfl) (fun _ => rfl)).imp ?_ (fun _ => id)
    rintro p ⟨mid, hg, herr, hok⟩
    exact ⟨mid, hg, herr, fun h => (hok h).frame, fun h => (hok h).same, fun h => (hok h).map,
      by simp, fun h _ => (hok h).wellFormed⟩

/-- The map after a call that returned. A call on `memblock.memory` that succeeds has its effect on the
    map and one that fails has none. On `memblock.reserved` the effect is on the map as the relocations
    of the array left it, and a failed call leaves that map; without a relocation it is the map before
    the call. -/
theorem run_map (env : Env) (q : Request) {mb mb' : MemblockState} {ret : Ret} (hv : Valid mb)
    (h : q.run env mb = .ok (ret, mb')) :
    ∃ mid : MemblockState,
    (q.type = .memory → ∀ a, attrs mid.memory.regions a = attrs mb.memory.regions a) ∧
    (q.type = .reserved → Relation.ReflTransGen (Relocates env q.base q.size) mb mid) ∧
    ((mid.get q.type).max = (mb.get q.type).max → mid = mb) ∧
    (ret = .ok → ∀ a, attrs (mb'.get q.type).regions a = q.effect (attrs (mid.get q.type).regions) a) ∧
    (ret = .enomem → mb' = mid) := by
  obtain ⟨mid, hdid⟩ := (run_spec env q hv).of_ok h
  refine ⟨mid, fun ht a => ?_, hdid.grown.reserved, fun hm => hdid.grown.same hm.le, hdid.map,
    hdid.enomem⟩
  rw [hdid.grown.memory ht]

/-- A gigabyte of memory, and a full array of reservations. -/
def fullState : MemblockState :=
  ⟨⟨[⟨0, 2 ^ 30, 0, 0⟩], 128, 2 ^ 30, none, false⟩, evenMemory 128⟩

theorem valid_fullState : Valid fullState where
  memory := ⟨good_cons.mpr ⟨by decide, by simp, good_nil⟩, .inl (by simp [Proper, fullState]),
    List.isChain_singleton _, by simp [fullState], by decide, rfl⟩
  reserved := wellFormed_evenMemory (by decide) (by decide)
  memoryMax := by decide
  reservedMax := by decide

/-- Reserving one byte with a full array also reserves the two pages of the new array. -/
theorem run_map_relocation :
    Valid fullState ∧ ∃ mb', (Request.addRange .reserved 1000 1 64 0).run plainEnv fullState =
      .ok (.ok, mb') ∧ attrs fullState.reserved.regions 0x3fffe000 = none ∧
    attrs mb'.reserved.regions 0x3fffe000 = some (64, 0) := by
  refine ⟨valid_fullState, ?_⟩
  have h : ((Request.addRange .reserved 1000 1 64 0).run plainEnv fullState).toOption.map
      (fun p => (p.1, attrs p.2.reserved.regions 0x3fffe000)) = some (.ok, some (64, 0)) := by
    decide +kernel
  obtain ⟨⟨ret, mb'⟩, hrun, hvals⟩ := exists_ok h
  obtain ⟨rfl, hattr⟩ := Prod.mk.inj hvals
  exact ⟨mb', hrun, by decide +kernel, hattr⟩

/-- Freeing the middle of a reservation. -/
theorem run_map_remove :
    ∃ mid : MemblockState, ∀ a, attrs [⟨0, 5, 64, 0⟩, ⟨15, 5, 64, 1⟩, ⟨50, 5, 64, 0⟩] a =
      (Request.removeRange .reserved 5 10).effect (attrs (mid.get .reserved).regions) a := by
  have hv : Valid ⟨touchingMemory, touchingReserved⟩ :=
    ⟨wellFormed_touchingMemory, wellFormed_touchingReserved, by decide, by decide⟩
  have hrun : (Request.removeRange .reserved 5 10).run plainEnv ⟨touchingMemory, touchingReserved⟩ = .ok
    (.ok, ⟨touchingMemory,
        ⟨[⟨0, 5, 64, 0⟩, ⟨15, 5, 64, 1⟩, ⟨50, 5, 64, 0⟩], 128, 15, none, false⟩⟩) := by decide
  obtain ⟨mid, -, -, -, hmap, -⟩ := run_map plainEnv (.removeRange .reserved 5 10) hv hrun
  exact ⟨mid, hmap rfl⟩

end LinuxNote.Memblock
