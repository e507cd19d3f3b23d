import LinuxNote.ResourceTree.Adjust

/-! Allocation of a slot: `__find_resource` and `reallocate_resource`, and reservation with splits. -/

namespace LinuxNote.ResourceTree
open Outcome Forest List Option Resource Status Prod

/-- The range `[start, stop]` is apart from every resource of the list other than `old`. -/
def Clear (old : Option ℕ) (start stop : ℕ) (kids : Resources) : Prop :=
  ∀ r ∈ kids.siblings, some r.id ≠ old → stop < r.start ∨ r.stop < start

section
variable {kids : Resources} {root new : Resource} {old : Option ℕ} {size pid lo start s e : ℕ}
  {con : Constraint}

theorem resourceContains_range {r1 r2 : Resource} (h : resourceContains r1 r2 = true) :
    r1.start ≤ r2.start ∧ r2.stop ≤ r1.stop := by
  rw [resourceContains] at h
  split at h
  · simp at h
  split at h
  · simp at h
  · simpa using h

/-- A slot is in the range that was looked at, and clipping only raises the start. -/
theorem trySlot_spec (new : Resource) (size : ℕ) (con : Constraint) (start stop : ℕ) :
    start ≤ (trySlot new size con start stop).2 ∧
    ∀ s e, (trySlot new size con start stop).1 = some (s, e) → start ≤ s ∧ s ≤ e ∧ e ≤ stop := by
  rw [trySlot]
  split
  · exact ⟨le_rfl, by simp⟩
  have hclip : start ≤ (if start < con.min then con.min else start) := by
    split <;> omega
  have hend : (if stop > con.max then con.max else stop) ≤ stop := by
    split <;> omega
  generalize (if start < con.min then con.min else start) = start' at hclip
  generalize (if stop > con.max then con.max else stop) = stop' at hend
  dsimp only
  split
  · split
    · rename_i hge halloc
      refine ⟨hclip, fun s e h => ?_⟩
      obtain ⟨hle, hcon⟩ := halloc
      obtain ⟨h1, h2⟩ := resourceContains_range hcon
      obtain ⟨rfl, rfl⟩ := mk.inj (some.inj h)
      exact ⟨hclip.trans (hge.trans h1), hle, h2.trans hend⟩
    · exact ⟨hclip, by simp⟩
  · exact ⟨hclip, by simp⟩

/-- The loop finds a range in the root that is apart from the resources still to come. -/
theorem findLoop_spec (hv : Valid kids pid lo root.stop) (hmax : root.stop ≤ sizeMax) (hlo : 0 < lo)
    (h : findLoop root old new size con start kids = some (s, e)) :
    min start lo ≤ s ∧ s ≤ e ∧ e ≤ root.stop ∧ Clear old s e kids := by
  induction kids generalizing start lo with
  | nil =>
    obtain ⟨h1, h2, h3⟩ := (trySlot_spec new size con start root.stop).2 s e h
    exact ⟨by omega, h2, h3, by simp [Clear, siblings]⟩
  | cons this c t _ ih =>
    obtain ⟨h1, h2, h3, -, -, h6⟩ := hv
    rw [findLoop] at h
    obtain ⟨hstart, hslot⟩ := trySlot_spec new size con start
      (if some this.id = old then this.stop else pred64 this.start)
    generalize trySlot new size con start
      (if some this.id = old then this.stop else pred64 this.start) = slot at h hstart hslot
    split at h
    · -- found before `this`, or in its place when it is the old resource
      obtain ⟨hs, hse, he⟩ := hslot s e h
      have hpred : pred64 this.start = this.start - 1 := pred64_eq (by omega) (by omega)
      have hthis : e ≤ this.stop ∧ (some this.id ≠ old → e < this.start) := by
        split at he
        · exact ⟨he, fun hne => absurd (by assumption) hne⟩
        rw [hpred] at he
        exact ⟨by omega, fun _ => by omega⟩
      refine ⟨by omega, hse, by omega, fun r hr hne => .inl ?_⟩
      rcases mem_cons.mp hr with rfl | hr
      · exact hthis.2 hne
      have := (h6.bounds r hr).1
      omega
    split at h
    · simp at h
    rename_i hlast
    obtain ⟨hs, hse, he, hclear⟩ := ih h6 (by omega) h
    have hsucc : succ64 this.stop = this.stop + 1 := succ64_eq (by omega)
    have hthis : min start lo ≤ s ∧ (some this.id ≠ old → this.stop < s) := by
      split at hs
      · exact ⟨by omega, fun hne => absurd (by assumption) hne⟩
      rw [hsucc] at hs
      exact ⟨by omega, fun _ => by omega⟩
    refine ⟨hthis.1, hse, he, fun r hr hne => ?_⟩
    rcases mem_cons.mp hr with rfl | hr
    · exact .inr (hthis.2 hne)
    · exact hclear r hr hne

/-- `__find_resource` finds a range in the root that is apart from all its children but the old
    resource. The first child is an exception when it ends with the last address of all. -/
theorem findResource_spec (hv : Valid kids root.id root.start root.stop) (hmax : root.stop ≤ sizeMax)
    (hfirst : ∀ r ∈ kids.siblings.head?, some r.id ≠ old → r.stop < sizeMax)
    (h : findResource root old new size con kids = some (s, e)) :
    root.start ≤ s ∧ s ≤ e ∧ e ≤ root.stop ∧ Clear old s e kids := by
  rcases kids with _ | ⟨this, c, t⟩
  · have hnil : Valid .nil root.id (root.start + 1) root.stop := trivial
    obtain ⟨h1, h2, h3, h4⟩ := findLoop_spec hnil hmax (by omega) h
    exact ⟨by omega, h2, h3, h4⟩
  have hv' := hv
  obtain ⟨h1, h2, h3, -, -, h6⟩ := hv
  rw [findResource] at h
  split at h
  · rename_i hstart
    obtain ⟨hs, hse, he, hclear⟩ := findLoop_spec h6 hmax (by omega) h
    have hthis : root.start ≤ s ∧ (some this.id ≠ old → this.stop < s) := by
      split at hs
      · exact ⟨by omega, fun hne => absurd (by assumption) hne⟩
      rename_i hne
      rw [succ64_eq (hfirst this (by simp [siblings]) hne)] at hs
      exact ⟨by omega, fun _ => by omega⟩
    refine ⟨hthis.1, hse, he, fun r hr hne => ?_⟩
    rcases mem_cons.mp hr with rfl | hr
    · exact .inr (hthis.2 hne)
    · exact hclear r hr hne
  have hpos : 0 < this.start := by omega
  obtain ⟨hs, hse, he, hclear⟩ := findLoop_spec (hv'.raise le_rfl) hmax hpos h
  exact ⟨by omega, hse, he, hclear⟩

end

/-! ### Moving a resource -/

section
variable {kids c : Resources} {o : Resource} {old pid lo hi start stop : ℕ}

theorem childAt_mem (h : childAt old kids = some (o, c)) : o.id = old ∧ (o, c) ∈ kids.top := by
  induction kids with
  | nil => simp [childAt] at h
  | cons r d s _ ih =>
    rw [childAt] at h
    split at h
    · obtain ⟨rfl, rfl⟩ := mk.inj (some.inj h)
      exact ⟨by assumption, mem_cons_self ..⟩
    · exact ⟨(ih h).1, mem_cons_of_mem _ (ih h).2⟩

theorem ids_moveChild (kids : Resources) : ids (moveChild old start stop kids) = ids kids := by
  refine keys_mapTop (fun r => ?_) kids
  split <;> rfl

theorem moveChild_of_notMem (h : ∀ r ∈ kids.siblings, r.id ≠ old) :
    moveChild old start stop kids = kids := by
  induction kids with
  | nil => rfl
  | cons r c s _ ih =>
    have hr := h r (mem_cons_self ..)
    rw [moveChild, mapTop, ← moveChild, ih fun q hq => h q (mem_cons_of_mem _ hq), if_neg hr]

theorem siblings_ids {r : Resource} (h : r ∈ kids.siblings) : r.id ∈ ids kids := by
  obtain ⟨d, hd⟩ := siblings_subset_nodes h
  exact key_mem_keys hd

/-- A child can take any range that has something in common with its old one and nothing with its
    siblings, as long as its own children fit. -/
theorem Valid.moveChild (hv : Valid kids pid lo hi) (hn : (ids kids).Nodup)
    (ho : childAt old kids = some (o, c)) (hlo : lo ≤ start) (hle : start ≤ stop) (hhi : stop ≤ hi)
    (hover : start ≤ o.stop ∧ o.start ≤ stop) (hclear : Clear (some old) start stop kids)
    (hc : Valid c o.id start stop) : Valid (moveChild old start stop kids) pid lo hi := by
  induction kids generalizing lo with
  | nil => trivial
  | cons r d s _ ih =>
    obtain ⟨h1, h2, h3, h4, h5, h6⟩ := hv
    obtain ⟨-, hrs, -, hns, -⟩ := Forest.nodup_cons.mp hn
    rw [ResourceTree.moveChild, mapTop, ← ResourceTree.moveChild]
    rw [childAt] at ho
    split at ho
    · rename_i hid
      obtain ⟨rfl, rfl⟩ := mk.inj (some.inj ho)
      have hne : ∀ q ∈ s.siblings, q.id ≠ old := fun q hq heq =>
        hrs (by rw [hid, ← heq]; exact siblings_ids hq)
      rw [if_pos hid, moveChild_of_notMem hne]
      refine ⟨hlo, hle, hhi, h4, hc, h6.restrict fun q hq => ?_⟩
      -- the siblings after it are after the new range as well
      obtain ⟨h7, h8, h9, -⟩ := h6.bounds q hq
      have := hclear q (mem_cons_of_mem _ hq) (by simpa using hne q hq)
      simp only [move]
      omega
    rename_i hid
    obtain ⟨h7, h8, -⟩ := h6.bounds o (mem_siblings_of_top (childAt_mem ho).2)
    have hr := hclear r (mem_cons_self ..) (by simpa using hid)
    rw [if_neg hid]
    refine ⟨h1, h2, h3, h4, h5, ih h6 hns ho (by omega) fun q hq => ?_⟩
    exact hclear q (mem_cons_of_mem _ hq)

/-- When there is another child after it, the first child does not end with the last address. -/
theorem head_stop_lt (hv : Valid kids pid lo hi) (hmax : hi ≤ sizeMax)
    (ho : childAt old kids = some (o, c)) :
    ∀ r ∈ kids.siblings.head?, some r.id ≠ some old → r.stop < sizeMax := by
  rcases kids with _ | ⟨q, d, s⟩
  · simp [siblings]
  intro r hr hne
  obtain rfl : q = r := by simpa [siblings] using hr
  obtain ⟨-, -, -, -, -, h6⟩ := hv
  rw [childAt, if_neg (by simpa using hne)] at ho
  obtain ⟨h7, h8, h9, -⟩ := h6.bounds o (mem_siblings_of_top (childAt_mem ho).2)
  omega

/-- A child without children, released: the others are left. -/
theorem releaseLoop_childless (hn : (ids kids).Nodup) (hv : Valid kids pid lo hi)
    (ho : childAt old kids = some (o, .nil)) :
    ∃ rest, releaseLoop old true kids = some rest ∧ Valid rest pid lo hi ∧ OneMore old rest kids ∧
      ∀ r ∈ rest.siblings, r ∈ kids.siblings ∧ r.id ≠ old := by
  induction kids generalizing lo with
  | nil => simp [childAt] at ho
  | cons r d s _ ih =>
    obtain ⟨h1, h2, h3, h4, h5, h6⟩ := hv
    obtain ⟨-, hrs, -, hns, -⟩ := Forest.nodup_cons.mp hn
    rw [childAt] at ho
    rw [releaseLoop]
    split at ho
    · rename_i hid
      obtain ⟨rfl, rfl⟩ := mk.inj (some.inj ho)
      refine ⟨s, by simp [hid], h6.mono (by omega) le_rfl, fun x => ?_, fun q hq => ?_⟩
      · simp only [ids_cons, ids_nil, hid, nil_append, count_cons, count_nil]
        omega
      refine ⟨mem_cons_of_mem _ hq, fun heq => hrs ?_⟩
      rw [hid, ← heq]
      exact siblings_ids hq
    rename_i hid
    obtain ⟨rest, hrel, hval, hone, hsib⟩ := ih hns h6 ho
    refine ⟨.cons r d rest, by rw [if_neg hid, hrel]; rfl, ⟨h1, h2, h3, h4, h5, hval⟩, hone.sibling,
      fun q hq => ?_⟩
    rcases mem_cons.mp hq with rfl | hq
    · exact ⟨mem_cons_self .., hid⟩
    · exact ⟨mem_cons_of_mem _ (hsib q hq).1, (hsib q hq).2⟩

end

/-! ### The operations -/

section
variable {kids : Resources} {root new : Resource}

/-- `__request_resource`, on the children of a node. -/
theorem requestResource_spec (new : Resource) (hv : Valid kids root.id root.start root.stop) :
    Ensures (requestResource root new .nil kids)
      (fun kids' => Valid kids' root.id root.start root.stop ∧ OneMore new.id kids kids')
      (fun conflict => (conflict = root ∧ outside root new.start new.stop) ∨
        (conflict ∈ kids.siblings ∧ Overlaps conflict new)) := by
  rw [requestResource]
  split
  · rename_i hout
    exact .inl ⟨rfl, hout⟩
  rename_i hin
  rw [outside] at hin
  exact (requestLoop_spec (new.under root.id) hv rfl (show root.start ≤ new.start by omega)
    (show new.start ≤ new.stop by omega) (show new.stop ≤ root.stop by omega)).imp
      (fun _ => id) fun _ => .inr

section
variable (size : ℕ) (con : Constraint) (hv : Valid kids root.id root.start root.stop)
include size con hv

theorem allocateNew_keeps :
    Keeps [new.id] root.id root.start root.stop kids (allocateNew root new .nil size con kids).2 ∧
      (allocateNew root new .nil size con kids).1.Returns := by
  rw [allocateNew]
  rcases findResource root none new size con kids with _ | p
  · exact ⟨.refl hv, by simp [Returns]⟩
  have hspec := requestResource_spec (new.move p.1 p.2) hv
  dsimp only
  cases hreq : requestResource root (new.move p.1 p.2) .nil kids with
  | ok kids' =>
    obtain ⟨hval, hone⟩ := hspec.of_ok hreq
    exact ⟨⟨hval, hone.within⟩, by simp [Returns]⟩
  | error e => exact ⟨.refl hv, by simp [Returns]⟩

/-- `reallocate_resource` keeps the list in shape, and its `BUG_ON` is not reached. -/
theorem reallocateResource_keeps {old : ℕ} (hn : (ids kids).Nodup) (hmax : root.stop ≤ sizeMax) :
    Keeps [] root.id root.start root.stop kids (reallocateResource root old size con kids).2 ∧
    (reallocateResource root old size con kids).1.Returns := by
  rw [reallocateResource]
  rcases ho : childAt old kids with _ | p
  · exact ⟨.refl hv, by simp [Returns]⟩
  obtain ⟨o, c⟩ := p
  dsimp only
  rcases hfind : findResource root (some old) o size con kids with _ | q
  · exact ⟨.refl hv, by simp [Returns]⟩
  obtain ⟨start, stop⟩ := q
  dsimp only
  obtain ⟨hoid, hotop⟩ := childAt_mem ho
  obtain ⟨hob1, hob2, hob3, -⟩ := hv.bounds o (mem_siblings_of_top hotop)
  have hoc := (hv.node (top_subset_nodes hotop)).2.2
  have hfirst := head_stop_lt hv hmax ho
  obtain ⟨hs, hle, he, hclear⟩ := findResource_spec hv hmax hfirst hfind
  have hmove : start ≤ o.stop ∧ o.start ≤ stop → Valid c o.id start stop →
      Keeps [] root.id root.start root.stop kids (moveChild old start stop kids) := by
    intro hover hc
    refine ⟨hv.moveChild hn ho hs hle he hover hclear hc, fun x => ?_⟩
    rw [ids_moveChild]
    exact Nat.le_add_left ..
  split
  · rename_i hcon
    obtain ⟨h1, h2⟩ := resourceContains_range hcon
    simp only [move] at h1 h2
    exact ⟨hmove (by omega) (hoc.mono h1 h2), by simp [Returns]⟩
  split
  · exact ⟨.refl hv, by simp [Returns]⟩
  rename_i hnil
  obtain rfl : c = .nil := by simpa using hnil
  split
  · rename_i hcon
    obtain ⟨h1, h2⟩ := resourceContains_range hcon
    simp only [move] at h1 h2
    exact ⟨hmove (by omega) trivial, by simp [Returns]⟩
  obtain ⟨rest, hrel, hval, hone, hsib⟩ := releaseLoop_childless hn hv ho
  rw [hrel, getD_some]
  have hspec := requestResource_spec (o.move start stop) hval
  cases hreq : requestResource root (o.move start stop) .nil rest with
  | ok kids' =>
    obtain ⟨hval', hone'⟩ := hspec.of_ok hreq
    refine ⟨⟨hval', fun x => ?_⟩, by simp [Returns]⟩
    have h1 := hone x
    have h2 := hone' x
    rw [show (o.move start stop).id = old from hoid] at h2
    simp only [count_nil]
    omega
  | error e =>
    -- the slot is in the root, and apart from the other children
    rcases hspec.of_error hreq with ⟨-, hout⟩ | ⟨hmem, hover⟩
    · simp only [outside, move] at hout
      omega
    have := hclear e (hsib e hmem).1 (by simpa using (hsib e hmem).2)
    simp only [Overlaps, move] at hover
    omega

end

end

/-! ### Reserving with splits -/

section
variable {kids : Resources} {root : Resource}

/-- How much of a range is left to do. -/
def Resource.len (r : Resource) : ℕ := r.stop + 1 - r.start

/-- The addresses that the calls of `alloc_resource` return. -/
def allocated (allocs : List (Option ℕ)) : List ℕ := allocs.filterMap id

theorem allocated_cons_some (a : ℕ) (allocs : List (Option ℕ)) :
    allocated (some a :: allocs) = a :: allocated allocs := rfl

/-- The resources that may still be used: those of what is to be reserved, and the ones to come. -/
def pendingIds (allocs : List (Option ℕ)) (res : Resource) (nextRes : Option Resource) : List ℕ :=
  res.id :: ((nextRes.map Resource.id).toList ++ allocated allocs)

def pendingLen (res : Resource) (nextRes : Option Resource) : ℕ :=
  res.len + (nextRes.map len).getD 0

/-- The range is not empty and in the root. -/
def Fits (root r : Resource) : Prop := root.start ≤ r.start ∧ r.start ≤ r.stop ∧ r.stop ≤ root.stop

variable (hmax : root.stop ≤ sizeMax) (hv : Valid kids root.id root.start root.stop)
include hmax hv

/-- The loop ends with the list in shape, having used resources that were still to be used. -/
theorem splitLoop_keeps (fuel : ℕ) (allocs : List (Option ℕ)) (res : Resource)
    (nextRes : Option Resource) (hres : Fits root res) (hnext : ∀ r ∈ nextRes, Fits root r)
    (hfuel : pendingLen res nextRes ≤ fuel) :
    ∃ kids', splitLoop root fuel allocs res nextRes kids = some kids' ∧
    Keeps (pendingIds allocs res nextRes) root.id root.start root.stop kids kids' := by
  induction fuel generalizing allocs res nextRes kids with
  | zero =>
    simp only [pendingLen, len, Fits] at hfuel hres
    omega
  | succ fuel ih =>
    obtain ⟨h1, h2, h3⟩ := hres
    have hspec := requestResource_spec res hv
    rw [splitLoop]
    cases hreq : requestResource root res .nil kids with
    | ok kids' =>
      obtain ⟨hval, hone⟩ := hspec.of_ok hreq
      rcases nextRes with _ | nx
      · refine ⟨kids', rfl, hval, fun x => ?_⟩
        have := hone x
        simp only [pendingIds, count_cons, count_append, count_nil] at *
        omega
      have hfuel' : pendingLen nx none ≤ fuel := by
        simp only [pendingLen, len, map_some, getD_some, map_none, getD_none] at *
        omega
      obtain ⟨kids'', hrun, hkeep⟩ := ih hval allocs nx none (hnext nx rfl) (by simp) hfuel'
      refine ⟨kids'', hrun, hkeep.1, fun x => ?_⟩
      have hx1 := hone x
      have hx2 := hkeep.2 x
      simp only [pendingIds, map_some, map_none, toList, count_cons, count_append, count_nil] at *
      omega
    | error conflict =>
      obtain ⟨hmem, hover⟩ : conflict ∈ kids.siblings ∧ Overlaps conflict res := by
        refine (hspec.of_error hreq).resolve_left fun h => ?_
        simp only [outside] at h
        omega
      obtain ⟨hb1, hb2, hb3, -⟩ := hv.bounds conflict hmem
      rw [Overlaps] at hover
      dsimp only
      split
      · exact ⟨kids, rfl, .refl hv⟩
      split
      · rename_i hcover hlow
        have hpred : pred64 conflict.start = conflict.start - 1 := pred64_eq (by omega) (by omega)
        rw [hpred]
        have hlower : Fits root { res with stop := conflict.start - 1 } :=
          ⟨h1, by simp only; omega, by simp only; omega⟩
        split
        · have hsucc : succ64 conflict.stop = conflict.stop + 1 := succ64_eq (by omega)
          rw [hsucc]
          rcases allocs with _ | ⟨alloc, allocs⟩
          · exact ⟨kids, rfl, .refl hv⟩
          rcases alloc with _ | id
          · exact ⟨kids, rfl, .refl hv⟩
          have hupper : ∀ r ∈ some { res with id := id, start := conflict.stop + 1 }, Fits root r := by
            rintro r ⟨⟩
            exact ⟨by simp only; omega, by simp only; omega, h3⟩
          obtain ⟨kids', hrun, hkeep⟩ := ih hv allocs _ _ hlower hupper (by
            simp only [pendingLen, len, map_some, getD_some] at *
            omega)
          refine ⟨kids', hrun, hkeep.mono fun x => ?_⟩
          simp only [pendingIds, map_some, toList, count_cons, count_append, count_nil,
            allocated_cons_some]
          omega
        refine ih hv allocs _ _ hlower hnext ?_
        simp only [pendingLen, len] at *
        omega
      have hsucc : succ64 conflict.stop = conflict.stop + 1 := succ64_eq (by omega)
      rw [hsucc]
      have hshift : Fits root { res with start := conflict.stop + 1 } :=
        ⟨by simp only; omega, by simp only; omega, h3⟩
      refine ih hv allocs _ _ hshift hnext ?_
      simp only [pendingLen, len] at *
      omega

theorem reserveSplit_keeps {start stop name : ℕ} (allocs : List (Option ℕ)) (hs : root.start ≤ start)
    (hle : start ≤ stop) (he : stop ≤ root.stop) :
    ∃ kids', reserveSplit root allocs start stop name kids = some kids' ∧
    Keeps (allocated allocs) root.id root.start root.stop kids kids' := by
  rcases allocs with _ | ⟨alloc, allocs⟩
  · exact ⟨kids, rfl, .refl hv⟩
  rcases alloc with _ | id
  · exact ⟨kids, rfl, .refl hv⟩
  obtain ⟨kids', hrun, hkeep⟩ := splitLoop_keeps hmax hv (stop - start + 2) allocs
    ⟨id, start, stop, name, root.type ||| ioresourceBusy, 0, none⟩ none ⟨hs, hle, he⟩ (by simp) (by
      simp only [pendingLen, len, map_none, getD_none]
      omega)
  refine ⟨kids', hrun, hkeep.mono fun x => ?_⟩
  simp [pendingIds, allocated_cons_some]

theorem reserveRegionWithSplit_keeps {start stop name : ℕ} (allocs : List (Option ℕ))
    (hroot : root.start ≤ root.stop) (hle : start ≤ stop) :
    ∃ kids', reserveRegionWithSplit root allocs start stop name kids = some kids' ∧
    Keeps (allocated allocs) root.id root.start root.stop kids kids' := by
  rw [reserveRegionWithSplit]
  split
  · split
    · exact ⟨kids, rfl, .refl hv⟩
    · exact reserveSplit_keeps hmax hv allocs (by omega) (by omega) (by omega)
  · exact reserveSplit_keeps hmax hv allocs (by omega) hle (by omega)

end

end LinuxNote.ResourceTree
