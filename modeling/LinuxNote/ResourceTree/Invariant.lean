import LinuxNote.ResourceTree.Allocate
import LinuxNote.ResourceTree.Region

/-! The shape of the resource tree over runs of all the operations. -/

namespace LinuxNote.ResourceTree
open Forest Option List Status

/-- `adjust_resource`. The root has no parent and no siblings to look at. -/
def Tree.adjustResource (t : Tree) (res start size : ℕ) : Option (Status × Tree) :=
  (t.find? res).bind fun r =>
    match r.parent with
    | none =>
      if sticksOut start (rangeEnd start size) t.child then some (.busy, t)
      else some (.ok, { t with root := t.root.move start (rangeEnd start size) })
    | some p =>
      t.modifyAt p fun parent kids => adjustLoop parent res start (rangeEnd start size) none kids

/-- `allocate_resource`: a resource that is already in the tree is reallocated. -/
def Tree.allocateResource (t : Tree) (root : ℕ) (new : Resource) (child : Resources) (size : ℕ)
    (con : Constraint) : Option (Status × Tree) :=
  match t.find? new.id with
  | some _ => t.modifyAt root fun r kids => reallocateResource r new.id size con kids
  | none => t.modifyAt root fun r kids => allocateNew r new child size con kids

/-- A conflict is reported as `-EBUSY`. -/
def conflictStatus (p : Option Resource × Tree) : Status × Tree :=
  (if p.1.isSome then .busy else .ok, p.2)

/-- The operations that change a tree, with their arguments. Nodes are given by their address. A resource
    to be put in is given as it is at the call, with the children its child pointer leads to; `alloc` is
    what `alloc_resource` returns. -/
inductive Op where
  | requestResource (root : ℕ) (new : Resource) (child : Resources)
  | releaseResource (old : ℕ)
  | insertResource (parent : ℕ) (new : Resource) (child : Resources)
  | removeResource (old : ℕ)
  | adjustResource (res start size : ℕ)
  | allocateResource (root : ℕ) (new : Resource) (child : Resources) (size : ℕ) (con : Constraint)
  | reserveRegionWithSplit (root : ℕ) (allocs : List (Option ℕ)) (start stop name : ℕ)
  | requestRegion (parent : ℕ) (alloc : Option ℕ) (start n name : ℕ) (flags : BitVec 32)
  | releaseRegion (parent start n : ℕ)
  | releaseMemRegionAdjustable (parent : ℕ) (alloc : Option ℕ) (start size : ℕ)

/-- The call; `none` when an address is not the one of a node of the tree. -/
def Op.run : Op → Tree → Option (Status × Tree)
  | .requestResource root new child, t => (t.requestResource root new child).map conflictStatus
  | .releaseResource old, t => t.releaseResource old true
  | .insertResource parent new child, t => (t.insertResource parent new child).map conflictStatus
  | .removeResource old, t => t.releaseResource old false
  | .adjustResource res start size, t => t.adjustResource res start size
  | .allocateResource root new child size con, t => t.allocateResource root new child size con
  | .reserveRegionWithSplit root allocs start stop name, t =>
    t.modifyAt root fun r kids =>
      match ResourceTree.reserveRegionWithSplit r allocs start stop name kids with
      | some kids => (.ok, kids)
      | none => (.fuel, kids)
  | .requestRegion parent alloc start n name flags, t =>
    t.modifyAt parent fun r kids =>
      (.ok, (ResourceTree.requestRegion r alloc start n name flags kids).2)
  | .releaseRegion parent start n, t =>
    t.modifyAt parent fun _ kids => (.ok, ResourceTree.releaseRegion start n kids)
  | .releaseMemRegionAdjustable parent alloc start size, t =>
    t.modifyAt parent fun r kids =>
      ResourceTree.releaseMemRegionAdjustable r alloc start size kids

/-- The range of `size` addresses from `start` on is not empty and does not wrap. -/
def RangeOk (start size : ℕ) : Prop := 0 < size ∧ start + size - 1 ≤ sizeMax

/-- How the operations are to be called: with ranges that are not empty and do not wrap, with resources
    that are not in the tree and have no children, from memory that is not in use; a resource is
    reallocated below its parent. -/
def Op.Allowed : Op → Tree → Prop
  | .requestResource _ new child, t => new.id ∉ t.ids ∧ child = .nil
  | .releaseResource _, _ => True
  | .insertResource _ new child, t => new.id ∉ t.ids ∧ child = .nil
  | .removeResource _, _ => True
  | .adjustResource _ start size, _ => RangeOk start size
  | .allocateResource root new child _ _, t =>
    (t.find? new.id = none → child = .nil) ∧ ∀ o, t.find? new.id = some o → o.parent = some root
  | .reserveRegionWithSplit _ allocs start stop _, t =>
    start ≤ stop ∧ (allocated allocs).Nodup ∧ ∀ id ∈ allocated allocs, id ∉ t.ids
  | .requestRegion _ alloc _ _ _ _, t => ∀ id ∈ alloc.toList, id ∉ t.ids
  | .releaseRegion _ _ _, _ => True
  | .releaseMemRegionAdjustable _ alloc start size, t =>
    RangeOk start size ∧ ∀ id ∈ alloc.toList, id ∉ t.ids

/-! ### Lists of children -/

section
variable {kids : Resources} {parent : Resource} {pid lo hi start stop : ℕ} {prev : Option Resource}
  {alloc : Option ℕ}

theorem releaseLoop_keeps {old : ℕ} {releaseChild : Bool} (hv : Valid kids pid lo hi) {kids' : Resources}
    (h : releaseLoop old releaseChild kids = some kids') : Keeps [] pid lo hi kids kids' := by
  induction kids generalizing lo kids' with
  | nil => simp [releaseLoop] at h
  | cons tmp c s _ ih =>
    have hv' := hv
    obtain ⟨h1, h2, h3, h4, h5, h6⟩ := hv
    rw [releaseLoop] at h
    split at h
    · split at h
      · cases h
        refine ⟨h6.mono (by omega) le_rfl, fun x => ?_⟩
        simp only [ids_cons, count_cons, count_append]
        omega
      cases h
      refine ⟨?_, fun x => ?_⟩
      · rw [h4]
        exact (h5.reparent.mono h1 le_rfl).append h6 (by omega) h3
      simp only [ids_append, ids_reparent, ids_cons, count_cons, count_append]
      omega
    · obtain ⟨s', hs, rfl⟩ := map_eq_some_iff.mp h
      exact (ih h6 hs).sibling hv'

theorem adjustLoop_returns (res : ℕ) : (adjustLoop parent res start stop prev kids).1.Returns := by
  induction kids generalizing prev with
  | nil => simp [adjustLoop, Returns]
  | cons r c s _ ih =>
    rw [adjustLoop]
    split
    · split <;> simp [Returns]
    · exact ih

theorem adjustThen_returns {r : Resource} {c s : Resources} {size : ℕ} {f : Resource → Resources} :
    (adjustThen parent prev r c s start size f).1.Returns := by
  rw [adjustThen]
  split <;> simp [Returns]

theorem releaseMemFrom_returns {res : Resource} {c s : Resources} :
    (releaseMemFrom alloc start stop parent prev res c s).1.Returns := by
  unfold releaseMemFrom
  split
  · simp [Returns]
  split
  · exact adjustThen_returns
  split
  · exact adjustThen_returns
  cases alloc with
  | none => simp [Returns]
  | some id => exact adjustThen_returns

theorem releaseMemLoop_returns : (releaseMemLoop alloc start stop parent prev kids).1.Returns := by
  induction kids generalizing parent prev with
  | nil => simp [releaseMemLoop, Returns]
  | cons res c s ihc ihs =>
    rw [releaseMemLoop]
    split
    · simp [Returns]
    split
    · exact ihs
    split
    · simp [Returns]
    split
    · simp [Returns]
    split
    · exact ihc
    · exact releaseMemFrom_returns

theorem requestRegion_keeps (start n name : ℕ) (flags : BitVec 32)
    (hv : Valid kids parent.id parent.start parent.stop) (hfresh : ∀ id ∈ alloc.toList, id ∉ ids kids) :
    Keeps alloc.toList parent.id parent.start parent.stop kids
      (requestRegion parent alloc start n name flags kids).2 := by
  rcases alloc with _ | id
  · exact .refl hv
  rw [requestRegion, requestRange]
  split
  · exact .refl hv
  rename_i hin
  rw [outside] at hin
  generalize rangeEnd start n = stop at *
  have hspec := requestRegionLoop_spec name flags hv (by omega)
    (show start ≤ stop by omega) (by omega) (hfresh id (by simp))
  rcases hreq : requestRegionLoop id start stop name flags parent kids with e | kids'
  · exact .refl hv
  obtain ⟨-, hval, hreq'⟩ := hspec.of_ok hreq
  exact ⟨hval, hreq'.oneMore.within⟩

theorem releaseRegion_keeps (start n : ℕ) (hv : Valid kids pid lo hi) (hn : (ids kids).Nodup) :
    Keeps [] pid lo hi kids (releaseRegion start n kids) := by
  obtain ⟨hsome, hnone⟩ := releaseRegion_spec start n hv hn
  by_cases h : ∃ r ∈ held kids, r.start = start ∧ r.stop = rangeEnd start n
  · obtain ⟨r, hr, hs, he⟩ := h
    rw [hsome r hr hs he]
    exact ⟨hv.prune _, fun x => (count_prune kids x).trans (Nat.le_add_left ..)⟩
  · rw [hnone fun r hr hrange => h ⟨r, hr, hrange⟩]
    exact .refl hv

end

/-! ### Steps -/

section
variable {t t' : Tree} {b : Status}

/-- A change to one list of children that keeps its shape. -/
theorem Tree.Valid.step {id : ℕ} {f : Resource → Resources → Status × Resources} (extra : List ℕ)
    (hv : t.Valid) (hextra : extra.Nodup) (hfresh : ∀ x ∈ extra, x ∉ t.ids)
    (hf : ∀ r c, r.start ≤ r.stop → r.stop ≤ sizeMax → ResourceTree.Valid c r.id r.start r.stop →
      (ResourceTree.ids c).Nodup → (∀ x ∈ extra, x ∉ ResourceTree.ids c) →
      Keeps extra r.id r.start r.stop c (f r c).2 ∧ (f r c).1.Returns)
    (h : t.modifyAt id f = some (b, t')) : t'.Valid ∧ b.Returns := by
  obtain ⟨hv', -, -, hb⟩ := hv.modifyAt (Q := fun _ _ b => b.Returns) (fun r c h1 h2 h3 h4 h5 =>
      have hf := hf r c h1 h2 h3 h4 h5
      ⟨hf.1.1, hf.1.2, hf.2⟩) hextra hfresh h
  exact ⟨hv', hb⟩

/-- The same for a change that may meet a conflict. -/
theorem Tree.Valid.stepConflict {id new : ℕ} {f : Resource → Resources → Except Resource Resources}
    (hv : t.Valid) (hnew : new ∉ t.ids)
    (hf : ∀ r c, ResourceTree.Valid c r.id r.start r.stop → new ∉ ResourceTree.ids c → ∀ c',
      f r c = .ok c' → Keeps [new] r.id r.start r.stop c c')
    (h : (t.modifyAt id fun r c => orConflict c (f r c)).map conflictStatus = some (b, t')) :
    t'.Valid ∧ b.Returns := by
  obtain ⟨⟨conflict, t''⟩, hmod, heq⟩ := map_eq_some_iff.mp h
  obtain ⟨rfl, rfl⟩ := Prod.mk.inj heq
  refine ⟨(hv.modifyAt (Q := fun _ _ _ => True) ?_ (nodup_singleton new)
    (by simpa using hnew) hmod).1, by dsimp only; split <;> simp [Returns]⟩
  intro r c _ _ hc _ hfresh
  have hkeep := hf r c hc (hfresh new (by simp))
  cases hfc : f r c with
  | ok c' => exact ⟨(hkeep c' hfc).1, (hkeep c' hfc).2, trivial⟩
  | error e => exact ⟨hc, fun _ => Nat.le_add_left .., trivial⟩

theorem Tree.Valid.releaseResource (hv : t.Valid) {old : ℕ} {releaseChild : Bool}
    (h : t.releaseResource old releaseChild = some (b, t')) : t'.Valid ∧ b.Returns := by
  obtain ⟨o, -, h⟩ := bind_eq_some_iff.mp h
  obtain ⟨p, -, h⟩ := bind_eq_some_iff.mp h
  refine hv.step [] .nil (by simp) (fun r c _ _ hc _ _ => ?_) h
  rw [releaseChildAt]
  cases h : releaseLoop old releaseChild c with
  | none => exact ⟨.refl hc, by simp [Returns]⟩
  | some kids' => exact ⟨releaseLoop_keeps hc h, by simp [Returns]⟩

theorem Tree.Valid.adjustResource (hv : t.Valid) {res start size : ℕ} (hok : RangeOk start size)
    (h : t.adjustResource res start size = some (b, t')) : t'.Valid ∧ b.Returns := by
  have hend := rangeEnd_eq hok.1 hok.2
  have hle : start ≤ rangeEnd start size := by have := hok.1; omega
  have hmax : rangeEnd start size ≤ sizeMax := hend ▸ hok.2
  obtain ⟨r, -, h⟩ := bind_eq_some_iff.mp h
  cases hp : r.parent with
  | some p =>
    rw [hp] at h
    exact hv.step [] .nil (by simp) (fun r c _ _ hc _ _ =>
        ⟨adjustLoop_keeps res hle hc (show Before r none r.start from rfl), adjustLoop_returns res⟩) h
  | none =>
    simp only [hp] at h
    split at h
    · obtain ⟨rfl, rfl⟩ := Prod.mk.inj (some.inj h)
      exact ⟨hv, by simp [Returns]⟩
    rename_i hin
    obtain ⟨rfl, rfl⟩ := Prod.mk.inj (some.inj h)
    refine ⟨⟨hv.root, hle, hmax, hv.child.restrict fun q hq => ?_, hv.nodup⟩, by simp [Returns]⟩
    simp only [sticksOut, List.any_eq_true, decide_eq_true_eq, not_exists, not_and] at hin
    have := hin q hq
    simp only [Resource.move]
    omega

theorem Tree.Valid.allocateResource (hv : t.Valid) {root size : ℕ} {new : Resource}
    {child : Resources} {con : Constraint} (hchild : t.find? new.id = none → child = .nil)
    (h : t.allocateResource root new child size con = some (b, t')) : t'.Valid ∧ b.Returns := by
  rw [Tree.allocateResource] at h
  cases hfind : t.find? new.id with
  | some o =>
    rw [hfind] at h
    exact hv.step [] .nil (by simp)
      (fun r c _ hmax hc hn _ => reallocateResource_keeps size con hc hn hmax) h
  | none =>
    rw [hfind, hchild hfind] at h
    have hnew : new.id ∉ t.ids := by
      rw [← t.find?_isSome, hfind]
      simp
    exact hv.step [new.id] (by simp) (by simpa using hnew)
      (fun r c _ _ hc _ _ => allocateNew_keeps size con hc) h

/-- Every operation keeps the tree in shape, and comes back. -/
theorem Op.run_valid {op : Op} (hv : t.Valid) (hok : op.Allowed t) (h : op.run t = some (b, t')) :
    t'.Valid ∧ b.Returns := by
  cases op with
  | requestResource root new child =>
    obtain ⟨hnew, rfl⟩ := hok
    refine hv.stepConflict hnew (fun r c hc _ c' hreq => ?_) h
    obtain ⟨hval, hone⟩ := (requestResource_spec new hc).of_ok hreq
    exact ⟨hval, hone.within⟩
  | releaseResource old | removeResource old => exact hv.releaseResource h
  | insertResource parent new child =>
    obtain ⟨hnew, rfl⟩ := hok
    refine hv.stepConflict hnew (fun r c hc hfresh c' hins => ?_) h
    obtain ⟨hval, hone, -⟩ := (insertResource_spec hc hfresh).of_ok hins
    exact ⟨hval, hone.within⟩
  | adjustResource res start size => exact hv.adjustResource hok h
  | allocateResource root new child size con => exact hv.allocateResource hok.1 h
  | reserveRegionWithSplit root allocs start stop name =>
    obtain ⟨hle, hnd, hfresh⟩ := hok
    refine hv.step (allocated allocs) hnd hfresh (fun r c hr hmax hc _ _ => ?_) h
    obtain ⟨c', heq, hkeep⟩ := reserveRegionWithSplit_keeps hmax hc allocs hr hle
    rw [heq]
    exact ⟨hkeep, by simp [Returns]⟩
  | requestRegion parent alloc start n name flags =>
    refine hv.step alloc.toList (by cases alloc <;> simp) hok (fun r c _ _ hc _ hfresh => ?_) h
    exact ⟨requestRegion_keeps start n name flags hc hfresh, by simp [Returns]⟩
  | releaseRegion parent start n =>
    refine hv.step [] .nil (by simp) (fun r c _ _ hc hn _ => ?_) h
    exact ⟨releaseRegion_keeps start n hc hn, by simp [Returns]⟩
  | releaseMemRegionAdjustable parent alloc start size =>
    refine hv.step alloc.toList (by cases alloc <;> simp) hok.2 (fun r c _ hmax hc _ _ => ?_) h
    have hend := rangeEnd_eq hok.1.1 hok.1.2
    have hle : start ≤ rangeEnd start size := by have := hok.1.1; omega
    rw [ResourceTree.releaseMemRegionAdjustable]
    split
    · exact ⟨.refl hc, by simp [Returns]⟩
    · exact ⟨releaseMemLoop_keeps hle hmax hc rfl, releaseMemLoop_returns⟩

end

/-! ### Runs -/

/-- The trees that runs of the operations lead to. -/
inductive Reach (t₀ : Tree) : Tree → Prop
  | start : Reach t₀ t₀
  | step {t t' : Tree} {op : Op} {b : Status} : Reach t₀ t → op.Allowed t → op.run t = some (b, t') →
      Reach t₀ t'

theorem Reach.valid {t0 t : Tree} (h0 : t0.Valid) (h : Reach t0 t) : t.Valid := by
  induction h with
  | start => exact h0
  | step _ hok hrun ih => exact (Op.run_valid ih hok hrun).1

/-- In every tree that a run leads to, each node has a range that is not empty, and its children are in
    it, in order, apart from each other, with their parent pointers to it. Every call comes back; the
    `BUG_ON` of `reallocate_resource` is not reached. -/
theorem reach_shape {t₀ t : Tree} (h₀ : t₀.Valid) (h : Reach t₀ t) :
    (∀ r kids, (r, kids) ∈ t.forest.nodes → r.start ≤ r.stop ∧
      (∀ q ∈ kids.siblings, r.start ≤ q.start ∧ q.stop ≤ r.stop ∧ q.parent = some r.id) ∧
      kids.siblings.Pairwise fun q q' => q.stop < q'.start) ∧
    ∀ op : Op, op.Allowed t → ∀ b t', op.run t = some (b, t') → b ≠ .bug ∧ b ≠ .fuel := by
  have hv := h.valid h₀
  refine ⟨fun r kids hmem => ?_, fun op hok b t' hrun => (Op.run_valid hv hok hrun).2⟩
  obtain ⟨hle, -, hkids⟩ := hv.node hmem
  refine ⟨hle, fun q hq => ?_, hkids.sorted⟩
  obtain ⟨h1, -, h3, h4⟩ := hkids.bounds q hq
  exact ⟨h1, h3, h4⟩

/-- A resource put around two children, which has them as its own from then on. -/
theorem reach_shape_twoChildren : ∃ t, Reach twoChildren t ∧
    (∃ p ∈ t.forest.nodes, p.1.id = 3 ∧ p.2.siblings.map Resource.id = [1, 2]) ∧
    ∀ r kids, (r, kids) ∈ t.forest.nodes → r.start ≤ r.stop ∧
      (∀ q ∈ kids.siblings, r.start ≤ q.start ∧ q.stop ≤ r.stop ∧ q.parent = some r.id) ∧
      kids.siblings.Pairwise fun q q' => q.stop < q'.start := by
  have hok : (Op.insertResource 0 ⟨3, 5, 45, 0, 0, 0, none⟩ .nil).Allowed twoChildren :=
    ⟨by decide, rfl⟩
  have hreach : Reach twoChildren _ := .step (b := .ok) .start hok rfl
  exact ⟨_, hreach, by decide, (reach_shape valid_twoChildren hreach).1⟩

/-! ### Resources that come with children -/

/-- A root of its own. -/
def bareRoot : Tree := ⟨⟨0, 0, 1000, 0, 0, 0, none⟩, .nil⟩

/-- A slot from 100 on. -/
def fromHundred : Constraint := ⟨100, 1000, 1, fun avail _ _ => avail.start⟩

/-- A released resource keeps its children. When `allocate_resource` puts it back in another place, they
    are outside of it. -/
theorem allocate_released_resource : ∃ t₁ t₂ t₃ t₄ b c,
    (Op.requestResource 0 ⟨1, 10, 20, 0, 0, 0, none⟩ .nil).run bareRoot = some (.ok, t₁) ∧
    (Op.requestResource 1 ⟨2, 12, 14, 0, 0, 0, none⟩ .nil).run t₁ = some (.ok, t₂) ∧
    (b, c) ∈ t₂.forest.nodes ∧ b.id = 1 ∧ (Op.releaseResource 1).run t₂ = some (.ok, t₃) ∧
    (∀ id ∈ ids (.cons b c .nil), id ∉ t₃.ids) ∧
    (Op.allocateResource 0 { b with parent := none } c 3 fromHundred).run t₃ = some (.ok, t₄) ∧
    ∃ r kids q, (r, kids) ∈ t₄.forest.nodes ∧ q ∈ kids.siblings ∧ q.stop < r.start :=
  ⟨_, _, _, _, ⟨1, 10, 20, 0, 0, 0, some 0⟩, .cons ⟨2, 12, 14, 0, 0, 0, some 1⟩ .nil .nil, rfl, rfl,
    by decide, rfl, rfl, by decide, rfl,
    ⟨1, 100, 102, 0, 0, 0, some 0⟩, .cons ⟨2, 12, 14, 0, 0, 0, some 1⟩ .nil .nil,
    ⟨2, 12, 14, 0, 0, 0, some 1⟩, by decide, by decide, by decide⟩

end LinuxNote.ResourceTree
