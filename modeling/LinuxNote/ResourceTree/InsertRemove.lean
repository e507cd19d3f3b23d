import LinuxNote.ResourceTree.Ordered

/-! Whole trees: the operations start at a node of the tree, and `remove_resource` undoes
`insert_resource`. -/

namespace LinuxNote.ResourceTree
open Outcome Forest List Option

/-- The addresses of the nodes of a tree. -/
def Tree.ids (t : Tree) : List ℕ := t.root.id :: ResourceTree.ids t.child

/-- The node at an address. -/
def Tree.find? (t : Tree) (id : ℕ) : Option Resource :=
  if t.root.id = id then some t.root else t.child.find? Resource.id id

/-- Change the list of children of the node at an address; `none` when it is not in the tree. -/
def Tree.modifyAt {β : Type} (t : Tree) (id : ℕ) (f : Resource → Resources → β × Resources) :
    Option (β × Tree) :=
  if t.root.id = id then some ((f t.root t.child).1, { t with child := (f t.root t.child).2 })
  else (t.child.modifyAt Resource.id id f).map fun p => (p.1, { t with child := p.2 })

/-- A tree in good shape. -/
structure Tree.Valid (t : Tree) : Prop where
  root : t.root.parent = none
  range : t.root.start ≤ t.root.stop
  bound : t.root.stop ≤ sizeMax
  child : ResourceTree.Valid t.child t.root.id t.root.start t.root.stop
  nodup : t.ids.Nodup

/-- The conflict, or the changed list of children. -/
def orConflict (kids : Resources) (r : Except Resource Resources) : Option Resource × Resources :=
  match r with
  | .ok kids => (none, kids)
  | .error conflict => (some conflict, kids)

/-- `request_resource_conflict` of a resource with children `child`. -/
def Tree.requestResource (t : Tree) (root : ℕ) (new : Resource) (child : Resources) :
    Option (Option Resource × Tree) :=
  t.modifyAt root fun r kids => orConflict kids (ResourceTree.requestResource r new child kids)

/-- `insert_resource_conflict` of a resource with children `child`. -/
def Tree.insertResource (t : Tree) (parent : ℕ) (new : Resource) (child : Resources) :
    Option (Option Resource × Tree) :=
  t.modifyAt parent fun r kids => orConflict kids (ResourceTree.insertResource r new child kids)

/-- `release_resource`, and `remove_resource` when the children are kept. -/
def Tree.releaseResource (t : Tree) (old : ℕ) (releaseChild : Bool) : Option (Status × Tree) :=
  (t.find? old).bind fun o => o.parent.bind fun p => t.modifyAt p (releaseChildAt old releaseChild)

/-- The tree as a forest of one. -/
def Tree.forest (t : Tree) : Resources := .cons t.root t.child .nil

theorem Tree.ids_eq (t : Tree) : ResourceTree.ids t.forest = t.ids := by
  simp [forest, ids_cons, ids_nil, ids]

section
variable {t t' : Tree} {β : Type} {b : β} {id : ℕ} {f : Resource → Resources → β × Resources}

theorem Tree.modifyAt_isSome (f : Resource → Resources → β × Resources) (h : id ∈ t.ids) :
    ∃ b t', t.modifyAt id f = some (b, t') := by
  rw [modifyAt]
  split
  · exact ⟨_, _, rfl⟩
  rename_i hne
  have hmem : id ∈ ResourceTree.ids t.child := (mem_cons.mp h).resolve_left (Ne.symm hne)
  have hsome : (t.child.modifyAt Resource.id id f).isSome := Forest.modifyAt_isSome.mpr hmem
  obtain ⟨p, hp⟩ := isSome_iff_exists.mp hsome
  exact ⟨_, _, by rw [hp]; rfl⟩

theorem Tree.replaced_of_modifyAt (h : t.modifyAt id f = some (b, t')) :
    ∃ r c, r.id = id ∧ (f r c).1 = b ∧ t'.root = t.root ∧ Replaced r c (f r c).2 t.forest t'.forest := by
  rw [modifyAt] at h
  split at h
  · rename_i hk
    obtain ⟨hb, rfl⟩ := Prod.mk.inj (some.inj h)
    exact ⟨t.root, t.child, hk, hb, rfl, .here .nil⟩
  obtain ⟨p, hp, heq⟩ := map_eq_some_iff.mp h
  obtain ⟨rfl, rfl⟩ := Prod.mk.inj heq
  obtain ⟨r, c, hr, hb, hrep⟩ := Forest.replaced_of_modifyAt hp
  exact ⟨r, c, hr, hb, rfl, .child _ _ hrep⟩

/-- A list in a forest of the right shape has the right shape, and can be replaced by another one that
    has. -/
theorem Valid.replaced {r : Resource} {c d s s' : Resources} (h : Replaced r c d s s')
    {pid lo hi : ℕ} (hv : ResourceTree.Valid s pid lo hi) :
    (r.start ≤ r.stop ∧ r.stop ≤ hi ∧ ResourceTree.Valid c r.id r.start r.stop) ∧
      (ResourceTree.Valid d r.id r.start r.stop → ResourceTree.Valid s' pid lo hi) := by
  refine ⟨hv.node h.mem_nodes, ?_⟩
  induction h generalizing pid lo hi with
  | here s =>
    obtain ⟨h1, h2, h3, h4, -, h6⟩ := hv
    exact fun hd => ⟨h1, h2, h3, h4, hd, h6⟩
  | child q s _ ih =>
    obtain ⟨h1, h2, h3, h4, h5, h6⟩ := hv
    exact fun hd => ⟨h1, h2, h3, h4, ih h5 hd, h6⟩
  | sibling q u _ ih =>
    obtain ⟨h1, h2, h3, h4, h5, h6⟩ := hv
    exact fun hd => ⟨h1, h2, h3, h4, h5, ih h6 hd⟩

/-- The addresses of a changed list of children: no new ones but those in `extra`. -/
def Within (extra : List ℕ) (kids kids' : Resources) : Prop :=
  ∀ x, (ResourceTree.ids kids').count x ≤ extra.count x + (ResourceTree.ids kids).count x

theorem Tree.Valid.node {r : Resource} {c : Resources} (hv : t.Valid) (hmem : (r, c) ∈ t.forest.nodes) :
    r.start ≤ r.stop ∧ r.stop ≤ sizeMax ∧ ResourceTree.Valid c r.id r.start r.stop := by
  simp only [forest, nodes, mem_cons, append_nil, Prod.mk.injEq] at hmem
  rcases hmem with ⟨rfl, rfl⟩ | hmem
  · exact ⟨hv.range, hv.bound, hv.child⟩
  obtain ⟨h1, h2, h3⟩ := hv.child.node hmem
  exact ⟨h1, h2.trans hv.bound, h3⟩

/-- What a change of one list of children has to keep for the tree to stay in shape. -/
theorem Tree.Valid.replaced {r : Resource} {c d : Resources} (extra : List ℕ) (hv : t.Valid)
    (hroot : t'.root = t.root) (h : Replaced r c d t.forest t'.forest) :
    (r.start ≤ r.stop ∧ r.stop ≤ sizeMax ∧ ResourceTree.Valid c r.id r.start r.stop ∧
      (ResourceTree.ids c).Nodup ∧ ∀ x ∈ ResourceTree.ids c, x ∈ t.ids) ∧
    (ResourceTree.Valid d r.id r.start r.stop → Within extra c d → extra.Nodup →
      (∀ x ∈ extra, x ∉ t.ids) → t'.Valid) := by
  have hcount : ∀ x, t'.ids.count x + (ResourceTree.ids c).count x = t.ids.count x +
    (ResourceTree.ids d).count x := by
    intro x
    rw [← t'.ids_eq, ← t.ids_eq]
    exact h.count x
  have hone : ∀ x, t.ids.count x ≤ 1 := nodup_iff_count_le_one.mp hv.nodup
  have hsub : ∀ x, (ResourceTree.ids c).count x ≤ t.ids.count x := by
    intro x
    rw [← t.ids_eq]
    exact count_keys_child h.mem_nodes x
  obtain ⟨hle, hmax, hchild⟩ := hv.node h.mem_nodes
  refine ⟨⟨hle, hmax, hchild, ?_, fun x hx => ?_⟩, fun hd hw hextra hfresh => ?_⟩
  · exact nodup_iff_count_le_one.mpr fun x => (hsub x).trans (hone x)
  · exact count_pos_iff.mp ((count_pos_iff.mpr hx).trans_le (hsub x))
  refine ⟨hroot ▸ hv.root, hroot ▸ hv.range, hroot ▸ hv.bound, ?_, ?_⟩
  · have hchild := hv.child
    rw [forest, forest, hroot] at h
    rw [hroot]
    generalize t.child = s at h hchild
    cases h with
    | here => exact hd
    | child _ _ h => exact (ResourceTree.Valid.replaced h hchild).2 hd
    | sibling _ _ h => cases h
  refine nodup_iff_count_le_one.mpr fun x => ?_
  have h1 := hcount x
  have h2 := hw x
  have h3 := hone x
  have h4 := nodup_iff_count_le_one.mp hextra x
  by_cases hx : x ∈ extra
  · have h5 := count_eq_zero.mpr (hfresh x hx)
    omega
  have h5 := count_eq_zero.mpr hx
  omega

/-- An operation that keeps the shape of the list it works on keeps the shape of the tree. -/
theorem Tree.Valid.modifyAt {extra : List ℕ} {Q : Resource → Resources → β → Prop} (hv : t.Valid)
    (hf : ∀ r c, r.start ≤ r.stop → r.stop ≤ sizeMax → ResourceTree.Valid c r.id r.start r.stop →
      (ResourceTree.ids c).Nodup → (∀ x ∈ extra, x ∉ ResourceTree.ids c) →
      ResourceTree.Valid (f r c).2 r.id r.start r.stop ∧ Within extra c (f r c).2 ∧ Q r c (f r c).1)
    (hextra : extra.Nodup) (hfresh : ∀ x ∈ extra, x ∉ t.ids)
    (h : t.modifyAt id f = some (b, t')) : t'.Valid ∧ ∃ r c, Q r c b := by
  obtain ⟨r, c, -, rfl, hroot, hrep⟩ := replaced_of_modifyAt h
  obtain ⟨⟨h1, h2, h3, h4, h5⟩, hnew⟩ := hv.replaced extra hroot hrep
  obtain ⟨hd, hw, hq⟩ := hf r c h1 h2 h3 h4 fun x hx hc => hfresh x hx (h5 x hc)
  exact ⟨hnew hd hw hextra hfresh, r, c, hq⟩

/-! ### Releasing and inserting -/

/-- A release takes the node out, wherever it is. -/
theorem Tree.releaseResource_eq {old : ℕ} (releaseChild : Bool) (hv : t.Valid)
    (hold : old ∈ ResourceTree.ids t.child) : t.releaseResource old releaseChild =
      some (.ok, { t with child := dropNode old releaseChild t.child }) := by
  obtain ⟨hroot, hn⟩ := nodup_cons.mp hv.nodup
  obtain ⟨o, ho, hcase⟩ := release_by_parent releaseChild hv.child hn hold
  have hne : t.root.id ≠ old := by rintro rfl; exact hroot hold
  have hfind : t.find? old = some o := by rw [find?, if_neg hne, ho]
  rw [releaseResource, hfind, bind_some]
  rcases hcase with ⟨hp, hrel⟩ | ⟨q, hp, hq, hmod⟩
  · rw [hp, bind_some, modifyAt, if_pos rfl, releaseChildAt, hrel]
  have hneq : t.root.id ≠ q := by rintro rfl; exact hroot hq
  rw [hp, bind_some, modifyAt, if_neg hneq, hmod]
  rfl

theorem Tree.find?_isSome (t : Tree) (id : ℕ) : (t.find? id).isSome ↔ id ∈ t.ids := by
  rw [find?, ids, mem_cons]
  split
  · simp_all
  rename_i hne
  rw [Forest.find?_isSome]
  simp [Ne.symm hne, ResourceTree.ids]

/-- What `__insert_resource` does to the children of a node. -/
theorem insertResource_spec {parent new : Resource} {kids : Resources}
    (hv : ResourceTree.Valid kids parent.id parent.start parent.stop)
    (hnew : new.id ∉ ResourceTree.ids kids) : Ensures (insertResource parent new .nil kids)
    (fun kids' => ResourceTree.Valid kids' parent.id parent.start parent.stop ∧
      OneMore new.id kids kids' ∧ dropNode new.id false kids' = kids)
    (fun conflict => (conflict = parent ∧ outside parent new.start new.stop) ∨
      (∃ c, (conflict, c) ∈ kids.nodes) ∧ Overlaps conflict new ∧
      ¬(new.start ≤ conflict.start ∧ conflict.stop ≤ new.stop) ∧
      ¬(conflict.start ≤ new.start ∧ new.stop ≤ conflict.stop)) := by
  rw [insertResource]
  split
  · rename_i hout
    exact .inl ⟨rfl, hout⟩
  rename_i hin
  rw [outside] at hin
  exact (insertLoop_spec hv (by omega) (by omega) (by omega) hnew).imp (fun _ => id) fun _ => .inr

theorem OneMore.within {id : ℕ} {kids kids' : Resources} (h : OneMore id kids kids') :
    Within [id] kids kids' := fun x => (h x).le

/-- `insert_resource` of a new resource without children at a node of the tree. When it succeeds,
    `remove_resource` gives the tree from before. When it fails the tree is as it was, and the conflict
    is the node it was to be inserted at, which does not have the range, or a node that the range
    overlaps in part. -/
theorem insert_remove (parent : ℕ) (new : Resource) (hv : t.Valid) (hp : parent ∈ t.ids)
    (hnew : new.id ∉ t.ids) :
    (t.insertResource parent new .nil).isSome ∧
    (∀ t', t.insertResource parent new .nil = some (none, t') →
      t'.releaseResource new.id false = some (.ok, t)) ∧
    (∀ conflict t', t.insertResource parent new .nil = some (some conflict, t') → t' = t ∧
      ((∃ kids, (conflict, kids) ∈ t.forest.nodes ∧ conflict.id = parent ∧
          outside conflict new.start new.stop) ∨
        (∃ kids, (conflict, kids) ∈ t.forest.nodes) ∧
        Overlaps conflict new ∧ ¬(new.start ≤ conflict.start ∧ conflict.stop ≤ new.stop) ∧
        ¬(conflict.start ≤ new.start ∧ new.stop ≤ conflict.stop))) := by
  refine ⟨?_, fun t' h => ?_, fun conflict t' h => ?_⟩
  · obtain ⟨b, t', h⟩ := Tree.modifyAt_isSome
      (fun r kids => orConflict kids (ResourceTree.insertResource r new .nil kids)) hp
    exact isSome_iff_exists.mpr ⟨_, h⟩
  · obtain ⟨r, c, -, hb, hroot, hrep⟩ := Tree.replaced_of_modifyAt h
    obtain ⟨⟨-, -, hc, -, hsub⟩, hvalid⟩ := hv.replaced [new.id] hroot hrep
    have hspec := insertResource_spec hc fun hmem => hnew (hsub _ hmem)
    rcases hins : ResourceTree.insertResource r new .nil c with e | d
    · simp [orConflict, hins] at hb
    rw [hins] at hvalid hrep
    obtain ⟨hd, hone, hdrop⟩ := hspec.of_ok hins
    have hv' : t'.Valid := hvalid hd hone.within (by simp) (by simpa using hnew)
    have hne : t'.root.id ≠ new.id := by
      rw [hroot]
      exact fun h => hnew (List.mem_cons.mpr (.inl h.symm))
    have hmem : new.id ∈ ResourceTree.ids t'.child := by
      have hcount : (ResourceTree.ids t'.forest).count new.id + (ResourceTree.ids c).count new.id =
        (ResourceTree.ids t.forest).count new.id + (ResourceTree.ids d).count new.id :=
          hrep.count new.id
      have hd' := hone new.id
      simp only [List.count_singleton_self] at hd'
      have hpos : 0 < (ResourceTree.ids t'.forest).count new.id := by omega
      rw [List.count_pos_iff, t'.ids_eq, Tree.ids, List.mem_cons] at hpos
      exact hpos.resolve_left (Ne.symm hne)
    have hback : dropNode new.id false t'.forest = t.forest :=
      dropNode_replaced hrep (by rwa [t.ids_eq]) hdrop
    rw [Tree.forest, dropNode, if_neg hne, Tree.forest, Forest.cons.injEq] at hback
    rw [Tree.releaseResource_eq false hv' hmem, hback.2.1, hroot]
  obtain ⟨r, c, hr, hb, hroot, hrep⟩ := Tree.replaced_of_modifyAt h
  obtain ⟨⟨-, -, hc, -, hsub⟩, -⟩ := hv.replaced [new.id] hroot hrep
  have hspec := insertResource_spec hc fun hmem => hnew (hsub _ hmem)
  cases hins : ResourceTree.insertResource r new .nil c with
  | ok d => simp [orConflict, hins] at hb
  | error e =>
    rw [hins] at hb hrep
    obtain rfl : e = conflict := some.inj hb
    have heq : t'.forest = t.forest := hrep.eq_self
    rw [Tree.forest, Tree.forest, Forest.cons.injEq] at heq
    refine ⟨by cases t; cases t'; simp_all, ?_⟩
    rcases hspec.of_error hins with ⟨rfl, hout⟩ | ⟨⟨d, hd⟩, hpart⟩
    · exact .inl ⟨c, hrep.mem_nodes, hr, hout⟩
    · exact .inr ⟨⟨d, mem_nodes_trans hrep.mem_nodes hd⟩, hpart⟩

end

/-- A root with two children. -/
def twoChildren : Tree :=
  ⟨⟨0, 0, 1000, 0, 0, 0, none⟩,
    .cons ⟨1, 10, 20, 0, 0, 0, some 0⟩ .nil (.cons ⟨2, 30, 40, 0, 0, 0, some 0⟩ .nil .nil)⟩

theorem valid_twoChildren : twoChildren.Valid :=
  ⟨rfl, by decide, by decide, by decide, by decide⟩

/-- A resource around both children takes them over, and gives them back. -/
theorem insert_remove_twoChildren :
    ∃ t', twoChildren.insertResource 0 ⟨3, 5, 45, 0, 0, 0, none⟩ .nil = some (none, t') ∧ t'.find? 1 =
      some ⟨1, 10, 20, 0, 0, 0, some 3⟩ ∧ t'.releaseResource 3 false = some (.ok, twoChildren) := by
  obtain ⟨-, hback, -⟩ := insert_remove 0 ⟨3, 5, 45, 0, 0, 0, none⟩ valid_twoChildren
    (by decide) (by decide)
  refine ⟨_, rfl, by decide, hback _ rfl⟩

end LinuxNote.ResourceTree
