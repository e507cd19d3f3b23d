import LinuxNote.Lib.Outcome
import LinuxNote.ResourceTree.Basic

/-! The shape of a resource tree, and how requests, releases and inserts keep it. -/

namespace LinuxNote.ResourceTree
open Outcome Forest Resource Option

/-- The forest is a list of children for the node `pid` in the range `[lo, hi]`: in order, apart from
    each other, with their parent pointers right, and each with such a list below it. -/
def Valid : Resources → (pid lo hi : ℕ) → Prop
  | .nil, _, _, _ => True
  | .cons r c s, pid, lo, hi => lo ≤ r.start ∧ r.start ≤ r.stop ∧ r.stop ≤ hi ∧
      r.parent = some pid ∧ Valid c r.id r.start r.stop ∧ Valid s pid (r.stop + 1) hi

instance decidableValid : ∀ (kids : Resources) (pid lo hi : ℕ), Decidable (Valid kids pid lo hi)
  | .nil, _, _, _ => isTrue trivial
  | .cons r c s, pid, _, hi =>
    have := decidableValid c r.id r.start r.stop
    have := decidableValid s pid (r.stop + 1) hi
    inferInstanceAs (Decidable (_ ∧ _ ∧ _ ∧ _ ∧ _ ∧ _))

/-- The addresses of all nodes. -/
def ids (t : Resources) : List ℕ := t.keys Resource.id

theorem ids_nil : ids .nil = [] := rfl

theorem ids_cons (r : Resource) (c s : Resources) : ids (.cons r c s) = r.id :: (ids c ++ ids s) := rfl

theorem notMem_ids_cons {x : ℕ} {r : Resource} {c s : Resources} :
    x ∉ ids (.cons r c s) ↔ r.id ≠ x ∧ x ∉ ids c ∧ x ∉ ids s := by
  simp [ids_cons, eq_comm]

theorem ids_append (s t : Resources) : ids (s.append t) = ids s ++ ids t := keys_append s t

theorem ids_reparent (p : Option ℕ) (c : Resources) : ids (reparent p c) = ids c :=
  keys_mapTop (fun r => show Resource.id { r with parent := p } = r.id from rfl) c

section
variable {kids c s : Resources} {pid lo lo' hi hi' : ℕ}

theorem Valid.mono (h : Valid kids pid lo hi) (hlo : lo' ≤ lo) (hhi : hi ≤ hi') :
    Valid kids pid lo' hi' := by
  induction kids generalizing lo lo' with
  | nil => trivial
  | cons r c s _ ih =>
    obtain ⟨h1, h2, h3, h4, h5, h6⟩ := h
    exact ⟨by omega, h2, by omega, h4, h5, ih h6 le_rfl⟩

/-- The children may as well start where the first one does. -/
theorem Valid.raise {r : Resource} (h : Valid (.cons r c s) pid lo hi) (hlo : lo' ≤ r.start) :
    Valid (.cons r c s) pid lo' hi :=
  ⟨hlo, h.2⟩

theorem Valid.append {m : ℕ} (hc : Valid c pid lo m) (hs : Valid s pid (m + 1) hi) (hlo : lo ≤ m + 1)
    (hm : m ≤ hi) : Valid (c.append s) pid lo hi := by
  induction c generalizing lo with
  | nil => exact hs.mono hlo le_rfl
  | cons r c t _ ih =>
    obtain ⟨h1, h2, h3, h4, h5, h6⟩ := hc
    exact ⟨h1, h2, by omega, h4, h5, ih h6 (by omega)⟩

/-- Children handed over to another parent. -/
theorem Valid.reparent {q : ℕ} (h : Valid c q lo hi) :
    Valid (ResourceTree.reparent (some pid) c) pid lo hi := by
  induction c generalizing lo with
  | nil => trivial
  | cons r c s _ ih =>
    obtain ⟨h1, h2, h3, -, h5, h6⟩ := h
    exact ⟨h1, h2, h3, rfl, h5, ih h6⟩

theorem Valid.bounds (h : Valid kids pid lo hi) :
    ∀ r ∈ kids.siblings, lo ≤ r.start ∧ r.start ≤ r.stop ∧ r.stop ≤ hi ∧ r.parent = some pid := by
  induction kids generalizing lo with
  | nil => simp [siblings]
  | cons q c s _ ih =>
    obtain ⟨h1, h2, h3, h4, -, h6⟩ := h
    intro r hr
    rcases List.mem_cons.mp hr with rfl | hr
    · exact ⟨h1, h2, h3, h4⟩
    obtain ⟨h7, h8⟩ := ih h6 r hr
    exact ⟨by omega, h8⟩

/-- In order and apart from each other. -/
theorem Valid.sorted (h : Valid kids pid lo hi) :
    kids.siblings.Pairwise fun r q => r.stop < q.start := by
  induction kids generalizing lo with
  | nil => exact .nil
  | cons r c s _ ih =>
    obtain ⟨-, -, -, -, -, h6⟩ := h
    refine List.pairwise_cons.mpr ⟨fun q hq => ?_, ih h6⟩
    have := (h6.bounds q hq).1
    omega

/-- Every node of the forest has such a list of children. -/
theorem Valid.node (h : Valid kids pid lo hi) {r : Resource} (hr : (r, c) ∈ kids.nodes) :
    r.start ≤ r.stop ∧ r.stop ≤ hi ∧ Valid c r.id r.start r.stop := by
  induction kids generalizing pid lo hi with
  | nil => simp [nodes] at hr
  | cons q d s ihd ihs =>
    obtain ⟨-, h2, h3, -, h5, h6⟩ := h
    simp only [nodes, List.mem_cons, List.mem_append, Prod.mk.injEq] at hr
    rcases hr with ⟨rfl, rfl⟩ | hr | hr
    · exact ⟨h2, h3, h5⟩
    · obtain ⟨h7, h8, h9⟩ := ihd h5 hr
      exact ⟨h7, by omega, h9⟩
    · exact ihs h6 hr

end

/-! ### Taking a node out -/

/-- The forest without the node `old`, whose children go with it or take its place. -/
def dropNode (old : ℕ) (releaseChild : Bool) : Resources → Resources
  | .nil => .nil
  | .cons r c s =>
    if r.id = old then
      if releaseChild ∨ c = .nil then s
      else (reparent r.parent c).append s
    else .cons r (dropNode old releaseChild c) (dropNode old releaseChild s)

section
variable {kids : Resources} {old pid lo hi : ℕ} {releaseChild : Bool}

theorem dropNode_of_notMem (h : old ∉ ids kids) : dropNode old releaseChild kids = kids := by
  induction kids with
  | nil => rfl
  | cons r c s ihc ihs =>
    obtain ⟨hr, hc, hs⟩ := notMem_ids_cons.mp h
    rw [dropNode, if_neg hr, ihc hc, ihs hs]

/-- Putting a list back by taking `old` out of it does the same for the forest. -/
theorem dropNode_replaced {r : Resource} {c d s s' : Resources} (h : Replaced r c d s s')
    (hold : old ∉ ids s) (hd : dropNode old releaseChild d = c) : dropNode old releaseChild s' = s := by
  induction h with
  | here s =>
    obtain ⟨hr, -, hs⟩ := notMem_ids_cons.mp hold
    rw [dropNode, if_neg hr, hd, dropNode_of_notMem hs]
  | child q s _ ih =>
    obtain ⟨hq, hc, hs⟩ := notMem_ids_cons.mp hold
    rw [dropNode, if_neg hq, ih hc, dropNode_of_notMem hs]
  | sibling q u _ ih =>
    obtain ⟨hq, hc, hs⟩ := notMem_ids_cons.mp hold
    rw [dropNode, if_neg hq, ih hs, dropNode_of_notMem hc]

/-- The loop finds a child, and takes it out. -/
theorem releaseLoop_eq (hn : (ids kids).Nodup) (h : ∃ r ∈ kids.siblings, r.id = old) :
    releaseLoop old releaseChild kids = some (dropNode old releaseChild kids) := by
  induction kids with
  | nil => simp [siblings] at h
  | cons r c s _ ih =>
    obtain ⟨hrc, hrs, -, hns, hdisj⟩ := Forest.nodup_cons.mp hn
    rw [releaseLoop, dropNode]
    split
    · split <;> rfl
    rename_i hne
    obtain ⟨q, hq, hqold⟩ := h
    have hq' : q ∈ s.siblings := by
      rcases List.mem_cons.mp hq with rfl | hq
      · exact absurd hqold hne
      · exact hq
    obtain ⟨d, hd⟩ := siblings_subset_nodes hq'
    have hold : old ∈ ids s := hqold ▸ key_mem_keys hd
    rw [ih hns ⟨q, hq', hqold⟩, dropNode_of_notMem fun h => hdisj old h hold]
    rfl

/-- `__release_resource` on the children of the parent. -/
def releaseChildAt (old : ℕ) (releaseChild : Bool) (_ : Resource) (kids : Resources) :
    Status × Resources :=
  match releaseLoop old releaseChild kids with
  | some kids => (.ok, kids)
  | none => (.inval, kids)

/-- Following the parent pointer of `old` leads to the list that `old` is in: the list of the top
    level, or the children of a node. -/
theorem release_by_parent (releaseChild : Bool) (hv : Valid kids pid lo hi) (hn : (ids kids).Nodup)
    (hold : old ∈ ids kids) : ∃ o, kids.find? Resource.id old = some o ∧ ((o.parent = some pid ∧
        releaseLoop old releaseChild kids = some (dropNode old releaseChild kids)) ∨
      ∃ q, o.parent = some q ∧ q ∈ ids kids ∧
      kids.modifyAt Resource.id q (releaseChildAt old releaseChild) =
        some (.ok, dropNode old releaseChild kids)) := by
  induction kids generalizing pid lo hi with
  | nil => simp [ids_nil] at hold
  | cons r c s ihc ihs =>
    obtain ⟨hrc, hrs, hnc, hns, hdisj⟩ := Forest.nodup_cons.mp hn
    obtain ⟨-, -, -, hpar, hvc, hvs⟩ := hv
    by_cases hr : r.id = old
    · refine ⟨r, by rw [find?, if_pos hr], .inl ⟨hpar, ?_⟩⟩
      exact releaseLoop_eq hn ⟨r, by simp [siblings], hr⟩
    have hfind : (Forest.cons r c s).find? Resource.id old =
        (c.find? Resource.id old).or (s.find? Resource.id old) := by rw [find?, if_neg hr]
    have hdrop : dropNode old releaseChild (.cons r c s) =
        .cons r (dropNode old releaseChild c) (dropNode old releaseChild s) := by
      rw [dropNode, if_neg hr]
    simp only [ids_cons, List.mem_cons, List.mem_append] at hold
    rcases hold.resolve_left (Ne.symm hr) with hold | hold
    · -- below `r`: either among its children, or still deeper
      obtain ⟨o, ho, hcase⟩ := ihc hvc hnc hold
      have hsame : dropNode old releaseChild s = s := dropNode_of_notMem (hdisj old hold)
      refine ⟨o, by rw [hfind, ho, some_or], .inr ?_⟩
      rw [hdrop, hsame]
      rcases hcase with ⟨hop, hrel⟩ | ⟨q, hoq, hq, hmod⟩
      · exact ⟨r.id, hop, by simp [ids_cons], by simp [modifyAt, releaseChildAt, hrel]⟩
      refine ⟨q, hoq, by simp [ids_cons, hq], ?_⟩
      have hne : r.id ≠ q := by rintro rfl; exact hrc hq
      rw [modifyAt, if_neg hne, hmod]
    have hnotc : old ∉ ids c := fun h => hdisj old h hold
    obtain ⟨o, ho, hcase⟩ := ihs hvs hns hold
    have hnone : c.find? Resource.id old = none := by
      rw [← not_isSome_iff_eq_none, find?_isSome]
      exact hnotc
    have hsame : dropNode old releaseChild c = c := dropNode_of_notMem hnotc
    refine ⟨o, by rw [hfind, hnone, ho, none_or], ?_⟩
    rw [hdrop, hsame]
    rcases hcase with ⟨hop, hrel⟩ | ⟨q, hoq, hq, hmod⟩
    · exact .inl ⟨hop, by rw [releaseLoop, if_neg hr, hrel]; rfl⟩
    refine .inr ⟨q, hoq, by simp [ids_cons, hq], ?_⟩
    have hne : r.id ≠ q := by rintro rfl; exact hrs hq
    rw [modifyAt, if_neg hne, not_isSome_iff_eq_none.mp (mt modifyAt_isSome.mp fun h => hdisj q h hq),
      hmod]
    rfl

end

/-! ### Requests and inserts -/

section
variable {kids : Resources} {new : Resource} {pid lo hi : ℕ}

/-- The keys of `kids` and one more. -/
def OneMore (id : ℕ) (kids kids' : Resources) : Prop :=
  ∀ x, (ids kids').count x = [id].count x + (ids kids).count x

theorem OneMore.sibling {id : ℕ} {r : Resource} {c s s' : Resources} (h : OneMore id s s') :
    OneMore id (.cons r c s) (.cons r c s') := by
  intro x
  have := h x
  simp only [ids_cons, List.count_cons, List.count_append] at *
  omega

theorem OneMore.child {id : ℕ} {r : Resource} {c c' s : Resources} (h : OneMore id c c') :
    OneMore id (.cons r c s) (.cons r c' s) := by
  intro x
  have := h x
  simp only [ids_cons, List.count_cons, List.count_append] at *
  omega

/-- What overlaps the range of `new`. -/
def Overlaps (r new : Resource) : Prop := r.start ≤ new.stop ∧ new.start ≤ r.stop

/-- `__request_resource` puts the new node into a gap between the children, or there is a child in the
    way. -/
theorem requestLoop_spec (new : Resource) (hv : Valid kids pid lo hi) (hp : new.parent = some pid)
    (hlo : lo ≤ new.start) (hle : new.start ≤ new.stop) (hhi : new.stop ≤ hi) :
    Ensures (requestLoop new .nil kids) (fun kids' => Valid kids' pid lo hi ∧ OneMore new.id kids kids')
      (fun conflict => conflict ∈ kids.siblings ∧ Overlaps conflict new) := by
  induction kids generalizing lo with
  | nil => exact ⟨⟨hlo, hle, hhi, hp, trivial, trivial⟩, fun x => by simp [ids_cons, ids_nil]⟩
  | cons tmp c s _ ih =>
    rw [requestLoop]
    obtain ⟨h1, h2, h3, h4, h5, h6⟩ := hv
    split
    · refine ⟨⟨hlo, hle, hhi, hp, trivial, ?_⟩, fun x => ?_⟩
      · exact ⟨by omega, h2, h3, h4, h5, h6⟩
      simp only [ids_cons, ids_nil, List.nil_append, List.count_cons, List.count_nil, zero_add]
      omega
    split
    · refine ((ih h6 (by omega)).imp (fun _ => id) fun e he => ?_).map fun kids' h' => ?_
      · exact ⟨List.mem_cons_of_mem _ he.1, he.2⟩
      · exact ⟨⟨h1, h2, h3, h4, h5, h'.1⟩, h'.2.sibling⟩
    · exact ⟨List.mem_cons_self .., by omega, by omega⟩

/-- The children that `new` takes over, put back, and the ones after them. -/
theorem adopt_spec (hv : Valid kids pid lo hi) : Ensures (adopt new kids)
    (fun p => Valid p.1 new.id (max lo new.start) new.stop ∧ Valid p.2 pid (new.stop + 1) hi ∧
      (reparent (some pid) p.1).append p.2 = kids)
    (fun conflict => conflict ∈ kids.siblings ∧ lo ≤ conflict.start ∧ conflict.start ≤ new.stop ∧
      (conflict.start < new.start ∨ conflict.stop > new.stop)) := by
  induction kids generalizing lo with
  | nil => exact ⟨trivial, trivial, rfl⟩
  | cons next c s _ ih =>
    rw [adopt]
    obtain ⟨h1, h2, h3, h4, h5, h6⟩ := hv
    split
    · exact ⟨trivial, ⟨by omega, h2, h3, h4, h5, h6⟩, rfl⟩
    split
    · exact ⟨List.mem_cons_self .., h1, by omega, by omega⟩
    refine ((ih h6).imp (fun _ => id) fun e he => ?_).map fun p hp => ?_
    · exact ⟨List.mem_cons_of_mem _ he.1, by omega, he.2.2⟩
    obtain ⟨hrun, hrest, heq⟩ := hp
    refine ⟨⟨by simp only [under]; omega, h2, by simp only [under]; omega, rfl,
      h5, hrun.mono (by simp only [under]; omega) le_rfl⟩, hrest, ?_⟩
    rw [reparent, mapTop, ← reparent, Forest.append, heq, under, ← h4]

/-- `__insert_resource` puts the new node somewhere below, so that taking it out again gives the same
    forest; or some node overlaps it, with neither in the other. -/
theorem insertLoop_spec (hv : Valid kids pid lo hi) (hlo : lo ≤ new.start)
    (hle : new.start ≤ new.stop) (hhi : new.stop ≤ hi) (hnew : new.id ∉ ids kids) :
    Ensures (insertLoop new .nil pid kids)
    (fun kids' => Valid kids' pid lo hi ∧ OneMore new.id kids kids' ∧
      dropNode new.id false kids' = kids) (fun conflict => (∃ c, (conflict, c) ∈ kids.nodes) ∧
      Overlaps conflict new ∧ ¬(new.start ≤ conflict.start ∧ conflict.stop ≤ new.stop) ∧
      ¬(conflict.start ≤ new.start ∧ new.stop ≤ conflict.stop)) := by
  induction kids generalizing pid lo hi with
  | nil =>
    refine ⟨⟨hlo, hle, hhi, rfl, trivial, trivial⟩, fun x => by simp [ids_cons, ids_nil, under], ?_⟩
    simp [dropNode, under]
  | cons first c s ihc ihs =>
    have hv' := hv
    obtain ⟨h1, h2, h3, h4, h5, h6⟩ := hv
    obtain ⟨hnf, hnc, hns⟩ := notMem_ids_cons.mp hnew
    rw [insertLoop]
    split
    · refine ⟨⟨hlo, hle, hhi, rfl, trivial, ?_⟩, fun x => ?_, ?_⟩
      · exact ⟨by simp only [under]; omega, h2, h3, h4, h5, h6⟩
      · simp only [ids_cons, ids_nil, List.nil_append, List.count_cons, List.count_nil, zero_add, under]
        omega
      · simp [dropNode, under]
    split
    · refine ((ihs h6 (by omega) hhi hns).imp (fun _ => id) fun e he => ?_).map fun kids' h' => ?_
      · obtain ⟨⟨d, hd⟩, he⟩ := he
        exact ⟨⟨d, by simp [nodes, hd]⟩, he⟩
      obtain ⟨hval, hone, hdrop⟩ := h'
      refine ⟨⟨h1, h2, h3, h4, h5, hval⟩, hone.sibling, ?_⟩
      rw [dropNode, if_neg hnf, dropNode_of_notMem hnc, hdrop]
    split
    · rename_i hfirst
      refine ((adopt_spec hv').imp (fun _ => id) fun e he => ?_).map fun p hp => ?_
      · obtain ⟨hmem, -, hstart, hpart⟩ := he
        obtain ⟨d, hd⟩ := siblings_subset_nodes hmem
        -- a sibling after the first one starts after it ends, in the range of `new`
        rcases List.mem_cons.mp hmem with rfl | hmem
        · exact ⟨⟨d, hd⟩, ⟨hstart, by omega⟩, by omega, by omega⟩
        obtain ⟨hb1, hb2, -⟩ := h6.bounds e hmem
        exact ⟨⟨d, hd⟩, ⟨hstart, by omega⟩, by omega, by omega⟩
      obtain ⟨hrun, hrest, heq⟩ := hp
      refine ⟨⟨hlo, hle, hhi, rfl, hrun.mono (le_max_right ..) le_rfl, hrest⟩, fun x => ?_, ?_⟩
      · rw [← heq]
        simp only [ids_cons, ids_append, ids_reparent, List.count_cons, List.count_append,
          List.count_nil, under]
        omega
      rw [← heq, dropNode, if_pos (show (new.under pid).id = new.id from rfl)]
      split
      · rename_i hnil
        rw [hnil.resolve_left (by simp)]
        rfl
      · rfl
    refine ((ihc h5 (by omega) (by omega) hnc).imp (fun _ => id) fun e he => ?_).map fun kids' h' => ?_
    · obtain ⟨⟨d, hd⟩, he⟩ := he
      exact ⟨⟨d, by simp [nodes, hd]⟩, he⟩
    obtain ⟨hval, hone, hdrop⟩ := h'
    refine ⟨⟨h1, h2, h3, h4, hval, h6⟩, hone.child, ?_⟩
    rw [dropNode, if_neg hnf, dropNode_of_notMem hns, hdrop]

end

end LinuxNote.ResourceTree
