import LinuxNote.RadixTree.Steps

/-! How a radix tree gets higher and lower: a node above the root comes or goes. -/

namespace LinuxNote.RadixTree
open Radix Function RadixTree.Tree Node Set
open Config (mapShift)

section
variable {t : Tree} {e : Entry} {n k : ℕ}

theorem adopt_item (v : Item) : adopt n (.item v) t = if (Entry.item v).isValue then
    t.modify n fun node => { node with nrValues := 1 } else t := rfl

theorem adopt_node (r : ℕ) :
    adopt n (.node r) t = t.modify r fun node => { node with parent := some n } := rfl

theorem adopt_self (h : e ≠ .node n) : (adopt n e t).nodes n =
      { t.nodes n with nrValues := if e.isValue then 1 else (t.nodes n).nrValues } := by
  cases e with
  | null => rfl
  | node r =>
    rw [adopt_node, modify_of_ne _ fun hr => h (congrArg Entry.node hr.symm)]
    rfl
  | item v =>
    rw [adopt_item]
    split
    · exact modify_self ..
    · rfl

theorem adopt_of_ne (hk : k ≠ n) (h : e ≠ .node k) : (adopt n e t).nodes k = t.nodes k := by
  cases e with
  | null => rfl
  | node r =>
    rw [adopt_node]
    exact modify_of_ne _ fun hr => h (congrArg Entry.node hr.symm)
  | item v =>
    rw [adopt_item]
    split
    · exact modify_of_ne _ hk
    · rfl

theorem adopt_rest : (adopt n e t).isIdr = t.isIdr ∧ (adopt n e t).rootTags = t.rootTags ∧
    (adopt n e t).next = t.next := by
  cases e with
  | null | node r => exact ⟨rfl, rfl, rfl⟩
  | item v =>
    rw [adopt_item]
    split
    · exact ⟨rfl, rfl, rfl⟩
    · exact ⟨rfl, rfl, rfl⟩

end

section
variable [Config] {t : Tree} {n k : ℕ}

theorem pushTags_self : ∃ tags, (pushTags n t).nodes n = { t.nodes n with tags := tags } := by
  rw [pushTags]
  split
  · dsimp only
    split
    · exact ⟨_, modify_self ..⟩
    rw [putRootTag_nodes, modify_self, modify_self]
    exact ⟨_, rfl⟩
  · exact ⟨_, modify_self ..⟩

theorem pushTags_of_ne (h : k ≠ n) : (pushTags n t).nodes k = t.nodes k := by
  rw [pushTags]
  split
  · dsimp only
    split
    · exact modify_of_ne _ h
    · rw [putRootTag_nodes, modify_of_ne _ h, modify_of_ne _ h]
  · exact modify_of_ne _ h

theorem pushTags_rest : (pushTags n t).isIdr = t.isIdr ∧ (pushTags n t).next = t.next := by
  rw [pushTags]
  split
  · dsimp only
    split <;> exact ⟨rfl, rfl⟩
  · exact ⟨rfl, rfl⟩

/-- Only the tag of free slots is used in an IDR. -/
def OnlyFree (t : Tree) : Prop := t.isIdr = true → ∀ tag ≠ idrFree, t.rootTags tag = false

theorem pushTags_rootTags (h : OnlyFree t) (tag : Tag) :
    (pushTags n t).rootTags tag = (t.rootTags tag || t.blankTag tag) := by
  rw [pushTags, blankTag]
  split
  · rename_i hidr
    dsimp only
    by_cases htag : tag = idrFree
    · subst htag
      split
      · rename_i hfree
        have hfree' : t.rootTags idrFree = true := hfree
        simp [Tree.modify, hfree']
      · simp [putRootTag, hidr]
    split
    · simp [Tree.modify, h hidr tag htag, htag]
    rw [Tree.putRootTag]
    simp [Tree.modify, h hidr tag htag, htag]
  · rename_i hidr
    simp [Tree.modify, hidr]

theorem pushTags_tags (h : OnlyFree t) (hnew : (t.nodes n).tags = fun _ _ => false) (tag : Tag) {o : ℕ}
    (ho : o < mapSize) :
    ((pushTags n t).nodes n).tags tag o = if o = 0 then t.rootTags tag else t.blankTag tag := by
  rw [pushTags, blankTag]
  split
  · rename_i hidr
    dsimp only
    by_cases htag : tag = idrFree
    · subst htag
      split
      · rename_i hfree
        have hfree' : t.rootTags idrFree = true := hfree
        rw [modify_self, allTagSet]
        simp [hidr, ho, hfree']
      rename_i hfree
      have hfree' : t.rootTags idrFree = false := by simpa [Tree.modify] using hfree
      rw [putRootTag_nodes, modify_self, modify_self, putTag, allTagSet]
      by_cases hz : o = 0
      · simp [hz, hfree']
      · simp [hz, hidr, ho]
    have hroot := h hidr tag htag
    split
    · rw [modify_self, allTagSet]
      simp [htag, hnew, hroot]
    rw [putRootTag_nodes, modify_self, modify_self, putTag, allTagSet]
    simp [htag, hnew, hroot]
  rename_i hidr
  rw [modify_self, inheritTags, hnew]
  by_cases hz : o = 0
  · subst hz
    cases hroot : t.rootTags tag <;> simp [hroot]
  · cases hroot : t.rootTags tag <;> simp [hroot, hz, hidr]

/-- The second tree is the first one with the node `n` put above the root. -/
structure Pushed (t t' : Tree) (n : ℕ) : Prop where
  isIdr : t'.isIdr = t.isIdr
  head : t'.xaHead = .node n
  next : t'.next = t.next
  rootTags : ∀ tag, t'.rootTags tag = (t.rootTags tag || t.blankTag tag)
  tags : ∀ tag, ∀ o < mapSize, (t'.nodes n).tags tag o = if o = 0 then t.rootTags tag else t.blankTag tag
  slots : (t'.nodes n).slots = Function.update (fun _ => .null) 0 t.xaHead
  count : (t'.nodes n).count = 1
  nrValues : (t'.nodes n).nrValues = t.xaHead.valueWeight
  parent : (t'.nodes n).parent = none
  offset : (t'.nodes n).offset = 0
  shift : (t'.nodes n).shift = (t.nodes n).shift
  root : ∀ r, t.xaHead = .node r → t'.nodes r = { t.nodes r with parent := some n }
  other : ∀ k ≠ n, t.xaHead ≠ .node k → t'.nodes k = t.nodes k

theorem pushTop_pushed {shift : ℕ} (hfree : OnlyFree t) (hn : t.xaHead ≠ .node n)
    (hnew : t.nodes n = newNode none shift 0 1 0) : Pushed t (pushTop n t) n := by
  obtain ⟨hidr, hnext⟩ := pushTags_rest (n := n) (t := t)
  obtain ⟨hidr', hroot', hnext'⟩ := adopt_rest (n := n) (e := t.xaHead) (t := pushTags n t)
  obtain ⟨tags, htags⟩ := pushTags_self (n := n) (t := t)
  have hself : (pushTop n t).nodes n = { newNode none shift 0 1 0 with
      nrValues := t.xaHead.valueWeight, tags := tags, slots := update (fun _ => .null) 0 t.xaHead } := by
    rw [pushTop, assign, assign]
    rw [modify_self, adopt_self hn, htags, hnew]
    rfl
  have hne : ∀ k ≠ n, (pushTop n t).nodes k = (adopt n t.xaHead (pushTags n t)).nodes k := by
    intro k hk
    rw [pushTop, assign, assign]
    dsimp only
    exact modify_of_ne _ hk
  refine ⟨hidr'.trans hidr, rfl, hnext'.trans hnext, fun tag => ?_, fun tag o ho => ?_, ?_, ?_, ?_, ?_,
    ?_, ?_, fun r hr => ?_, fun k hk hk' => ?_⟩
  · rw [← pushTags_rootTags (n := n) hfree]
    exact congrFun hroot' tag
  · have htag := pushTags_tags hfree (by rw [hnew]; rfl) tag ho
    rw [htags] at htag
    rw [hself]
    exact htag
  · rw [hself]
  · rw [hself]
    rfl
  · rw [hself]
  · rw [hself]
    rfl
  · rw [hself]
    rfl
  · rw [hself, hnew]
  · have hrn : r ≠ n := by
      rintro rfl
      exact hn hr
    rw [hne r hrn, hr, adopt_node, modify_self, pushTags_of_ne hrn]
  · rw [hne k hk, adopt_of_ne hk hk', pushTags_of_ne hk]

end

theorem tally_single {w : Entry → ℕ} (hw : w .null = 0) {n : ℕ} (hn : 0 < n) (e : Entry) :
    tally w n (update (fun _ => .null) 0 e) = w e := by
  have h1 := tally_update (w := w) (f := fun _ => .null) hn e
  rw [tally_const hw, hw] at h1
  omega

section
variable {t : Tree} {e : Entry} {k : ℕ}

theorem promote_of_ne (h : e ≠ .node k) : (promote e t).nodes k = t.nodes k := by
  cases e with
  | null | item v => rfl
  | node c =>
    rw [promote]
    exact modify_of_ne _ fun hk => h (congrArg Entry.node hk.symm)

theorem promote_rest : (promote e t).isIdr = t.isIdr ∧ (promote e t).rootTags = t.rootTags ∧
    (promote e t).next = t.next := by
  cases e <;> exact ⟨rfl, rfl, rfl⟩

end

/-- The second tree is the first one without the root `r`. -/
structure Popped (t t' : Tree) (r : ℕ) : Prop where
  isIdr : t'.isIdr = t.isIdr
  head : t'.xaHead = (t.nodes r).slots 0
  next : t'.next = t.next
  rootTags : t'.rootTags = t.bit (some (r, 0))
  child : ∀ c, (t.nodes r).slots 0 = .node c → t'.nodes c = { t.nodes c with parent := none }
  other : ∀ k ≠ r, (t.nodes r).slots 0 ≠ .node k → t'.nodes k = t.nodes k

theorem raisedSlot_inj {n : ℕ} {s s' : Slot} (hs : ¬InNode n s) (hs' : ¬InNode n s')
    (h : raisedSlot n s = raisedSlot n s') : s = s' := by
  rw [raisedSlot, raisedSlot] at h
  split at h
  · rename_i hnone
    split at h
    · rename_i hnone'
      rw [hnone, hnone']
    · exact absurd ⟨0, h.symm⟩ hs'
  split at h
  · exact absurd ⟨0, h⟩ hs
  · exact h

/-- What the root and the slots outside of the node above it keep, every slot keeps. -/
theorem raisedSlot_congr {α : Type*} {f g : Slot → α} {n : ℕ} {s : Slot}
    (hroot : f (some (n, 0)) = g none) (hrest : ∀ k o, k ≠ n → f (some (k, o)) = g (some (k, o)))
    (hout : ¬InNode n s) : f (raisedSlot n s) = g s := by
  match s with
  | none =>
    rw [raisedSlot, if_pos rfl]
    exact hroot
  | some (k, o) =>
    rw [raisedSlot, if_neg (by simp)]
    refine hrest k o ?_
    rintro rfl
    exact hout ⟨o, rfl⟩

section
variable {t t' : Tree} {r k : ℕ} {s : Slot} (hp : Popped t t' r)
include hp

theorem Popped.keeps {α : Type*} {g : Node → α}
    (h : ∀ node : Node, ∀ p, g { node with parent := p } = g node) (hk : k ≠ r) :
    g (t'.nodes k) = g (t.nodes k) := by
  by_cases hc : (t.nodes r).slots 0 = .node k
  · rw [hp.child k hc]
    exact h ..
  · rw [hp.other k hk hc]

theorem Popped.read (hout : ¬InNode r s) : t'.read s = t.read (raisedSlot r s) := by
  refine (raisedSlot_congr hp.head.symm (fun k o hk => ?_) hout).symm
  rw [Tree.read, Tree.read, hp.keeps (g := slots) (fun _ _ => rfl) hk]

theorem Popped.bit (hout : ¬InNode r s) : t'.bit s = t.bit (raisedSlot r s) := by
  refine (raisedSlot_congr hp.rootTags.symm (fun k o hk => ?_) hout).symm
  funext tag
  rw [Tree.bit, Tree.bit, hp.keeps (g := tags) (fun _ _ => rfl) hk]

end

section
variable [Config] {t t' : Tree} {live : Set ℕ} {n k : ℕ} {s : Slot}

theorem not_inNode_of_ok (hn : n ∉ live) (hs : SlotOk live s) : ¬InNode n s := by
  rintro ⟨o, rfl⟩
  exact hn (hs n o rfl).1

/-- The slots with a node more: the root, the slots there were and the others of the node. -/
theorem slotOk_insert (hs : SlotOk (Insert.insert n live) s) :
    s = none ∨ (∃ s', SlotOk live s' ∧ s = raisedSlot n s') ∨ ∃ o, o ≠ 0 ∧ o < mapSize ∧
    s = some (n, o) := by
  match s with
  | none => exact .inl rfl
  | some (k, o) =>
    obtain ⟨hk, ho⟩ := hs k o rfl
    rcases hk with rfl | hk
    · by_cases hz : o = 0
      · subst hz
        exact .inr (.inl ⟨none, slotOk_none, rfl⟩)
      · exact .inr (.inr ⟨o, hz, ho, rfl⟩)
    · exact .inr (.inl ⟨some (k, o), slotOk_some.mpr ⟨hk, ho⟩, by rw [raisedSlot, if_neg (by simp)]⟩)

theorem raisedSlot_ok {live' : Set ℕ} (hs : SlotOk live s) (hsub : live ⊆ live') (hn : n ∈ live') :
    SlotOk live' (raisedSlot n s) := by
  rw [raisedSlot]
  split
  · exact slotOk_some.mpr ⟨hn, mapSize_pos⟩
  · exact hs.mono hsub

section
variable (hp : Pushed t t' n)
include hp

theorem Pushed.keeps {α : Type*} {g : Node → α}
    (h : ∀ node : Node, ∀ p, g { node with parent := p } = g node)
    (hk : k ≠ n) : g (t'.nodes k) = g (t.nodes k) := by
  by_cases hr : t.xaHead = .node k
  · rw [hp.root k hr]
    exact h ..
  · rw [hp.other k hk hr]

theorem Pushed.read (hout : ¬InNode n s) : t'.read (raisedSlot n s) = t.read s := by
  refine raisedSlot_congr ((congrFun hp.slots 0).trans (update_self ..)) (fun k o hk => ?_) hout
  rw [Tree.read, Tree.read, hp.keeps (g := Node.slots) (fun _ _ => rfl) hk]

theorem Pushed.bit (hout : ¬InNode n s) : t'.bit (raisedSlot n s) = t.bit s := by
  refine raisedSlot_congr (funext fun tag => (hp.tags tag 0 mapSize_pos).trans (if_pos rfl))
    (fun k o hk => ?_) hout
  funext tag
  rw [Tree.bit, Tree.bit, hp.keeps (g := Node.tags) (fun _ _ => rfl) hk]

theorem Pushed.slots_of_ne {o : ℕ} (ho : o ≠ 0) : (t'.nodes n).slots o = .null := by
  rw [hp.slots]
  exact update_of_ne ho ..

theorem Pushed.anyTagSet (tag : Tag) :
    (t'.nodes n).anyTagSet tag = (t.rootTags tag || t.blankTag tag) := by
  rw [anyTagSet_first fun o ho hz => (hp.tags tag o ho).trans (if_neg hz), hp.tags tag 0 mapSize_pos,
    if_pos rfl]

theorem Pushed.counted (hnull : t.xaHead ≠ .null) : (t'.nodes n).Counted := by
  refine ⟨?_, ?_⟩
  · rw [hp.count, hp.slots, tally_single rfl mapSize_pos, Entry.weight, if_neg hnull]
  · rw [hp.nrValues, hp.slots, tally_single rfl mapSize_pos]

variable (h : Shape t live) (hn : n ∉ live)
include h hn

theorem Pushed.home (hk : k ∈ live) : t'.home k = raisedSlot n (t.home k) := by
  have hkn : k ≠ n := by
    rintro rfl
    exact hn hk
  by_cases hr : t.xaHead = .node k
  · have hhome := (h.child none slotOk_none k hr).2.1
    have hpar : (t.nodes k).parent = none := by simpa [Tree.home] using hhome
    rw [hhome, raisedSlot, if_pos rfl, Tree.home, hp.root k hr]
    simp [h.rootOffset k hk hpar]
  have hne : t.home k ≠ none := by
    intro hnone
    have hread := (h.home k hk).2
    rw [hnone] at hread
    exact hr hread
  rw [raisedSlot, if_neg hne, Tree.home, Tree.home, hp.other k hkn hr]

variable (hnull : t.xaHead ≠ .null)
  (hroot : ∀ r, t.xaHead = .node r → (t.nodes r).shift + mapShift = (t.nodes n).shift)
  (hitem : ∀ v, t.xaHead = .item v → (t.nodes n).shift = 0)
include hnull hroot hitem

/-- The tree is in shape with a node above the root. -/
theorem Shape.push (hnext : n < t.next) (hmul : mapShift ∣ (t.nodes n).shift)
    (hlt : (t.nodes n).shift < bitsPerLong) : Shape t' (Insert.insert n live) := by
  have hne : ∀ k ∈ live, k ≠ n := by
    rintro k hk rfl
    exact hn hk
  have hshift : ∀ k ∈ live, (t'.nodes k).shift = (t.nodes k).shift :=
    fun k hk => hp.keeps (fun _ _ => rfl) (hne k hk)
  refine .of_nodes ?_ ?_ ?_ ?_ ?_ ?_
  · intro k hk
    rw [hp.next]
    rcases hk with rfl | hk
    · exact hnext
    · exact h.fresh k hk
  · rintro k (rfl | hk)
    · rw [home, hp.parent]
      exact ⟨slotOk_none, hp.head⟩
    obtain ⟨hok, hread⟩ := h.home k hk
    rw [hp.home h hn hk, hp.read (not_inNode_of_ok hn hok)]
    exact ⟨raisedSlot_ok hok (subset_insert ..) (mem_insert ..), hread⟩
  · intro k hk hpar
    rcases hk with rfl | hk
    · exact hp.offset
    by_cases hr : t.xaHead = .node k
    · rw [hp.root k hr] at hpar
      cases hpar
    rw [hp.other k (hne k hk) hr] at hpar ⊢
    exact h.rootOffset k hk hpar
  · intro s' hs' c hc
    rcases slotOk_insert hs' with rfl | ⟨s, hs, rfl⟩ | ⟨o, hz, -, rfl⟩
    · obtain rfl := Entry.node.inj (hp.head.symm.trans hc)
      refine ⟨mem_insert .., by rw [home, hp.parent]; rfl, ?_⟩
      rintro p o ⟨⟩
    · rw [hp.read (not_inNode_of_ok hn hs)] at hc
      obtain ⟨hcl, hhome, hup⟩ := h.child s hs c hc
      refine ⟨mem_insert_of_mem _ hcl, by rw [hp.home h hn hcl, hhome], fun p o hpo => ?_⟩
      rw [hshift c hcl]
      rcases s with _ | ⟨q, o'⟩
      · obtain ⟨rfl, -⟩ := Prod.mk.inj (Option.some.inj hpo)
        rw [hp.shift]
        exact hroot c hc
      rw [raisedSlot, if_neg (by simp)] at hpo
      rw [hshift p (hs p o hpo).1]
      exact hup p o hpo
    · rw [Tree.read, hp.slots_of_ne hz] at hc
      cases hc
  · rintro k (rfl | hk)
    · refine ⟨fun o _ v hv => ?_, by rw [hp.shift]; exact ⟨hmul, hlt⟩, fun o _ hv => ?_,
        hp.counted hnull⟩
      · by_cases hz : o = 0
        · rw [hz, hp.slots, update_self] at hv
          rw [hp.shift]
          exact hitem v hv
        · rw [hp.slots_of_ne hz] at hv
          cases hv
      by_cases hz : o = 0
      · rw [hz, zero_mul]
        exact Nat.two_pow_pos _
      · exact absurd (hp.slots_of_ne hz) hv
    · exact (h.nodeOk hk).congr (hshift k hk) (hp.keeps (fun _ _ => rfl) (hne k hk))
        (hp.keeps (fun _ _ => rfl) (hne k hk)) (hp.keeps (fun _ _ => rfl) (hne k hk))
  intro s' hs' tag
  rcases slotOk_insert hs' with rfl | ⟨s, hs, rfl⟩ | ⟨o, hz, ho, rfl⟩
  · rw [Tree.TagOk, Tree.read, hp.head]
    exact (hp.rootTags tag).trans (hp.anyTagSet tag).symm
  · have hout := not_inNode_of_ok hn hs
    refine (tagOk_congr hp.isIdr (hp.read hout) (by rw [hp.bit hout]) fun c hc => ?_).mpr
      (h.tags s hs tag)
    rw [Node.anyTagSet, Node.anyTagSet,
      hp.keeps (g := Node.tags) (fun _ _ => rfl) (hne c (h.child s hs c hc).1)]
  · rw [Tree.TagOk, Tree.read, hp.slots_of_ne hz]
    rw [bit, hp.tags tag o ho, if_neg hz, blankTag_congr hp.isIdr]

/-- The node above the root makes no difference to what is stored. -/
theorem Shape.raisedBy_push : RaisedBy t t' n where
  head := hp.head
  first := hp.read not_inNode_none
  empty o _ hz := hp.slots_of_ne hz
  nonnull := hnull
  covers i := by
    rw [hp.shift, Covers]
    cases hhead : t.xaHead with
    | null => exact absurd hhead hnull
    | item v =>
      simp only [hitem v hhead]
      omega
    | node r => simp only [hroot r hhead]
  unused s i hs hread := hn (h.child s (hs.ok h.toLinks) n hread).1
  read s hs hout := by
    have hread := hp.read hout
    rwa [raisedSlot, if_neg hs] at hread
  bit s hs hout := by
    have hbit := hp.bit hout
    rwa [raisedSlot, if_neg hs] at hbit
  bitFirst := hp.bit not_inNode_none
  shift k hk := hp.keeps (fun _ _ => rfl) hk

end

section
variable {r : ℕ} (h : Shape t live) (hr : t.xaHead = .node r)
  (hempty : ∀ o < mapSize, o ≠ 0 → (t.nodes r).slots o = .null)
include h hr hempty

theorem Shape.root_anyTagSet (tag : Tag) :
    t.rootTags tag = ((t.nodes r).tags tag 0 || t.blankTag tag) := by
  have hrl := (h.child none slotOk_none r hr).1
  have hroot := h.tags none slotOk_none tag
  have hrest : ∀ o < mapSize, o ≠ 0 → (t.nodes r).tags tag o = t.blankTag tag := by
    intro o ho hz
    have hok := h.tags (some (r, o)) (slotOk_some.mpr ⟨hrl, ho⟩) tag
    rw [Tree.TagOk, Tree.read, hempty o ho hz] at hok
    exact hok
  rw [Tree.TagOk, Tree.read, hr] at hroot
  exact hroot.trans (anyTagSet_first hrest)

theorem popTop_popped : Popped t (popTop r t) r := by
  obtain ⟨hidr, hroot, hnext⟩ := promote_rest (e := (t.nodes r).slots 0) (t := t)
  have hrl := (h.child none slotOk_none r hr).1
  have hself : (t.nodes r).slots 0 ≠ .node r := by
    intro hc
    have := (h.child (some (r, 0)) (slotOk_some.mpr ⟨hrl, mapSize_pos⟩) r hc).2.2 r 0 rfl
    have := Config.pos
    omega
  have hnodes : ∀ k ≠ r, (popTop r t).nodes k = (promote ((t.nodes r).slots 0) t).nodes k := by
    intro k hk
    rw [popTop, free, modify_of_ne _ hk]
    split
    · rfl
    · rfl
  have hstart : (popTop r t).isIdr = t.isIdr ∧ (popTop r t).xaHead = (t.nodes r).slots 0 ∧
    (popTop r t).next = t.next := by
    rw [popTop]
    split
    · exact ⟨hidr, rfl, hnext⟩
    · exact ⟨hidr, rfl, hnext⟩
  refine ⟨hstart.1, hstart.2.1, hstart.2.2, ?_, fun c hc => ?_, fun k hk hc => ?_⟩
  · funext tag
    have hany := h.root_anyTagSet hr hempty tag
    rw [blankTag] at hany
    rw [popTop, bit]
    split
    · rename_i hfree
      obtain ⟨hi, hf⟩ := Bool.and_eq_true_iff.mp hfree
      by_cases htag : tag = idrFree
      · subst htag
        simpa [Tree.free, Tree.modify, Tree.putRootTag] using hf
      have hroot' : (promote ((t.nodes r).slots 0) t).rootTags tag = (t.nodes r).tags tag 0 := by
        rw [hroot, hany]
        simp [htag]
      simpa [Tree.free, Tree.modify, Tree.putRootTag, htag, Tree.assign] using hroot'
    rename_i hfree
    have hroot' : (promote ((t.nodes r).slots 0) t).rootTags tag = (t.nodes r).tags tag 0 := by
      rw [hroot, hany]
      by_cases hi : t.isIdr = true
      · by_cases htag : tag = idrFree
        · subst htag
          have hf : (t.nodes r).tags idrFree 0 = true := by simpa [hi] using hfree
          simp [hf]
        · simp [htag]
      · simp [hi]
    exact hroot'
  · have hcr : c ≠ r := by
      rintro rfl
      exact hself hc
    rw [hnodes c hcr, hc, promote, modify_self]
  · rw [hnodes k hk, promote_of_ne hc]

end

section
variable {r : ℕ} (hp : Popped t t' r)
include hp

variable (h : Shape t live) (hr : t.xaHead = .node r)
include h hr

theorem Popped.home (hk : k ∈ live) (hkr : k ≠ r)
    (hempty : ∀ o < mapSize, o ≠ 0 → (t.nodes r).slots o = .null) :
    SlotOk (live \ {r}) (t'.home k) ∧ t.home k = raisedSlot r (t'.home k) := by
  obtain ⟨hok, hread⟩ := h.home k hk
  have hrl := (h.child none slotOk_none r hr).1
  by_cases hc : (t.nodes r).slots 0 = .node k
  · have hhome := (h.child (some (r, 0)) (slotOk_some.mpr ⟨hrl, mapSize_pos⟩) k hc).2.1
    have hnone : t'.home k = none := by
      rw [Tree.home, hp.child k hc]
      rfl
    rw [hnone, hhome]
    exact ⟨slotOk_none, rfl⟩
  have hsame : t'.home k = t.home k := by
    rw [Tree.home, Tree.home, hp.other k hkr hc]
  have hne : t.home k ≠ none := by
    intro hnone
    rw [hnone] at hread
    exact hkr (Entry.node.inj (hread.symm.trans hr))
  rw [hsame, raisedSlot, if_neg hne]
  refine ⟨fun p o hpo => ⟨⟨(hok p o hpo).1, ?_⟩, (hok p o hpo).2⟩, rfl⟩
  rintro rfl
  rw [hpo] at hread
  by_cases hz : o = 0
  · exact hc (hz ▸ hread)
  · cases (hempty o (hok p o hpo).2 hz).symm.trans hread

section
variable (hempty : ∀ o < mapSize, o ≠ 0 → (t.nodes r).slots o = .null)
include hempty

/-- The tree is in shape without its root. -/
theorem Shape.pop : Shape t' (live \ {r}) := by
  have hshift : ∀ k ≠ r, (t'.nodes k).shift = (t.nodes k).shift :=
    fun k hk => hp.keeps (fun _ _ => rfl) hk
  have hout : ∀ s, SlotOk (live \ {r}) s → ¬InNode r s :=
    fun s hs => not_inNode_of_ok (fun hmem => hmem.2 rfl) hs
  have hrl := (h.child none slotOk_none r hr).1
  have hchild : ∀ s, SlotOk (live \ {r}) s → ∀ c, t.read (raisedSlot r s) = .node c → c ≠ r := by
    rintro s hs c hc rfl
    have hnone := (h.child none slotOk_none c hr).2.1
    rw [(h.child _ (raisedSlot_ok hs sdiff_subset hrl) c hc).2.1, raisedSlot] at hnone
    split at hnone
    · cases hnone
    · contradiction
  refine .of_nodes ?_ ?_ ?_ ?_ ?_ ?_
  · intro k hk
    rw [hp.next]
    exact h.fresh k hk.1
  · intro k hk
    obtain ⟨hok, hhome⟩ := hp.home h hr hk.1 hk.2 hempty
    refine ⟨hok, ?_⟩
    rw [hp.read (hout _ hok), ← hhome]
    exact (h.home k hk.1).2
  · intro k hk hpar
    rw [hp.keeps (g := offset) (fun _ _ => rfl) hk.2]
    by_cases hc : (t.nodes r).slots 0 = .node k
    · have hrl := (h.child none slotOk_none r hr).1
      have hhome := (h.child (some (r, 0)) (slotOk_some.mpr ⟨hrl, mapSize_pos⟩) k hc).2.1
      obtain ⟨q, -, hq⟩ := Option.map_eq_some_iff.mp hhome
      exact (Prod.mk.inj hq).2
    · rw [hp.other k hk.2 hc] at hpar
      exact h.rootOffset k hk.1 hpar
  · intro s hs c hc
    rw [hp.read (hout s hs)] at hc
    obtain ⟨hcl, hhome, hup⟩ := h.child _ (raisedSlot_ok hs sdiff_subset hrl) c hc
    have hcr := hchild s hs c hc
    refine ⟨⟨hcl, hcr⟩, ?_, fun p o hpo => ?_⟩
    · obtain ⟨hok, heq⟩ := hp.home h hr hcl hcr hempty
      exact raisedSlot_inj (hout _ hok) (hout _ hs) (heq.symm.trans hhome)
    have hpr : p ≠ r := (hs p o hpo).1.2
    rw [hshift c hcr, hshift p hpr]
    exact hup p o (by rw [raisedSlot, if_neg (by simp [hpo]), hpo])
  · intro k hk
    exact (h.nodeOk hk.1).congr (hshift k hk.2) (hp.keeps (fun _ _ => rfl) hk.2)
      (hp.keeps (fun _ _ => rfl) hk.2) (hp.keeps (fun _ _ => rfl) hk.2)
  intro s hs tag
  refine (tagOk_congr hp.isIdr (hp.read (hout s hs)) (by rw [hp.bit (hout s hs)]) fun c hc => ?_).mpr
    (h.tags _ (raisedSlot_ok hs sdiff_subset hrl) tag)
  rw [Node.anyTagSet, Node.anyTagSet, hp.keeps (g := Node.tags) (fun _ _ => rfl) (hchild s hs c hc)]

/-- The root makes no difference to what is stored. -/
theorem Shape.raisedBy_pop (hfirst : (t.nodes r).slots 0 ≠ .null) : RaisedBy t' t r where
  head := hr
  first := hp.head.symm
  empty := hempty
  nonnull := by
    rw [hp.head]
    exact hfirst
  covers i := by
    have hrl := (h.child none slotOk_none r hr).1
    rw [Covers, hp.head]
    cases hc : (t.nodes r).slots 0 with
    | null => exact absurd hc hfirst
    | item v =>
      simp only [h.item r hrl 0 mapSize_pos v hc]
      omega
    | node c =>
      have hup := (h.child (some (r, 0)) (slotOk_some.mpr ⟨hrl, mapSize_pos⟩) c hc).2.2 r 0 rfl
      simp only [hp.child c hc, hup]
  unused s i hs hread :=
    ((h.pop hp hr hempty).child s (hs.ok (h.pop hp hr hempty).toLinks) r hread).1.2 rfl
  read s hs hout := by
    have hread := hp.read hout
    rw [raisedSlot, if_neg hs] at hread
    exact hread.symm
  bit s hs hout := by
    have hbit := hp.bit hout
    rw [raisedSlot, if_neg hs] at hbit
    exact hbit.symm
  bitFirst := hp.rootTags.symm
  shift k hk := (hp.keeps (fun _ _ => rfl) hk).symm

end

end

end

end LinuxNote.RadixTree
