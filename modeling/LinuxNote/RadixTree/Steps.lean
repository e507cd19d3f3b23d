import LinuxNote.RadixTree.Shape

/-! The elementary changes to a radix tree: an entry is put into a slot, and an empty node comes or
goes. -/

namespace LinuxNote.RadixTree
open Radix RadixTree.Tree Set Node
open Config (mapShift)

/-- Put an entry into a slot, and keep the counts of the node right. -/
def Tree.put (t : Tree) (s : Slot) (e : Entry) : Tree :=
  match s with
  | none => t.assign none e
  | some (n, o) => t.modify n fun node =>
    { node with
      slots := Function.update node.slots o e
      count := node.count + e.weight - (node.slots o).weight
      nrValues := node.nrValues + e.valueWeight - (node.slots o).valueWeight }

section
variable {t : Tree} {s s' : Slot} {e : Entry}

/-- What `put` does not touch. -/
theorem put_keeps {α : Type*} {g : Node → α}
    (h : ∀ node : Node, ∀ f c v, g { node with slots := f, count := c, nrValues := v } = g node)
    (k : ℕ) : g ((t.put s e).nodes k) = g (t.nodes k) := by
  match s with
  | none => rfl
  | some (n, o) =>
    rw [put]
    by_cases hk : k = n
    · rw [hk, modify_self, h]
    · rw [modify_of_ne _ hk]

theorem put_shift (k : ℕ) : ((t.put s e).nodes k).shift = (t.nodes k).shift :=
  put_keeps (fun _ _ _ _ => rfl) k

theorem put_tags (k : ℕ) : ((t.put s e).nodes k).tags = (t.nodes k).tags :=
  put_keeps (fun _ _ _ _ => rfl) k

theorem put_parent (k : ℕ) : ((t.put s e).nodes k).parent = (t.nodes k).parent :=
  put_keeps (fun _ _ _ _ => rfl) k

theorem put_offset (k : ℕ) : ((t.put s e).nodes k).offset = (t.nodes k).offset :=
  put_keeps (fun _ _ _ _ => rfl) k

theorem put_home (k : ℕ) : (t.put s e).home k = t.home k := by
  rw [home, home, put_parent, put_offset]

theorem put_next : (t.put s e).next = t.next := by
  match s with
  | none => rfl
  | some (n, o) => rfl

theorem put_isIdr : (t.put s e).isIdr = t.isIdr := by
  match s with
  | none => rfl
  | some (n, o) => rfl

theorem put_bit (s' : Slot) : (t.put s e).bit s' = t.bit s' := by
  match s, s' with
  | none, none => rfl
  | none, some (k, o') => rfl
  | some (n, o), none => rfl
  | some (n, o), some (k, o') =>
    funext tag
    simp only [bit, put_tags]

theorem put_slots (k : ℕ) : ((t.put s e).nodes k).slots = ((t.assign s e).nodes k).slots := by
  match s with
  | none => rfl
  | some (n, o) =>
    by_cases hk : k = n
    · subst hk
      rw [put, assign, modify_self, modify_self, setSlot]
    · rw [put, assign, modify_of_ne _ hk, modify_of_ne _ hk]

theorem put_read (s' : Slot) : (t.put s e).read s' = if s' = s then e else t.read s' := by
  rw [← read_assign]
  match s, s' with
  | none, none => rfl
  | some (n, o), none => rfl
  | s, some (k, o') => rw [Tree.read, Tree.read, put_slots]

theorem put_read_self : (t.put s e).read s = e := by
  rw [put_read, if_pos rfl]

theorem put_read_of_ne (h : s' ≠ s) : (t.put s e).read s' = t.read s' := by
  rw [put_read, if_neg h]

variable [Config]

theorem put_anyTagSet (k : ℕ) (tag : Tag) :
    ((t.put s e).nodes k).anyTagSet tag = (t.nodes k).anyTagSet tag := by
  rw [anyTagSet, anyTagSet, put_tags]

/-- The counts stay right. -/
theorem put_counted {live : Set ℕ} (hs : SlotOk live s) {k : ℕ} (h : (t.nodes k).Counted) :
    ((t.put s e).nodes k).Counted := by
  match s with
  | none => exact h
  | some (n, o) =>
    by_cases hk : k = n
    · subst hk
      have ho := (hs k o rfl).2
      have h1 := tally_update (w := Entry.weight) (f := (t.nodes k).slots) ho e
      have h2 := tally_update (w := Entry.valueWeight) (f := (t.nodes k).slots) ho e
      have hc := h.count
      have hv := h.values
      rw [put, modify_self]
      exact ⟨by simp only; omega, by simp only; omega⟩
    · rw [put, modify_of_ne _ hk]
      exact h

end

/-! ### Nodes that are not in use -/

/-- The trees have the same root, and agree on the nodes in use. -/
structure Agree (t t' : Tree) (live : Set ℕ) : Prop where
  isIdr : t'.isIdr = t.isIdr
  head : t'.xaHead = t.xaHead
  rootTags : t'.rootTags = t.rootTags
  nodes : ∀ n ∈ live, t'.nodes n = t.nodes n

section
variable {t t' : Tree} {live : Set ℕ}

theorem blankTag_congr (h : t'.isIdr = t.isIdr) (tag : Tag) : t'.blankTag tag = t.blankTag tag := by
  rw [Tree.blankTag, Tree.blankTag, h]

theorem Agree.home (ha : Agree t t' live) {n : ℕ} (hn : n ∈ live) : t'.home n = t.home n := by
  rw [Tree.home, Tree.home, ha.nodes n hn]

theorem Agree.symm (ha : Agree t t' live) : Agree t' t live :=
  ⟨ha.isIdr.symm, ha.head.symm, ha.rootTags.symm, fun n hn => (ha.nodes n hn).symm⟩

end

section
variable [Config] {t t' : Tree} {live : Set ℕ} {i j : ℕ} {s s' : Slot} {e : Entry} {v w : Item}
  {g : Tag → Bool}

theorem tagOk_congr {tag : Tag} (hidr : t'.isIdr = t.isIdr) (hread : t'.read s' = t.read s)
    (hbit : t'.bit s' tag = t.bit s tag)
    (hany : ∀ c, t.read s = .node c → (t'.nodes c).anyTagSet tag = (t.nodes c).anyTagSet tag) :
    t'.TagOk s' tag ↔ t.TagOk s tag := by
  rw [TagOk, TagOk, hread, hbit, blankTag_congr hidr]
  cases hs : t.read s with
  | null | item v => rfl
  | node c => simp only [hany c hs]

/-! ### Entries that are no nodes -/

/-- The entry may be in the slot: items are at the bottom, and what is there has an index. -/
def Fits (t : Tree) (s : Slot) (e : Entry) : Prop :=
  ∀ p o, s = some (p, o) → (∀ v, e = .item v → (t.nodes p).shift = 0) ∧
    (e ≠ .null → o * 2 ^ (t.nodes p).shift < 2 ^ bitsPerLong)

theorem put_nodeOk {k : ℕ} (h : (t.nodes k).Ok) (hs : SlotOk live s) (hfit : Fits t s e) :
    ((t.put s e).nodes k).Ok := by
  refine ⟨fun o ho v hv => ?_, ?_, fun o ho hv => ?_, put_counted hs h.counted⟩
  · have hread : (t.put s e).read (some (k, o)) = .item v := hv
    rw [put_shift]
    by_cases hks : some (k, o) = s
    · rw [hks, put_read_self] at hread
      exact (hfit k o hks.symm).1 v hread
    rw [put_read_of_ne hks] at hread
    exact h.item o ho v hread
  · rw [put_shift]
    exact h.shift
  have hread : (t.put s e).read (some (k, o)) ≠ .null := hv
  rw [put_shift]
  by_cases hks : some (k, o) = s
  · rw [hks, put_read_self] at hread
    exact (hfit k o hks.symm).2 hread
  rw [put_read_of_ne hks] at hread
  exact h.bound o ho hread

theorem Shape.put (h : Shape t live) (hs : SlotOk live s) (hold : ∀ n, t.read s ≠ .node n)
    (hnew : ∀ n, e ≠ .node n) (hfit : Fits t s e)
    (htag : e = .null → ∀ tag, t.bit s tag = t.blankTag tag) : Shape (t.put s e) live := by
  refine .of_nodes (fun n hn => ?_) (fun n hn => ?_) (fun n hn => ?_) (fun s' hs' c hc => ?_)
    (fun n hn => put_nodeOk (h.nodeOk hn) hs hfit) fun s' hs' tag => ?_
  · rw [put_next]
    exact h.fresh n hn
  · obtain ⟨hok, hread⟩ := h.home n hn
    have hne : t.home n ≠ s := by
      rintro rfl
      exact hold n hread
    rw [put_home, put_read_of_ne hne]
    exact ⟨hok, hread⟩
  · rw [put_parent, put_offset]
    exact h.rootOffset n hn
  · have hne : s' ≠ s := by
      rintro rfl
      rw [put_read_self] at hc
      exact hnew c hc
    rw [put_read_of_ne hne] at hc
    simp only [put_home, put_shift]
    exact h.child s' hs' c hc
  by_cases hne : s' = s
  · subst hne
    rw [TagOk, put_bit, put_read_self]
    cases e with
    | null => exact (htag rfl tag).trans (blankTag_congr put_isIdr tag).symm
    | item v => trivial
    | node n => exact absurd rfl (hnew n)
  · exact (tagOk_congr put_isIdr (put_read_of_ne hne) (by rw [put_bit]) fun c _ =>
      put_anyTagSet c tag).mpr (h.tags s' hs' tag)

/-- Entries that are no nodes do not change the walks. -/
theorem on_put (hs : s ≠ none) (hold : ∀ n, t.read s ≠ .node n) (hnew : ∀ n, e ≠ .node n) :
    On (t.put s e) i s' ↔ On t i s' := by
  have hhead : (t.put s e).xaHead = t.xaHead := put_read_of_ne (Ne.symm hs)
  have hcov : (t.put s e).Covers i ↔ t.Covers i := covers_congr hhead fun r _ => put_shift r
  constructor
  · intro h
    refine h.congr (hcov.mp h.covers) fun s0 n _ hread => ?_
    have hne : s0 ≠ s := by
      rintro rfl
      exact hnew n (put_read_self.symm.trans hread)
    rw [put_read_of_ne hne] at hread
    exact ⟨hread, (put_shift n).symm⟩
  intro h
  refine h.congr (hcov.mpr h.covers) fun s0 n _ hread => ?_
  have hne : s0 ≠ s := by
    rintro rfl
    exact hold n hread
  exact ⟨(put_read_of_ne hne).trans hread, put_shift n⟩

/-- The slot at the end of the walk of `i`, where an item of that index is or could be. -/
def Leaf (t : Tree) (i : ℕ) (s : Slot) : Prop :=
  On t i s ∧ (∀ n, t.read s ≠ .node n) ∧ match s with
    | none => i = 0
    | some (p, _) => (t.nodes p).shift = 0

section
variable (hl : Links t live) (h : Leaf t i s)
include hl h

theorem Leaf.on_iff (hs : s ≠ none) : On t j s ↔ j = i := by
  obtain ⟨hon, -, hzero⟩ := h
  match s with
  | none => exact absurd rfl hs
  | some (p, o) =>
    rw [hon.iff_prefix hl, show (t.nodes p).shift = 0 from hzero, pow_zero, Nat.div_one,
      Nat.div_one, eq_comm]

/-- What is stored once a slot of a node has got an entry that is no node. -/
theorem stores_put (hs : s ≠ none) (hnew : ∀ n, e ≠ .node n) :
    Stores (t.put s e) j w g ↔ (j = i ∧ e = .item w ∧ t.bit s = g) ∨ (j ≠ i ∧ Stores t j w g) := by
  have hon : ∀ s', On (t.put s e) j s' ↔ On t j s' := fun s' => on_put hs h.2.1 hnew
  constructor
  · rintro ⟨s', hs', hread, hbit⟩
    rw [hon] at hs'
    rw [put_bit] at hbit
    by_cases hne : s' = s
    · subst hne
      rw [put_read_self] at hread
      exact .inl ⟨(h.on_iff hl hs).mp hs', hread, hbit⟩
    rw [put_read_of_ne hne] at hread
    refine .inr ⟨?_, s', hs', hread, hbit⟩
    rintro rfl
    exact hne (hs'.unique h.1 (by simp [hread]) h.2.1)
  rintro (⟨rfl, rfl, hbit⟩ | ⟨hji, s', hs', hread, hbit⟩)
  · exact ⟨s, (hon s).mpr h.1, put_read_self, (put_bit s).trans hbit⟩
  have hne : s' ≠ s := by
    rintro rfl
    exact hji ((h.on_iff hl hs).mp hs')
  exact ⟨s', (hon s').mpr hs', (put_read_of_ne hne).trans hread, (put_bit s').trans hbit⟩

/-- What is stored once a slot has got an item. -/
theorem stores_put_item (hnull : t.read s = .null) :
    Stores (t.put s (.item v)) j w g ↔ (j = i ∧ w = v ∧ g = t.bit s) ∨ (j ≠ i ∧ Stores t j w g) := by
  by_cases hs : s = none
  · subst hs
    obtain ⟨-, -, rfl⟩ : On t i none ∧ (∀ n, t.read none ≠ .node n) ∧ i = 0 := h
    have hno : ¬Stores t j w g := by
      rintro ⟨s', hs', hread, -⟩
      rw [on_none_of_null hnull hs'] at hread
      cases hnull.symm.trans hread
    constructor
    · rintro ⟨s', hs', hread, hbit⟩
      cases hs' with
      | head hcov => exact .inl ⟨hcov, (Entry.item.inj hread).symm, hbit.symm⟩
      | @next s0 n hs0 hread0 =>
        have hend : On (t.put none (.item v)) j none := .head hs0.covers
        have := hend.unique (hs0.next hread0) (by simp [put_read_self]) (by simp [hread])
        cases this
    rintro (⟨rfl, rfl, rfl⟩ | ⟨-, hst⟩)
    · exact ⟨none, .head rfl, rfl, rfl⟩
    · exact absurd hst hno
  · rw [stores_put hl h hs (by simp), Entry.item.injEq, eq_comm (a := v), eq_comm (a := t.bit s)]

/-- What is stored once an item is gone from its slot. -/
theorem stores_put_null (hv : t.read s = .item v) :
    Stores (t.put s .null) j w g ↔ j ≠ i ∧ Stores t j w g := by
  by_cases hs : s = none
  · subst hs
    obtain ⟨-, -, rfl⟩ : On t i none ∧ (∀ n, t.read none ≠ .node n) ∧ i = 0 := h
    have hhead : (t.put none .null).xaHead = .null := rfl
    constructor
    · rintro ⟨s', hs', hread, -⟩
      rw [on_none_of_null hhead hs'] at hread
      cases hread
    rintro ⟨hj, s', hs', -⟩
    have hcov := hs'.covers
    rw [Covers, show t.xaHead = .item v from hv] at hcov
    exact absurd hcov hj
  · simpa using stores_put hl h hs (e := .null) (by simp)

end

/-! ### Trees that agree -/

section
variable (ha : Agree t t' live)
include ha

theorem Agree.read (hs : SlotOk live s) : t'.read s = t.read s := by
  match s with
  | none => exact ha.head
  | some (p, o) => rw [Tree.read, Tree.read, ha.nodes p (hs p o rfl).1]

theorem Agree.bit (hs : SlotOk live s) : t'.bit s = t.bit s := by
  match s with
  | none => exact ha.rootTags
  | some (p, o) =>
    funext tag
    rw [Tree.bit, Tree.bit, ha.nodes p (hs p o rfl).1]

theorem Agree.shape (h : Shape t live) (hnext : t.next ≤ t'.next) : Shape t' live := by
  refine .of_nodes (fun n hn => (h.fresh n hn).trans_le hnext) (fun n hn => ?_) (fun n hn => ?_)
    (fun s hs c hc => ?_) (fun n hn => ha.nodes n hn ▸ h.nodeOk hn) fun s hs tag => ?_
  · obtain ⟨hok, hread⟩ := h.home n hn
    rw [ha.home hn, ha.read hok]
    exact ⟨hok, hread⟩
  · rw [ha.nodes n hn]
    exact h.rootOffset n hn
  · rw [ha.read hs] at hc
    obtain ⟨hcl, hhome, hshift⟩ := h.child s hs c hc
    refine ⟨hcl, (ha.home hcl).trans hhome, fun p o hso => ?_⟩
    rw [ha.nodes c hcl, ha.nodes p (hs p o hso).1]
    exact hshift p o hso
  · refine (tagOk_congr ha.isIdr (ha.read hs) (by rw [ha.bit hs]) fun c hc => ?_).mpr (h.tags s hs tag)
    rw [ha.nodes c (h.child s hs c hc).1]

theorem Agree.on (hl : Links t live) (hs : On t i s) : On t' i s := by
  have hcov : t'.Covers i ↔ t.Covers i := covers_congr ha.head fun r hr => by
    rw [ha.nodes r (hl.child none slotOk_none r hr).1]
  refine hs.congr (hcov.mpr hs.covers) fun s0 n hs0 hread => ⟨?_, ?_⟩
  · rw [ha.read (hs0.ok hl), hread]
  · rw [ha.nodes n (hl.child s0 (hs0.ok hl) n hread).1]

theorem Agree.stores (hl : Links t live) (hl' : Links t' live) : Stores t' i v g ↔ Stores t i v g := by
  constructor
  · rintro ⟨s, hs, hread, hbit⟩
    have hok := hs.ok hl'
    exact ⟨s, ha.symm.on hl' hs, (ha.read hok).symm.trans hread, (ha.bit hok).symm.trans hbit⟩
  rintro ⟨s, hs, hread, hbit⟩
  have hok := hs.ok hl
  exact ⟨s, ha.on hl hs, (ha.read hok).trans hread, (ha.bit hok).trans hbit⟩

end

theorem Shape.next_notMem (h : Shape t live) : t.next ∉ live :=
  fun hmem => lt_irrefl _ (h.fresh _ hmem)

theorem agree_place (h : Shape t live) (node : Node) : Agree t (t.place node) live :=
  ⟨rfl, rfl, rfl, fun n hn => Function.update_of_ne (by rintro rfl; exact h.next_notMem hn) ..⟩

/-! ### Empty nodes -/

/-- The node has no entries, and its slots have the tags `b`. -/
structure Blank (b : Tag → Bool) (node : Node) : Prop where
  slots : node.slots = fun _ => .null
  tags : ∀ tag, ∀ o < mapSize, node.tags tag o = b tag
  count : node.count = 0
  nrValues : node.nrValues = 0

theorem Blank.counted {b : Tag → Bool} {node : Node} (h : Blank b node) : node.Counted := by
  refine ⟨?_, ?_⟩
  · rw [h.count, h.slots]
    exact (tally_const rfl).symm
  rw [h.nrValues, h.slots]
  exact (tally_const rfl).symm

theorem Blank.ok {b : Tag → Bool} {node : Node} (h : Blank b node)
    (hshift : mapShift ∣ node.shift ∧ node.shift < bitsPerLong) :
    node.Ok := by
  refine ⟨fun o _ v hv => ?_, hshift, fun o _ hv => absurd (congrFun h.slots o) hv, h.counted⟩
  rw [h.slots] at hv
  cases hv

section
variable (h : Shape t live)
include h

theorem Shape.link {c : ℕ} (hs : SlotOk live s) (hnull : t.read s = .null)
    (hc : c ∉ live) (hnext : c < t.next) (hblank : Blank t.blankTag (t.nodes c)) (hhome : t.home c = s)
    (hroot : (t.nodes c).parent = none → (t.nodes c).offset = 0)
    (hmul : mapShift ∣ (t.nodes c).shift) (hlt : (t.nodes c).shift < bitsPerLong)
    (hup : ∀ p o, s = some (p, o) → (t.nodes c).shift + mapShift = (t.nodes p).shift)
    (hbound : ∀ p o, s = some (p, o) → o * 2 ^ (t.nodes p).shift < 2 ^ bitsPerLong) :
    Shape (t.put s (.node c)) (Insert.insert c live) := by
  have hfit : Fits t s (.node c) := fun p o hpo => ⟨fun v hv => (by cases hv), fun _ => hbound p o hpo⟩
  refine .of_nodes (fun n hn => ?_) (fun n hn => ?_) (fun n hn => ?_) (fun s' hs' d hd => ?_)
    (fun n hn => put_nodeOk ?_ hs hfit) fun s' hs' tag => ?_
  · rw [put_next]
    rcases hn with rfl | hn
    · exact hnext
    · exact h.fresh n hn
  · rw [put_home]
    rcases hn with rfl | hn
    · rw [hhome, put_read_self]
      exact ⟨hs.mono (subset_insert ..), rfl⟩
    obtain ⟨hok, hread⟩ := h.home n hn
    have hne : t.home n ≠ s := by
      rintro rfl
      cases hnull.symm.trans hread
    rw [put_read_of_ne hne]
    exact ⟨hok.mono (subset_insert ..), hread⟩
  · rw [put_parent, put_offset]
    rcases hn with rfl | hn
    · exact hroot
    · exact h.rootOffset n hn
  · simp only [put_home, put_shift]
    by_cases hne : s' = s
    · subst hne
      rw [put_read_self] at hd
      obtain rfl := Entry.node.inj hd
      exact ⟨mem_insert .., hhome, hup⟩
    rw [put_read_of_ne hne] at hd
    have hok : SlotOk live s' := by
      rintro p o rfl
      obtain ⟨hp, ho⟩ := hs' p o rfl
      refine ⟨hp.resolve_left ?_, ho⟩
      rintro rfl
      rw [Tree.read, hblank.slots] at hd
      cases hd
    obtain ⟨h1, h2⟩ := h.child s' hok d hd
    exact ⟨mem_insert_of_mem _ h1, h2⟩
  · rcases hn with rfl | hn
    · exact hblank.ok ⟨hmul, hlt⟩
    · exact h.nodeOk hn
  by_cases hne : s' = s
  · subst hne
    have hbit := h.tags s' hs tag
    rw [TagOk, hnull] at hbit
    rw [TagOk, put_read_self, put_bit]
    simp only
    rw [put_anyTagSet, anyTagSet_const (hblank.tags tag), hbit]
  refine (tagOk_congr put_isIdr (put_read_of_ne hne) (by rw [put_bit]) fun d _ =>
    put_anyTagSet d tag).mpr ?_
  by_cases hin : InNode c s'
  · obtain ⟨o, rfl⟩ := hin
    rw [Tree.TagOk, Tree.read, hblank.slots]
    exact hblank.tags tag o (hs' c o rfl).2
  refine h.tags s' (fun p o hso => ?_) tag
  obtain ⟨hp, ho⟩ := hs' p o hso
  refine ⟨hp.resolve_left ?_, ho⟩
  rintro rfl
  exact hin ⟨o, hso⟩

theorem Shape.emptyChild_put {c : ℕ} (hnull : t.read s = .null) (hc : c ∉ live)
    {b : Tag → Bool} (hblank : Blank b (t.nodes c)) (hs : SlotOk live s) :
    EmptyChild t (t.put s (.node c)) s c where
  null := hnull
  node := put_read_self
  empty o ho := by
    have hne : some (c, o) ≠ s := by
      rintro rfl
      exact hc (hs c o rfl).1
    rw [put_read_of_ne hne, Tree.read, hblank.slots]
  unused s' i hs' hread := hc (h.child s' (hs'.ok h.toLinks) c hread).1
  read s' hne _ := put_read_of_ne hne
  bit s' _ _ := put_bit s'
  shift n _ := put_shift n

variable {n : ℕ} (hn : n ∈ live) (hempty : ∀ o < mapSize, (t.nodes n).slots o = .null)
include hn hempty

theorem Shape.anyTagSet_empty (tag : Tag) : (t.nodes n).anyTagSet tag = t.blankTag tag := by
  refine anyTagSet_const fun o ho => ?_
  have hok := h.tags (some (n, o)) (slotOk_some.mpr ⟨hn, ho⟩) tag
  rw [Tree.TagOk, Tree.read, hempty o ho] at hok
  exact hok

theorem Shape.unlink : Shape (t.put (t.home n) .null) (live \ {n}) := by
  have hfit : Fits t (t.home n) .null :=
    fun _ _ _ => ⟨fun v hv => (by cases hv), fun hne => absurd rfl hne⟩
  refine .of_nodes (fun k hk => ?_) (fun k hk => ?_) (fun k hk => ?_) (fun s hs c hc => ?_)
    (fun k hk => put_nodeOk (h.nodeOk hk.1) (h.home n hn).1 hfit) fun s hs tag => ?_
  · rw [put_next]
    exact h.fresh k hk.1
  · obtain ⟨hok, hread⟩ := h.home k hk.1
    have hne : t.home k ≠ t.home n := by
      intro heq
      rw [heq, (h.home n hn).2] at hread
      exact hk.2 (Entry.node.inj hread).symm
    rw [put_home, put_read_of_ne hne]
    refine ⟨fun p o hpo => ?_, hread⟩
    obtain ⟨hp, ho⟩ := hok p o hpo
    refine ⟨⟨hp, ?_⟩, ho⟩
    rintro rfl
    rw [hpo, Tree.read, hempty o ho] at hread
    cases hread
  · rw [put_parent, put_offset]
    exact h.rootOffset k hk.1
  · have hne : s ≠ t.home n := by
      rintro rfl
      rw [put_read_self] at hc
      cases hc
    rw [put_read_of_ne hne] at hc
    simp only [put_home, put_shift]
    obtain ⟨h1, h2, h3⟩ := h.child s (hs.mono sdiff_subset) c hc
    refine ⟨⟨h1, ?_⟩, h2, h3⟩
    rintro rfl
    exact hne h2.symm
  have hs' := hs.mono sdiff_subset
  by_cases hne : s = t.home n
  · -- the bits of the node are those of empty slots
    subst hne
    have hbit := h.tags _ hs' tag
    rw [TagOk, (h.home n hn).2] at hbit
    rw [TagOk, put_read_self, put_bit]
    exact hbit.trans ((h.anyTagSet_empty hn hempty tag).trans (blankTag_congr put_isIdr tag).symm)
  · exact (tagOk_congr put_isIdr (put_read_of_ne hne) (by rw [put_bit]) fun c _ =>
      put_anyTagSet c tag).mpr (h.tags s hs' tag)

theorem Shape.emptyChild_unlink : EmptyChild (t.put (t.home n) .null) t (t.home n) n where
  null := put_read_self
  node := (h.home n hn).2
  empty o ho := hempty o ho
  unused s _ hs hread :=
    ((h.unlink hn hempty).child s (hs.ok (h.unlink hn hempty).toLinks) n hread).1.2 rfl
  read _ hne _ := (put_read_of_ne hne).symm
  bit s _ _ := (put_bit s).symm
  shift k _ := (put_shift k).symm

end

end

end LinuxNote.RadixTree
