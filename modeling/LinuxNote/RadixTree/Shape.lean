import LinuxNote.RadixTree.Links

/-! The shape of a radix tree between calls, and what it stores.

    The shape allows nodes without entries, which are what an insertion leaves behind when it runs out of
    memory. -/

namespace LinuxNote.RadixTree
open Radix RadixTree.Tree Node
open Config (mapShift)

/-- What an entry adds to the count of its node. -/
def Entry.weight (e : Entry) : ℕ := if e = .null then 0 else 1

/-- What an entry adds to the number of values of its node. -/
def Entry.valueWeight (e : Entry) : ℕ := if e.isValue then 1 else 0

theorem weight_eq_zero {e : Entry} : e.weight = 0 ↔ e = .null := by
  simp [Entry.weight]

/-- The slot is one of the node `c`. -/
def InNode (c : ℕ) (s : Slot) : Prop := ∃ o, s = some (c, o)

theorem not_inNode_none {c : ℕ} : ¬InNode c none := by
  rintro ⟨o, ho⟩
  cases ho

theorem not_inNode_some {c n o : ℕ} (h : n ≠ c) : ¬InNode c (some (n, o)) := by
  rintro ⟨o', ho⟩
  exact h (Prod.mk.inj (Option.some.inj ho)).1

section
variable [Config] {t t' : Tree} {live : Set ℕ} {i : ℕ} {s s' : Slot} {v w : Item} {g : Tag → Bool}

/-- The tag bit of an empty slot: all are clear, but in an IDR the slot is free. -/
def Tree.blankTag (t : Tree) (tag : Tag) : Bool := t.isIdr && tag == idrFree

/-- The tag bit of an empty slot is fixed, and the bit of a slot with a node says whether one of the bits
    of the node is set. -/
def Tree.TagOk (t : Tree) (s : Slot) (tag : Tag) : Prop :=
  match t.read s with
  | .null => t.bit s tag = t.blankTag tag
  | .item _ => True
  | .node c => t.bit s tag = (t.nodes c).anyTagSet tag

/-- The counts of the node are those of its slots. -/
structure Node.Counted (node : Node) : Prop where
  count : node.count = tally Entry.weight mapSize node.slots
  values : node.nrValues = tally Entry.valueWeight mapSize node.slots

/-- A tree in shape, with the nodes `live` in use. -/
structure Shape (t : Tree) (live : Set ℕ) : Prop extends Links t live where
  counted : ∀ n ∈ live, (t.nodes n).Counted
  tags : ∀ s, SlotOk live s → ∀ tag, t.TagOk s tag

/-- What a tree in shape says of a node by itself. -/
structure Node.Ok (node : Node) : Prop where
  item : ∀ o < mapSize, ∀ v, node.slots o = .item v → node.shift = 0
  shift : mapShift ∣ node.shift ∧ node.shift < bitsPerLong
  bound : ∀ o < mapSize, node.slots o ≠ .null → o * 2 ^ node.shift < 2 ^ bitsPerLong
  counted : node.Counted

theorem Node.Ok.congr {node node' : Node} (h : node.Ok) (hshift : node'.shift = node.shift)
    (hslots : node'.slots = node.slots) (hcount : node'.count = node.count)
    (hvalues : node'.nrValues = node.nrValues) : node'.Ok := by
  obtain ⟨hitem, hmul, hbound, hc, hv⟩ := h
  exact ⟨by rwa [hslots, hshift], by rwa [hshift], by rwa [hslots, hshift], by rwa [hcount, hslots],
    by rwa [hvalues, hslots]⟩

theorem Shape.nodeOk (h : Shape t live) {n : ℕ} (hn : n ∈ live) : (t.nodes n).Ok :=
  ⟨h.item n hn, h.shift n hn, h.bound n hn, h.counted n hn⟩

theorem Shape.of_nodes (hfresh : ∀ n ∈ live, n < t.next)
    (hhome : ∀ n ∈ live, SlotOk live (t.home n) ∧ t.read (t.home n) = .node n)
    (hroot : ∀ n ∈ live, (t.nodes n).parent = none → (t.nodes n).offset = 0)
    (hchild : ∀ s, SlotOk live s → ∀ c, t.read s = .node c → c ∈ live ∧ t.home c = s ∧
      ∀ p o, s = some (p, o) → (t.nodes c).shift + mapShift = (t.nodes p).shift)
    (hok : ∀ n ∈ live, (t.nodes n).Ok) (htags : ∀ s, SlotOk live s → ∀ tag, t.TagOk s tag) :
    Shape t live :=
  ⟨⟨hfresh, hhome, hroot, hchild, fun n hn => (hok n hn).item, fun n hn => (hok n hn).shift,
    fun n hn => (hok n hn).bound⟩, fun n hn => (hok n hn).counted, htags⟩

/-- The item at an index, with its tags. -/
def Stores (t : Tree) (i : ℕ) (v : Item) (g : Tag → Bool) : Prop :=
  ∃ s, On t i s ∧ t.read s = .item v ∧ t.bit s = g

theorem anyTagSet_iff {node : Node} {tag : Tag} :
    node.anyTagSet tag = true ↔ ∃ o < mapSize, node.tags tag o = true := by
  simp [anyTagSet]

theorem one_lt_mapSize : 1 < mapSize := Nat.one_lt_two_pow Config.pos.ne'

/-- A node whose slots have one bit, but perhaps the first. -/
theorem anyTagSet_first {node : Node} {tag : Tag} {b : Bool}
    (h : ∀ o < mapSize, o ≠ 0 → node.tags tag o = b) : node.anyTagSet tag = (node.tags tag 0 || b) := by
  rw [Bool.eq_iff_iff, anyTagSet_iff, Bool.or_eq_true]
  constructor
  · rintro ⟨o, ho, htag⟩
    by_cases hz : o = 0
    · exact .inl (hz ▸ htag)
    · exact .inr ((h o ho hz).symm.trans htag)
  rintro (hfirst | hb)
  · exact ⟨0, mapSize_pos, hfirst⟩
  · exact ⟨1, one_lt_mapSize, (h 1 one_lt_mapSize (by omega)).trans hb⟩

theorem anyTagSet_const {node : Node} {tag : Tag} {b : Bool}
    (h : ∀ o < mapSize, node.tags tag o = b) : node.anyTagSet tag = b := by
  rw [anyTagSet_first fun o ho _ => h o ho, h 0 mapSize_pos, Bool.or_self]

/-! ### Lookup -/

theorem not_above_iff (hi : i < 2 ^ bitsPerLong) :
    ¬i > (loadRoot t).2 ↔ t.Covers i ∧ (t.xaHead = .null → i = 0) := by
  rw [loadRoot, Covers]
  cases t.xaHead with
  | null | item v => simp
  | node r =>
    rw [not_lt]
    simp only [le_shiftMaxindex hi]
    simp

/-- Nothing is below an empty root. -/
theorem on_none_of_null (h : t.xaHead = .null) (hs : On t i s) : s = none := by
  induction hs with
  | head => rfl
  | next _ hread ih =>
    subst ih
    exact absurd (h.symm.trans hread) (by simp)

/-- `__radix_tree_lookup` comes to the end of the walk, unless the tree is too low. -/
theorem lookupSlot_spec (hl : Links t live) (hi : i < 2 ^ bitsPerLong) :
    (∃ s, On t i s ∧ (∀ n, t.read s ≠ .node n) ∧ lookupSlot t i = .ok (some (t.read s, s))) ∨
      (∀ s, On t i s → t.read s = .null) ∧ lookupSlot t i = .ok none := by
  rw [lookupSlot]
  by_cases hi' : i > (loadRoot t).2
  · refine .inr ⟨fun s hs => ?_, if_pos hi'⟩
    have hnull : t.xaHead = .null := by
      by_contra hne
      exact (not_above_iff hi).mpr ⟨hs.covers, fun h => absurd h hne⟩ hi'
    rw [on_none_of_null hnull hs]
    exact hnull
  have hon : On t i none := .head ((not_above_iff hi).mp hi').1
  have hrest : t.rest none < maxSteps := Nat.lt_succ_self _
  obtain ⟨s, hs, hend, heq⟩ := tagClearLoop_spec hl maxSteps hon hrest
  refine .inl ⟨s, hs, hend, ?_⟩
  rw [if_neg hi', lookupLoop_eq hl maxSteps hon hrest, heq]
  rfl

theorem Stores.unique (h : Stores t i v g) {g' : Tag → Bool} (h' : Stores t i w g') :
    v = w ∧ g = g' := by
  obtain ⟨s, hs, hread, rfl⟩ := h
  obtain ⟨s', hs', hread', rfl⟩ := h'
  obtain rfl : s = s' := hs.unique hs' (by simp [hread]) (by simp [hread'])
  exact ⟨Entry.item.inj (hread.symm.trans hread'), rfl⟩

/-- A walk that ends in an empty slot finds nothing. -/
theorem not_stores (hs : On t i s) (hnull : t.read s = .null) : ¬Stores t i v g := by
  rintro ⟨s', hs', hread, -⟩
  obtain rfl : s = s' := hs.unique hs' (by simp [hnull]) (by simp [hread])
  cases hnull.symm.trans hread

/-! ### Trees that store the same -/

theorem slotIn_congr {n : ℕ} (h : (t'.nodes n).shift = (t.nodes n).shift) :
    slotIn t' n i = slotIn t n i := by
  rw [slotIn, slotIn, descend, descend, h]

/-- A walk in one tree is a walk in another that has the same nodes along it. -/
theorem On.congr (hs : On t i s) (hcov : t'.Covers i)
    (h : ∀ s n, On t i s → t.read s = .node n → t'.read s = .node n ∧
      (t'.nodes n).shift = (t.nodes n).shift) : On t' i s := by
  induction hs with
  | head => exact .head hcov
  | @next s n hs hread ih =>
    obtain ⟨hread', hshift⟩ := h s n hs hread
    rw [← slotIn_congr hshift]
    exact ih.next hread'

theorem covers_congr (hhead : t'.xaHead = t.xaHead)
    (h : ∀ r, t.xaHead = .node r → (t'.nodes r).shift = (t.nodes r).shift) :
    t'.Covers i ↔ t.Covers i := by
  rw [Covers, Covers, hhead]
  cases hr : t.xaHead with
  | null | item v => rfl
  | node r => simp only [h r hr]

/-- The trees differ in one slot, which is empty in the first and holds an empty node in the second. -/
structure EmptyChild (t t' : Tree) (s : Slot) (c : ℕ) : Prop where
  null : t.read s = .null
  node : t'.read s = .node c
  empty : ∀ o < mapSize, t'.read (some (c, o)) = .null
  unused : ∀ s i, On t i s → t.read s ≠ .node c
  read : ∀ s', s' ≠ s → ¬InNode c s' → t'.read s' = t.read s'
  bit : ∀ s', s' ≠ s → ¬InNode c s' → t'.bit s' = t.bit s'
  shift : ∀ n ≠ c, (t'.nodes n).shift = (t.nodes n).shift

section
variable {c : ℕ} (h : EmptyChild t t' s c)
include h

theorem EmptyChild.covers (hs : s ≠ none) : t'.Covers i ↔ t.Covers i := by
  refine covers_congr (h.read none (Ne.symm hs) not_inNode_none) fun r hr => h.shift r ?_
  rintro rfl
  refine h.unused none 0 (.head ?_) hr
  rw [Covers, hr]
  exact Nat.two_pow_pos _

theorem EmptyChild.on (hs : s ≠ none) (hs' : On t i s') : On t' i s' ∧ ¬InNode c s' := by
  induction hs' with
  | head hcov => exact ⟨.head ((h.covers hs).mpr hcov), not_inNode_none⟩
  | @next s0 n hs0 hread ih =>
    obtain ⟨hon, hout⟩ := ih
    have hne : s0 ≠ s := by
      rintro rfl
      cases h.null.symm.trans hread
    have hnc : n ≠ c := by
      rintro rfl
      exact h.unused s0 i hs0 hread
    rw [← slotIn_congr (h.shift n hnc)]
    exact ⟨hon.next ((h.read s0 hne hout).trans hread), not_inNode_some hnc⟩

theorem EmptyChild.on_back (hs' : On t' i s') : On t i s' ∨ InNode c s' := by
  induction hs' with
  | head hcov =>
    refine .inl (.head ?_)
    by_cases hs : s = none
    · have hnull := h.null
      rw [hs, Tree.read] at hnull
      rw [Tree.Covers, hnull]
      trivial
    · exact (h.covers hs).mp hcov
  | @next s0 n hs0 hread ih =>
    by_cases hnc : n = c
    · exact .inr ⟨_, by rw [slotIn, hnc]⟩
    have hne : s0 ≠ s := by
      rintro rfl
      exact hnc (Entry.node.inj (hread.symm.trans h.node))
    have hin : ¬InNode c s0 := by
      rintro ⟨o, rfl⟩
      cases (h.empty o hs0.offset_lt).symm.trans hread
    have hon : On t i s0 := ih.resolve_right hin
    rw [slotIn_congr (h.shift n hnc)]
    exact .inl (hon.next ((h.read s0 hne hin).symm.trans hread))

/-- An empty node makes no difference to what is stored. -/
theorem EmptyChild.stores : Stores t' i v g ↔ Stores t i v g := by
  constructor
  · rintro ⟨s', hs', hread, hbit⟩
    have hne : s' ≠ s := by
      rintro rfl
      cases h.node.symm.trans hread
    have hin : ¬InNode c s' := by
      rintro ⟨o, rfl⟩
      cases (h.empty o hs'.offset_lt).symm.trans hread
    refine ⟨s', (h.on_back hs').resolve_right hin, ?_, ?_⟩
    · rw [← h.read s' hne hin, hread]
    · rw [← h.bit s' hne hin, hbit]
  rintro ⟨s', hs', hread, hbit⟩
  have hne : s' ≠ s := by
    rintro rfl
    cases h.null.symm.trans hread
  have hs : s ≠ none := by
    rintro rfl
    exact hne (on_none_of_null h.null hs')
  obtain ⟨hon, hin⟩ := h.on hs hs'
  refine ⟨s', hon, ?_, ?_⟩
  · rw [h.read s' hne hin, hread]
  · rw [h.bit s' hne hin, hbit]

end

/-- The second tree has a node above the root of the first. -/
structure RaisedBy (t t' : Tree) (n : ℕ) : Prop where
  head : t'.xaHead = .node n
  first : t'.read (some (n, 0)) = t.xaHead
  empty : ∀ o < mapSize, o ≠ 0 → t'.read (some (n, o)) = .null
  nonnull : t.xaHead ≠ .null
  covers : ∀ i, t.Covers i ↔ i < 2 ^ (t'.nodes n).shift
  unused : ∀ s i, On t i s → t.read s ≠ .node n
  read : ∀ s, s ≠ none → ¬InNode n s → t'.read s = t.read s
  bit : ∀ s, s ≠ none → ¬InNode n s → t'.bit s = t.bit s
  bitFirst : t'.bit (some (n, 0)) = t.bit none
  shift : ∀ k ≠ n, (t'.nodes k).shift = (t.nodes k).shift

/-- Where a slot of the first tree is in the second. -/
def raisedSlot (n : ℕ) (s : Slot) : Slot := if s = none then some (n, 0) else s

section
variable {n : ℕ} (h : RaisedBy t t' n)
include h

theorem RaisedBy.on_first : On t' i (some (n, 0)) ↔ t.Covers i := by
  have hcov : t'.Covers i ↔ i < 2 ^ ((t'.nodes n).shift + mapShift) := by
    rw [Covers, h.head]
  rw [h.covers]
  constructor
  · intro hs
    have hlt := hcov.mp hs.covers
    generalize hs0 : some (n, 0) = s at hs
    rcases hs with _ | _
    · cases hs0
    obtain ⟨rfl, hd⟩ := Prod.mk.inj (Option.some.inj hs0)
    exact (digit_eq_zero_iff hlt).mp hd.symm
  intro hlt
  have hlt' : i < 2 ^ ((t'.nodes n).shift + mapShift) :=
    hlt.trans_le (Nat.pow_le_pow_right (by omega) (Nat.le_add_right ..))
  have hnext := (On.head (hcov.mpr hlt')).next h.head
  rwa [slotIn, descend, (digit_eq_zero_iff hlt').mpr hlt] at hnext

theorem RaisedBy.on (hs : On t i s) : On t' i (raisedSlot n s) ∧ ¬InNode n s := by
  induction hs with
  | head hcov => exact ⟨h.on_first.mpr hcov, not_inNode_none⟩
  | @next s0 k hs0 hread ih =>
    obtain ⟨hon, hout⟩ := ih
    have hkn : k ≠ n := by
      rintro rfl
      exact h.unused s0 i hs0 hread
    have hread' : t'.read (raisedSlot n s0) = .node k := by
      by_cases hnone : s0 = none
      · subst hnone
        rw [raisedSlot, if_pos rfl, h.first]
        exact hread
      · rw [raisedSlot, if_neg hnone, h.read s0 hnone hout, hread]
    have hnext := hon.next hread'
    rw [slotIn_congr (h.shift k hkn)] at hnext
    exact ⟨hnext, not_inNode_some hkn⟩

theorem RaisedBy.on_back (hs : On t' i s') (hread : t'.read s' ≠ .null) (hs' : s' ≠ none) :
    ∃ s, s' = raisedSlot n s ∧ On t i s := by
  induction hs with
  | head => exact absurd rfl hs'
  | @next s0 k hs0 hread0 ih =>
    by_cases hnone : s0 = none
    · subst hnone
      obtain rfl : n = k := Entry.node.inj (h.head.symm.trans hread0)
      have hzero : (t'.nodes n).descend i = 0 := by
        by_contra hne
        exact hread (h.empty _ (descend_lt ..) hne)
      have hon := hs0.next hread0
      rw [slotIn, hzero] at hon ⊢
      exact ⟨none, rfl, .head (h.on_first.mp hon)⟩
    obtain ⟨s, rfl, hon⟩ := ih (by simp [hread0]) hnone
    have hout := (h.on hon).2
    have hreads : t.read s = .node k := by
      by_cases hs : s = none
      · subst hs
        rw [raisedSlot, if_pos rfl, h.first] at hread0
        exact hread0
      · rwa [raisedSlot, if_neg hs, h.read s hs hout] at hread0
    have hkn : k ≠ n := by
      rintro rfl
      exact h.unused s i hon hreads
    exact ⟨slotIn t k i, slotIn_congr (h.shift k hkn), hon.next hreads⟩

/-- The node above makes no difference to what is stored. -/
theorem RaisedBy.stores : Stores t' i v g ↔ Stores t i v g := by
  have hview : ∀ s, ¬InNode n s → t'.read (raisedSlot n s) = t.read s ∧
    t'.bit (raisedSlot n s) = t.bit s := by
    intro s hout
    by_cases hs : s = none
    · subst hs
      exact ⟨h.first, h.bitFirst⟩
    rw [raisedSlot, if_neg hs]
    exact ⟨h.read s hs hout, h.bit s hs hout⟩
  constructor
  · rintro ⟨s', hs', hread, hbit⟩
    have hne : s' ≠ none := by
      rintro rfl
      cases h.head.symm.trans hread
    obtain ⟨s, rfl, hon⟩ := h.on_back hs' (by simp [hread]) hne
    obtain ⟨hr, hb⟩ := hview s (h.on hon).2
    exact ⟨s, hon, hr.symm.trans hread, hb.symm.trans hbit⟩
  rintro ⟨s, hs, hread, hbit⟩
  obtain ⟨hon, hout⟩ := h.on hs
  obtain ⟨hr, hb⟩ := hview s hout
  exact ⟨_, hon, hr.trans hread, hb.trans hbit⟩

end

end

end LinuxNote.RadixTree
