import LinuxNote.RadixTree.Insert

/-! The tags of a radix tree: setting and clearing them changes no entries, and keeps the bit of every
    slot with a node in step with the bits of the node. -/

namespace LinuxNote.RadixTree
open Function RadixTree.Tree Node
open Config (mapShift)

/-- The trees differ in tags only. -/
structure SameSlots (t t' : Tree) : Prop where
  isIdr : t'.isIdr = t.isIdr
  head : t'.xaHead = t.xaHead
  next : t'.next = t.next
  nodes : ∀ n, ∃ tags, t'.nodes n = { t.nodes n with tags := tags }

/-- Write the tag bit of a slot. -/
def Tree.setBit (t : Tree) (s : Slot) (tag : Tag) (b : Bool) : Tree :=
  match s with
  | none => t.putRootTag tag b
  | some (n, o) => t.modify n fun node => node.putTag tag o b

section
variable {t t' t'' : Tree} {s s' : Slot} {tag tag' : Tag} {b : Bool}

theorem SameSlots.refl (t : Tree) : SameSlots t t := ⟨rfl, rfl, rfl, fun _ => ⟨_, rfl⟩⟩

section
variable (h : SameSlots t t')
include h

theorem SameSlots.keeps {α : Type*} {g : Node → α}
    (hg : ∀ node : Node, ∀ tags, g { node with tags := tags } = g node) (n : ℕ) :
    g (t'.nodes n) = g (t.nodes n) := by
  obtain ⟨tags, htags⟩ := h.nodes n
  rw [htags]
  exact hg ..

theorem SameSlots.trans (h' : SameSlots t' t'') : SameSlots t t'' := by
  refine ⟨h'.isIdr.trans h.isIdr, h'.head.trans h.head, h'.next.trans h.next, fun n => ?_⟩
  obtain ⟨tags, htags⟩ := h.nodes n
  obtain ⟨tags', htags'⟩ := h'.nodes n
  exact ⟨tags', by rw [htags', htags]⟩

theorem SameSlots.shift (n : ℕ) : (t'.nodes n).shift = (t.nodes n).shift :=
  h.keeps (fun _ _ => rfl) n

theorem SameSlots.slots (n : ℕ) : (t'.nodes n).slots = (t.nodes n).slots :=
  h.keeps (fun _ _ => rfl) n

theorem SameSlots.home (n : ℕ) : t'.home n = t.home n := by
  rw [Tree.home, Tree.home, h.keeps (g := parent) (fun _ _ => rfl),
    h.keeps (g := offset) (fun _ _ => rfl)]

theorem SameSlots.read (s : Slot) : t'.read s = t.read s := by
  match s with
  | none => exact h.head
  | some (n, o) => rw [Tree.read, Tree.read, h.slots]

theorem SameSlots.rest (s : Slot) : t'.rest s = t.rest s := by
  match s with
  | none => rfl
  | some (p, o) => rw [Tree.rest, Tree.rest, h.shift]

end

theorem setBit_same : SameSlots t (t.setBit s tag b) := by
  match s with
  | none => exact ⟨rfl, rfl, rfl, fun _ => ⟨_, rfl⟩⟩
  | some (n, o) =>
    refine ⟨rfl, rfl, rfl, fun k => ?_⟩
    rw [setBit]
    by_cases hk : k = n
    · subst hk
      rw [modify_self]
      exact ⟨_, rfl⟩
    · rw [modify_of_ne _ hk]
      exact ⟨_, rfl⟩

theorem setBit_bit : (t.setBit s tag b).bit s' tag' = if s' = s ∧
    tag' = tag then b else t.bit s' tag' := by
  match s, s' with
  | none, none =>
    rw [setBit, bit, putRootTag]
    by_cases htag : tag' = tag
    · subst htag
      simp
    · simp [htag, bit]
  | none, some (k, o') => rfl
  | some (n, o), none => rfl
  | some (n, o), some (k, o') =>
    rw [setBit, bit, bit]
    by_cases hk : k = n
    · subst hk
      rw [modify_self, putTag]
      by_cases htag : tag' = tag
      · subst htag
        by_cases ho : o' = o
        · subst ho
          simp
        · simp [ho]
      · simp [htag]
    · rw [modify_of_ne _ hk, if_neg (by simp [hk])]

theorem setBit_bit_self : (t.setBit s tag b).bit s tag = b := by
  rw [setBit_bit, if_pos ⟨rfl, rfl⟩]

theorem setBit_bit_of_ne (h : s' ≠ s) : (t.setBit s tag b).bit s' tag' = t.bit s' tag' := by
  rw [setBit_bit, if_neg fun hc => h hc.1]

theorem setBit_bit_of_tag_ne (h : tag' ≠ tag) : (t.setBit s tag b).bit s' tag' = t.bit s' tag' := by
  rw [setBit_bit, if_neg fun hc => h hc.2]

end

section
variable [Config] {t t' : Tree} {live : Set ℕ} {i j : ℕ} {s s' : Slot} {v w : Item} {g : Tag → Bool}
  {tag tag' : Tag} {b : Bool}

section
variable (h : SameSlots t t')
include h

theorem SameSlots.slotIn (n : ℕ) : slotIn t' n i = slotIn t n i :=
  slotIn_congr (h.shift n)

theorem SameSlots.on : On t' i s ↔ On t i s := by
  have hcov : t'.Covers i ↔ t.Covers i := covers_congr h.head fun r _ => h.shift r
  constructor
  · intro hs
    exact hs.congr (hcov.mp hs.covers) fun s0 n _ hread =>
      ⟨(h.read s0).symm.trans hread, (h.shift n).symm⟩
  intro hs
  exact hs.congr (hcov.mpr hs.covers) fun s0 n _ hread => ⟨(h.read s0).trans hread, h.shift n⟩

theorem SameSlots.links (hl : Links t live) : Links t' live where
  fresh n hn := by
    rw [h.next]
    exact hl.fresh n hn
  home n hn := by
    rw [h.home, h.read]
    exact hl.home n hn
  rootOffset n hn := by
    rw [h.keeps (g := parent) (fun _ _ => rfl), h.keeps (g := offset) (fun _ _ => rfl)]
    exact hl.rootOffset n hn
  child s hs c hc := by
    rw [h.read] at hc
    simp only [h.home, h.shift]
    exact hl.child s hs c hc
  item p hp o ho v hv := by
    rw [h.slots] at hv
    rw [h.shift]
    exact hl.item p hp o ho v hv
  shift n hn := by
    rw [h.shift]
    exact hl.shift n hn
  bound p hp o ho hv := by
    rw [h.slots] at hv
    rw [h.shift]
    exact hl.bound p hp o ho hv

/-- Trees that differ in tags only are in shape when the bits are. -/
theorem SameSlots.shape (hs : Shape t live) (htags : ∀ s, SlotOk live s → ∀ tag, t'.TagOk s tag) :
    Shape t' live := by
  refine ⟨h.links hs.toLinks, fun n hn => ?_, htags⟩
  obtain ⟨hc, hv⟩ := hs.counted n hn
  refine ⟨?_, ?_⟩
  · rw [h.slots, h.keeps (g := count) (fun _ _ => rfl), hc]
  · rw [h.slots, h.keeps (g := nrValues) (fun _ _ => rfl), hv]

theorem SameSlots.tight (ht : Tight t live) : Tight t' live := by
  refine ⟨fun n hn hin => ?_, fun r hr => ?_⟩
  · rw [h.slots]
    exact ht.filled n hn hin
  rw [h.slots]
  exact ht.root r (h.head.symm.trans hr)

end

variable {n o : ℕ}

/-- The bits of a node decide whether one of them is set. -/
theorem anyTagSet_bit :
    (t.nodes n).anyTagSet tag = true ↔ ∃ o < mapSize, t.bit (some (n, o)) tag = true := anyTagSet_iff

theorem anyTagSet_congr_bit (h : ∀ o < mapSize, t'.bit (some (n, o)) tag = t.bit (some (n, o)) tag) :
    (t'.nodes n).anyTagSet tag = (t.nodes n).anyTagSet tag := by
  rw [Bool.eq_iff_iff, anyTagSet_iff, anyTagSet_iff]
  exact exists_congr fun o => and_congr_right fun ho => Bool.eq_iff_iff.mp (h o ho)

/-- The bits that did not change are as good as before. -/
theorem SameSlots.tagOk (h : SameSlots t t') (hbit : t'.bit s tag = t.bit s tag)
    (hany : ∀ c, t.read s = .node c → ∀ o < mapSize, t'.bit (some (c, o)) tag = t.bit (some (c, o)) tag)
    (hok : t.TagOk s tag) : t'.TagOk s tag :=
  (tagOk_congr h.isIdr (h.read s) hbit fun c hc => anyTagSet_congr_bit (hany c hc)).mpr hok

/-! ### Up the tree -/

/-- The bit of a slot says what is below it. -/
def Tree.Pending (t : Tree) (s : Slot) (tag : Tag) (b : Bool) : Prop :=
  t.read s ≠ .null ∧ ∀ c, t.read s = .node c → (t.nodes c).anyTagSet tag = b

theorem Tree.Pending.tagOk (h : t.Pending s tag b) (hbit : t.bit s tag = b) : t.TagOk s tag := by
  rw [TagOk]
  cases hread : t.read s with
  | null => exact absurd hread h.1
  | item v => trivial
  | node c => exact hbit.trans (h.2 c hread).symm

/-- All bits of the tag are right but that of `s`, which is to become `b`. -/
structure Due (t : Tree) (live : Set ℕ) (s : Slot) (tag : Tag) (b : Bool) :
    Prop extends Links t live where
  slot : SlotOk live s
  pending : t.Pending s tag b
  tags : ∀ s', SlotOk live s' → s' ≠ s → t.TagOk s' tag

/-- When the bit of a slot is written, only the slot above its node may have to follow. -/
theorem Due.setBit (h : Due t live (some (n, o)) tag b) (hs' : SlotOk live s') (hne : s' ≠ t.home n) :
    (t.setBit (some (n, o)) tag b).TagOk s' tag := by
  have hbits : ∀ c ≠ n, ∀ o' < mapSize, (t.setBit (some (n, o)) tag b).bit (some (c, o')) tag =
    t.bit (some (c, o')) tag := by
    intro c hc o' _
    exact setBit_bit_of_ne (by simp [hc])
  by_cases hself : s' = some (n, o)
  · subst hself
    refine Pending.tagOk (b := b) ⟨?_, fun c hc => ?_⟩ setBit_bit_self
    · rw [setBit_same.read]
      exact h.pending.1
    rw [setBit_same.read] at hc
    have hshift := (h.child _ h.slot c hc).2.2 n o rfl
    have hne : c ≠ n := by
      rintro rfl
      have := Config.pos
      omega
    rw [anyTagSet_congr_bit (hbits c hne)]
    exact h.pending.2 c hc
  refine setBit_same.tagOk (setBit_bit_of_ne hself) (fun c hc => hbits c ?_) (h.tags s' hs' hself)
  rintro rfl
  exact hne (h.child s' hs' c hc).2.1.symm

theorem Links.rest_home (hl : Links t live) (hn : n ∈ live) :
    t.rest (some (n, o)) < t.rest (t.home n) := by
  obtain ⟨hok, hread⟩ := hl.home n hn
  have := hl.rest_slotIn (i := 0) hok hread
  exact this

/-- What a walk up the tree that writes `b` does to the bits. -/
structure Wrote (t t' : Tree) (live : Set ℕ) (s : Slot) (tag : Tag) (b : Bool) : Prop where
  same : SameSlots t t'
  self : (∀ n, t.read s ≠ .node n) → t'.bit s tag = b
  tags : ∀ s', SlotOk live s' → t'.TagOk s' tag
  other : ∀ s' tag', (tag' ≠ tag ∨ (s' ≠ s ∧ ∀ n, t.read s' ≠ .node n)) → t'.bit s' tag' = t.bit s' tag'

/-- Nothing has to be written. -/
theorem Due.done (h : Due t live s tag b) (hbit : t.bit s tag = b) : Wrote t t live s tag b := by
  refine ⟨.refl t, fun _ => hbit, fun s' hs' => ?_, fun _ _ _ => rfl⟩
  by_cases hself : s' = s
  · subst hself
    exact h.pending.tagOk hbit
  · exact h.tags s' hs' hself

/-- The walk ends at the root. -/
theorem Due.root (h : Due t live none tag b) : Wrote t (t.setBit none tag b) live none tag b := by
  refine ⟨setBit_same, fun _ => setBit_bit_self, fun s' hs' => ?_, fun s' tag' hs' => ?_⟩
  · by_cases hself : s' = none
    · subst hself
      refine Pending.tagOk (b := b) ⟨?_, fun c hc => ?_⟩ setBit_bit_self
      · rw [setBit_same.read]
        exact h.pending.1
      rw [setBit_same.read] at hc
      rw [anyTagSet_congr_bit fun o _ => setBit_bit_of_ne (by simp)]
      exact h.pending.2 c hc
    · exact setBit_same.tagOk (setBit_bit_of_ne hself) (fun c _ o _ => setBit_bit_of_ne (by simp))
        (h.tags s' hs' hself)
  rcases hs' with htag | ⟨hne, -⟩
  · exact setBit_bit_of_tag_ne htag
  · exact setBit_bit_of_ne hne

/-- The walk goes on at the slot of the node. -/
theorem Wrote.step (hl : Links t live) (hn : n ∈ live)
    (h : Wrote (t.setBit (some (n, o)) tag b) t' live (t.home n) tag b) :
    Wrote t t' live (some (n, o)) tag b := by
  have hread : ∀ s', (∀ c, t.read s' ≠ .node c) → s' ≠ t.home n ∧
    ∀ c, (t.setBit (some (n, o)) tag b).read s' ≠ .node c := by
    refine fun s' hs' => ⟨?_, fun c => by rw [setBit_same.read]; exact hs' c⟩
    rintro rfl
    exact hs' n (hl.home n hn).2
  refine ⟨setBit_same.trans h.same, fun hs => ?_, h.tags, fun s' tag' hs' => ?_⟩
  · rw [h.other _ tag (.inr (hread _ hs)), setBit_bit_self]
  rcases hs' with htag | ⟨hne, hs'⟩
  · rw [h.other s' tag' (.inl htag), setBit_bit_of_tag_ne htag]
  · rw [h.other s' tag' (.inr (hread s' hs')), setBit_bit_of_ne hne]

/-- The walk stops below a slot that has the right bit. -/
theorem Due.stop (h : Due t live (some (n, o)) tag b)
    (hany : ((t.setBit (some (n, o)) tag b).nodes n).anyTagSet tag = (t.nodes n).anyTagSet tag) :
    Wrote t (t.setBit (some (n, o)) tag b) live (some (n, o)) tag b := by
  have hn := (h.slot n o rfl).1
  obtain ⟨hhok, hhread⟩ := h.home n hn
  refine ⟨setBit_same, fun _ => setBit_bit_self, fun s' hs' => ?_, fun s' tag' hs' => ?_⟩
  · by_cases hne : s' = t.home n
    · subst hne
      have hself : t.home n ≠ some (n, o) := by
        intro heq
        have := h.rest_home (o := o) hn
        rw [heq] at this
        exact lt_irrefl _ this
      have hbit := h.tags _ hhok hself
      rw [TagOk, hhread] at hbit
      rw [TagOk, setBit_same.read, hhread, setBit_bit_of_ne hself]
      exact hbit.trans hany.symm
    · exact h.setBit hs' hne
  rcases hs' with htag | ⟨hne, -⟩
  · exact setBit_bit_of_tag_ne htag
  · exact setBit_bit_of_ne hne

/-- Above a slot that was just written, the slot of the node is the one to follow. -/
theorem Due.up (h : Due t live (some (n, o)) tag b)
    (hany : ((t.setBit (some (n, o)) tag b).nodes n).anyTagSet tag = b) :
    Due (t.setBit (some (n, o)) tag b) live (t.home n) tag b := by
  obtain ⟨hok, hread⟩ := h.home n (h.slot n o rfl).1
  refine ⟨setBit_same.links h.toLinks, hok, ⟨?_, fun c hc => ?_⟩, fun s' hs' hne => h.setBit hs' hne⟩
  · rw [setBit_same.read, hread]
    simp
  rw [setBit_same.read, hread] at hc
  obtain rfl := Entry.node.inj hc
  exact hany

theorem Links.rest_le (hl : Links t live) (hs : SlotOk live s) : t.rest s ≤ bitsPerLong := by
  rcases s with _ | ⟨n, o⟩
  · exact le_rfl
  have := (hl.shift n (hs n o rfl).1).2
  rw [rest]
  omega

theorem nodeTagClear_spec (fuel : ℕ) (h : Due t live s tag false) (hf : bitsPerLong < t.rest s + fuel) :
    ∃ t', nodeTagClear tag fuel s t = .ok t' ∧ Wrote t t' live s tag false := by
  induction fuel generalizing t s with
  | zero => exact absurd hf (not_lt.mpr (h.rest_le h.slot))
  | succ fuel ih =>
    rcases s with _ | ⟨n, o⟩
    · exact ⟨_, rfl, h.root⟩
    obtain ⟨hn, ho⟩ := h.slot n o rfl
    rw [nodeTagClear]
    by_cases hbit : (t.nodes n).tags tag o = true
    · rw [if_neg (by simp [hbit])]
      change ∃ t',
        (if ((t.setBit (some (n, o)) tag false).nodes n).anyTagSet tag = true then _ else _) = _ ∧ _
      split
      case isTrue hany =>
        refine ⟨_, rfl, h.stop ?_⟩
        rw [hany]
        exact (anyTagSet_iff.mpr ⟨o, ho, hbit⟩).symm
      case isFalse hany =>
        have hsame : SameSlots t (t.setBit (some (n, o)) tag false) := setBit_same
        have hrest := h.rest_home (o := o) hn
        obtain ⟨t', heq, hw⟩ := ih (h.up (by simpa using hany)) (by rw [hsame.rest]; omega)
        refine ⟨t', ?_, hw.step h.toLinks hn⟩
        rw [← hsame.home n] at heq
        exact heq
    · rw [if_pos (by simpa using hbit)]
      exact ⟨t, rfl, h.done (eq_false_of_ne_true hbit)⟩

theorem nodeTagSet_spec (fuel : ℕ) (h : Due t live s tag true) (hf : bitsPerLong < t.rest s + fuel) :
    ∃ t', nodeTagSet tag fuel s t = .ok t' ∧ Wrote t t' live s tag true := by
  induction fuel generalizing t s with
  | zero => exact absurd hf (not_lt.mpr (h.rest_le h.slot))
  | succ fuel ih =>
    rcases s with _ | ⟨n, o⟩
    · exact ⟨_, rfl, h.root⟩
    obtain ⟨hn, ho⟩ := h.slot n o rfl
    rw [nodeTagSet]
    split
    case isTrue hbit => exact ⟨t, rfl, h.done hbit⟩
    case isFalse hbit =>
      have hsame : SameSlots t (t.setBit (some (n, o)) tag true) := setBit_same
      have hrest := h.rest_home (o := o) hn
      obtain ⟨t', heq, hw⟩ :=
        ih (h.up (anyTagSet_bit.mpr ⟨o, ho, setBit_bit_self⟩)) (by rw [hsame.rest]; omega)
      exact ⟨t', heq, hw.step h.toLinks hn⟩

/-- An item is on the walk of one index only. -/
theorem Leaf.index (hl : Links t live) (h : Leaf t i s) (hread : t.read s = .item v) (hj : On t j s) :
    j = i := by
  by_cases hs : s = none
  · subst hs
    have hi : i = 0 := h.2.2
    have hcov := hj.covers
    rw [Covers, show t.xaHead = .item v from hread] at hcov
    rw [hi]
    exact hcov
  · exact (h.on_iff hl hs).mp hj

/-- The walk of a stored index ends at its item. -/
theorem Stores.leaf (hl : Links t live) (h : Stores t i v g) :
    ∃ s, Leaf t i s ∧ t.read s = .item v ∧ t.bit s = g := by
  obtain ⟨s, hs, hread, hbit⟩ := h
  refine ⟨s, ⟨hs, by simp [hread], ?_⟩, hread, hbit⟩
  match s with
  | none =>
    have hcov := hs.covers
    rw [Covers, show t.xaHead = .item v from hread] at hcov
    exact hcov
  | some (p, o) =>
    obtain ⟨hp, ho⟩ := hs.ok hl p o rfl
    exact hl.item p hp o ho v hread

/-- The other bits of an item keep their values. -/
theorem Wrote.bit_self (h : Wrote t t' live s tag b) (hend : ∀ n, t.read s ≠ .node n) :
    t'.bit s = update (t.bit s) tag b := by
  funext tag'
  by_cases htag : tag' = tag
  · subst htag
    rw [h.self hend, update_self]
  · rw [h.other s tag' (.inl htag), update_of_ne htag]

theorem Wrote.bit_other (h : Wrote t t' live s tag b) (hne : s' ≠ s) (hend : ∀ n, t.read s' ≠ .node n) :
    t'.bit s' = t.bit s' :=
  funext fun tag' => h.other s' tag' (.inr ⟨hne, hend⟩)

/-- The bits of the other tags are as good as before. -/
theorem Wrote.shape (h : Wrote t t' live s tag b) (hs : Shape t live) : Shape t' live := by
  refine h.same.shape hs fun s' hs' tag' => ?_
  by_cases htag : tag' = tag
  · subst htag
    exact h.tags s' hs'
  exact h.same.tagOk (h.other s' tag' (.inl htag)) (fun c _ o _ => h.other _ tag' (.inl htag))
    (hs.tags s' hs' tag')

/-! ### `radix_tree_tag_clear` -/

/-- What setting or clearing the tag of an index makes of a tree. -/
def Retagged (t t' : Tree) (i : ℕ) (tag : Tag) (b : Bool) : Prop :=
  ∀ j w g, Stores t' j w g ↔ (j = i ∧ ∃ g₀, Stores t i w g₀ ∧ g = Function.update g₀ tag b) ∨
    (j ≠ i ∧ Stores t j w g)

section
variable (h : SameSlots t t') (hl : Links t live) (hleaf : Leaf t i s) (hread : t.read s = .item v)
  (hother : ∀ s', s' ≠ s → (∀ n, t.read s' ≠ .node n) → t'.bit s' = t.bit s')
include h hl hleaf hread hother

/-- What is stored once the bits of an item are other ones. -/
theorem SameSlots.stores {g' : Tag → Bool} (hself : t'.bit s = g') :
    Stores t' j w g ↔ (j = i ∧ w = v ∧ g = g') ∨ (j ≠ i ∧ Stores t j w g) := by
  constructor
  · rintro ⟨s', hs', hread', hbit⟩
    rw [h.on] at hs'
    rw [h.read] at hread'
    by_cases hne : s' = s
    · subst hne
      exact .inl ⟨hleaf.index hl hread hs', Entry.item.inj (hread'.symm.trans hread),
        hbit.symm.trans hself⟩
    rw [hother s' hne (by simp [hread'])] at hbit
    refine .inr ⟨?_, s', hs', hread', hbit⟩
    rintro rfl
    exact hne (hs'.unique hleaf.1 (by simp [hread']) hleaf.2.1)
  rintro (⟨rfl, rfl, rfl⟩ | ⟨hji, s', hs', hread', hbit⟩)
  · exact ⟨s, h.on.mpr hleaf.1, (h.read s).trans hread, hself⟩
  have hne : s' ≠ s := by
    rintro rfl
    exact hji (hleaf.index hl hread hs')
  exact ⟨s', h.on.mpr hs', (h.read s').trans hread', (hother s' hne (by simp [hread'])).trans hbit⟩

theorem SameSlots.retagged (hself : t'.bit s = update (t.bit s) tag b) : Retagged t t' i tag b := by
  intro j w g
  rw [h.stores hl hleaf hread hother hself]
  have hst : Stores t i v (t.bit s) := ⟨s, hleaf.1, hread, rfl⟩
  refine or_congr_left (and_congr_right fun _ => ⟨?_, ?_⟩)
  · rintro ⟨rfl, rfl⟩
    exact ⟨_, hst, rfl⟩
  rintro ⟨g0, hst0, rfl⟩
  obtain ⟨rfl, rfl⟩ := hst0.unique hst
  exact ⟨rfl, rfl⟩

end

theorem retagged_of_absent (h : ∀ v g, ¬Stores t i v g) : Retagged t t i tag b := by
  intro j w g
  constructor
  · intro hst
    refine .inr ⟨?_, hst⟩
    rintro rfl
    exact h w g hst
  rintro (⟨-, g0, hst, -⟩ | ⟨-, hst⟩)
  · exact absurd hst (h w g0)
  · exact hst

theorem Shape.due (h : Shape t live) (hs : SlotOk live s) (hread : t.read s = .item v) (tag : Tag) :
    Due t live s tag b :=
  ⟨h.toLinks, hs, ⟨by simp [hread], fun c hc => by cases hread.symm.trans hc⟩,
    fun s' hs' _ => h.tags s' hs' tag⟩

theorem tagClear_spec (tag : Tag) (h : Shape t live) (hi : i < 2 ^ bitsPerLong) :
    ∃ e t', tagClear i tag t = .ok (e, t') ∧ SameSlots t t' ∧ Shape t' live ∧
    Retagged t t' i tag false := by
  rw [tagClear]
  split
  case isTrue habove =>
    exact ⟨_, t, rfl, .refl t, h, retagged_of_absent fun v g hst => hst.not_above hi habove⟩
  case isFalse habove =>
    have hon : On t i none := .head ((not_above_iff hi).mp habove).1
    obtain ⟨s, hs, hend, heq⟩ := tagClearLoop_spec h.toLinks maxSteps hon (Nat.lt_succ_self _)
    rcases h.read_end hs hend with hnull | ⟨v, hv, -⟩
    · refine ⟨.null, t, ?_, .refl t, h, retagged_of_absent fun v g => not_stores hs hnull⟩
      simp only [heq, hnull]
      rfl
    obtain ⟨s', hleaf, hread, -⟩ := Stores.leaf h.toLinks ⟨s, hs, hv, rfl⟩
    obtain rfl := hs.unique hleaf.1 hend hleaf.2.1
    obtain ⟨t', heq', hw⟩ :=
      nodeTagClear_spec maxSteps (h.due (hs.ok h.toLinks) hv tag) (by rw [maxSteps]; omega)
    refine ⟨.item v, t', ?_, hw.same, hw.shape h, hw.same.retagged h.toLinks hleaf hv
      (fun s' hne hs' => hw.bit_other hne hs') (hw.bit_self hend)⟩
    rw [heq, hv]
    change (if Entry.item v = .null then .ok (Entry.null, t)
      else nodeTagClear tag maxSteps s t >>= fun t => .ok (Entry.item v, t)) = _
    rw [if_neg (by simp), heq']
    rfl

/-! ### `radix_tree_tag_set` -/

/-- The loop sets the bits of the slots on the walk that were not visited yet. -/
theorem tagSetLoop_spec (tag : Tag) (visited : Set Slot) (fuel : ℕ) (hl : Links t live)
    (hwalk : ∀ s, On t i s → t.read s ≠ .null) (hon : On t i s) (hf : t.rest s < fuel)
    (hself : none ∈ visited ∧ s ∈ visited)
    (hclosed : ∀ s' ∈ visited, s' ≠ s → ∀ n, t.read s' = .node n → slotIn t n i ∈ visited)
    (hbits : ∀ s' ∈ visited, s' ≠ none → t.bit s' tag = true) :
    ∃ v t', tagSetLoop i tag fuel (t.read s) t = .ok (.item v, t') ∧ SameSlots t t' ∧
    (∃ s', On t i s' ∧ t.read s' = .item v) ∧ ∀ s' tag', t'.bit s' tag' = true ↔ t.bit s' tag' = true ∨
    (tag' = tag ∧ On t i s' ∧ s' ∉ visited) := by
  induction fuel generalizing t s visited with
  | zero => omega
  | succ fuel ih =>
    cases hread : t.read s with
    | null => exact absurd hread (hwalk s hon)
    | item v =>
      -- the walk is over, so that all its slots were visited
      have hall : ∀ s', On t i s' → s' ∈ visited := by
        intro s' hs'
        induction hs' with
        | head => exact hself.1
        | @next s0 n _ hread0 ih0 =>
          refine hclosed s0 ih0 ?_ n hread0
          rintro rfl
          cases hread.symm.trans hread0
      refine ⟨v, t, rfl, .refl t, ⟨s, hon, hread⟩, fun s' tag' => ⟨.inl, ?_⟩⟩
      rintro (hbit | ⟨-, hs', hnot⟩)
      · exact hbit
      · exact absurd (hall s' hs') hnot
    | node n =>
      have hnext := hon.next hread
      have hrest := hl.rest_slotIn (i := i) (hon.ok hl) hread
      have hsame : SameSlots t (t.setBit (slotIn t n i) tag true) := setBit_same
      have hclosed' : ∀ s' ∈ Insert.insert (slotIn t n i) visited, s' ≠ slotIn t n i → ∀ k,
          (t.setBit (slotIn t n i) tag true).read s' = .node k →
          slotIn (t.setBit (slotIn t n i) tag true) k i ∈ Insert.insert (slotIn t n i) visited := by
        intro s' hs' hne k hk
        rw [hsame.read] at hk
        rw [hsame.slotIn]
        by_cases hss : s' = s
        · subst hss
          obtain rfl := Entry.node.inj (hread.symm.trans hk)
          exact .inl rfl
        · exact .inr (hclosed s' (hs'.resolve_left hne) hss k hk)
      have hbits' : ∀ s' ∈ Insert.insert (slotIn t n i) visited, s' ≠ none →
          (t.setBit (slotIn t n i) tag true).bit s' tag = true := by
        intro s' hs' hne
        rw [setBit_bit]
        split
        · rfl
        rename_i hnot
        exact hbits s' (hs'.resolve_left fun heq => hnot ⟨heq, rfl⟩) hne
      obtain ⟨v, t', heq, hsame', ⟨s', hs', hv⟩, hbit⟩ := ih _ (hsame.links hl)
        (fun s' hs' => by rw [hsame.read]; exact hwalk s' (hsame.on.mp hs')) (hsame.on.mpr hnext)
        (by rw [hsame.rest]; omega) ⟨.inr hself.1, .inl rfl⟩ hclosed' hbits'
      refine ⟨v, t', ?_, hsame.trans hsame', ⟨s', hsame.on.mp hs', (hsame.read s').symm.trans hv⟩,
        fun s' tag' => ?_⟩
      · have hne : (t.nodes n).slots ((t.nodes n).descend i) ≠ .null := hwalk _ hnext
        rw [tagSetLoop, if_neg hne]
        rw [hsame.read] at heq
        exact heq
      rw [hbit, hsame.on, setBit_bit]
      by_cases hs' : s' = slotIn t n i
      · subst hs'
        by_cases htag : tag' = tag
        · subst htag
          by_cases hvis : slotIn t n i ∈ visited
          · simp [hbits _ hvis (by simp [slotIn])]
          · simp [hvis, hnext]
        · simp [htag]
      · simp [hs']

/-- `radix_tree_tag_set` of an index that is stored. -/
theorem tagSet_spec (tag : Tag) (h : Shape t live) (hi : i < 2 ^ bitsPerLong) (hst : Stores t i v g) :
    ∃ t', tagSet i tag t = .ok (.item v, t') ∧ SameSlots t t' ∧ Shape t' live ∧
    Retagged t t' i tag true := by
  obtain ⟨s, hleaf, hread, rfl⟩ := hst.leaf h.toLinks
  have hon : On t i none := .head hleaf.1.covers
  have hwalk : ∀ s, On t i s → t.read s ≠ .null := fun s hs hnull => not_stores hs hnull hst
  obtain ⟨w, t1, heq, hsame1, ⟨s', hs', hw⟩, hbit1⟩ := tagSetLoop_spec tag {none}
    maxSteps h.toLinks hwalk hon (Nat.lt_succ_self _) ⟨rfl, rfl⟩ (fun s' hs' hne => absurd hs' hne)
    (fun s' hs' hne => absurd hs' hne)
  obtain ⟨rfl, -⟩ := hst.unique ⟨s', hs', hw, rfl⟩
  have hsame : SameSlots t (t1.setBit none tag true) := hsame1.trans setBit_same
  have hbit : ∀ s' tag', (t1.setBit none tag true).bit s' tag' = true ↔ t.bit s' tag' = true ∨
    (tag' = tag ∧ On t i s') := by
    intro s' tag'
    rw [setBit_bit]
    by_cases hnone : s' = none
    · subst hnone
      by_cases htag : tag' = tag
      · simp [htag, hon]
      · simp [htag, hbit1]
    · simp [hnone, hbit1]
  have hoff : ∀ s' tag', ¬(tag' = tag ∧ On t i s') → (t1.setBit none tag true).bit s' tag' =
    t.bit s' tag' := by
    intro s' tag' hnot
    rw [Bool.eq_iff_iff, hbit]
    simp [hnot]
  refine ⟨t1.setBit none tag true, ?_, hsame, hsame.shape h fun s' hs' tag' => ?_,
    hsame.retagged h.toLinks hleaf hread (fun s' hne hend => funext fun tag' => hoff s' tag' ?_) ?_⟩
  · rw [tagSet, if_neg (hst.not_above hi), show t.xaHead = t.read none from rfl, heq]
    rfl
  · -- a slot is on the walk if one of the slots of its node is
    by_cases hset : tag' = tag ∧ On t i s'
    · obtain ⟨rfl, hs'on⟩ := hset
      refine Pending.tagOk (b := true) ⟨?_, fun c hc => ?_⟩ ((hbit s' tag').mpr (.inr ⟨rfl, hs'on⟩))
      · rw [hsame.read]
        exact hwalk s' hs'on
      rw [hsame.read] at hc
      exact anyTagSet_bit.mpr ⟨_, descend_lt .., (hbit _ tag').mpr (.inr ⟨rfl, hs'on.next hc⟩)⟩
    refine hsame.tagOk (hoff s' tag' hset) (fun c hc o _ => hoff _ tag' ?_) (h.tags s' hs' tag')
    rintro ⟨htag, hc'⟩
    have hup := (hc'.home h.toLinks).1
    rw [(h.child s' hs' c hc).2.1] at hup
    exact hset ⟨htag, hup⟩
  · rintro ⟨-, hon'⟩
    exact hne (hon'.unique hleaf.1 hend hleaf.2.1)
  funext tag'
  by_cases htag : tag' = tag
  · subst htag
    rw [update_self]
    exact (hbit s tag').mpr (.inr ⟨rfl, hleaf.1⟩)
  · rw [update_of_ne htag]
    exact hoff s tag' fun hc => htag hc.1

/-! ### Reading tags -/

/-- Below a slot whose bit is clear no item has the tag. -/
theorem Shape.clear_below (h : Shape t live) (hon : On t i s) (hbit : t.bit s tag = false)
    (hst : Stores t i v g) : g tag = false := by
  obtain ⟨s1, hs1, hread1, rfl⟩ := hst
  have hs := hon.ok h.toLinks
  revert hon hbit
  refine h.below_induction hs fun s hs ih hon hbit => ?_
  cases hread : t.read s with
  | null => exact absurd ⟨s1, hs1, hread1, rfl⟩ (not_stores (v := v) (g := t.bit s1) hon hread)
  | item w =>
    obtain rfl := hon.unique hs1 (by simp [hread]) (by simp [hread1])
    exact hbit
  | node n =>
    have hok := h.tags s hs tag
    rw [TagOk, hread] at hok
    have hany : (t.nodes n).anyTagSet tag = false := hok.symm.trans hbit
    refine ih n _ hread (descend_lt ..) (hon.next hread) ?_
    rw [← Bool.not_eq_true]
    intro hset
    rw [anyTagSet_bit.mpr ⟨_, descend_lt .., hset⟩] at hany
    cases hany

theorem tagGetLoop_spec (h : Shape t live) (hblank : t.blankTag tag = false) (fuel : ℕ) (hon : On t i s)
    (hf : t.rest s < fuel) (hbit : t.bit s tag = true) :
    ∃ b, tagGetLoop t i tag fuel (t.read s) = .ok b ∧
    (b = true ↔ ∃ v g, Stores t i v g ∧ g tag = true) := by
  induction fuel generalizing s with
  | zero => omega
  | succ fuel ih =>
    cases hread : t.read s with
    | null =>
      have hok := h.tags s (hon.ok h.toLinks) tag
      rw [TagOk, hread] at hok
      have : t.bit s tag = false := hok.trans hblank
      simp [hbit] at this
    | item v => exact ⟨true, rfl, by simpa using ⟨v, _, ⟨s, hon, hread, rfl⟩, hbit⟩⟩
    | node n =>
      have hrest := h.rest_slotIn (i := i) (hon.ok h.toLinks) hread
      rw [tagGetLoop]
      by_cases hset : (t.nodes n).tags tag ((t.nodes n).descend i) = true
      · rw [if_neg (by simp [hset])]
        exact ih (hon.next hread) (by omega) hset
      rw [if_pos (by simpa using hset)]
      refine ⟨false, rfl, by simp, ?_⟩
      rintro ⟨v, g, hst, hg⟩
      have hclear := h.clear_below (hon.next hread) (eq_false_of_ne_true hset) hst
      rw [hg] at hclear
      cases hclear

/-- `radix_tree_tag_get` is exact. -/
theorem tagGet_spec (tag : Tag) (h : Shape t live) (hidr : t.isIdr = false) (hi : i < 2 ^ bitsPerLong) :
    ∃ b, tagGet t i tag = .ok b ∧ (b = true ↔ ∃ v g, Stores t i v g ∧ g tag = true) := by
  rw [tagGet]
  by_cases hroot : t.rootTags tag = true
  · rw [if_neg (by simp [hroot])]
    split
    case isTrue habove =>
      refine ⟨false, rfl, by simp, ?_⟩
      rintro ⟨v, g, hst, -⟩
      exact absurd habove (hst.not_above hi)
    case isFalse habove =>
      exact tagGetLoop_spec h (by simp [blankTag, hidr]) maxSteps
        (.head ((not_above_iff hi).mp habove).1) (Nat.lt_succ_self _) hroot
  rw [if_pos (by simpa using hroot)]
  refine ⟨false, rfl, by simp, ?_⟩
  rintro ⟨v, g, hst, hg⟩
  obtain ⟨s, hs, -, -⟩ := id hst
  have hclear := h.clear_below (.head hs.covers) (eq_false_of_ne_true hroot) hst
  rw [hg] at hclear
  cases hclear

end

end LinuxNote.RadixTree
