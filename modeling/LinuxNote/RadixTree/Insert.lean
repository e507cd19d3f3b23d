import LinuxNote.RadixTree.Levels

/-! `radix_tree_insert` on a tree in shape: the tree grows until the slot of the index is there, which
    changes nothing that is stored, and the item is put into the slot. -/

namespace LinuxNote.RadixTree
open Radix Nat RadixTree.Tree Prod Node
open Config (mapShift)

section
variable {t : Tree} {n : ℕ} {s : Slot} {e : Entry} {node : Node}

theorem place_nodes_next : (t.place node).nodes t.next = node := Function.update_self ..

theorem put_nonnull (s' : Slot) (he : e ≠ .null) (h : t.read s' ≠ .null) :
    (t.put s e).read s' ≠ .null := by
  rw [put_read]
  split
  · exact he
  · exact h

theorem modify_modify (f g : Node → Node) : (t.modify n f).modify n g = t.modify n fun node => g
    (f node) := by
  simp [Tree.modify]

theorem modify_congr {f g : Node → Node} (h : f (t.nodes n) = g (t.nodes n)) :
    t.modify n f = t.modify n g := by
  rw [Tree.modify, Tree.modify, h]

theorem linkChild_eq (h : t.read s = .null) : linkChild s n t = t.put s (.node n) := by
  match s with
  | none => rfl
  | some (p, o) =>
    rw [linkChild, assign, modify_modify, put]
    refine modify_congr ?_
    rw [show (t.nodes p).slots o = .null from h]
    rfl

theorem insertEntries_eq {v : Item} (h : t.read s = .null) :
    insertEntries s v t = some (t.put s (.item v)) := by
  match s with
  | none => exact if_neg (by simpa using h)
  | some (p, o) =>
    rw [insertEntries, if_neg (by simpa using h), assign, modify_modify, put]
    refine congrArg some (modify_congr ?_)
    rw [show (t.nodes p).slots o = .null from h]
    rfl

theorem staleTags_eq_false (h : t.bit s = fun _ => false) : staleTags s t = false := by
  match s with
  | none =>
    have h' : t.rootTags = fun _ => false := h
    simp [staleTags, h']
  | some (n, o) =>
    have h' : ∀ tag, (t.nodes n).tags tag o = false := congrFun h
    simp [staleTags, h']

end

section
variable {t t' t'' : Tree} {alloc : ℕ → Bool}

/-- All the allocations between two states succeed. -/
def AllocOk (alloc : ℕ → Bool) (t t' : Tree) : Prop := ∀ k, t.next ≤ k → k < t'.next → alloc k = true

theorem AllocOk.trans (h : AllocOk alloc t t') (h' : AllocOk alloc t' t'') : AllocOk alloc t t'' := by
  intro k hk hk'
  by_cases hlt : k < t'.next
  · exact h k hk hlt
  · exact h' k (by omega) hk'

theorem AllocOk.right (h : AllocOk alloc t t'') (hle : t.next ≤ t'.next) : AllocOk alloc t' t'' :=
  fun k hk hk' => h k (hle.trans hk) hk'

theorem not_allocOk_skip (h : alloc t.next = false) : ¬AllocOk alloc t t.skip := by
  intro hok
  have := hok t.next le_rfl (lt_succ_self _)
  rw [h] at this
  cases this

theorem allocOk_next (h : alloc t.next = true) (hnext : t'.next = t.next + 1) : AllocOk alloc t t' := by
  intro k hk hk'
  obtain rfl : k = t.next := by omega
  exact h

end

section
variable [Config] {t t' t'' : Tree} {live live' live'' : Set ℕ} {alloc : ℕ → Bool} {i j shift : ℕ}
  {s s' : Slot} {v w : Item} {g : Tag → Bool}

/-- The second tree is in shape and stores the same. -/
structure Grows (t t' : Tree) (live' : Set ℕ) : Prop where
  shape : Shape t' live'
  stores : ∀ j w g, Stores t' j w g ↔ Stores t j w g
  isIdr : t'.isIdr = t.isIdr
  onlyFree : OnlyFree t → OnlyFree t'
  next : t.next ≤ t'.next

theorem Grows.refl (h : Shape t live) : Grows t t live :=
  ⟨h, fun _ _ _ => .rfl, rfl, id, le_rfl⟩

theorem Grows.trans (h : Grows t t' live') (h' : Grows t' t'' live'') : Grows t t'' live'' :=
  ⟨h'.shape, fun j w g => (h'.stores j w g).trans (h.stores j w g), h'.isIdr.trans h.isIdr,
    fun hf => h'.onlyFree (h.onlyFree hf), h.next.trans h'.next⟩

theorem Grows.skip (h : Shape t live) : Grows t t.skip live := by
  have ha : Agree t t.skip live := ⟨rfl, rfl, rfl, fun _ _ => rfl⟩
  have h' := ha.shape h (le_succ _)
  exact ⟨h', fun _ _ _ => ha.stores h.toLinks h'.toLinks, rfl, id, le_succ _⟩

/-! ### Levels -/

/-- The slot is on the walk of the index, and `shift` bits of the index are left below it. -/
def At (t : Tree) (i : ℕ) (s : Slot) (shift : ℕ) : Prop :=
  match s with
  | some (p, _) => On t i s ∧ shift = (t.nodes p).shift
  | none => match t.xaHead with
    | .null => i < 2 ^ shift ∧ mapShift ∣ shift ∧ shift < bitsPerLong + mapShift
    | .item _ => i = 0 ∧ shift = 0
    | .node r => i < 2 ^ shift ∧ shift = (t.nodes r).shift + mapShift

theorem At.on (h : At t i s shift) : On t i s := by
  match s with
  | some (p, o) => exact h.1
  | none =>
    refine .head ?_
    rw [Covers]
    rw [At] at h
    cases hhead : t.xaHead with
    | null => trivial
    | item v =>
      simp only [hhead] at h
      exact h.1
    | node r =>
      simp only [hhead] at h ⊢
      rw [← h.2]
      exact h.1

section
variable (hl : Links t live) (h : At t i s shift)
include hl h

/-- The shifts below the root are multiples of the bits of a level. -/
theorem At.dvd : mapShift ∣ shift ∧ shift < bitsPerLong + mapShift := by
  match s with
  | some (p, o) =>
    obtain ⟨hon, rfl⟩ := h
    obtain ⟨hdvd, hlt⟩ := hl.shift p (hon.ok hl p o rfl).1
    exact ⟨hdvd, by omega⟩
  | none =>
    rw [At] at h
    cases hhead : t.xaHead with
    | null =>
      simp only [hhead] at h
      exact h.2
    | item v =>
      simp only [hhead] at h
      rw [h.2]
      exact ⟨dvd_zero _, by rw [bitsPerLong]; omega⟩
    | node r =>
      simp only [hhead] at h
      obtain ⟨hdvd, hlt⟩ := hl.shift r (hl.child none slotOk_none r hhead).1
      rw [h.2]
      exact ⟨Nat.dvd_add hdvd dvd_rfl, by omega⟩

theorem At.child_shift {n : ℕ} (hread : t.read s = .node n) : (t.nodes n).shift + mapShift = shift := by
  match s with
  | some (p, o) =>
    obtain ⟨hon, rfl⟩ := h
    exact (hl.child _ (hon.ok hl) n hread).2.2 p o rfl
  | none =>
    rw [At, show t.xaHead = .node n from hread] at h
    exact h.2.symm

theorem At.step {n : ℕ} (hread : t.read s = .node n) : At t i (slotIn t n i) (shift - mapShift) :=
  ⟨h.on.next hread, by have := h.child_shift hl hread; omega⟩

theorem At.item (hread : t.read s = .item v) : shift = 0 := by
  match s with
  | some (p, o) =>
    obtain ⟨hon, rfl⟩ := h
    obtain ⟨hp, ho⟩ := hon.ok hl p o rfl
    exact hl.item p hp o ho v hread
  | none =>
    rw [At, show t.xaHead = .item v from hread] at h
    exact h.2

end

theorem At.leaf (hl : Links t live) (h : At t i s 0) : Leaf t i s := by
  have hend : ∀ n, t.read s ≠ .node n := by
    intro n hn
    have := h.child_shift hl hn
    have := Config.pos
    omega
  refine ⟨h.on, hend, ?_⟩
  match s with
  | some (p, o) => exact h.2.symm
  | none =>
    rw [At] at h
    cases hhead : t.xaHead with
    | null =>
      simp only [hhead] at h
      simpa using h.1
    | item v =>
      simp only [hhead] at h
      exact h.1
    | node r => exact absurd hhead (hend r)

/-! ### What is left to fill -/

/-- Every node has an entry, but perhaps the one with the slot. -/
def Filled (t : Tree) (live : Set ℕ) (s : Slot) : Prop :=
  ∀ n ∈ live, ¬InNode n s → ∃ o < mapSize, (t.nodes n).slots o ≠ .null

/-- The root is not higher than it has to be once something is stored at `i`; a tree without entries
    is to get nodes from below `shift` on. -/
def Tall (t : Tree) (i shift : ℕ) : Prop :=
  match t.xaHead with
  | .null => shift ≠ 0 → 0 < digit mapShift (shift - mapShift) i
  | .item _ => True
  | .node r => (∃ o, 0 < o ∧ o < mapSize ∧ (t.nodes r).slots o ≠ .null) ∨ 0 < (t.nodes r).descend i

/-- An entry in the slot fills its node. -/
theorem filled_put {e : Entry} (he : e ≠ .null) (hs : SlotOk live s) (h : Filled t live s) :
    Filled (t.put s e) live none := by
  intro n hn _
  by_cases hin : InNode n s
  · obtain ⟨o, rfl⟩ := hin
    refine ⟨o, (hs n o rfl).2, ?_⟩
    have hread := put_read_self (t := t) (s := some (n, o)) (e := e)
    exact fun hnull => he (hread.symm.trans hnull)
  · obtain ⟨o, ho, hread⟩ := h n hn hin
    exact ⟨o, ho, put_nonnull (some (n, o)) he hread⟩

theorem filled_step {n : ℕ} (hs : SlotOk live s) (hread : t.read s = .node n) (h : Filled t live s) :
    Filled t live (slotIn t n i) := by
  intro k hk _
  by_cases hin : InNode k s
  · obtain ⟨o, rfl⟩ := hin
    refine ⟨o, (hs k o rfl).2, fun hnull => ?_⟩
    cases hnull.symm.trans hread
  · exact h k hk hin

theorem Tall.mono_shift {shift' : ℕ} (h : Tall t i shift) (hhead : t.xaHead ≠ .null) :
    Tall t i shift' := by
  rw [Tall] at h ⊢
  cases hh : t.xaHead with
  | null => exact absurd hh hhead
  | item v => trivial
  | node r => simpa only [hh] using h

theorem tall_put {e : Entry} (he : e ≠ .null) (hs : s ≠ none) (h : Tall t i shift) :
    Tall (t.put s e) i shift := by
  have hhead : (t.put s e).xaHead = t.xaHead := put_read_of_ne (Ne.symm hs)
  rw [Tall] at h ⊢
  rw [hhead]
  cases hh : t.xaHead with
  | null => simpa only [hh] using h
  | item v => trivial
  | node r =>
    simp only [hh] at h ⊢
    rw [descend, put_shift]
    rcases h with ⟨o, hpos, ho, hread⟩ | hd
    · exact .inl ⟨o, hpos, ho, put_nonnull (some (r, o)) he hread⟩
    · exact .inr hd

/-- The head of a tree with a slot on a walk other than the root is a node. -/
theorem On.head_ne_null (h : On t i s) (hs : s ≠ none) : t.xaHead ≠ .null :=
  fun hnull => hs (on_none_of_null hnull h)

/-! ### A new child -/

section
variable {node : Node}

/-- A blank node is put into an empty slot on the walk of an index. -/
theorem Shape.addChild (h : Shape t live) (hi : i < 2 ^ bitsPerLong) (hat : At t i s shift)
    (hz : shift ≠ 0) (hnull : t.read s = .null) (hblank : Blank t.blankTag node)
    (hparent : node.parent = s.map fst) (hoffset : node.offset = (s.map snd).getD 0)
    (hshift : node.shift = shift - mapShift) :
    Grows t ((t.place node).put s (.node t.next)) (Insert.insert t.next live) ∧
      At ((t.place node).put s (.node t.next)) i (slotIn ((t.place node).put s (.node t.next)) t.next i)
        (shift - mapShift) := by
  have hs := hat.on.ok h.toLinks
  have ha := agree_place h node
  have h1 : Shape (t.place node) live := ha.shape h (le_succ _)
  have hnull1 : (t.place node).read s = .null := (ha.read hs).trans hnull
  have hnode : (t.place node).nodes t.next = node := place_nodes_next
  obtain ⟨⟨q, hq⟩, hlt⟩ := hat.dvd h.toLinks
  -- the shift is that of the level above
  have hge : mapShift ≤ shift := by
    rcases Nat.eq_zero_or_pos q with rfl | hpos
    · exact absurd hq (by simpa using hz)
    rw [hq]
    exact Nat.le_mul_of_pos_right _ hpos
  have hblank1 : Blank (t.place node).blankTag ((t.place node).nodes t.next) := by
    rw [hnode]
    exact hblank
  have hhome : (t.place node).home t.next = s := by
    rw [home, hnode, hparent, hoffset]
    rcases s with _ | ⟨p, o⟩
    · rfl
    · rfl
  have hlink : Shape ((t.place node).put s (.node t.next)) (Insert.insert t.next live) := by
    refine h1.link hs hnull1 h.next_notMem (lt_succ_self _) hblank1 hhome ?_ ?_ ?_ ?_ ?_
    · rw [hnode]
      intro hpar
      rw [hparent] at hpar
      rw [hoffset, Option.map_eq_none_iff.mp hpar]
      rfl
    · rw [hnode, hshift, hq]
      exact ⟨q - 1, by rw [Nat.mul_sub, Nat.mul_one]⟩
    · rw [hnode, hshift]
      omega
    · rintro p o rfl
      have hp := (hs p o rfl).1
      rw [hnode, hshift, ha.nodes p hp, ← hat.2]
      omega
    rintro p o rfl
    obtain ⟨-, -, ho⟩ := hat.on.home h.toLinks
    rw [ha.nodes p (hs p o rfl).1, ho]
    exact (digit_mul_le ..).trans_lt hi
  have hempty := h1.emptyChild_put hnull1 h.next_notMem hblank1 hs
  refine ⟨⟨hlink, fun j w g => ?_, ?_, fun hf hidr tag htag => ?_, ?_⟩, ?_, ?_⟩
  · exact hempty.stores.trans (ha.stores h.toLinks h1.toLinks)
  · rw [put_isIdr]
    rfl
  · have hbit := congrFun (put_bit (t := t.place node) (s := s) (e := .node t.next) none) tag
    rw [put_isIdr] at hidr
    exact hbit.trans (hf hidr tag htag)
  · rw [put_next]
    exact le_succ _
  · refine On.next ?_ put_read_self
    by_cases hnone : s = none
    · subst hnone
      refine .head ?_
      have hhead : ((t.place node).put none (.node t.next)).xaHead = .node t.next := rfl
      rw [Covers, hhead]
      simp only [put_shift, hnode, hshift]
      rw [Nat.sub_add_cancel hge]
      rw [At, show t.xaHead = .null from hnull] at hat
      exact hat.1
    · exact (hempty.on hnone (ha.on h.toLinks hat.on)).1
  · rw [put_shift, hnode, hshift]

theorem Filled.addChild (h : Shape t live) (hs : SlotOk live s) (hf : Filled t live s) :
    Filled ((t.place node).put s (.node t.next)) (Insert.insert t.next live) (some (t.next, j)) := by
  have ha := agree_place h node
  have hf1 : Filled (t.place node) live s := by
    intro n hn hin
    rw [ha.nodes n hn]
    exact hf n hn hin
  intro n hn hin
  rcases hn with rfl | hn
  · exact absurd ⟨j, rfl⟩ hin
  · exact filled_put (by simp) hs hf1 n hn not_inNode_none

theorem Tall.addChild (h : Shape t live) (hz : shift ≠ 0) (hshift : node.shift = shift - mapShift)
    (hnull : t.read s = .null) (hs : SlotOk live s) (ht : Tall t i shift) {shift' : ℕ}
    (hon : On t i s) : Tall ((t.place node).put s (.node t.next)) i shift' := by
  have ha := agree_place h node
  by_cases hnone : s = none
  · subst hnone
    have hhead : ((t.place node).put none (.node t.next)).xaHead = .node t.next := rfl
    rw [Tall, show t.xaHead = .null from hnull] at ht
    rw [Tall, hhead]
    refine .inr ?_
    rw [descend, put_shift, place_nodes_next, hshift]
    exact ht hz
  have hne := hon.head_ne_null hnone
  have ht1 : Tall (t.place node) i shift := by
    rw [Tall] at ht ⊢
    rw [ha.head]
    cases hh : t.xaHead with
    | null => exact absurd hh hne
    | item v => trivial
    | node r =>
      simp only [hh] at ht ⊢
      rw [ha.nodes r (h.child none slotOk_none r hh).1]
      exact ht
  refine (tall_put (by simp) hnone ht1).mono_shift ?_
  rw [show ((t.place node).put s (.node t.next)).xaHead = t.xaHead from put_read_of_ne (Ne.symm hnone)]
  exact hne

end

/-! ### The loop of `__radix_tree_create` -/

/-- What comes of growing a tree for the index: the slot for it, or not enough memory. -/
def Created (alloc : ℕ → Bool) (i : ℕ) (t : Tree) (live : Set ℕ) (s : Slot) (shift : ℕ) (t' : Tree)
    (live' : Set ℕ) : Option Slot → Prop
  | none => (∀ v g, ¬Stores t i v g) ∧ ¬AllocOk alloc t t'
  | some s' => Leaf t' i s' ∧ AllocOk alloc t t' ∧ (Filled t live s → Filled t' live' s') ∧
      (Tall t i shift → Tall t' i 0)

/-- What was created from a grown tree was created from the tree before. -/
theorem Created.of_grows {r : Option Slot} {shift' : ℕ} (hg : Grows t t' live')
    (halloc : AllocOk alloc t t') (hfill : Filled t live s → Filled t' live' s')
    (htall : Tall t i shift → Tall t' i shift') (h : Created alloc i t' live' s' shift' t'' live'' r) :
    Created alloc i t live s shift t'' live'' r := by
  match r with
  | none =>
    exact ⟨fun v g hst => h.1 v g ((hg.stores i v g).mpr hst), fun hok => h.2 (hok.right hg.next)⟩
  | some s'' =>
    obtain ⟨hleaf, hok, hfill', htall'⟩ := h
    exact ⟨hleaf, halloc.trans hok, fun hf => hfill' (hfill hf), fun ht => htall' (htall ht)⟩

variable (alloc)

theorem createLoop_spec (hi : i < 2 ^ bitsPerLong) (fuel k : ℕ) (h : Shape t live)
    (hidr : t.isIdr = false) (hat : At t i s (mapShift * k)) (hf : k < fuel) :
    ∃ r t' live', createLoop alloc i fuel (mapShift * k) s t = .ok (r, t') ∧ Grows t t' live' ∧
    Created alloc i t live s (mapShift * k) t' live' r := by
  induction fuel generalizing k t live s with
  | zero => omega
  | succ fuel ih =>
    have hs := hat.on.ok h.toLinks
    have hstep : mapShift * k - mapShift = mapShift * (k - 1) := by rw [Nat.mul_sub, Nat.mul_one]
    rw [createLoop]
    by_cases hz : mapShift * k = 0
    · rw [if_pos hz]
      rw [hz] at hat
      refine ⟨some s, t, live, rfl, .refl h, hat.leaf h.toLinks, fun _ _ _ => by omega, id, fun ht => ?_⟩
      rwa [← hz]
    have hkpos : 0 < k := Nat.pos_of_mul_pos_left (Nat.pos_of_ne_zero hz)
    rw [if_neg hz]
    cases hread : t.read s with
    | item v => exact absurd (hat.item h.toLinks hread) hz
    | node n =>
      have hat' := hat.step h.toLinks hread
      rw [hstep] at hat' ⊢
      obtain ⟨r, t', live', heq, hg, hc⟩ := ih (k - 1) h hidr hat' (by omega)
      refine ⟨r, t', live', heq, hg, hc.of_grows (.refl h) (fun _ _ _ => by omega)
        (filled_step hs hread) fun ht => ht.mono_shift ?_⟩
      by_cases hnone : s = none
      · subst hnone
        rw [show t.xaHead = .node n from hread]
        simp
      · exact hat.on.head_ne_null hnone
    | null =>
      rw [nodeAlloc]
      by_cases halloc : alloc t.next = true
      · rw [if_pos halloc]
        dsimp only
        generalize hnode : newNode (s.map fst) (mapShift * k - mapShift) ((s.map snd).getD 0) 0 0 = node
        have hblank : Blank t.blankTag node := by
          subst hnode
          refine ⟨rfl, fun tag o _ => ?_, rfl, rfl⟩
          rw [blankTag, hidr]
          rfl
        have hshift : node.shift = mapShift * k - mapShift := by
          rw [← hnode]
          rfl
        obtain ⟨hg1, hat1⟩ := h.addChild hi hat hz hread hblank (by rw [← hnode]; rfl)
          (by rw [← hnode]; rfl) hshift
        rw [linkChild_eq (((agree_place h node).read hs).trans hread)]
        rw [hstep] at hat1 ⊢
        obtain ⟨r, t', live', heq, hg, hc⟩ := ih (k - 1) hg1.shape (hg1.isIdr.trans hidr) hat1 (by omega)
        refine ⟨r, t', live', heq, hg1.trans hg, hc.of_grows hg1 (allocOk_next halloc put_next)
          (fun hfill => hfill.addChild h hs) fun ht => ht.addChild h hz hshift hread hs hat.on⟩
      · rw [if_neg halloc]
        exact ⟨none, t.skip, live, rfl, .skip h, fun v g => not_stores hat.on hread,
          not_allocOk_skip (by simpa using halloc)⟩

/-! ### `radix_tree_extend` -/

theorem maxShift_spec (hi : i < 2 ^ bitsPerLong) (fuel : ℕ) (hle : 2 ^ shift ≤ i)
    (hdvd : mapShift ∣ shift) (hf : bitsPerLong < shift + fuel) :
    ∃ m, maxShift i fuel shift = .ok m ∧ shift ≤ m ∧ m < bitsPerLong ∧ mapShift ∣ m ∧ 2 ^ m ≤ i ∧
    i < 2 ^ (m + mapShift) := by
  have hlt : shift < bitsPerLong := (Nat.pow_lt_pow_iff_right (by omega)).mp (hle.trans_lt hi)
  induction fuel generalizing shift with
  | zero => omega
  | succ fuel ih =>
    rw [maxShift]
    have hiff := le_shiftMaxindex (s := shift) hi
    have hm := Config.pos
    split
    case isTrue habove =>
      have hle' : 2 ^ (shift + mapShift) ≤ i := by
        by_contra hlt
        exact absurd (hiff.mpr (by omega)) (by omega)
      have hlt' : shift + mapShift < bitsPerLong :=
        (Nat.pow_lt_pow_iff_right (by omega)).mp (hle'.trans_lt hi)
      obtain ⟨m, heq, hsm, hrest⟩ := ih hle' (Nat.dvd_add hdvd dvd_rfl) (by omega) hlt'
      exact ⟨m, heq, by omega, hrest⟩
    case isFalse habove => exact ⟨shift, rfl, le_rfl, hlt, hdvd, hle, hiff.mp (by omega)⟩

/-- The shift of a node that is to come above the root. -/
def RootShift (t : Tree) (shift : ℕ) : Prop :=
  (∀ r, t.xaHead = .node r → (t.nodes r).shift + mapShift = shift) ∧ ∀ v, t.xaHead = .item v → shift = 0

section
variable (h : Shape t live) (hfree : OnlyFree t) (hnull : t.xaHead ≠ .null) (hroot : RootShift t shift)
  (hdvd : mapShift ∣ shift)
include h hfree hnull hroot hdvd

/-- A node above the root. -/
theorem Shape.addTop (hlt : shift < bitsPerLong) :
    ∃ t', t' = pushTop t.next (t.place (newNode none shift 0 1 0)) ∧ t'.next = t.next + 1 ∧
    Grows t t' (Insert.insert t.next live) ∧ t'.xaHead = .node t.next ∧
    (t'.nodes t.next).shift = shift ∧
    (Filled t live none → Filled t' (Insert.insert t.next live) none) := by
  generalize hnode : newNode none shift 0 1 0 = node
  have ha := agree_place h node
  have h1 : Shape (t.place node) live := ha.shape h (le_succ _)
  have hnext : (t.place node).nodes t.next = newNode none shift 0 1 0 :=
    place_nodes_next.trans hnode.symm
  have hshift : ((t.place node).nodes t.next).shift = shift := by
    rw [hnext]
    rfl
  have hhead : (t.place node).xaHead ≠ .node t.next :=
    fun hr => h.next_notMem (h.child none slotOk_none _ hr).1
  have hp : Pushed (t.place node) (pushTop t.next (t.place node)) t.next :=
    pushTop_pushed hfree hhead hnext
  have hroot1 : ∀ r, (t.place node).xaHead = .node r →
      ((t.place node).nodes r).shift + mapShift = ((t.place node).nodes t.next).shift := by
    intro r hr
    rw [ha.nodes r (h.child none slotOk_none r hr).1, hshift]
    exact hroot.1 r hr
  have hitem1 : ∀ v, (t.place node).xaHead = .item v → ((t.place node).nodes t.next).shift = 0 :=
    fun v hv => hshift.trans (hroot.2 v hv)
  have h2 := h1.push hp h.next_notMem hnull hroot1 hitem1 (lt_succ_self _) (hshift ▸ hdvd) (hshift ▸ hlt)
  have hraised := h1.raisedBy_push hp h.next_notMem hnull hroot1 hitem1
  refine ⟨_, rfl, hp.next, ⟨h2, fun j w g => ?_, hp.isIdr, fun _ hidr tag htag => ?_, ?_⟩, hp.head,
    hp.shift.trans hshift, fun hfill n hn _ => ?_⟩
  · exact hraised.stores.trans (ha.stores h.toLinks h1.toLinks)
  · have hblank : (t.place node).blankTag tag = false := by simp [blankTag, htag]
    rw [hp.rootTags, hblank, Bool.or_false]
    exact hfree (hp.isIdr.symm.trans hidr) tag htag
  · rw [hp.next]
    exact le_succ _
  rcases hn with rfl | hn
  · refine ⟨0, mapSize_pos, ?_⟩
    rw [hp.slots, Function.update_self]
    exact hnull
  have hne : n ≠ t.next := by
    rintro rfl
    exact h.next_notMem hn
  rw [hp.keeps (g := slots) (fun _ _ => rfl) hne, ha.nodes n hn]
  exact hfill n hn not_inNode_none

theorem extendLoop_spec {m : ℕ} (fuel : ℕ) (hm : mapShift ∣ m) (hle : shift ≤ m) (hlt : m < bitsPerLong)
    (hf : m < shift + fuel) :
    ∃ b t' live', extendLoop alloc m fuel shift t = .ok (b, t') ∧ Grows t t' live' ∧
    (b = false → ¬AllocOk alloc t t') ∧
    (b = true → AllocOk alloc t t' ∧ (Filled t live none → Filled t' live' none) ∧
      ∃ r, t'.xaHead = .node r ∧ (t'.nodes r).shift = m) := by
  induction fuel generalizing shift t live with
  | zero => omega
  | succ fuel ih =>
    have hpos := Config.pos
    rw [extendLoop, nodeAlloc]
    by_cases halloc : alloc t.next = true
    · rw [if_pos halloc]
      dsimp only
      obtain ⟨t1, ht1, hnext, hg1, hhead, hshift, hfill⟩ := h.addTop hfree hnull hroot hdvd (by omega)
      have hok := allocOk_next halloc hnext
      rw [if_neg (by omega), ← ht1]
      split
      case isTrue hmore =>
        have hroot1 : RootShift t1 (shift + mapShift) := by
          refine ⟨fun r hr => ?_, fun v hv => ?_⟩
          · obtain rfl := Entry.node.inj (hhead.symm.trans hr)
            rw [hshift]
          · cases hhead.symm.trans hv
        obtain ⟨b, t', live', heq, hg, hfalse, htrue⟩ := ih hg1.shape (hg1.onlyFree hfree)
          (by rw [hhead]; simp) hroot1 (Nat.dvd_add hdvd dvd_rfl) hmore (by omega)
        refine ⟨b, t', live', heq, hg1.trans hg, fun hb hall => hfalse hb (hall.right hg1.next),
          fun hb => ?_⟩
        obtain ⟨hok', hfill', hr⟩ := htrue hb
        exact ⟨hok.trans hok', fun hf => hfill' (hfill hf), hr⟩
      case isFalse hmore =>
        refine ⟨true, t1, _, rfl, hg1, by simp, fun _ => ⟨hok, hfill, t.next, hhead, ?_⟩⟩
        -- both are multiples of the bits of a level
        obtain ⟨a, rfl⟩ := hdvd
        obtain ⟨b, rfl⟩ := hm
        have hab : a ≤ b := le_of_mul_le_mul_left hle hpos
        have hba : b < a + 1 := by
          refine Nat.lt_of_mul_lt_mul_left (a := mapShift) ?_
          rw [mul_add, mul_one]
          omega
        rw [hshift, show a = b by omega]
    · rw [if_neg halloc]
      exact ⟨false, t.skip, live, rfl, .skip h, fun _ => not_allocOk_skip (by simpa using halloc),
        by simp⟩

end

theorem above_iff (hi : i < 2 ^ bitsPerLong) : i > (loadRoot t).2 ↔ 2 ^ (loadRoot t).1 ≤ i := by
  rw [loadRoot]
  cases t.xaHead with
  | null | item v => exact .rfl
  | node r =>
    have := le_shiftMaxindex (s := (t.nodes r).shift) hi
    dsimp only
    omega

theorem loadRoot_dvd (hl : Links t live) : mapShift ∣ (loadRoot t).1 := by
  rw [loadRoot]
  cases hhead : t.xaHead with
  | null | item v => exact dvd_zero _
  | node r =>
    exact Nat.dvd_add (hl.shift r (hl.child none slotOk_none r hhead).1).1 dvd_rfl

/-- What comes of extending the tree for the index: the shift above the root, or not enough memory. -/
def Extended (i : ℕ) (t : Tree) (live : Set ℕ) (t' : Tree) (live' : Set ℕ) : Option ℕ → Prop
  | none => ¬AllocOk alloc t t'
  | some shift => AllocOk alloc t t' ∧ (Filled t live none → Filled t' live' none) ∧ At t' i none shift ∧
    Tall t' i shift ∧ (t'.xaHead = .null → t.xaHead = .null)

theorem extend_spec (h : Shape t live) (hfree : OnlyFree t) (hi : i < 2 ^ bitsPerLong)
    (habove : i > (loadRoot t).2) :
    ∃ r t' live', extend alloc i (loadRoot t).1 t = .ok (r, t') ∧ Grows t t' live' ∧
    Extended alloc i t live t' live' r := by
  have hge := (above_iff hi).mp habove
  have hdvd := loadRoot_dvd h.toLinks
  obtain ⟨m, hm, hle, hlt, hmdvd, hlow, hhigh⟩ :=
    maxShift_spec hi maxSteps hge hdvd (by rw [maxSteps]; omega)
  have hdigit : 0 < digit mapShift m i := by
    have := digit_eq_zero_iff hhigh
    omega
  rw [extend, hm]
  by_cases hnull : t.xaHead = .null
  · have hblank : (!t.isIdr || t.rootTags idrFree) = true := by
      have hroot := h.tags none slotOk_none idrFree
      rw [Tree.TagOk, Tree.read, hnull] at hroot
      have hroot' : t.rootTags idrFree = t.blankTag idrFree := hroot
      rw [hroot', blankTag]
      simp
    refine ⟨some (m + mapShift), t, live, ?_, .refl h, fun _ _ _ => by omega, id, ?_, ?_, id⟩
    · exact if_pos ⟨hnull, hblank⟩
    · rw [At, hnull]
      exact ⟨hhigh, Nat.dvd_add hmdvd dvd_rfl, by omega⟩
    rw [Tall, hnull]
    intro _
    rwa [Nat.add_sub_cancel]
  obtain ⟨b, t', live', heq, hg, hfalse, htrue⟩ := extendLoop_spec alloc h hfree hnull
    ⟨fun r hr => by rw [loadRoot, hr], fun v hv => by rw [loadRoot, hv]⟩ hdvd maxSteps hmdvd hle hlt
    (by rw [maxSteps]; omega)
  refine ⟨if b then some (m + mapShift) else none, t', live', ?_, hg, ?_⟩
  · change (if t.xaHead = .null ∧ _ then _ else _) = _
    rw [if_neg fun hc => hnull hc.1, heq]
    rfl
  rcases b with _ | _
  · exact hfalse rfl
  obtain ⟨hok, hfill, r, hr, hshift⟩ := htrue rfl
  refine ⟨hok, hfill, ?_, ?_, by simp [hr]⟩
  · rw [At, hr]
    exact ⟨hhigh, by rw [hshift]⟩
  rw [Tall, hr]
  refine .inr ?_
  rwa [descend, hshift]

/-! ### `radix_tree_insert` -/

theorem At.levels (hl : Links t live) (h : At t i s shift) :
    ∃ k, shift = mapShift * k ∧ k < maxSteps := by
  obtain ⟨⟨k, rfl⟩, hlt⟩ := h.dvd hl
  refine ⟨k, rfl, ?_⟩
  have hpos := Config.pos
  have hk : mapShift * (k - 1) < bitsPerLong := by
    rw [Nat.mul_sub, Nat.mul_one]
    rw [bitsPerLong] at hlt ⊢
    omega
  have := Nat.le_mul_of_pos_left (k - 1) hpos
  rw [maxSteps]
  omega

theorem at_root (hi : i < 2 ^ bitsPerLong) (hbelow : ¬i > (loadRoot t).2) :
    At t i none (loadRoot t).1 := by
  have hlt := (above_iff hi).not.mp hbelow
  rw [loadRoot] at hlt ⊢
  rw [At]
  cases hhead : t.xaHead with
  | null =>
    simp only [hhead] at hlt
    exact ⟨by simpa using hlt, dvd_zero _, Nat.add_pos_left (Nat.succ_pos _) _⟩
  | item v =>
    simp only [hhead] at hlt
    exact ⟨by simpa using hlt, rfl⟩
  | node r =>
    simp only [hhead] at hlt
    exact ⟨not_le.mp hlt, rfl⟩

theorem Stores.not_above (h : Stores t i v g) (hi : i < 2 ^ bitsPerLong) : ¬i > (loadRoot t).2 := by
  obtain ⟨s, hs, hread, -⟩ := h
  refine (not_above_iff hi).mpr ⟨hs.covers, fun hnull => ?_⟩
  rw [on_none_of_null hnull hs] at hread
  cases hnull.symm.trans hread

theorem create_spec (h : Shape t live) (hidr : t.isIdr = false) (hi : i < 2 ^ bitsPerLong) :
    ∃ r t' live', create alloc i t = .ok (r, t') ∧ Grows t t' live' ∧
    Created alloc i t live none (loadRoot t).1 t' live' r := by
  have hfree : OnlyFree t := fun hi => by simp [hidr] at hi
  rw [create]
  by_cases habove : i > (loadRoot t).2
  · obtain ⟨r, t1, live1, heq, hg1, he⟩ := extend_spec alloc h hfree hi habove
    have habsent : ∀ v g, ¬Stores t i v g := fun v g hst => hst.not_above hi habove
    match r with
    | none =>
      refine ⟨none, t1, live1, ?_, hg1, habsent, he⟩
      dsimp only
      rw [if_pos habove, heq]
      rfl
    | some shift =>
      obtain ⟨hok, hfill, hat, htall, -⟩ := he
      obtain ⟨k, rfl, hk⟩ := hat.levels hg1.shape.toLinks
      obtain ⟨r, t', live', heq', hg, hc⟩ :=
        createLoop_spec alloc hi maxSteps k hg1.shape (hg1.isIdr.trans hidr) hat hk
      refine ⟨r, t', live', ?_, hg1.trans hg, hc.of_grows hg1 hok hfill fun _ => htall⟩
      dsimp only
      rw [if_pos habove, heq]
      exact heq'
  have hat := at_root hi habove
  obtain ⟨k, hshift, hk⟩ := hat.levels h.toLinks
  rw [hshift] at hat
  obtain ⟨r, t', live', heq, hg, hc⟩ := createLoop_spec alloc hi maxSteps k h hidr hat hk
  refine ⟨r, t', live', ?_, hg, hshift ▸ hc⟩
  dsimp only
  rw [if_neg habove, hshift]
  exact heq

/-- Every node has an entry, and the root has one other than the first. -/
structure Tight (t : Tree) (live : Set ℕ) : Prop where
  filled : Filled t live none
  root : ∀ r, t.xaHead = .node r → ∃ o, 0 < o ∧ o < mapSize ∧ (t.nodes r).slots o ≠ .null

theorem Tight.tall (h : Tight t live) : Tall t i (loadRoot t).1 := by
  rw [Tall, loadRoot]
  cases hhead : t.xaHead with
  | null => simp
  | item v => trivial
  | node r => exact .inl (h.root r hhead)

/-- Below the root the walk of a stored index has an entry. -/
theorem Stores.root_slot {r : ℕ} (h : Stores t i v g) (hr : t.xaHead = .node r) :
    (t.nodes r).slots ((t.nodes r).descend i) ≠ .null := by
  obtain ⟨s, hs, hread, -⟩ := h
  have hwalk : ∀ {s}, On t i s → t.read s ≠ .null → s ≠ none → t.read (slotIn t r i) ≠ .null := by
    intro s hs
    induction hs with
    | head => exact fun _ hne => absurd rfl hne
    | @next s n hs hn ih =>
      intro hnull _
      by_cases hnone : s = none
      · subst hnone
        obtain rfl := Entry.node.inj (hr.symm.trans hn)
        exact hnull
      · exact ih (by simp [hn]) hnone
  refine hwalk hs (by simp [hread]) ?_
  rintro rfl
  cases hr.symm.trans hread

theorem Stores.tight (h : Stores t i v g) (hfill : Filled t live none) (htall : Tall t i 0) :
    Tight t live := by
  refine ⟨hfill, fun r hr => ?_⟩
  rw [Tall, hr] at htall
  rcases htall with hex | hd
  · exact hex
  · exact ⟨_, hd, descend_lt .., h.root_slot hr⟩

/-- What an insertion makes of a tree, by what it returns. -/
def Inserted (i : ℕ) (v : Item) (t t' : Tree) : Status → Prop
  | .ok => (∀ w g, ¬Stores t i w g) ∧ AllocOk alloc t t' ∧ ∀ j w g, Stores t' j w g ↔
    (j = i ∧ w = v ∧ g = fun _ => false) ∨ (j ≠ i ∧ Stores t j w g)
  | .exist => (∃ w g, Stores t i w g) ∧ ∀ j w g, Stores t' j w g ↔ Stores t j w g
  | .nomem => (∀ w g, ¬Stores t i w g) ∧ ¬AllocOk alloc t t' ∧ ∀ j w g, Stores t' j w g ↔ Stores t j w g

theorem Leaf.fits (hl : Links t live) (h : Leaf t i s) (hi : i < 2 ^ bitsPerLong) :
    Fits t s (.item v) := by
  rintro p o rfl
  have hzero : (t.nodes p).shift = 0 := h.2.2
  refine ⟨fun _ _ => hzero, fun _ => ?_⟩
  rw [(h.1.home hl).2.2]
  exact (digit_mul_le ..).trans_lt hi

/-- `radix_tree_insert` never meets one of its `BUG_ON`s, and it returns what it should. -/
theorem insert_spec (v : Item) (h : Shape t live) (hidr : t.isIdr = false) (hi : i < 2 ^ bitsPerLong) :
    ∃ st t' live', insert alloc i v t = .ok (st, t') ∧ Shape t' live' ∧ t'.isIdr = false ∧
      Inserted alloc i v t t' st ∧ (st ≠ .nomem → Tight t live → Tight t' live') := by
  obtain ⟨r, t1, live1, heq, hg, hc⟩ := create_spec alloc h hidr hi
  have hidr1 := hg.isIdr.trans hidr
  rw [insert, heq]
  rcases r with _ | s
  · exact ⟨.nomem, t1, live1, rfl, hg.shape, hidr1, ⟨hc.1, hc.2, hg.stores⟩, by simp⟩
  obtain ⟨hleaf, hok, hfill, htall⟩ := hc
  have hs := hleaf.1.ok hg.shape.toLinks
  rcases hg.shape.read_end hleaf.1 hleaf.2.1 with hnull | ⟨w, hw, -⟩
  · have hbit : t1.bit s = fun _ => false := by
      funext tag
      have hok := hg.shape.tags s hs tag
      rw [TagOk, hnull] at hok
      simpa [blankTag, hidr1] using hok
    have hput : Shape (t1.put s (.item v)) live1 :=
      hg.shape.put hs hleaf.2.1 (by simp) (hleaf.fits hg.shape.toLinks hi) (by simp)
    have hstores : ∀ j w g, Stores (t1.put s (.item v)) j w g ↔
        (j = i ∧ w = v ∧ g = fun _ => false) ∨ (j ≠ i ∧ Stores t j w g) := by
      intro j w g
      rw [stores_put_item hg.shape.toLinks hleaf hnull, hbit, hg.stores]
    refine ⟨.ok, t1.put s (.item v), live1, ?_, hput, put_isIdr.trans hidr1, ⟨?_, ?_, hstores⟩, ?_⟩
    · have hstale : staleTags s (t1.put s (.item v)) = false :=
        staleTags_eq_false ((put_bit s).trans hbit)
      dsimp only [bind, Except.bind]
      rw [insertEntries_eq hnull]
      simp only [hstale]
      rfl
    · exact fun w g hst => not_stores hleaf.1 hnull ((hg.stores i w g).mpr hst)
    · intro k hk hk'
      rw [put_next] at hk'
      exact hok k hk hk'
    intro _ ht
    have hst : Stores (t1.put s (.item v)) i v fun _ => false :=
      (hstores i v _).mpr (.inl ⟨rfl, rfl, rfl⟩)
    refine hst.tight (filled_put (by simp) hs (hfill ht.filled)) ?_
    by_cases hnone : s = none
    · subst hnone
      exact trivial
    · exact tall_put (by simp) hnone (htall ht.tall)
  have hst : Stores t1 i w (t1.bit s) := ⟨s, hleaf.1, hw, rfl⟩
  refine ⟨.exist, t1, live1, ?_, hg.shape, hidr1,
    ⟨⟨w, _, (hg.stores i w _).mp hst⟩, hg.stores⟩, fun _ ht => hst.tight ?_ (htall ht.tall)⟩
  · dsimp only [bind, Except.bind]
    have : insertEntries s v t1 = none := by
      rcases s with _ | ⟨p, o⟩
      · exact if_pos (by rw [hw]; simp)
      · exact if_pos (by rw [hw]; simp)
    rw [this]
    rfl
  -- the node of the slot has the item
  intro n hn _
  by_cases hin : InNode n s
  · obtain ⟨o, rfl⟩ := hin
    exact ⟨o, (hs n o rfl).2, fun hnull => by cases hnull.symm.trans hw⟩
  · exact hfill ht.filled n hn hin

end

end LinuxNote.RadixTree
