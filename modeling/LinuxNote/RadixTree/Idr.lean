import LinuxNote.Lib.Word
import LinuxNote.RadixTree.Map

/-! ID allocation on a radix tree: `idr_get_free` finds the smallest free id of a range, storing an item
    and clearing the tag of free slots allocates it, and `radix_tree_delete` frees it.

    Of the iterator only the indices and the slot are kept; its tags are for loops over chunks. -/

namespace LinuxNote.RadixTree
open Radix Function Prod Nat Except Node RadixTree.Tree
open Config (mapShift)

/-- What `idr_get_free` returns: a slot with the index and the next index of the iterator, `-ENOSPC` or
    `-ENOMEM`. -/
inductive Free where
  | found (index nextIndex : ℕ) (slot : Slot)
  | nospc
  | nomem
  deriving DecidableEq

/-- The variables of `idr_get_free`. -/
structure Search where
  start : ℕ
  shift : ℕ
  child : Entry
  node : Option ℕ
  offset : ℕ
  slot : Slot

section
variable [Config]

/-- `radix_tree_find_next_bit`; `left` is what is left of the bitmap. -/
def findNextBit (node : Node) (tag : Tag) : ℕ → ℕ → ℕ
  | 0, _ => mapSize
  | left + 1, offset =>
    if offset < mapSize then
      if node.tags tag offset then offset else findNextBit node tag left (offset + 1)
    else mapSize

/-- `next_index`, in 64 bits. -/
def nextIndex (index : ℕ) (node : Node) (offset : ℕ) : ℕ :=
  ((index &&& (2 ^ bitsPerLong - 1 - shiftMaxindex node.shift)) + offset * 2 ^ node.shift %
    2 ^ bitsPerLong) % 2 ^ bitsPerLong

/-- The inner loop of `idr_get_free`, up the tree from the end of a node; `none` when it leaves the
    root. -/
def climb (t : Tree) : ℕ → ℕ → ℕ → ℕ → Except Fault (Option (ℕ × ℕ × ℕ))
  | 0, _, _, _ => .error .fuel
  | fuel + 1, n, offset, shift =>
    if offset ≠ mapSize then .ok (some (n, offset, shift))
    else match (t.nodes n).parent with
      | none => .ok none
      | some p => climb t fuel p ((t.nodes n).offset + 1) (t.nodes p).shift

variable (alloc : ℕ → Bool)

/-- `idr_get_free` from its label `grow` to its loop. -/
def getFreeGrow (max start offset : ℕ) (slot : Slot) (t : Tree) :
    Except Fault ((Free ⊕ Search) × Tree) := do
  let (shift, maxindex) := loadRoot t
  let start := if !tagged t idrFree then Nat.max start ((maxindex + 1) % 2 ^ bitsPerLong) else start
  if start > max then return (.inl .nospc, t)
  if start > maxindex then
    let p ← extend alloc start shift t
    match p.1 with
    | none => return (.inl .nomem, p.2)
    | some shift =>
      return (.inr ⟨start, if start = 0 ∧ shift = 0 then mapShift else shift, p.2.xaHead, none,
        offset, slot⟩, p.2)
  else
    return (.inr ⟨start, if start = 0 ∧ shift = 0 then mapShift else shift, t.xaHead, none,
      offset, slot⟩, t)

/-- The second half of the loop of `idr_get_free`: down into the node `c`, or on to the next free
    slot. -/
def getFreeDescend (max c shift : ℕ) (w : Search) (t : Tree) :
    Except Fault ((Free ⊕ Search) × Tree) := do
  let offset := (t.nodes c).descend w.start
  if (t.nodes c).tags idrFree offset then
    return (.inr ⟨w.start, shift, (t.nodes c).slots offset, some c, offset, some (c, offset)⟩, t)
  let offset := findNextBit (t.nodes c) idrFree mapSize (offset + 1)
  let start := nextIndex w.start (t.nodes c) offset
  if start > max then return (.inl .nospc, t)
  match ← climb t maxSteps c offset shift with
  | none => getFreeGrow alloc max start offset w.slot t
  | some (n, offset, shift) =>
    return (.inr ⟨start, shift, (t.nodes n).slots offset, some n, offset, some (n, offset)⟩, t)

/-- What `idr_get_free` returns at its end. -/
def getFreeFound (max : ℕ) (w : Search) (t : Tree) : Free :=
  .found w.start (match w.node with
      | some n => (1 + min max (w.start ||| shiftMaxindex (t.nodes n).shift)) % 2 ^ bitsPerLong
      | none => 1)
    w.slot

/-- The new node with all its slots free, linked into the slot. -/
def linkFree (slot : Slot) (c : ℕ) (t : Tree) : Tree :=
  linkChild slot c (t.modify c fun node => node.allTagSet idrFree)

/-- The loop of `idr_get_free`. -/
def getFreeLoop (max : ℕ) : ℕ → Search → Tree → Except Fault (Free × Tree)
  | 0, _, _ => .error .fuel
  | fuel + 1, w, t =>
    if w.shift = 0 then .ok (getFreeFound max w t, t)
    else
      let shift := w.shift - mapShift
      let next (p : (Free ⊕ Search) × Tree) : Except Fault (Free × Tree) :=
        match p with
        | (.inl r, t) => .ok (r, t)
        | (.inr w, t) => getFreeLoop max fuel w t
      match w.child with
      | .null =>
        match t.nodeAlloc alloc w.node shift w.offset 0 0 with
        | (none, t) => .ok (.nomem, t)
        | (some c, t) => getFreeDescend alloc max c shift w (linkFree w.slot c t) >>= next
      | .item _ => .ok (getFreeFound max w t, t)
      | .node c => getFreeDescend alloc max c shift w t >>= next

/-- Fuel for the search: every round moves on or goes down. -/
def searchSteps : ℕ := (2 ^ bitsPerLong + 1) * (maxSteps + 1)

/-- `idr_get_free`, for an iterator whose next index is `start`. -/
def idrGetFree (start max : ℕ) (t : Tree) : Except Fault (Free × Tree) := do
  match ← getFreeGrow alloc max start 0 none t with
  | (.inl r, t) => return (r, t)
  | (.inr w, t) => getFreeLoop alloc max searchSteps w t

/-- `calculate_count`. -/
def calculateCount (slot : Slot) (entry : Entry) (t : Tree) : ℤ :=
  if t.isIdr ∧ !nodeTagGet t slot idrFree then 0
  else if t.isIdr ∧ t.read slot = .null then 1
  else (if entry = .null then 0 else 1) - (if t.read slot = .null then 0 else 1)

/-- `__radix_tree_replace`. -/
def replace (slot : Slot) (entry : Entry) (t : Tree) : Except Fault Tree :=
  let values : ℤ := (if entry.isValue then 1 else 0) - (if (t.read slot).isValue then 1 else 0)
  let t := replaceSlot slot entry (calculateCount slot entry t) values t
  match slot with
  | none => .ok t
  | some (n, _) => deleteNode maxSteps n t

/-- An id is allocated: an item is stored in the slot that `idr_get_free` returns, and the tag of free
    slots is cleared at the offset of the iterator. -/
def idrAlloc (start max : ℕ) (item : Item) (t : Tree) : Except Fault (Free × Tree) := do
  match ← idrGetFree alloc start max t with
  | (.found index next slot, t) =>
    let t ← replace slot (.item item) t
    let t ← nodeTagClear idrFree maxSteps (slot.map fun p => (p.1, index % mapSize)) t
    return (.found index next slot, t)
  | (r, t) => return (r, t)

end

section
variable {t : Tree} {n : ℕ} {s : Slot} {v : Item}

theorem place_modify (node : Node) (k : Node → Node) :
    (t.place node).modify t.next k = t.place (k node) := by
  simp [Tree.place, Tree.modify]

theorem replaceSlot_item (hnull : t.read s = .null) :
    replaceSlot s (.item v) 1 ((if (Entry.item v).isValue then 1 else 0) -
      (if (t.read s).isValue then 1 else 0)) t = t.put s (.item v) := by
  match s with
  | none => rfl
  | some (n, o) =>
    have hslot : (t.nodes n).slots o = .null := hnull
    rw [replaceSlot, assign, modify_modify, put, hnull]
    refine modify_congr ?_
    rw [setSlot, hslot]
    congr 1
    cases v with
    | pointer p | value x => simp [Entry.valueWeight, Entry.isValue]

/-- An IDR never gives up a root at the bottom. -/
theorem shrink_bottom {fuel : ℕ} (hidr : t.isIdr = true) (hroot : t.xaHead = .node n)
    (hshift : (t.nodes n).shift = 0) : shrink (fuel + 1) t = .ok t := by
  rw [shrink, hroot]
  dsimp only
  split
  · rfl
  split
  · rfl
  · rw [if_pos ⟨hshift, hidr⟩]

end

section
variable [Config] {t t' : Tree} {live live' : Set ℕ} {i j n f start max shift : ℕ} {s : Slot}
  {v w : Item} {g : Tag → Bool}

/-! ### Bits and indices -/

theorem findNextBit_spec (node : Node) (tag : Tag) (left : ℕ) {o : ℕ} (ho : o ≤ mapSize)
    (hleft : mapSize ≤ o + left) :
    o ≤ findNextBit node tag left o ∧ findNextBit node tag left o ≤ mapSize ∧
    (∀ q, o ≤ q → q < findNextBit node tag left o → node.tags tag q = false) ∧
    (findNextBit node tag left o < mapSize → node.tags tag (findNextBit node tag left o) = true) := by
  induction left generalizing o with
  | zero =>
    obtain rfl : o = mapSize := by omega
    exact ⟨le_rfl, le_rfl, fun q hq hq' => absurd hq' (not_lt.mpr hq), fun h => absurd h (lt_irrefl _)⟩
  | succ left ih =>
    rw [findNextBit]
    split
    case isTrue hlt =>
      split
      case isTrue hset => exact ⟨le_rfl, ho, fun q hq hq' => absurd hq' (not_lt.mpr hq), fun _ => hset⟩
      case isFalse hset =>
        obtain ⟨h1, h2, h3, h4⟩ := ih (o := o + 1) hlt (by omega)
        refine ⟨by omega, h2, fun q hq hq' => ?_, h4⟩
        rcases eq_or_lt_of_le hq with rfl | hq
        · exact eq_false_of_ne_true hset
        · exact h3 q hq hq'
    case isFalse hlt => exact ⟨ho, le_rfl, fun q hq hq' => by omega, fun h => absurd h (lt_irrefl _)⟩

/-- `next_index` is where the block starts, when that is an index. -/
theorem nextIndex_eq (node : Node) {o : ℕ} (hi : i < 2 ^ bitsPerLong)
    (hlt : withDigit mapShift node.shift i o < 2 ^ bitsPerLong) :
    nextIndex i node o = withDigit mapShift node.shift i o := by
  have hpow : 2 ^ (node.shift + mapShift) = 2 ^ mapShift * 2 ^ node.shift := by
    rw [pow_add, mul_comm]
  have hsplit : withDigit mapShift node.shift i o =
      i / 2 ^ (node.shift + mapShift) * 2 ^ (node.shift + mapShift) + o * 2 ^ node.shift := by
    rw [withDigit, add_mul, hpow]
    ring
  have hand : i &&& (2 ^ bitsPerLong - 1 - shiftMaxindex node.shift) =
      i / 2 ^ (node.shift + mapShift) * 2 ^ (node.shift + mapShift) := by
    rw [shiftMaxindex_eq, Word.and_high_bits _ (min_le_right ..), mod_eq_of_lt hi]
    rcases le_total (node.shift + mapShift) bitsPerLong with hle | hge
    · rw [min_eq_left hle]
    rw [min_eq_right hge, Nat.div_eq_of_lt hi,
      Nat.div_eq_of_lt (hi.trans_le (Nat.pow_le_pow_right (by decide) hge)), zero_mul, zero_mul]
  rw [nextIndex, hand, mod_eq_of_lt (by omega : o * 2 ^ node.shift < 2 ^ bitsPerLong), ← hsplit,
    mod_eq_of_lt hlt]

/-! ### Free ids -/

/-- The id is allocated. -/
def Stored (t : Tree) (i : ℕ) : Prop := ∃ v g, Stores t i v g

/-- The smallest free id from `start` on is `f`. -/
structure FirstFree (t : Tree) (start f : ℕ) : Prop where
  le : start ≤ f
  lt : f < 2 ^ bitsPerLong
  free : ¬Stored t f
  least : ∀ j, start ≤ j → j < f → Stored t j

theorem FirstFree.advance (h : FirstFree t start f) {x : ℕ} (hle : start ≤ x)
    (hx : ∀ j, start ≤ j → j < x → Stored t j) : FirstFree t x f := by
  refine ⟨?_, h.lt, h.free, fun j hj hjf => h.least j (hle.trans hj) hjf⟩
  by_contra hlt
  exact h.free (hx f h.le (by omega))

theorem Grows.stored_iff (h : Grows t t' live') : Stored t' i ↔ Stored t i :=
  exists_congr fun v => exists_congr fun g => h.stores i v g

theorem FirstFree.grows (h : FirstFree t start f) (hg : Grows t t' live') : FirstFree t' start f :=
  ⟨h.le, h.lt, fun hst => h.free (hg.stored_iff.mp hst),
    fun j hj hjf => hg.stored_iff.mpr (h.least j hj hjf)⟩

/-- An IDR in shape: only the tag of free slots is used, and items do not have it. -/
structure IdrShape (t : Tree) (live : Set ℕ) : Prop where
  shape : Shape t live
  isIdr : t.isIdr = true
  onlyFree : OnlyFree t
  items : ∀ i v g, Stores t i v g → g = fun _ => false

theorem IdrShape.grows (h : IdrShape t live) (hg : Grows t t' live') : IdrShape t' live' :=
  ⟨hg.shape, hg.isIdr.trans h.isIdr, hg.onlyFree h.onlyFree,
    fun i v g hst => h.items i v g ((hg.stores i v g).mp hst)⟩

section
variable (h : IdrShape t live)
include h

/-- Where the bit of a slot is clear, all the ids below it are allocated. -/
theorem IdrShape.stored_of_clear (hon : On t i s) (hbit : t.bit s idrFree = false) : Stored t i := by
  have hs := hon.ok h.shape.toLinks
  revert hon hbit
  refine h.shape.below_induction hs fun s hs ih hon hbit => ?_
  have hok := h.shape.tags s hs idrFree
  rw [TagOk] at hok
  cases hread : t.read s with
  | null =>
    rw [hread] at hok
    simp [blankTag, h.isIdr, hbit] at hok
  | item v => exact ⟨v, _, s, hon, hread, rfl⟩
  | node n =>
    rw [hread] at hok
    refine ih n _ hread (descend_lt ..) (hon.next hread) (eq_false_of_ne_true fun hset => ?_)
    have hany := anyTagSet_bit.mpr ⟨_, descend_lt .., hset⟩
    cases hany.symm.trans (hok.symm.trans hbit)

/-- A slot for an id is free when its bit is set. -/
theorem IdrShape.null_of_set (hleaf : Leaf t i s) (hbit : t.bit s idrFree = true) :
    t.read s = .null := by
  rcases h.shape.read_end hleaf.1 hleaf.2.1 with hnull | ⟨v, hv, -⟩
  · exact hnull
  have hitem := h.items i v _ ⟨s, hleaf.1, hv, rfl⟩
  rw [hitem] at hbit
  cases hbit

end

/-! ### The search -/

/-- The search is at the slot `s`. Where an empty slot may have to be filled, its variables say so. -/
structure Located (t : Tree) (w : Search) (s : Slot) : Prop where
  pos : At t w.start s w.shift
  child : w.child = t.read s
  free : w.shift = 0 → s ≠ none ∧ t.bit s idrFree = true
  vars : s ≠ none ∨ t.read s = .null → w.slot = s ∧ w.node = s.map fst ∧ w.offset = (s.map snd).getD 0

/-- What a part of the search comes to: the range is full, or it goes on from a state in which the
    smallest free id is the same. -/
def Searched (t : Tree) (f max : ℕ) (P : Search → Prop) (r : (Free ⊕ Search) × Tree) : Prop :=
  ∃ live', Grows t r.2 live' ∧ match r.1 with
    | .inl r => r = .nospc ∧ max < f
    | .inr w => FirstFree r.2 w.start f ∧ w.start ≤ max ∧ P w ∧ ∃ s, Located r.2 w s

theorem getFreeGrow_spec (max offset : ℕ) (slot : Slot) (h : IdrShape t live) (hff : FirstFree t start f)
    (hvars : t.xaHead = .null → slot = none ∧ offset = 0) :
    ∃ r, getFreeGrow (fun _ => true) max start offset slot t = .ok r ∧
    Searched t f max (fun w => start ≤ w.start) r := by
  -- without a free slot the search goes on above the tree
  obtain ⟨x, hx, hxle, hff', hset⟩ : ∃ x, x = (if !tagged t idrFree then
      Nat.max start (((loadRoot t).2 + 1) % 2 ^ bitsPerLong) else start) ∧ start ≤ x ∧ FirstFree t x f ∧
      (¬x > (loadRoot t).2 → tagged t idrFree = true) := by
    refine ⟨_, rfl, ?_⟩
    cases htag : tagged t idrFree with
    | true =>
      rw [if_neg (by simp)]
      exact ⟨le_rfl, hff, fun _ => rfl⟩
    | false =>
      rw [if_pos (by simp)]
      have hbelow : ∀ j < 2 ^ bitsPerLong, ¬j > (loadRoot t).2 → Stored t j := fun j hj hle =>
        h.stored_of_clear (.head ((not_above_iff hj).mp hle).1) htag
      have hf : f > (loadRoot t).2 := by
        by_contra hle
        exact hff.free (hbelow f hff.lt hle)
      have hlt := hff.lt
      have hmod : ((loadRoot t).2 + 1) % 2 ^ bitsPerLong = (loadRoot t).2 + 1 := mod_eq_of_lt (by omega)
      have hmax : Nat.max start ((loadRoot t).2 + 1) = Max.max start ((loadRoot t).2 + 1) := rfl
      rw [hmod, hmax]
      refine ⟨le_max_left .., hff.advance (le_max_left ..) fun j hj hjx =>
        hbelow j (by omega) (by omega), fun hle => ?_⟩
      omega
  rw [getFreeGrow]
  dsimp only
  rw [← hx]
  have hxi := hff'.le.trans_lt hff'.lt
  have hvars' : (none : Slot) ≠ none ∨ t.xaHead = .null → slot = none ∧ (none : Option ℕ) = none ∧
    offset = 0 := by
    rintro (hne | hread)
    · exact absurd rfl hne
    · exact (hvars hread).imp_right (⟨rfl, ·⟩)
  split
  case isTrue hgt => exact ⟨_, rfl, live, .refl h.shape, rfl, hgt.trans_le hff'.le⟩
  rename_i hgt
  split
  case isTrue habove =>
    obtain ⟨r, t', live', heq, hg, he⟩ := extend_spec (fun _ => true) h.shape h.onlyFree hxi habove
    rw [heq]
    match r with
    | none => exact absurd (fun _ _ _ => rfl) he
    | some shift =>
      obtain ⟨-, -, hat, -, hnull⟩ := he
      have hshift : shift ≠ 0 := by
        rintro rfl
        have hzero : x = 0 := (hat.leaf hg.shape.toLinks).2.2
        omega
      refine ⟨_, rfl, live', hg, hff'.grows hg, by simpa using hgt, hxle, none, ?_, rfl, ?_,
        hvars' ∘ .imp_right hnull⟩
      · simpa [hshift] using hat
      · simp [hshift]
  case isFalse habove =>
    have hat := at_root hxi habove
    refine ⟨_, rfl, live, .refl h.shape, hff', by simpa using hgt, hxle, none, ?_, rfl, ?_, hvars'⟩
    · by_cases hz : (loadRoot t).1 = 0
      · -- the tree is empty, as the slot of the root is free
        rw [hz] at hat
        have hleaf := hat.leaf h.shape.toLinks
        have hnull := h.null_of_set hleaf (hset habove)
        have hzero : x = 0 := hleaf.2.2
        simp only [hz, hzero, and_self, if_true]
        rw [At, show t.xaHead = .null from hnull]
        exact ⟨Nat.two_pow_pos _, dvd_rfl, Nat.lt_add_of_pos_left (by decide)⟩
      · simpa [hz] using hat
    intro hz
    have hpos := Config.pos
    dsimp only at hz
    split at hz
    · omega
    rename_i hne
    rw [hz] at hat
    have hzero : x = 0 := (hat.leaf h.shape.toLinks).2.2
    exact absurd ⟨hzero, hz⟩ hne

/-- From the end of a block up the tree to where the next one starts. -/
theorem climb_spec (hl : Links t live) (fuel sh : ℕ) {o : ℕ} (hon : On t i (slotIn t n i))
    (ho : o ≤ mapSize) (hf : bitsPerLong < (t.nodes n).shift + fuel) :
    ∃ r, climb t fuel n o sh = .ok r ∧ match r with
      | none => t.xaHead ≠ .null
      | some (n', o', sh') => On t i (slotIn t n' i) ∧ o' < mapSize ∧
        withDigit mapShift (t.nodes n').shift i o' = withDigit mapShift (t.nodes n).shift i o ∧
        ((n' = n ∧ o' = o ∧ sh' = sh) ∨ (sh' = (t.nodes n').shift ∧ sh' ≠ 0)) := by
  induction fuel generalizing n o sh with
  | zero =>
    have := (hl.shift n (hon.ok hl n _ rfl).1).2
    omega
  | succ fuel ih =>
    rw [climb]
    by_cases hend : o = mapSize
    · rw [if_neg (by simpa using hend)]
      obtain ⟨hhome, hread, -⟩ := hon.home hl
      rcases hparent : (t.nodes n).parent with _ | p
      · have hnone : t.home n = none := by
          rw [home, hparent]
          rfl
        rw [hnone] at hread
        exact ⟨none, rfl, by rw [show t.xaHead = .node n from hread]; simp⟩
      have hsome : t.home n = some (p, (t.nodes n).offset) := by
        rw [home, hparent]
        rfl
      rw [hsome] at hhome hread
      have hup := (hl.child _ (hhome.ok hl) n hread).2.2 p _ rfl
      have hpos := Config.pos
      have hdigit := (hhome.home hl).2.2
      have hslot : some (p, (t.nodes n).offset) = slotIn t p i := by rw [slotIn, ← hdigit]
      have hlt := hhome.offset_lt
      obtain ⟨r, heq, hr⟩ := ih (n := p) (o := (t.nodes n).offset + 1) (t.nodes p).shift
        (hslot ▸ hhome) hlt (by omega)
      refine ⟨r, heq, ?_⟩
      rcases r with _ | ⟨n', o', sh'⟩
      · exact hr
      obtain ⟨hon', ho', hx, hsh⟩ := hr
      refine ⟨hon', ho', ?_, .inr ?_⟩
      · rw [hx, hend, mapSize, withDigit_carry, hup, hdigit]
        rfl
      rcases hsh with ⟨rfl, -, rfl⟩ | hsh
      · exact ⟨rfl, by omega⟩
      · exact hsh
    · rw [if_pos hend]
      exact ⟨_, rfl, hon, by omega, rfl, .inl ⟨rfl, rfl, rfl⟩⟩

/-- Going down, or on to the next free slot. -/
theorem getFreeDescend_spec (max : ℕ) (h : IdrShape t live) {w : Search} {c : ℕ}
    (hff : FirstFree t w.start f) (hmax : w.start ≤ max)
    (hat : At t w.start (slotIn t c w.start) shift) :
    ∃ r, getFreeDescend (fun _ => true) max c shift w t = .ok r ∧
    Searched t f max (fun w' => (w'.start = w.start ∧ w'.shift = shift) ∨ w.start < w'.start) r := by
  have hi := hff.le.trans_lt hff.lt
  obtain ⟨hon, hshift⟩ : On t w.start (slotIn t c w.start) ∧ shift = (t.nodes c).shift := hat
  rw [getFreeDescend]
  dsimp only
  split
  case isTrue hset =>
    exact ⟨_, rfl, live, .refl h.shape, hff, hmax, .inl ⟨rfl, rfl⟩, slotIn t c w.start,
      ⟨hon, hshift⟩, rfl, fun _ => ⟨by simp [slotIn], hset⟩, fun _ => ⟨rfl, rfl, rfl⟩⟩
  rename_i hset
  obtain ⟨hge, hle, hclear, hfound⟩ := findNextBit_spec (t.nodes c) idrFree mapSize
    (o := (t.nodes c).descend w.start + 1) (descend_lt ..) (by omega)
  generalize findNextBit (t.nodes c) idrFree mapSize ((t.nodes c).descend w.start + 1) = o at *
  have hmore : w.start < withDigit mapShift (t.nodes c).shift w.start o := lt_withDigit hge
  have hff' : FirstFree t (withDigit mapShift (t.nodes c).shift w.start o) f := by
    refine hff.advance hmore.le fun j hj hjx => ?_
    obtain ⟨hup, hq, hqo⟩ := mem_block hle hj hjx
    refine h.stored_of_clear (hon.sibling h.shape.toLinks hup) ?_
    rcases eq_or_lt_of_le hq with hq | hq
    · exact (congrArg ((t.nodes c).tags idrFree) hq.symm).trans (eq_false_of_ne_true hset)
    · exact hclear _ hq hqo
  have hnext := nextIndex_eq (t.nodes c) (o := o) hi (hff'.le.trans_lt hff'.lt)
  rw [hnext]
  split
  case isTrue hgt => exact ⟨_, rfl, live, .refl h.shape, rfl, hgt.trans_le hff'.le⟩
  rename_i hgt
  obtain ⟨r, hclimb, hr⟩ := climb_spec h.shape.toLinks maxSteps shift hon hle (by rw [maxSteps]; omega)
  rw [hclimb]
  rcases r with _ | ⟨n', o', sh'⟩
  · obtain ⟨r', heq, live', hg, hsearch⟩ := getFreeGrow_spec max o w.slot h hff'
      fun hnull => absurd hnull hr
    refine ⟨r', heq, live', hg, ?_⟩
    rcases r' with ⟨_ | w', _⟩
    · exact hsearch
    obtain ⟨hff'', hmax', hle', hloc⟩ := hsearch
    exact ⟨hff'', hmax', .inr (hmore.trans_le hle'), hloc⟩
  obtain ⟨hon', ho', hx, hsh⟩ := hr
  have hup := withDigit_up (m := mapShift) w.start (t.nodes n').shift ho'
  have honx := hon'.sibling h.shape.toLinks hup.symm
  rw [slotIn, descend, digit_withDigit _ _ ho', hx] at honx
  refine ⟨_, rfl, live, .refl h.shape, hff', by simpa using hgt, .inr hmore, some (n', o'),
    ⟨honx, ?_⟩, rfl, fun hz => ⟨by simp, ?_⟩, fun _ => ⟨rfl, rfl, rfl⟩⟩
  · rcases hsh with ⟨rfl, -, rfl⟩ | ⟨hsh, -⟩
    · exact hshift
    · exact hsh
  rcases hsh with ⟨rfl, rfl, -⟩ | ⟨-, hne⟩
  · exact hfound ho'
  · exact absurd hz hne

theorem allTagSet_blank (hidr : t.isIdr = true) (parent : Option ℕ) (shift offset : ℕ) :
    Blank t.blankTag ((newNode parent shift offset 0 0).allTagSet idrFree) := by
  refine ⟨rfl, fun tag o ho => ?_, rfl, rfl⟩
  rw [allTagSet, blankTag, hidr]
  by_cases htag : tag = idrFree
  · subst htag
    simp [ho]
  · simp [htag, newNode]

/-- What the search comes to in the end. -/
def FoundFree (t : Tree) (f max : ℕ) (r : Free × Tree) : Prop :=
  ∃ live', Grows t r.2 live' ∧ ((r.1 = .nospc ∧ max < f) ∨
    f ≤ max ∧ ∃ next n o, r.1 = .found f next (some (n, o)) ∧ Leaf r.2 f (some (n, o)) ∧
    r.2.read (some (n, o)) = .null)

section
variable {w : Search} (h : IdrShape t live) (hff : FirstFree t w.start f) (hmax : w.start ≤ max)
  (hloc : Located t w s)
include h hff hmax hloc

/-- A round of the loop above the bottom. -/
theorem getFreeLoop_round (fuel : ℕ) (hz : w.shift ≠ 0) :
    ∃ r, getFreeLoop (fun _ => true) max (fuel + 1) w t = (match r with
      | (.inl r, t) => ok (r, t)
      | (.inr w, t) => getFreeLoop (fun _ => true) max fuel w t) ∧
      Searched t f max (fun w' => (w'.start = w.start ∧ w'.shift = w.shift - mapShift) ∨
        w.start < w'.start) r := by
  rw [getFreeLoop, if_neg hz]
  dsimp only
  rw [hloc.child]
  cases hread : t.read s with
  | item v => exact absurd (hloc.pos.item h.shape.toLinks hread) hz
  | node c =>
    obtain ⟨r, heq, hs⟩ := getFreeDescend_spec max h hff hmax (hloc.pos.step h.shape.toLinks hread)
    dsimp only
    rw [heq]
    exact ⟨r, rfl, hs⟩
  | null =>
    obtain ⟨hslot, hnode, hoffset⟩ := hloc.vars (.inr hread)
    rw [nodeAlloc, if_pos rfl]
    dsimp only
    rw [hslot, hnode, hoffset, linkFree, place_modify]
    have hblank := allTagSet_blank h.isIdr (s.map fst) (w.shift - mapShift) ((s.map snd).getD 0)
    have hs := hloc.pos.on.ok h.shape.toLinks
    obtain ⟨hg, hat⟩ := h.shape.addChild (hff.le.trans_lt hff.lt) hloc.pos hz hread hblank rfl rfl rfl
    rw [linkChild_eq (((agree_place h.shape _).read hs).trans hread)]
    obtain ⟨r, heq, live', hg', hr⟩ := getFreeDescend_spec max (h.grows hg) (hff.grows hg) hmax hat
    rw [heq]
    exact ⟨r, rfl, live', hg.trans hg', hr⟩

theorem getFreeLoop_spec (fuel k : ℕ) (hk : w.shift = mapShift * k) (hkmax : k < maxSteps)
    (hf : (2 ^ bitsPerLong - w.start) * (maxSteps + 1) + k < fuel) :
    ∃ r, getFreeLoop (fun _ => true) max fuel w t = .ok r ∧ FoundFree t f max r := by
  induction fuel generalizing t live w s k with
  | zero => omega
  | succ fuel ih =>
    by_cases hz : w.shift = 0
    · -- at the bottom, in a free slot
      rw [getFreeLoop, if_pos hz]
      obtain ⟨hne, hbit⟩ := hloc.free hz
      have hpos := hloc.pos
      rw [hz] at hpos
      have hleaf := hpos.leaf h.shape.toLinks
      have hnull := h.null_of_set hleaf hbit
      have hstart : w.start = f := by
        have hle := hff.le
        by_contra hne'
        obtain ⟨v, g, hst⟩ := hff.least w.start le_rfl (by omega)
        exact not_stores hleaf.1 hnull hst
      obtain ⟨hslot, -, -⟩ := hloc.vars (.inl hne)
      rw [getFreeFound, hslot]
      rw [hstart] at hleaf hmax ⊢
      rcases s with _ | ⟨n, o⟩
      · exact absurd rfl hne
      · exact ⟨_, rfl, live, .refl h.shape, .inr ⟨hmax, _, n, o, rfl, hleaf, hnull⟩⟩
    obtain _ | k := k
    · exact absurd hk hz
    obtain ⟨r, heq, live', hg, hs⟩ := getFreeLoop_round h hff hmax hloc fuel hz
    rw [heq]
    rcases r with ⟨r | w', t'⟩
    · exact ⟨(r, t'), rfl, live', hg, .inl hs⟩
    obtain ⟨hff', hmax', hprog, s', hloc'⟩ := hs
    have h' := h.grows hg
    obtain ⟨k', hk', hlt⟩ := hloc'.pos.levels h'.shape.toLinks
    have hmeasure : (2 ^ bitsPerLong - w'.start) * (maxSteps + 1) + k' < fuel := by
      rcases hprog with ⟨hstart, hshift⟩ | hmore
      · rw [hk, mul_succ, Nat.add_sub_cancel] at hshift
        have := Nat.eq_of_mul_eq_mul_left Config.pos (hk'.symm.trans hshift)
        rw [hstart]
        omega
      have hle := hff'.le
      have hlt' := hff'.lt
      have hmul : (2 ^ bitsPerLong - w'.start + 1) * (maxSteps + 1) ≤
          (2 ^ bitsPerLong - w.start) * (maxSteps + 1) := mul_le_mul_right _ (by omega)
      rw [add_mul, one_mul] at hmul
      omega
    obtain ⟨r', heq', live'', hg', hr'⟩ := ih h' hff' hmax' hloc' k' hk' hlt hmeasure
    exact ⟨r', heq', live'', hg.trans hg', hr'⟩

end

/-- `idr_get_free` finds the smallest free id from `start` on, if there is one. -/
theorem idrGetFree_spec (max : ℕ) (h : IdrShape t live) (hff : FirstFree t start f) :
    ∃ r, idrGetFree (fun _ => true) start max t = .ok r ∧ FoundFree t f max r := by
  obtain ⟨r, heq, live', hg, hs⟩ := getFreeGrow_spec max 0 none h hff fun _ => ⟨rfl, rfl⟩
  rw [idrGetFree, heq]
  rcases r with ⟨r | w, t'⟩
  · exact ⟨_, rfl, live', hg, .inl hs⟩
  obtain ⟨hff', hmax, -, s, hloc⟩ := hs
  have h' := h.grows hg
  obtain ⟨k, hk, hlt⟩ := hloc.pos.levels h'.shape.toLinks
  have hmul : (2 ^ bitsPerLong - w.start) * (maxSteps + 1) ≤ 2 ^ bitsPerLong * (maxSteps + 1) :=
    mul_le_mul_right _ (sub_le ..)
  obtain ⟨r', heq', live'', hg', hr'⟩ := getFreeLoop_spec h' hff' hmax hloc searchSteps k hk hlt
    (by rw [searchSteps, add_mul, one_mul]; omega)
  exact ⟨r', heq', live'', hg.trans hg', hr'⟩

/-! ### Allocating and freeing -/

theorem replace_eq {o : ℕ} (h : IdrShape t live) (hleaf : Leaf t i (some (n, o)))
    (hnull : t.read (some (n, o)) = .null) :
    replace (some (n, o)) (.item v) t = .ok (t.put (some (n, o)) (.item v)) := by
  have hok := h.shape.tags _ (hleaf.1.ok h.shape.toLinks) idrFree
  rw [TagOk, hnull] at hok
  have hfree : nodeTagGet t (some (n, o)) idrFree = true := by
    rw [nodeTagGet_eq]
    refine Eq.trans hok ?_
    simp [blankTag, h.isIdr]
  have hcount : calculateCount (some (n, o)) (.item v) t = 1 := by
    rw [calculateCount, hfree, hnull, if_neg (by simp), if_pos ⟨h.isIdr, rfl⟩]
  rw [replace, hcount, replaceSlot_item hnull]
  have hne : ((t.put (some (n, o)) (.item v)).nodes n).count ≠ 0 := by
    have hslot : (t.nodes n).slots o = .null := hnull
    rw [put, modify_self, hslot]
    simp [Entry.weight]
  rw [maxSteps, deleteNode, if_pos hne]
  split
  · rename_i hroot
    refine shrink_bottom (put_isIdr.trans h.isIdr) hroot ?_
    rw [put_shift]
    exact hleaf.2.2
  · rfl

/-- What allocating an id comes to: the range is full, or the smallest free id holds the item. -/
theorem idrAlloc_spec (max : ℕ) (v : Item) (h : IdrShape t live) (hff : FirstFree t start f) :
    ∃ r t' live', idrAlloc (fun _ => true) start max v t = .ok (r, t') ∧ IdrShape t' live' ∧
    ((r = .nospc ∧ ∀ j w g, Stores t' j w g ↔ Stores t j w g) ∨ ∃ next slot, r = .found f next slot ∧
      ∀ j w g, Stores t' j w g ↔ (j = f ∧ w = v ∧ g = fun _ => false) ∨ (j ≠ f ∧ Stores t j w g)) := by
  obtain ⟨⟨r, t1⟩, heq, live1, hg, hr⟩ := idrGetFree_spec max h hff
  have h1 := h.grows hg
  rw [idrAlloc, heq]
  rcases hr with ⟨rfl, -⟩ | ⟨-, next, n, o, rfl, hleaf, hnull⟩
  · exact ⟨.nospc, t1, live1, rfl, h1, .inl ⟨rfl, hg.stores⟩⟩
  dsimp only at hleaf hnull
  have hs := hleaf.1.ok h1.shape.toLinks
  have hbit : t1.bit (some (n, o)) = t1.blankTag := by
    funext tag
    have hok := h1.shape.tags _ hs tag
    rw [TagOk, hnull] at hok
    exact hok
  have hput : Shape (t1.put (some (n, o)) (.item v)) live1 :=
    h1.shape.put hs hleaf.2.1 (by simp) (hleaf.fits h1.shape.toLinks hff.lt) (by simp)
  have hread : (t1.put (some (n, o)) (.item v)).read (some (n, o)) = .item v := put_read_self
  have hleaf' : Leaf (t1.put (some (n, o)) (.item v)) f (some (n, o)) :=
    ⟨(on_put (by simp) hleaf.2.1 (by simp)).mpr hleaf.1, by simp [hread], (put_shift n).trans hleaf.2.2⟩
  obtain ⟨t', heq', hw⟩ :=
    nodeTagClear_spec maxSteps (hput.due hs hread idrFree) (by rw [maxSteps]; omega)
  have hclear : t'.bit (some (n, o)) = fun _ => false := by
    rw [hw.bit_self hleaf'.2.1, put_bit, hbit]
    funext tag
    by_cases htag : tag = idrFree
    · subst htag
      exact update_self ..
    rw [update_of_ne htag]
    simp [blankTag, htag]
  have hstores : ∀ j w g, Stores t' j w g ↔ (j = f ∧ w = v ∧ g = fun _ => false) ∨
    (j ≠ f ∧ Stores t j w g) := by
    intro j w g
    rw [hw.same.stores hput.toLinks hleaf' hread (fun s' hne hs' => hw.bit_other hne hs') hclear,
      stores_put_item h1.shape.toLinks hleaf hnull, hg.stores]
    refine or_congr_right (and_congr_right fun hne => ?_)
    simp [hne]
  have hoffset : f % mapSize = o := by
    rw [(hleaf.1.home h1.shape.toLinks).2.2, descend, show (t1.nodes n).shift = 0 from hleaf.2.2, digit,
      pow_zero, Nat.div_one, mapSize]
  refine ⟨.found f next (some (n, o)), t', live1, ?_,
    ⟨hw.shape hput, hw.same.isIdr.trans (put_isIdr.trans h1.isIdr), fun _ tag htag => ?_,
      fun j w g hst => ?_⟩, .inr ⟨next, _, rfl, hstores⟩⟩
  · change (replace (some (n, o)) (.item v) t1 >>= fun t =>
      nodeTagClear idrFree maxSteps (some (n, f % mapSize)) t >>= fun t =>
        .ok (Free.found f next (some (n, o)), t)) = _
    rw [replace_eq h1 hleaf hnull, hoffset]
    change (nodeTagClear idrFree maxSteps (some (n, o)) (t1.put (some (n, o)) (.item v)) >>= _) = _
    rw [heq']
    rfl
  · have hroot : t'.rootTags tag = (t1.put (some (n, o)) (.item v)).rootTags tag :=
      hw.other none tag (.inl htag)
    exact hroot.trans (h1.onlyFree h1.isIdr tag htag)
  rcases (hstores j w g).mp hst with ⟨-, -, rfl⟩ | ⟨-, hst⟩
  · rfl
  · exact h.items j w g hst

end

/-- The allocated ids with their items. -/
abbrev Ids := ℕ → Option Item

/-- There is a free id from `start` on. -/
def Ids.SomeFree (m : Ids) (start : ℕ) : Prop := ∃ f, start ≤ f ∧ f < 2 ^ bitsPerLong ∧ m f = none

section
variable [Config] {t t' : Tree} {m : Ids} {i start max : ℕ}

/-- The IDRs that allocations and frees make, as long as a search never starts above the last free id. -/
inductive IdrRuns : Tree → Ids → Prop
  | init : IdrRuns (init true) fun _ => none
  | alloc {t t' : Tree} {m : Ids} {start max : ℕ} {v : Item} {r : Free} : IdrRuns t m →
    m.SomeFree start → idrAlloc (fun _ => true) start max v t = .ok (r, t') → IdrRuns t' (match r with
      | .found i _ _ => update m i (some v)
      | _ => m)
  | free {t t' : Tree} {m : Ids} {i : ℕ} {e : Entry} : IdrRuns t m → i < 2 ^ bitsPerLong →
    delete i t = .ok (e, t') → IdrRuns t' (update m i none)

/-- The IDR is in shape and holds the ids. -/
structure IdrGood (t : Tree) (m : Ids) (live : Set ℕ) : Prop where
  idr : IdrShape t live
  holds : ∀ i v, (∃ g, Stores t i v g) ↔ m i = some v

theorem IdrGood.stored_iff {live : Set ℕ} (h : IdrGood t m live) : Stored t i ↔ m i ≠ none := by
  rw [Option.ne_none_iff_exists']
  exact exists_congr fun v => h.holds i v

/-- Where there is a free id there is a smallest one. -/
theorem IdrGood.firstFree {live : Set ℕ} (h : IdrGood t m live) (hfree : m.SomeFree start) :
    ∃ f, FirstFree t start f := by
  classical
  have hex : ∃ f, start ≤ f ∧ m f = none := hfree.imp fun f hf => ⟨hf.1, hf.2.2⟩
  obtain ⟨f, hf, hlt, hm⟩ := hfree
  obtain ⟨hle, hnone⟩ := Nat.find_spec hex
  have hmin : Nat.find hex ≤ f := Nat.find_min' hex ⟨hf, hm⟩
  refine ⟨Nat.find hex, hle, hmin.trans_lt hlt, fun hst => h.stored_iff.mp hst hnone, fun j hj hjf => ?_⟩
  exact h.stored_iff.mpr fun hj' => Nat.find_min hex hjf ⟨hj, hj'⟩

theorem IdrRuns.good (h : IdrRuns t m) : ∃ live, IdrGood t m live := by
  induction h with
  | init =>
    refine ⟨∅, ⟨shape_init true, rfl, fun _ tag htag => ?_, fun i v g hst => absurd hst not_stores_init⟩,
      fun i v => ?_⟩
    · simp [RadixTree.init, htag]
    · simp [not_stores_init]
  | @alloc t t' m start max v r _ hfree heq ih =>
    obtain ⟨live, hg⟩ := ih
    obtain ⟨f, hff⟩ := hg.firstFree hfree
    obtain ⟨r', t'', live', heq', hidr, hr⟩ := idrAlloc_spec max v hg.idr hff
    obtain ⟨rfl, rfl⟩ := mk.inj (ok.inj (heq.symm.trans heq'))
    refine ⟨live', hidr, fun i w => ?_⟩
    rcases hr with ⟨rfl, hstores⟩ | ⟨next, slot, rfl, hstores⟩
    · simp only [hstores]
      exact hg.holds i w
    simp only [hstores]
    by_cases hif : i = f
    · subst hif
      simp [eq_comm]
    · simp [hif, hg.holds i w]
  | @free t t' m i e _ hi heq ih =>
    obtain ⟨live, hg⟩ := ih
    have hitems : ItemsFree t := fun _ i v g hst tag _ => by rw [hg.idr.items i v g hst]
    obtain ⟨e', t'', live', heq', hshape, hidr, hof, hdel, -⟩ :=
      deleteItem_spec none hg.idr.shape hitems hi
    obtain ⟨-, rfl⟩ := mk.inj (ok.inj (heq.symm.trans heq'))
    have hstores : ∀ j w g, Stores t' j w g ↔ j ≠ i ∧ Stores t j w g := by
      rcases hdel with ⟨v, g, -, -, -, hstores⟩ | ⟨hno, -, rfl⟩
      · exact hstores
      refine fun j w g => ⟨fun hst => ⟨?_, hst⟩, fun hst => hst.2⟩
      rintro rfl
      obtain ⟨w', hw', -⟩ := hno w g hst
      cases hw'
    refine ⟨live', ⟨hshape, hidr.trans hg.idr.isIdr, hof hg.idr.onlyFree, fun j w g hst => ?_⟩,
      fun j w => ?_⟩
    · exact hg.idr.items j w g ((hstores j w g).mp hst).2
    simp only [hstores]
    by_cases hji : j = i
    · subst hji
      simp
    · simp [hji, hg.holds j w]

/-- In every IDR that allocations and frees make, `idr_get_free` returns the smallest free id of the
    range with its slot, or that there is none, provided that there is a free id from `start` on. -/
theorem idrGetFree_smallest (start max : ℕ) (h : IdrRuns t m) (hfree : m.SomeFree start) :
    ∃ r t', idrGetFree (fun _ => true) start max t = .ok (r, t') ∧
    (r = .nospc ↔ ∀ j, start ≤ j → j ≤ max → m j ≠ none) ∧
    (r ≠ .nospc → ∃ i next slot, r = .found i next slot ∧ start ≤ i ∧ i ≤ max ∧ m i = none ∧
      (∀ j, start ≤ j → j < i → m j ≠ none) ∧ Leaf t' i slot ∧ t'.read slot = .null) := by
  obtain ⟨live, hg⟩ := h.good
  obtain ⟨f, hff⟩ := hg.firstFree hfree
  obtain ⟨⟨r, t'⟩, heq, live', -, hr⟩ := idrGetFree_spec max hg.idr hff
  have hnone : m f = none := by
    by_contra hne
    exact hff.free (hg.stored_iff.mpr hne)
  have hbelow : ∀ j, start ≤ j → j < f → m j ≠ none :=
    fun j hj hjf => hg.stored_iff.mp (hff.least j hj hjf)
  refine ⟨r, t', heq, ?_, fun hne => ?_⟩
  · rcases hr with ⟨rfl, hlt⟩ | ⟨hle, next, n, o, rfl, -⟩
    · exact ⟨fun _ j hj hjm => hbelow j hj (hjm.trans_lt hlt), fun _ => rfl⟩
    · exact ⟨by simp, fun hall => absurd hnone (hall f hff.le hle)⟩
  rcases hr with ⟨rfl, -⟩ | ⟨hle, next, n, o, rfl, hleaf, hnull⟩
  · exact absurd rfl hne
  · exact ⟨f, next, _, rfl, hff.le, hle, hnone, hbelow, hleaf, hnull⟩

end

theorem returned {r : Free} {x : Except Fault (Free × Tree)} (h : x.toOption.map fst = some r) :
    ∃ t, x = .ok (r, t) := by
  obtain ⟨⟨_, t⟩, heq, rfl⟩ := Outcome.exists_ok h
  exact ⟨t, heq⟩

/-- Once the id 5 is allocated, the next search from it finds 6. -/
theorem idrGetFree_smallest_six : ∃ t m, @IdrRuns sixBits t m ∧ m 5 = some (.pointer 1) ∧
    ∃ next slot t', @idrGetFree sixBits (fun _ => true) 5 10 t = .ok (.found 6 next slot, t') := by
  let _ := sixBits
  obtain ⟨t, heq⟩ := returned (r := .found 5 6 (some (0, 5)))
    (x := idrAlloc (fun _ => true) 5 5 (.pointer 1) (init true)) (by decide +kernel)
  have hruns := IdrRuns.init.alloc ⟨5, le_rfl, by decide, rfl⟩ heq
  refine ⟨t, _, hruns, update_self .., ?_⟩
  obtain ⟨r, t', hget, hfull, hfound⟩ := idrGetFree_smallest 5 10 hruns ⟨6, by omega, by decide, by simp⟩
  obtain ⟨i, next, slot, rfl, hle, -, hnone, hbelow, -⟩ := hfound fun hr =>
    hfull.mp hr 6 (by omega) (by omega) (by simp)
  have hne : i ≠ 5 := by
    rintro rfl
    simp at hnone
  have hi : i = 6 := by
    by_contra hi
    exact hbelow 6 (by omega) (by omega) (by simp)
  rw [hi] at hget
  exact ⟨next, slot, t', hget⟩

/-- With the last id allocated, every id of the range is, but a search wraps around and returns the id 0,
    with a slot in a new branch for ids beyond the last one. -/
theorem idrGetFree_wraps :
    ∃ t m, @IdrRuns sixBits t m ∧ (∀ j, 2 ^ bitsPerLong - 1 ≤ j → j ≤ 2 ^ bitsPerLong - 1 → m j ≠ none) ∧
    ∃ t', @idrGetFree sixBits (fun _ => true) (2 ^ bitsPerLong - 1) (2 ^ bitsPerLong - 1) t =
      .ok (.found 0 64 (some (20, 0)), t') := by
  let _ := sixBits
  have heval : ((idrAlloc (fun _ => true) (2 ^ bitsPerLong - 1) (2 ^ bitsPerLong - 1) (.pointer 1)
      (init true)).toOption.bind fun p => (idrGetFree (fun _ => true) (2 ^ bitsPerLong - 1)
        (2 ^ bitsPerLong - 1) p.2).toOption.map fst) = some (.found 0 64 (some (20, 0))) := by
    decide +kernel
  obtain ⟨t, heq⟩ := returned (r := .found (2 ^ bitsPerLong - 1) 0 (some (10, 63)))
    (x := idrAlloc (fun _ => true) (2 ^ bitsPerLong - 1) (2 ^ bitsPerLong - 1) (.pointer 1) (init true))
    (by decide +kernel)
  rw [heq] at heval
  refine ⟨t, _, IdrRuns.init.alloc ⟨2 ^ bitsPerLong - 1, le_rfl, by decide, rfl⟩ heq, fun j hj hj' => ?_,
    returned heval⟩
  obtain rfl : j = 2 ^ bitsPerLong - 1 := le_antisymm hj' hj
  simp

end LinuxNote.RadixTree
