import LinuxNote.RadixTree.Delete
import Mathlib.Algebra.BigOperators.Group.Finset.Piecewise

/-! A radix tree is a map from indices to items with tags, whatever calls are made and whichever
allocations fail. -/

namespace LinuxNote.RadixTree
open Radix Function Option Prod Except Finset RadixTree.Tree
open Config (mapShift)

/-- The map that a tree stands for: the items, each with its tags. -/
abbrev Contents := ℕ → Option (Item × (Tag → Bool))

variable (m : Contents)

/-- The entry that a lookup in the map finds. -/
def Contents.entry (i : ℕ) : Entry := (m i).elim .null fun p => .item p.1

/-- The tag of an index in the map. -/
def Contents.hasTag (i : ℕ) (tag : Tag) : Bool := (m i).any fun p => p.2 tag

/-- A deletion that names an item deletes no other one. -/
def Contents.deletes (i : ℕ) (item : Option Item) : Bool :=
  (m i).any fun p => item.all fun w => w = p.1

/-- Write the tag of an index, if there is an item. -/
def Contents.retag (i : ℕ) (tag : Tag) (b : Bool) : Contents :=
  Function.update m i ((m i).map fun p => (p.1, Function.update p.2 tag b))

theorem Contents.entry_update (i j : ℕ) (p : Option (Item × (Tag → Bool))) :
    Contents.entry (update m i p) j = if j = i then p.elim .null fun p => .item p.1 else m.entry j := by
  rw [Contents.entry]
  by_cases hji : j = i
  · subst hji
    rw [update_self, if_pos rfl]
  rw [update_of_ne hji, if_neg hji]
  rfl

theorem Contents.entry_retag (i j : ℕ) (tag : Tag) (b : Bool) :
    (m.retag i tag b).entry j = m.entry j := by
  rw [Contents.retag, Contents.entry_update]
  split
  · rename_i hji
    subst hji
    rw [Contents.entry]
    cases m j <;> rfl
  · rfl

theorem Contents.deletes_none (i : ℕ) : m.deletes i none = (m i).isSome := by
  rw [Contents.deletes]
  cases m i <;> rfl

section
variable [Config]

/-- The trees that calls make from an empty one, with the maps they are to stand for. An index is tagged
    only when it is present, as the documentation of `radix_tree_tag_set` demands. -/
inductive Runs (alloc : ℕ → Bool) : Tree → Contents → Prop
  | init : Runs alloc (init false) fun _ => none
  | insert {t t' : Tree} {m : Contents} {i : ℕ} {v : Item} {st : Status} : Runs alloc t m →
    i < 2 ^ bitsPerLong → insert alloc i v t = .ok (st, t') →
    Runs alloc t' (if st = .ok then Function.update m i (some (v, fun _ => false)) else m)
  | delete {t t' : Tree} {m : Contents} {i : ℕ} {e : Entry} : Runs alloc t m →
    i < 2 ^ bitsPerLong → delete i t = .ok (e, t') → Runs alloc t' (Function.update m i none)
  | deleteItem {t t' : Tree} {m : Contents} {i : ℕ} {item : Option Item} {e : Entry} : Runs alloc t m →
    i < 2 ^ bitsPerLong → deleteItem i item t = .ok (e, t') →
    Runs alloc t' (if m.deletes i item then Function.update m i none else m)
  | tagSet {t t' : Tree} {m : Contents} {i : ℕ} {tag : Tag} {e : Entry} : Runs alloc t m →
    i < 2 ^ bitsPerLong → m i ≠ none → tagSet i tag t = .ok (e, t') → Runs alloc t' (m.retag i tag true)
  | tagClear {t t' : Tree} {m : Contents} {i : ℕ} {tag : Tag} {e : Entry} : Runs alloc t m →
    i < 2 ^ bitsPerLong → tagClear i tag t = .ok (e, t') → Runs alloc t' (m.retag i tag false)

variable {alloc : ℕ → Bool} {t t' : Tree} {m : Contents} {live : Set ℕ} {i n : ℕ} {s : Slot}
  {v : Item} {g : Tag → Bool} {tag : Tag}

/-- The tree stores what the map says. -/
def Holds (t : Tree) (m : Contents) : Prop := ∀ i v g, Stores t i v g ↔ m i = some (v, g)

theorem Holds.absent_iff (h : Holds t m) : m i = none ↔ ∀ v g, ¬Stores t i v g := by
  rw [eq_none_iff_forall_ne_some]
  exact ⟨fun hm v g hst => hm (v, g) ((h i v g).mp hst),
    fun hst p hp => hst p.1 p.2 ((h i p.1 p.2).mpr hp)⟩

theorem Holds.lookup (h : Holds t m) (hl : Links t live) (hi : i < 2 ^ bitsPerLong) :
    lookup t i = .ok (m.entry i) := by
  rw [Contents.entry]
  rw [RadixTree.lookup]
  rcases lookupSlot_spec hl hi with ⟨s, hs, hend, heq⟩ | ⟨hnone, heq⟩ <;> rw [heq]
  · rcases hl.read_end hs hend with hnull | ⟨v, hv, -⟩
    · rw [h.absent_iff.mpr fun v g => not_stores hs hnull, hnull]
      rfl
    rw [(h i v _).mp ⟨s, hs, hv, rfl⟩, hv]
    rfl
  rw [h.absent_iff.mpr fun v g hst => ?_]
  · rfl
  obtain ⟨s, hs, hread, -⟩ := hst
  cases (hnone s hs).symm.trans hread

/-- What holds of every tree that calls make. -/
structure Good (alloc : ℕ → Bool) (t : Tree) (m : Contents) (live : Set ℕ) : Prop where
  shape : Shape t live
  isIdr : t.isIdr = false
  holds : Holds t m
  tight : (∀ k, alloc k = true) → Tight t live

theorem shape_init (isIdr : Bool) : Shape (init isIdr) ∅ := by
  have hslot : ∀ s, SlotOk (∅ : Set ℕ) s → s = none := by
    intro s hs
    match s with
    | none => rfl
    | some (p, o) => exact absurd (hs p o rfl).1 (Set.notMem_empty p)
  refine ⟨⟨by simp, by simp, by simp, fun s hs c hc => ?_, by simp, by simp, by simp⟩, by simp,
    fun s hs tag => ?_⟩
  · rw [hslot s hs] at hc
    cases hc
  rw [hslot s hs]
  exact rfl

theorem not_stores_init {isIdr : Bool} : ¬Stores (init isIdr) i v g := by
  rintro ⟨s, hs, hread, -⟩
  rw [on_none_of_null rfl hs] at hread
  cases hread

theorem good_init : Good alloc (init false) (fun _ => none) ∅ :=
  ⟨shape_init false, rfl, fun i v g => ⟨fun hst => absurd hst not_stores_init, by simp⟩,
    fun _ => ⟨fun n hn => absurd hn (Set.notMem_empty n), fun r hr => by cases hr⟩⟩

theorem Good.insert (h : Good alloc t m live) (hi : i < 2 ^ bitsPerLong) (v : Item) :
    ∃ st t' live', RadixTree.insert alloc i v t = .ok (st, t') ∧ Inserted alloc i v t t' st ∧
      Good alloc t' (if st = .ok then update m i (some (v, fun _ => false)) else m) live' := by
  obtain ⟨st, t', live', heq, hshape, hidr, hins, htight⟩ := insert_spec alloc v h.shape h.isIdr hi
  refine ⟨st, t', live', heq, hins, hshape, hidr, ?_, fun halloc => htight ?_ (h.tight halloc)⟩
  swap
  · rintro rfl
    exact hins.2.1 fun k _ _ => halloc k
  intro j w g
  cases st with
  | ok =>
    rw [if_pos rfl, hins.2.2 j w g]
    by_cases hji : j = i
    · subst hji
      rw [update_self]
      simp [eq_comm]
    · rw [update_of_ne hji]
      simp [hji, h.holds j w g]
  | exist =>
    rw [if_neg (by simp), hins.2 j w g]
    exact h.holds j w g
  | nomem =>
    rw [if_neg (by simp), hins.2.2 j w g]
    exact h.holds j w g

theorem Holds.deletes_iff (h : Holds t m) {item : Option Item} :
    m.deletes i item = true ↔ ∃ v g, Stores t i v g ∧ ∀ w, item = some w → w = v := by
  rw [Contents.deletes, any_eq_true]
  constructor
  · rintro ⟨⟨v, g⟩, hm, hall⟩
    refine ⟨v, g, (h i v g).mpr hm, ?_⟩
    rintro w rfl
    simpa using hall
  rintro ⟨v, g, hst, hall⟩
  refine ⟨(v, g), (h i v g).mp hst, ?_⟩
  cases item with
  | none => rfl
  | some w => simpa using hall w rfl

theorem Good.deleteItem (h : Good alloc t m live) (hi : i < 2 ^ bitsPerLong) (item : Option Item) :
    ∃ t' live', deleteItem i item t = .ok (if m.deletes i item then m.entry i else .null, t') ∧
      Good alloc t' (if m.deletes i item then update m i none else m) live' := by
  obtain ⟨e, t', live', heq, hshape, hidr, -, hdel, htight⟩ :=
    deleteItem_spec item h.shape (fun hidr => by simp [h.isIdr] at hidr) hi
  have htight' : (∀ k, alloc k = true) → Tight t' live' := fun halloc => htight h.isIdr (h.tight halloc)
  rcases hdel with ⟨v, g, hst, hitem, rfl, hstores⟩ | ⟨hno, rfl, rfl⟩
  · have hd := h.holds.deletes_iff.mpr ⟨v, g, hst, hitem⟩
    rw [if_pos hd, if_pos hd]
    refine ⟨t', live', ?_, hshape, hidr.trans h.isIdr, fun j w g => ?_, htight'⟩
    · rw [heq, Contents.entry, (h.holds i v g).mp hst]
      rfl
    rw [hstores]
    by_cases hji : j = i
    · subst hji
      simp
    rw [update_of_ne hji]
    simp [hji, h.holds j w g]
  have hd : ¬m.deletes i item = true := by
    rw [h.holds.deletes_iff]
    rintro ⟨v, g, hst, hitem⟩
    obtain ⟨w, hw, hne⟩ := hno v g hst
    exact hne (hitem w hw)
  rw [if_neg hd, if_neg hd]
  exact ⟨_, live', heq, hshape, h.isIdr, h.holds, htight'⟩

theorem Holds.retag {b : Bool} (h : Holds t m) (hr : Retagged t t' i tag b) :
    Holds t' (m.retag i tag b) := by
  intro j w g
  rw [hr j w g, Contents.retag]
  by_cases hji : j = i
  · subst hji
    rw [update_self]
    simp only [true_and, ne_eq, not_true_eq_false, false_and, or_false, map_eq_some_iff, Prod.mk.injEq,
      Prod.exists]
    constructor
    · rintro ⟨g0, hst, rfl⟩
      exact ⟨w, g0, (h j w g0).mp hst, rfl, rfl⟩
    rintro ⟨w', g0, hm, rfl, rfl⟩
    exact ⟨g0, (h j w' g0).mpr hm, rfl⟩
  · rw [update_of_ne hji]
    simp [hji, h j w g]

theorem Good.retag {b : Bool} (h : Good alloc t m live) (hsame : SameSlots t t') (hshape : Shape t' live)
    (hr : Retagged t t' i tag b) : Good alloc t' (m.retag i tag b) live :=
  ⟨hshape, hsame.isIdr.trans h.isIdr, h.holds.retag hr, fun halloc => hsame.tight (h.tight halloc)⟩

theorem Good.tagClear (h : Good alloc t m live) (hi : i < 2 ^ bitsPerLong) (tag : Tag) :
    ∃ e t', tagClear i tag t = .ok (e, t') ∧ Good alloc t' (m.retag i tag false) live := by
  obtain ⟨e, t', heq, hsame, hshape, hr⟩ := tagClear_spec tag h.shape hi
  exact ⟨e, t', heq, h.retag hsame hshape hr⟩

theorem Good.tagSet (h : Good alloc t m live) (hi : i < 2 ^ bitsPerLong) (hm : m i ≠ none) (tag : Tag) :
    ∃ t', tagSet i tag t = .ok (m.entry i, t') ∧ Good alloc t' (m.retag i tag true) live := by
  obtain ⟨⟨v, g⟩, hv⟩ := ne_none_iff_exists'.mp hm
  obtain ⟨t', heq, hsame, hshape, hr⟩ := tagSet_spec tag h.shape hi ((h.holds i v g).mpr hv)
  refine ⟨t', ?_, h.retag hsame hshape hr⟩
  rw [heq, Contents.entry, hv]
  rfl

/-- Every tree that calls make is good. -/
theorem Runs.good (h : Runs alloc t m) : ∃ live, Good alloc t m live := by
  induction h with
  | init => exact ⟨∅, good_init⟩
  | @insert t t' m i v st _ hi heq ih =>
    obtain ⟨live, hg⟩ := ih
    obtain ⟨st', t'', live', heq', -, hg'⟩ := hg.insert hi v
    obtain ⟨rfl, rfl⟩ := mk.inj (ok.inj (heq.symm.trans heq'))
    exact ⟨live', hg'⟩
  | @delete t t' m i e _ hi heq ih =>
    obtain ⟨live, hg⟩ := ih
    obtain ⟨t'', live', heq', hg'⟩ := hg.deleteItem hi none
    obtain ⟨-, rfl⟩ := mk.inj (ok.inj (heq.symm.trans heq'))
    refine ⟨live', ?_⟩
    rw [Contents.deletes_none] at hg'
    rcases hm : m i with _ | p
    · rw [hm] at hg'
      have hupd : update m i none = m := by
        rw [← hm]
        exact update_eq_self ..
      rw [hupd]
      exact hg'
    rw [hm] at hg'
    exact hg'
  | @deleteItem t t' m i item e _ hi heq ih =>
    obtain ⟨live, hg⟩ := ih
    obtain ⟨t'', live', heq', hg'⟩ := hg.deleteItem hi item
    obtain ⟨-, rfl⟩ := mk.inj (ok.inj (heq.symm.trans heq'))
    exact ⟨live', hg'⟩
  | @tagSet t t' m i tag e _ hi hm heq ih =>
    obtain ⟨live, hg⟩ := ih
    obtain ⟨t'', heq', hg'⟩ := hg.tagSet hi hm tag
    obtain ⟨-, rfl⟩ := mk.inj (ok.inj (heq.symm.trans heq'))
    exact ⟨live, hg'⟩
  | @tagClear t t' m i tag e _ hi heq ih =>
    obtain ⟨live, hg⟩ := ih
    obtain ⟨e', t'', heq', hg'⟩ := hg.tagClear hi tag
    obtain ⟨-, rfl⟩ := mk.inj (ok.inj (heq.symm.trans heq'))
    exact ⟨live, hg'⟩

/-! ### The map -/

theorem Inserted.ok_iff {st : Status} (h : Inserted alloc i v t t' st) (hm : Holds t m) :
    st = .ok ↔ m i = none ∧ AllocOk alloc t t' := by
  rw [hm.absent_iff]
  cases st with
  | ok => exact ⟨fun _ => ⟨h.1, h.2.1⟩, fun _ => rfl⟩
  | exist =>
    obtain ⟨w, g, hst⟩ := h.1
    exact ⟨by simp, fun hno => absurd hst (hno.1 w g)⟩
  | nomem => exact ⟨by simp, fun hno => absurd hno.2 h.2.1⟩

theorem Inserted.exist_iff {st : Status} (h : Inserted alloc i v t t' st) (hm : Holds t m) :
    st = .exist ↔ m i ≠ none := by
  rw [Ne, hm.absent_iff]
  cases st with
  | ok | nomem => exact ⟨by simp, fun hne => absurd h.1 hne⟩
  | exist =>
    obtain ⟨w, g, hst⟩ := h.1
    exact ⟨fun _ hno => hno w g hst, fun _ => rfl⟩

theorem Good.lookup (h : Good alloc t m live) (hi : i < 2 ^ bitsPerLong) :
    RadixTree.lookup t i = .ok (m.entry i) := h.holds.lookup h.shape.toLinks hi

/-- Whatever calls made a tree, and whichever allocations failed, lookups agree with the map, and every
    call returns: an insertion succeeds exactly when the index is absent and there is memory, a failed
    one changes no lookup, and a deletion returns and removes exactly the item of the index. -/
theorem runs_map (h : Runs alloc t m) :
    (∀ i < 2 ^ bitsPerLong, lookup t i = .ok (m.entry i)) ∧
    (∀ i < 2 ^ bitsPerLong, ∀ v, ∃ st t', insert alloc i v t = .ok (st, t') ∧
      (st = .ok ↔ m i = none ∧ AllocOk alloc t t') ∧ (st = .exist ↔ m i ≠ none) ∧
      ∀ j < 2 ^ bitsPerLong, lookup t' j = if st = .ok ∧ j = i then .ok (.item v) else lookup t j) ∧
    (∀ i < 2 ^ bitsPerLong, ∃ t', delete i t = .ok (m.entry i, t') ∧
      ∀ j < 2 ^ bitsPerLong, lookup t' j = if j = i then .ok .null else lookup t j) ∧
    (∀ i < 2 ^ bitsPerLong, ∀ item, ∃ t',
      deleteItem i item t = .ok (if m.deletes i item then m.entry i else .null, t') ∧
      ∀ j < 2 ^ bitsPerLong, lookup t' j = if m.deletes i item ∧ j = i then .ok .null else lookup t j) ∧
    ∀ i < 2 ^ bitsPerLong, ∀ tag,
    (m i ≠ none → ∃ t', tagSet i tag t = .ok (m.entry i, t') ∧
      ∀ j < 2 ^ bitsPerLong, lookup t' j = lookup t j) ∧
    ∃ e t', tagClear i tag t = .ok (e, t') ∧
    ∀ j < 2 ^ bitsPerLong, lookup t' j = lookup t j := by
  obtain ⟨live, hg⟩ := h.good
  have hlook : ∀ {c : Prop} [Decidable c] {t' live' i p},
    Good alloc t' (if c then update m i p else m) live' → ∀ j < 2 ^ bitsPerLong, lookup t' j = if c ∧
    j = i then .ok (p.elim .null fun p => .item p.1) else lookup t j := by
    intro c _ t' live' i p hg' j hj
    rw [hg'.lookup hj, hg.lookup hj]
    split
    case isTrue hc =>
      rw [Contents.entry_update]
      by_cases hji : j = i
      · rw [if_pos hji, if_pos ⟨hc, hji⟩]
      · rw [if_neg hji, if_neg fun h => hji h.2]
    case isFalse hc => rw [if_neg fun h => hc h.1]
  refine ⟨fun i hi => hg.lookup hi, fun i hi v => ?_, fun i hi => ?_, fun i hi item => ?_,
    fun i hi tag => ⟨fun hm => ?_, ?_⟩⟩
  · obtain ⟨st, t', live', heq, hins, hg'⟩ := hg.insert hi v
    exact ⟨st, t', heq, hins.ok_iff hg.holds, hins.exist_iff hg.holds, hlook hg'⟩
  · obtain ⟨t', live', heq, hg'⟩ := hg.deleteItem hi none
    have hlook := hlook hg'
    rw [Contents.deletes_none] at heq hlook
    cases hm : m i with
    | some p =>
      rw [hm] at heq hlook
      exact ⟨t', heq, fun j hj => by simpa using hlook j hj⟩
    | none =>
      have hentry : m.entry i = .null := by
        rw [Contents.entry, hm]
        rfl
      rw [hm] at heq hlook
      refine ⟨t', by rw [hentry]; exact heq, fun j hj => ?_⟩
      have hj' : lookup t' j = lookup t j := by simpa using hlook j hj
      rw [hj']
      split
      · rename_i hji
        rw [hji, hg.lookup hi, hentry]
      · rfl
  · obtain ⟨t', live', heq, hg'⟩ := hg.deleteItem hi item
    exact ⟨t', heq, hlook hg'⟩
  · obtain ⟨t', heq, hg'⟩ := hg.tagSet hi hm tag
    exact ⟨t', heq, fun j hj => by rw [hg'.lookup hj, hg.lookup hj, Contents.entry_retag]⟩
  · obtain ⟨e, t', heq, hg'⟩ := hg.tagClear hi tag
    exact ⟨e, t', heq, fun j hj => by rw [hg'.lookup hj, hg.lookup hj, Contents.entry_retag]⟩

/-! ### The nodes -/

/-- The node is in the tree: some walk comes to it. -/
def Tree.HasNode (t : Tree) (n : ℕ) : Prop := ∃ i s, On t i s ∧ t.read s = .node n

theorem tally_eq_card {w : Entry → ℕ} {p : Entry → Bool} (hw : ∀ e, w e = if p e then 1 else 0)
    (f : ℕ → Entry) : tally w mapSize f = ((range mapSize).filter fun o => p (f o)).card := by
  rw [tally, card_filter]
  exact sum_congr rfl fun o _ => hw (f o)

/-- When no allocation fails, the nodes of a tree have the right counts and are never empty, children are
    one level below with a parent and an offset that name their slot, the root is not higher than it has
    to be, and the indices below a node share a prefix. -/
theorem runs_structure (h : Runs (fun _ => true) t m) (hn : t.HasNode n) :
    (t.nodes n).count = ((range mapSize).filter fun o => (t.nodes n).slots o ≠ .null).card ∧
    0 < (t.nodes n).count ∧
    (t.nodes n).nrValues = ((range mapSize).filter fun o => ((t.nodes n).slots o).isValue).card ∧
    (∀ o < mapSize, ∀ c, (t.nodes n).slots o = .node c →
      (t.nodes c).shift + mapShift = (t.nodes n).shift ∧ (t.nodes c).parent = some n ∧
      (t.nodes c).offset = o) ∧
    (t.xaHead = .node n → (t.nodes n).parent = none ∧
      ∃ o, 0 < o ∧ o < mapSize ∧ (t.nodes n).slots o ≠ .null) ∧
    ∀ s, t.read s = .node n → ∀ i j, On t i s → On t j s →
    i / 2 ^ ((t.nodes n).shift + mapShift) = j / 2 ^ ((t.nodes n).shift + mapShift) := by
  obtain ⟨live, hg⟩ := h.good
  have htight := hg.tight fun _ => rfl
  obtain ⟨i, s, hs, hread⟩ := hn
  have hnl := (hg.shape.child s (hs.ok hg.shape.toLinks) n hread).1
  obtain ⟨hcount, hvalues⟩ := hg.shape.counted n hnl
  refine ⟨?_, ?_, ?_, fun o ho c hc => ?_, fun hroot => ⟨?_, htight.root n hroot⟩,
    fun s hs i j hi hj => ?_⟩
  · rw [hcount, tally_eq_card (p := fun e => decide (e ≠ .null)) fun e => ?_]
    · simp
    by_cases he : e = .null
    · simp [Entry.weight, he]
    · simp [Entry.weight, he]
  · rw [hcount]
    obtain ⟨o, ho, hne⟩ := htight.filled n hnl not_inNode_none
    exact pos_of_ne_zero fun hz => hne (weight_eq_zero.mp (tally_eq_zero_iff.mp hz o ho))
  · rw [hvalues, tally_eq_card (w := Entry.valueWeight) (p := Entry.isValue) fun _ => rfl]
  · obtain ⟨-, hhome, hup⟩ := hg.shape.child (some (n, o)) (slotOk_some.mpr ⟨hnl, ho⟩) c hc
    obtain ⟨p, hp, hpo⟩ := Option.map_eq_some_iff.mp hhome
    obtain ⟨rfl, hoff⟩ := mk.inj hpo
    exact ⟨hup p o rfl, hp, hoff⟩
  · have hhome := (hg.shape.child none slotOk_none n hroot).2.1
    simpa [home] using hhome
  · exact (hi.iff_above hg.shape.toLinks hs).mp hj

/-! ### The tags -/

/-- Below a slot whose bit is set there is an item with the tag. -/
theorem Shape.set_below (h : Shape t live) (hidr : t.isIdr = false) (hon : On t i s)
    (hbit : t.bit s tag = true) : ∃ j v g, On t j s ∧ Stores t j v g ∧ g tag = true := by
  have hs := hon.ok h.toLinks
  revert i hon hbit
  show ∀ i, _
  refine h.below_induction hs fun s hs ih i hon hbit => ?_
  have hok := h.tags s hs tag
  rw [TagOk] at hok
  cases hread : t.read s with
  | null =>
    rw [hread] at hok
    simp [blankTag, hidr, hbit] at hok
  | item v => exact ⟨i, v, _, hon, ⟨s, hon, hread, rfl⟩, hbit⟩
  | node n =>
    rw [hread] at hok
    obtain ⟨o, ho, hset⟩ := anyTagSet_bit.mp (hok.symm.trans hbit)
    have hj :=
      (hon.next hread).sibling h.toLinks (withDigit_up (m := mapShift) i (t.nodes n).shift ho).symm
    rw [slotIn, Node.descend, digit_withDigit i (t.nodes n).shift ho] at hj
    obtain ⟨k, v, g, hk, hst, hgt⟩ := ih n o hread ho _ hj hset
    have hup := (hk.home h.toLinks).1
    rw [(h.child s hs n hread).2.1] at hup
    exact ⟨k, v, g, hup, hst, hgt⟩

theorem covers_zero : t.Covers 0 := by
  rw [Covers]
  cases t.xaHead with
  | null => trivial
  | item v => rfl
  | node r => exact Nat.two_pow_pos _

theorem Good.bit_iff (h : Good alloc t m live) (hon : On t i s) :
    t.bit s tag = true ↔ ∃ j, On t j s ∧ m.hasTag j tag = true := by
  constructor
  · intro hbit
    obtain ⟨j, v, g, hj, hst, hgt⟩ := h.shape.set_below h.isIdr hon hbit
    refine ⟨j, hj, ?_⟩
    rw [Contents.hasTag, (h.holds j v g).mp hst]
    exact hgt
  rintro ⟨j, hj, htag⟩
  rw [Contents.hasTag, any_eq_true] at htag
  obtain ⟨⟨v, g⟩, hm, hgt⟩ := htag
  by_contra hbit
  have hclear := h.shape.clear_below hj (eq_false_of_ne_true hbit) ((h.holds j v g).mpr hm)
  cases hclear.symm.trans hgt

theorem Good.tagGet (h : Good alloc t m live) (hi : i < 2 ^ bitsPerLong) (tag : Tag) :
    RadixTree.tagGet t i tag = .ok (m.hasTag i tag) := by
  obtain ⟨b, heq, hb⟩ := tagGet_spec tag h.shape h.isIdr hi
  rw [heq]
  refine congrArg ok ?_
  rw [Bool.eq_iff_iff, hb, Contents.hasTag, any_eq_true]
  constructor
  · rintro ⟨v, g, hst, hgt⟩
    exact ⟨(v, g), (h.holds i v g).mp hst, hgt⟩
  rintro ⟨⟨v, g⟩, hm, hgt⟩
  exact ⟨v, g, (h.holds i v g).mpr hm, hgt⟩

/-- The bit of a slot says whether an item below it has the tag, up to the root, so that
    `radix_tree_tag_get` and `radix_tree_tagged` are exact, a deleted item takes its tags with it, and an
    insertion finds none. -/
theorem runs_tags (h : Runs alloc t m) (tag : Tag) :
    (∀ i s, On t i s → (t.bit s tag = true ↔ ∃ j, On t j s ∧ m.hasTag j tag = true)) ∧
    (tagged t tag = true ↔ ∃ j, m.hasTag j tag = true) ∧
    (∀ i < 2 ^ bitsPerLong, tagGet t i tag = .ok (m.hasTag i tag)) ∧
    (∀ i < 2 ^ bitsPerLong, ∀ item, m.deletes i item = true →
      ∃ e t', deleteItem i item t = .ok (e, t') ∧ tagGet t' i tag = .ok false) ∧
    ∀ i < 2 ^ bitsPerLong, ∀ v, insert alloc i v t ≠ .error .bug := by
  obtain ⟨live, hg⟩ := h.good
  refine ⟨fun i s hon => hg.bit_iff hon, ?_, fun i hi => hg.tagGet hi tag, fun i hi item hd => ?_,
    fun i hi v hbug => ?_⟩
  · rw [tagged, show t.rootTags tag = t.bit none tag from rfl, hg.bit_iff (.head covers_zero)]
    refine exists_congr fun j => and_iff_right_of_imp fun hj => ?_
    rw [Contents.hasTag, Option.any_eq_true] at hj
    obtain ⟨⟨v, g⟩, hm, -⟩ := hj
    obtain ⟨s, hs, -, -⟩ := (hg.holds j v g).mpr hm
    exact .head hs.covers
  · obtain ⟨t', live', heq, hg'⟩ := hg.deleteItem hi item
    refine ⟨_, t', heq, ?_⟩
    rw [hg'.tagGet hi tag, if_pos hd, Contents.hasTag, Function.update_self]
    rfl
  obtain ⟨st, t', live', heq, -⟩ := hg.insert hi v
  rw [heq] at hbug
  cases hbug

end

/-- Six bits to a level, as in kernels with room for large nodes. -/
@[reducible] def sixBits : Config := ⟨6, by decide⟩

/-- A tree with one item, at an index that needs three levels. -/
theorem insert_threeLevels : ∃ t, @insert sixBits (fun _ => true) 5000 (.pointer 7)
    (init false) = .ok (.ok, t) ∧ t.xaHead = .node 0 := by
  have heval : (@insert sixBits (fun _ => true) 5000 (.pointer 7) (init false)).toOption.map
      (fun p => (p.1, p.2.xaHead)) = some (.ok, .node 0) := by decide +kernel
  obtain ⟨p, heq, hall⟩ := Outcome.exists_ok heval
  obtain ⟨hst, hhead⟩ := mk.inj hall
  exact ⟨p.2, by rw [heq, ← hst], hhead⟩

/-- The item is found again, and only there. -/
theorem runs_map_threeLevels : ∃ t m, @Runs sixBits (fun _ => true) t m ∧
    @lookup sixBits t 5000 = .ok (.item (.pointer 7)) ∧ @lookup sixBits t 5001 = .ok .null := by
  let _ := sixBits
  obtain ⟨t, heq, -⟩ := insert_threeLevels
  have hruns := (Runs.init : Runs (fun _ => true) _ _).insert (by decide) heq
  refine ⟨t, _, hruns, ?_, ?_⟩
  · rw [(runs_map hruns).1 5000 (by decide)]
    rfl
  rw [(runs_map hruns).1 5001 (by decide)]
  rfl

/-- The root has an entry. -/
theorem runs_structure_threeLevels : ∃ t m, @Runs sixBits (fun _ => true) t m ∧
    @Tree.HasNode sixBits t 0 ∧ 0 < (t.nodes 0).count := by
  let _ := sixBits
  obtain ⟨t, heq, hhead⟩ := insert_threeLevels
  have hruns := (Runs.init : Runs (fun _ => true) _ _).insert (by decide) heq
  have hnode : t.HasNode 0 := ⟨0, none, .head covers_zero, hhead⟩
  exact ⟨t, _, hruns, hnode, (runs_structure hruns hnode).2.1⟩

/-- A tag that is set on the item is there. -/
theorem runs_tags_threeLevels : ∃ t m, @Runs sixBits (fun _ => true) t m ∧ tagged t 1 = true ∧
    @tagGet sixBits t 5000 1 = .ok true := by
  let _ := sixBits
  obtain ⟨t, heq, -⟩ := insert_threeLevels
  have hinsert := (Runs.init : Runs (fun _ => true) _ _).insert (by decide) heq
  obtain ⟨live, hg⟩ := hinsert.good
  obtain ⟨t', heq', -⟩ := hg.tagSet (i := 5000) (by decide) (by simp) 1
  have hruns := hinsert.tagSet (by decide) (by simp) heq'
  obtain ⟨-, htagged, hget, -⟩ := runs_tags hruns 1
  refine ⟨t', _, hruns, htagged.mpr ⟨5000, rfl⟩, ?_⟩
  rw [hget 5000 (by decide)]
  rfl

end LinuxNote.RadixTree
