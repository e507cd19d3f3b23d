import LinuxNote.RadixTree.Tags

/-! `radix_tree_delete_item` on a tree in shape: the item goes with its tags, then the nodes that are
    empty, and then the levels that are not needed any more. -/

namespace LinuxNote.RadixTree
open Radix RadixTree.Tree
open Config (mapShift)

section
variable {t : Tree} {n p : ℕ} {s : Slot} {v : Item}

theorem unlinkChild_eq (h : (t.nodes p).slots (t.nodes n).offset = .node n) :
    unlinkChild p n t = (t.put (some (p, (t.nodes n).offset)) .null).free n := by
  rw [unlinkChild, assign, modify_modify, put]
  refine congrArg (free · n) (modify_congr ?_)
  rw [h]
  rfl

theorem replaceSlot_eq (h : t.read s = .item v) :
    replaceSlot s .null (-1) (if (t.read s).isValue then -1 else 0) t = t.put s .null := by
  match s with
  | none => rfl
  | some (n, o) =>
    have hslot : (t.nodes n).slots o = .item v := h
    rw [replaceSlot, assign, modify_modify, put, h]
    refine modify_congr ?_
    rw [Node.setSlot, hslot]
    congr 1
    · simp [Entry.weight]
      omega
    cases v with
    | pointer p => simp [Entry.valueWeight, Entry.isValue]
    | value x =>
      simp [Entry.valueWeight, Entry.isValue]
      omega

theorem nodeTagGet_eq {tag : Tag} : nodeTagGet t s tag = t.bit s tag := by
  match s with
  | none => rfl
  | some (n, o) => rfl

end

section
variable [Config] {t : Tree} {live : Set ℕ} {i n : ℕ} {s : Slot} {v : Item}

/-! ### `radix_tree_shrink` -/

/-- The root can go when all it has is its first entry. -/
theorem Shape.removeTop {r : ℕ} (h : Shape t live) (hr : t.xaHead = .node r)
    (hcount : (t.nodes r).count = 1) (hfirst : (t.nodes r).slots 0 ≠ .null) :
    Grows t (popTop r t) (live \ {r}) ∧ Popped t (popTop r t) r := by
  have hrl := (h.child none slotOk_none r hr).1
  have htally : tally Entry.weight mapSize (t.nodes r).slots = ((t.nodes r).slots 0).weight := by
    rw [← (h.counted r hrl).count, hcount, Entry.weight, if_neg hfirst]
  have hempty : ∀ o < mapSize, o ≠ 0 → (t.nodes r).slots o = .null := fun o ho hz =>
    weight_eq_zero.mp (tally_eq_self mapSize_pos htally o ho hz)
  have hp := popTop_popped h hr hempty
  have hraised := h.raisedBy_pop hp hr hempty hfirst
  refine ⟨⟨h.pop hp hr hempty, fun j w g => hraised.stores.symm, hp.isIdr, fun hf hidr tag htag => ?_,
    hp.next.ge⟩, hp⟩
  have hroot := h.root_anyTagSet hr hempty tag
  rw [hf (hp.isIdr.symm.trans hidr) tag htag] at hroot
  rw [hp.rootTags]
  exact (Bool.or_eq_false_iff.mp hroot.symm).1

theorem Filled.root_of_stop {r : ℕ} (h : Shape t live) (hf : Filled t live none) (hr : r ∈ live)
    (hstop : (t.nodes r).count ≠ 1 ∨ (t.nodes r).slots 0 = .null) :
    ∃ o, 0 < o ∧ o < mapSize ∧ (t.nodes r).slots o ≠ .null := by
  by_contra hnone
  push Not at hnone
  have hothers : ∀ o < mapSize, o ≠ 0 → (t.nodes r).slots o = .null :=
    fun o ho hz => hnone o (pos_of_ne_zero hz) ho
  obtain ⟨o, ho, hread⟩ := hf r hr not_inNode_none
  have hzero : o = 0 := by
    by_contra hz
    exact hread (hothers o ho hz)
  subst hzero
  refine hstop.elim (fun hcount => hcount ?_) hread
  rw [(h.counted r hr).count, tally, Finset.sum_eq_single_of_mem 0 (Finset.mem_range.mpr mapSize_pos)
    fun o ho hz =>
      weight_eq_zero.mpr (hothers o (Finset.mem_range.mp ho) hz),
    Entry.weight, if_neg hread]

theorem shrink_spec (fuel : ℕ) (h : Shape t live) (hpos : 0 < fuel)
    (hf : ∀ r, t.xaHead = .node r → (t.nodes r).shift + 1 < fuel) :
    ∃ t' live', shrink fuel t = .ok t' ∧ Grows t t' live' ∧
      (t.isIdr = false → Filled t live none → Tight t' live') := by
  induction fuel generalizing t live with
  | zero => omega
  | succ fuel ih =>
    rw [shrink]
    cases hhead : t.xaHead with
    | null | item v => exact ⟨t, live, rfl, .refl h, fun _ hfill => ⟨hfill, by simp [hhead]⟩⟩
    | node r =>
      have hrl := (h.child none slotOk_none r hhead).1
      have hfuel := hf r hhead
      have hstop : (t.isIdr = false → (t.nodes r).count ≠ 1 ∨ (t.nodes r).slots 0 = .null) →
          t.isIdr = false → Filled t live none → Tight t live := by
        refine fun hst hidr hfill => ⟨hfill, fun r' hr' => ?_⟩
        obtain rfl := Entry.node.inj (hhead.symm.trans hr')
        exact hfill.root_of_stop h hrl (hst hidr)
      dsimp only
      split
      case isTrue hcount => exact ⟨t, live, rfl, .refl h, hstop fun _ => .inl hcount⟩
      split
      case isTrue hfirst => exact ⟨t, live, rfl, .refl h, hstop fun _ => .inr hfirst⟩
      split
      case isTrue hidr => exact ⟨t, live, rfl, .refl h, hstop fun hfalse => by simp [hidr.2] at hfalse⟩
      rename_i hcount hfirst _
      obtain ⟨hg, hp⟩ := h.removeTop hhead (not_not.mp hcount) hfirst
      obtain ⟨t', live', heq, hg', htight⟩ := ih hg.shape (by omega) fun c hc => by
        rw [hp.head] at hc
        have hup := (h.child (some (r, 0)) (slotOk_some.mpr ⟨hrl, mapSize_pos⟩) c hc).2.2 r 0 rfl
        have := Config.pos
        rw [hp.child c hc]
        dsimp only
        omega
      refine ⟨t', live', heq, hg.trans hg', fun hidr hfill => ?_⟩
      refine htight (hp.isIdr.trans hidr) fun k hk hin => ?_
      rw [hp.keeps (g := Node.slots) (fun _ _ => rfl) hk.2]
      exact hfill k hk.1 hin

/-! ### `delete_node` -/

/-- An empty node can go. -/
theorem Shape.removeNode (h : Shape t live) (hn : n ∈ live)
    (hempty : ∀ o < mapSize, (t.nodes n).slots o = .null) :
    Grows t ((t.put (t.home n) .null).free n) (live \ {n}) := by
  have h1 := h.unlink hn hempty
  have ha : Agree (t.put (t.home n) .null) ((t.put (t.home n) .null).free n) (live \ {n}) :=
    ⟨rfl, rfl, rfl, fun _ hk => modify_of_ne _ hk.2⟩
  have h2 := ha.shape h1 le_rfl
  refine ⟨h2, fun j w g => ?_, put_isIdr, fun hf hidr tag htag => ?_, ?_⟩
  · exact (ha.stores h1.toLinks h2.toLinks).trans (h.emptyChild_unlink hn hempty).stores.symm
  · have hbit := congrFun (put_bit (t := t) (s := t.home n) (e := .null) none) tag
    exact hbit.trans (hf (put_isIdr.symm.trans hidr) tag htag)
  · exact put_next.ge

theorem unlinkRoot_eq (h : Shape t live) (hr : t.xaHead = .node n)
    (hempty : ∀ o < mapSize, (t.nodes n).slots o = .null) :
    unlinkRoot n t = (t.put none .null).free n := by
  have hn := (h.child none slotOk_none n hr).1
  have hroot : (if t.isIdr then t.rootTags else fun _ => false) = t.rootTags := by
    cases hidr : t.isIdr with
    | true => rfl
    | false =>
      funext tag
      have hok := h.tags none slotOk_none tag
      rw [Tree.TagOk, Tree.read, hr] at hok
      refine (Eq.trans hok ?_).symm
      rw [h.anyTagSet_empty hn hempty, blankTag, hidr]
      rfl
  rw [unlinkRoot, hroot]
  rfl

/-- All nodes have entries but perhaps `n`, and if the root is another node it has one other than the
    first. -/
structure AlmostTight (t : Tree) (live : Set ℕ) (n : ℕ) : Prop where
  filled : ∀ k ∈ live, k ≠ n → ∃ o < mapSize, (t.nodes k).slots o ≠ .null
  root : ∀ r, t.xaHead = .node r → r ≠ n → ∃ o, 0 < o ∧ o < mapSize ∧ (t.nodes r).slots o ≠ .null

/-- When a slot of `p` is emptied and the empty node `n` goes, only `p` may be empty. -/
theorem AlmostTight.unlink {p o : ℕ} (h : AlmostTight t live n) (hn : t.xaHead ≠ .node n) :
    AlmostTight ((t.put (some (p, o)) .null).free n) (live \ {n}) p := by
  have hslots : ∀ k, k ≠ n → k ≠ p → (((t.put (some (p, o)) .null).free n).nodes k).slots =
    (t.nodes k).slots := by
    intro k hkn hkp
    rw [free, modify_of_ne _ hkn, put, modify_of_ne _ hkp]
  refine ⟨fun k hk hkp => ?_, fun r hr hrp => ?_⟩
  · rw [hslots k hk.2 hkp]
    exact h.filled k hk.1 hk.2
  have hr' : t.xaHead = .node r := hr
  have hrn : r ≠ n := by
    rintro rfl
    exact hn hr'
  rw [hslots r hrn hrp]
  exact h.root r hr' hrn

theorem Shape.empty_iff_count (h : Shape t live) (hn : n ∈ live) :
    (t.nodes n).count = 0 ↔ ∀ o < mapSize, (t.nodes n).slots o = .null := by
  rw [(h.counted n hn).count, tally_eq_zero_iff]
  simp only [weight_eq_zero]

theorem AlmostTight.filled_of_count (ht : AlmostTight t live n) (h : Shape t live) (hn : n ∈ live)
    (hcount : (t.nodes n).count ≠ 0) : Filled t live none := by
  intro k hk _
  by_cases hkn : k = n
  · subst hkn
    by_contra hnone
    push Not at hnone
    exact hcount ((h.empty_iff_count hn).mpr hnone)
  · exact ht.filled k hk hkn

theorem deleteNode_spec (fuel : ℕ) (h : Shape t live) (hn : n ∈ live)
    (hf : bitsPerLong < (t.nodes n).shift + fuel) :
    ∃ t' live', deleteNode fuel n t = .ok t' ∧ Grows t t' live' ∧
      (t.isIdr = false → AlmostTight t live n → Tight t' live') := by
  induction fuel generalizing t live n with
  | zero =>
    have := (h.shift n hn).2
    omega
  | succ fuel ih =>
    obtain ⟨hok, hread⟩ := h.home n hn
    rw [deleteNode]
    by_cases hcount : (t.nodes n).count = 0
    · rw [if_neg (by simpa using hcount)]
      have hempty := (h.empty_iff_count hn).mp hcount
      have hg := h.removeNode hn hempty
      cases hparent : (t.nodes n).parent with
      | some p =>
        have hhome : t.home n = some (p, (t.nodes n).offset) := by
          rw [home, hparent]
          rfl
        rw [hhome] at hok hread hg
        have hup := (h.child _ hok n hread).2.2 p _ rfl
        have hpos := Config.pos
        have hpn : p ≠ n := by
          rintro rfl
          omega
        have hroot : t.xaHead ≠ .node n := by
          intro hr
          rw [(h.child none slotOk_none n hr).2.1] at hhome
          cases hhome
        have hpl : p ∈ live \ {n} := ⟨(hok p _ rfl).1, hpn⟩
        have hshift : (((t.put (some (p, (t.nodes n).offset)) .null).free n).nodes p).shift =
          (t.nodes p).shift := by
          rw [free, modify_of_ne _ hpn, put_shift]
        obtain ⟨t', live', heq, hg', htight⟩ := ih hg.shape hpl (by rw [hshift]; omega)
        dsimp only
        rw [unlinkChild_eq hread]
        exact ⟨t', live', heq, hg.trans hg',
          fun hidr ht => htight (hg.isIdr.trans hidr) (ht.unlink hroot)⟩
      | none =>
        have hhome : t.home n = none := by
          rw [home, hparent]
          rfl
        rw [hhome] at hread hg
        rw [unlinkRoot_eq h hread hempty]
        refine ⟨_, _, rfl, hg, fun _ ht => ⟨fun k hk _ => ?_, fun r hr => ?_⟩⟩
        · rw [free, modify_of_ne _ hk.2]
          exact ht.filled k hk.1 hk.2
        · cases hr
    rw [if_pos hcount]
    split
    case isTrue hroot =>
      obtain ⟨t', live', heq, hg, htight⟩ := shrink_spec maxSteps h (Nat.succ_pos _) fun r hr => by
        have := (h.shift r (h.child none slotOk_none r hr).1).2
        rw [maxSteps]
        omega
      exact ⟨t', live', heq, hg, fun hidr ht => htight hidr (ht.filled_of_count h hn hcount)⟩
    case isFalse hroot =>
      refine ⟨t, live, rfl, .refl h, fun _ ht => ⟨ht.filled_of_count h hn hcount, fun r hr => ?_⟩⟩
      refine ht.root r hr ?_
      rintro rfl
      exact hroot hr

/-! ### `radix_tree_delete_item` -/

/-- The tags of an item that is to go become those of an empty slot. -/
theorem deleteTags_spec (h : Shape t live) (hleaf : Leaf t i s) (hread : t.read s = .item v)
    (hfree : t.isIdr = true → ∀ tag ≠ idrFree, t.bit s tag = false) :
    ∃ t', deleteTags s t = .ok t' ∧ SameSlots t t' ∧ Shape t' live ∧ t'.bit s = t.blankTag ∧
    (OnlyFree t → OnlyFree t') ∧ ∀ s', s' ≠ s → (∀ n, t.read s' ≠ .node n) → t'.bit s' = t.bit s' := by
  have hs := hleaf.1.ok h.toLinks
  rw [deleteTags]
  cases hidr : t.isIdr with
  | true =>
    rw [if_pos rfl]
    obtain ⟨t', heq, hw⟩ := nodeTagSet_spec maxSteps (h.due hs hread idrFree) (by rw [maxSteps]; omega)
    refine ⟨t', heq, hw.same, hw.shape h, ?_, fun hof _ tag htag => ?_,
      fun s' hne hs' => hw.bit_other hne hs'⟩
    on_goal 2 => exact (hw.other none tag (.inl htag)).trans (hof hidr tag htag)
    rw [hw.bit_self hleaf.2.1]
    funext tag
    by_cases htag : tag = idrFree
    · subst htag
      simp [blankTag, hidr]
    rw [Function.update_of_ne htag, hfree hidr tag htag]
    simp [blankTag, htag]
  | false =>
    rw [if_neg (by simp)]
    -- three walks up, one for each tag
    have hclear : ∀ {t1 : Tree}, Shape t1 live → SameSlots t t1 → ∀ tag,
        ∃ t2, nodeTagClear tag maxSteps s t1 = .ok t2 ∧ Wrote t1 t2 live s tag false := by
      intro t1 h1 hsame tag
      exact nodeTagClear_spec maxSteps (h1.due hs ((hsame.read s).trans hread) tag)
        (by rw [maxSteps]; omega)
    have hend : ∀ {t1 : Tree}, SameSlots t t1 → ∀ s', (∀ n, t.read s' ≠ .node n) →
      ∀ n, t1.read s' ≠ .node n :=
      fun hsame s' hs' n => by rw [hsame.read]; exact hs' n
    obtain ⟨t1, heq1, hw1⟩ := hclear h (.refl t) 0
    obtain ⟨t2, heq2, hw2⟩ := hclear (hw1.shape h) hw1.same 1
    have hsame2 := hw1.same.trans hw2.same
    obtain ⟨t3, heq3, hw3⟩ := hclear (hw2.shape (hw1.shape h)) hsame2 2
    refine ⟨t3, ?_, hsame2.trans hw3.same, hw3.shape (hw2.shape (hw1.shape h)), ?_, fun _ hi => ?_,
      fun s' hne hs' => ?_⟩
    · rw [heq1]
      change (nodeTagClear 1 maxSteps s t1 >>= fun t => nodeTagClear 2 maxSteps s t) = _
      rw [heq2]
      exact heq3
    · rw [hw3.bit_self (hend hsame2 s hleaf.2.1), hw2.bit_self (hend hw1.same s hleaf.2.1),
        hw1.bit_self hleaf.2.1]
      funext tag
      have hcases : ∀ tag : Tag, tag = 0 ∨ tag = 1 ∨ tag = 2 := by decide
      rcases hcases tag with rfl | rfl | rfl
      all_goals simp [blankTag, hidr]
    · rw [(hsame2.trans hw3.same).isIdr, hidr] at hi
      cases hi
    · rw [hw3.bit_other hne (hend hsame2 s' hs'), hw2.bit_other hne (hend hw1.same s' hs'),
        hw1.bit_other hne hs']

/-- The items of an IDR have no tags but the one for free slots. -/
def ItemsFree (t : Tree) : Prop :=
  t.isIdr = true → ∀ i v g, Stores t i v g → ∀ tag ≠ idrFree, g tag = false

theorem deleteSlot_spec (h : Shape t live) (hleaf : Leaf t i s) (hread : t.read s = .item v)
    (hfree : ItemsFree t) : ∃ t' live', deleteSlot s t = .ok t' ∧ Shape t' live' ∧ t'.isIdr = t.isIdr ∧
    (OnlyFree t → OnlyFree t') ∧ (∀ j w g, Stores t' j w g ↔ j ≠ i ∧ Stores t j w g) ∧
    (t.isIdr = false → Tight t live → Tight t' live') := by
  obtain ⟨t1, heq1, hsame, h1, hbit, hof, hother⟩ := deleteTags_spec h hleaf hread fun hidr tag htag =>
    hfree hidr i v _ ⟨s, hleaf.1, hread, rfl⟩ tag htag
  have hleaf1 : Leaf t1 i s := by
    refine ⟨hsame.on.mpr hleaf.1, fun n => by rw [hsame.read]; exact hleaf.2.1 n, ?_⟩
    match s with
    | none => exact hleaf.2.2
    | some (p, o) => exact (hsame.shift p).trans hleaf.2.2
  have hread1 : t1.read s = .item v := (hsame.read s).trans hread
  have hs := hleaf.1.ok h.toLinks
  have h2 : Shape (t1.put s .null) live := by
    refine h1.put hs hleaf1.2.1 (by simp) (fun p o _ => ⟨by simp, by simp⟩) fun _ tag => ?_
    rw [hbit, blankTag_congr hsame.isIdr]
  have hstores : ∀ j w g, Stores (t1.put s .null) j w g ↔ j ≠ i ∧ Stores t j w g := by
    intro j w g
    rw [stores_put_null h1.toLinks hleaf1 hread1, hsame.stores h.toLinks hleaf hread hother hbit]
    constructor
    · rintro ⟨hji, ⟨rfl, -⟩ | ⟨-, hst⟩⟩
      · exact absurd rfl hji
      · exact ⟨hji, hst⟩
    · exact fun ⟨hji, hst⟩ => ⟨hji, .inr ⟨hji, hst⟩⟩
  have hof2 : OnlyFree t → OnlyFree (t1.put s .null) := by
    intro hf hidr tag htag
    rw [put_isIdr] at hidr
    exact (congrFun (put_bit (t := t1) (s := s) (e := .null) none) tag).trans (hof hf hidr tag htag)
  have heq : deleteSlot s t = match s with
      | none => .ok (t1.put none .null)
      | some (n, o) => deleteNode maxSteps n (t1.put (some (n, o)) .null) := by
    rw [deleteSlot, heq1]
    have hreplace := replaceSlot_eq hread1
    rw [hsame.read] at hreplace
    match s with
    | none => exact congrArg Except.ok hreplace
    | some (n, o) => exact congrArg (deleteNode maxSteps n) hreplace
  rw [heq]
  match s with
  | none =>
    refine ⟨_, live, rfl, h2, hsame.isIdr, hof2, hstores, fun _ ht => ⟨?_, fun r hr => ?_⟩⟩
    · intro k hk hin
      exact (hsame.tight ht).filled k hk hin
    · cases hr
  | some (n, o) =>
    have hn := (hs n o rfl).1
    obtain ⟨t', live', heq', hg, htight⟩ := deleteNode_spec maxSteps h2 hn (by rw [maxSteps]; omega)
    refine ⟨t', live', heq', hg.shape, hg.isIdr.trans (put_isIdr.trans hsame.isIdr),
      fun hf => hg.onlyFree (hof2 hf),
      fun j w g => (hg.stores j w g).trans (hstores j w g), fun hidr ht => ?_⟩
    have ht1 := hsame.tight ht
    refine htight (put_isIdr.trans (hsame.isIdr.trans hidr)) ⟨fun k hk hkn => ?_, fun r hr hrn => ?_⟩
    · rw [put, modify_of_ne _ hkn]
      exact ht1.filled k hk not_inNode_none
    rw [put, modify_of_ne _ hrn]
    exact ht1.root r hr

/-- What a deletion makes of a tree, by what it returns. -/
def Deleted (i : ℕ) (item : Option Item) (t t' : Tree) (e : Entry) : Prop :=
  (∃ v g, Stores t i v g ∧ (∀ w, item = some w → w = v) ∧ e = .item v ∧ ∀ j w g, Stores t' j w g ↔
    j ≠ i ∧ Stores t j w g) ∨
  ((∀ v g, Stores t i v g → ∃ w, item = some w ∧ w ≠ v) ∧ e = .null ∧ t' = t)

/-- What is done with an item that was found. -/
theorem deleteItem_found {item : Option Item} (heq : lookupSlot t i = .ok (some (.item v, s))) :
    deleteItem i item t = if item.any fun w => Entry.item v ≠ .item w then .ok (.null, t)
      else deleteSlot s t >>= fun t => .ok (.item v, t) := by
  have hne : ¬(Entry.item v = .null ∧ (!t.isIdr || nodeTagGet t s idrFree) = true) := by simp
  rw [deleteItem, heq]
  exact if_neg (t := pure (Entry.null, t)) hne

theorem deleteItem_spec (item : Option Item) (h : Shape t live) (hfree : ItemsFree t)
    (hi : i < 2 ^ bitsPerLong) :
    ∃ e t' live', deleteItem i item t = .ok (e, t') ∧ Shape t' live' ∧ t'.isIdr = t.isIdr ∧
      (OnlyFree t → OnlyFree t') ∧ Deleted i item t t' e ∧
      (t.isIdr = false → Tight t live → Tight t' live') := by
  rcases lookupSlot_spec h.toLinks hi with ⟨s, hs, hend, heq⟩ | ⟨hnone, heq⟩
  · rcases h.read_end hs hend with hnull | ⟨v, hv, -⟩
    · have hfreeBit : (!t.isIdr || nodeTagGet t s idrFree) = true := by
        have hok := h.tags s (hs.ok h.toLinks) idrFree
        rw [Tree.TagOk, hnull] at hok
        have hbit : t.bit s idrFree = t.blankTag idrFree := hok
        rw [nodeTagGet_eq, hbit, blankTag]
        simp
      refine ⟨.null, t, live, ?_, h, rfl, id, .inr ⟨fun v g hst => ?_, rfl, rfl⟩, fun _ => id⟩
      · rw [deleteItem, heq]
        exact if_pos ⟨hnull, hfreeBit⟩
      · exact absurd hst (not_stores hs hnull)
    have hst : Stores t i v (t.bit s) := ⟨s, hs, hv, rfl⟩
    obtain ⟨s', hleaf, hread, -⟩ := hst.leaf h.toLinks
    obtain rfl := hs.unique hleaf.1 hend hleaf.2.1
    by_cases hmatch : ∀ w, item = some w → w = v
    · obtain ⟨t', live', heq', h', hidr, hof, hstores, htight⟩ := deleteSlot_spec h hleaf hread hfree
      refine ⟨.item v, t', live', ?_, h', hidr, hof, .inl ⟨v, _, hst, hmatch, rfl, hstores⟩, htight⟩
      rw [deleteItem_found (hv ▸ heq), if_neg, heq']
      · rfl
      cases item with
      | none => simp
      | some w => simp [hmatch w rfl]
    push Not at hmatch
    obtain ⟨w, rfl, hw⟩ := hmatch
    refine ⟨.null, t, live, ?_, h, rfl, id, .inr ⟨fun v' g hst' => ⟨w, rfl, ?_⟩, rfl, rfl⟩, fun _ => id⟩
    · rw [deleteItem_found (hv ▸ heq), if_pos]
      simpa using Ne.symm hw
    · rwa [(hst'.unique hst).1]
  refine ⟨.null, t, live, ?_, h, rfl, id, .inr ⟨fun v g hst => ?_, rfl, rfl⟩, fun _ => id⟩
  · rw [deleteItem, heq]
    rfl
  obtain ⟨s, hs, hread, -⟩ := hst
  cases (hnone s hs).symm.trans hread

end

end LinuxNote.RadixTree
