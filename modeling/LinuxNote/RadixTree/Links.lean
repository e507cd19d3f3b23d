import LinuxNote.RadixTree.Basic

/-! How the slots of a radix tree hang together.

    The slots that a lookup of an index visits are the ones `On` its walk. Every node in use is in the
    slot that its parent and offset name, so that a slot is on the walks of the indices with one common
    prefix, and of no others. -/

namespace LinuxNote.RadixTree
open Radix Function Prod Option Nat
open Config (mapShift)

section
variable [Config]

theorem mapSize_pos : 0 < mapSize := Nat.two_pow_pos _

theorem descend_lt (node : Node) (i : ℕ) : node.descend i < mapSize := digit_lt ..

/-- The largest index below a node, whether or not the shift overflows. -/
theorem shiftMaxindex_eq (s : ℕ) : shiftMaxindex s = 2 ^ min (s + mapShift) bitsPerLong - 1 := by
  have hsize : mapSize * 2 ^ s = 2 ^ (s + mapShift) := by
    rw [mapSize, ← Nat.pow_add, Nat.add_comm]
  have hpos := Nat.two_pow_pos (s + mapShift)
  rw [shiftMaxindex, hsize]
  rcases lt_or_ge (s + mapShift) bitsPerLong with hlt | hge
  · have hpow : 2 ^ (s + mapShift) < 2 ^ bitsPerLong := Nat.pow_lt_pow_right (by omega) hlt
    have hsum : 2 ^ (s + mapShift) + (2 ^ bitsPerLong - 1) = 2 ^ (s + mapShift) - 1 +
      2 ^ bitsPerLong := by omega
    rw [mod_eq_of_lt hpow, hsum, add_mod_right, mod_eq_of_lt (by omega), min_eq_left hlt.le]
  · rw [Nat.mod_eq_zero_of_dvd (Nat.pow_dvd_pow 2 hge), Nat.zero_add, Nat.mod_eq_of_lt (by decide),
      min_eq_right hge]

theorem le_shiftMaxindex {i s : ℕ} (hi : i < 2 ^ bitsPerLong) :
    i ≤ shiftMaxindex s ↔ i < 2 ^ (s + mapShift) := by
  rw [shiftMaxindex_eq, Nat.le_sub_one_iff_lt (Nat.two_pow_pos _)]
  rcases Nat.le_total (s + mapShift) bitsPerLong with hle | hge
  · rw [min_eq_left hle]
  · rw [min_eq_right hge, iff_true_intro hi,
      iff_true_intro (hi.trans_le (Nat.pow_le_pow_right (by decide) hge))]

end

/-! ### Slots and entries -/

namespace Tree
variable {t : Tree}

/-- The tag bit of a slot; for the slot of the root it is in the flags of the root. -/
def bit (t : Tree) (s : Slot) (tag : Tag) : Bool :=
  match s with
  | none => t.rootTags tag
  | some (n, o) => (t.nodes n).tags tag o

theorem putRootTag_nodes (tag : Tag) (b : Bool) : (t.putRootTag tag b).nodes = t.nodes := rfl

theorem modify_self (n : ℕ) (f : Node → Node) : (t.modify n f).nodes n = f (t.nodes n) :=
  update_self ..

theorem modify_of_ne {n k : ℕ} (f : Node → Node) (h : k ≠ n) : (t.modify n f).nodes k = t.nodes k :=
  update_of_ne h ..

theorem read_assign (s s' : Slot) (e : Entry) :
    (t.assign s e).read s' = if s' = s then e else t.read s' := by
  match s, s' with
  | none, none => rfl
  | none, some (k, o) => rfl
  | some (n, o), none => rfl
  | some (n, o), some (k, o') =>
    rw [assign, read]
    by_cases hk : k = n
    · subst hk
      rw [modify_self, Node.setSlot]
      by_cases ho : o' = o
      · subst ho
        rw [if_pos rfl]
        exact update_self ..
      · rw [if_neg (by simpa using ho)]
        exact update_of_ne ho ..
    · rw [modify_of_ne _ hk, if_neg (by simp [hk])]
      rfl

end Tree

/-- The node of the slot is in use, and the offset is in range. -/
def SlotOk [Config] (live : Set ℕ) (s : Slot) : Prop := ∀ p o, s = some (p, o) → p ∈ live ∧ o < mapSize

section
variable [Config] {t : Tree} {live : Set ℕ} {i j : ℕ} {s s' : Slot}

/-- The tree is high enough for the index. -/
def Tree.Covers (t : Tree) (i : ℕ) : Prop :=
  match t.xaHead with
  | .null => True
  | .item _ => i = 0
  | .node r => i < 2 ^ ((t.nodes r).shift + mapShift)

/-- The slots that a lookup of `i` visits. -/
inductive On (t : Tree) (i : ℕ) : Slot → Prop
  | head : t.Covers i → On t i none
  | next {s : Slot} {n : ℕ} : On t i s → t.read s = .node n → On t i (slotIn t n i)

/-- The links between the nodes in use, `live`. -/
structure Links (t : Tree) (live : Set ℕ) : Prop where
  fresh : ∀ n ∈ live, n < t.next
  home : ∀ n ∈ live, SlotOk live (t.home n) ∧ t.read (t.home n) = .node n
  rootOffset : ∀ n ∈ live, (t.nodes n).parent = none → (t.nodes n).offset = 0
  child : ∀ s, SlotOk live s → ∀ c, t.read s = .node c → c ∈ live ∧ t.home c = s ∧
    ∀ p o, s = some (p, o) → (t.nodes c).shift + mapShift = (t.nodes p).shift
  item : ∀ p ∈ live, ∀ o < mapSize, ∀ v, (t.nodes p).slots o = .item v → (t.nodes p).shift = 0
  shift : ∀ n ∈ live, mapShift ∣ (t.nodes n).shift ∧ (t.nodes n).shift < bitsPerLong
  bound : ∀ p ∈ live, ∀ o < mapSize, (t.nodes p).slots o ≠ .null →
    o * 2 ^ (t.nodes p).shift < 2 ^ bitsPerLong

theorem slotOk_none : SlotOk live none := by
  intro p o h
  cases h

theorem slotOk_some {p o : ℕ} : SlotOk live (some (p, o)) ↔ p ∈ live ∧ o < mapSize := by
  refine ⟨fun h => h p o rfl, fun h q r heq => ?_⟩
  obtain ⟨rfl, rfl⟩ := mk.inj (some.inj heq)
  exact h

theorem SlotOk.mono {live' : Set ℕ} (h : SlotOk live s) (hsub : live ⊆ live') : SlotOk live' s :=
  fun p o hs => ⟨hsub (h p o hs).1, (h p o hs).2⟩

theorem slotIn_ok {n : ℕ} (hn : n ∈ live) : SlotOk live (slotIn t n i) :=
  slotOk_some.mpr ⟨hn, descend_lt ..⟩

theorem On.ok (hl : Links t live) (h : On t i s) : SlotOk live s := by
  induction h with
  | head => exact slotOk_none
  | next _ hread ih => exact slotIn_ok (hl.child _ ih _ hread).1

theorem On.offset_lt {n o : ℕ} (h : On t i (some (n, o))) : o < mapSize := by
  generalize hs : some (n, o) = s at h
  rcases h with _ | _
  · cases hs
  obtain ⟨-, rfl⟩ := mk.inj (some.inj hs)
  exact descend_lt ..

theorem On.covers (h : On t i s) : t.Covers i := by
  induction h with
  | head h => exact h
  | next _ _ ih => exact ih

/-- The only way to a slot of a node is through the slot that the node is in. -/
theorem On.home (hl : Links t live) {n o : ℕ} (h : On t i (some (n, o))) :
    On t i (t.home n) ∧ t.read (t.home n) = .node n ∧ o = (t.nodes n).descend i := by
  generalize hs : some (n, o) = s at h
  cases h with
  | head => cases hs
  | @next s k h hread =>
    obtain ⟨rfl, rfl⟩ := mk.inj (some.inj hs)
    obtain ⟨-, hhome, -⟩ := hl.child _ (h.ok hl) _ hread
    rw [hhome]
    exact ⟨h, hread, rfl⟩

/-- The walks that come to the root are those with its prefix. -/
theorem On.root_iff {n : ℕ} (h : On t i none) (hread : t.read none = .node n) :
    On t j none ↔ i / 2 ^ ((t.nodes n).shift + mapShift) = j / 2 ^ ((t.nodes n).shift + mapShift) := by
  have hcov : ∀ k, t.Covers k ↔ k < 2 ^ ((t.nodes n).shift + mapShift) := by
    intro k
    rw [Tree.Covers, show t.xaHead = .node n from hread]
  rw [Nat.div_eq_of_lt ((hcov i).mp h.covers), eq_comm, Nat.div_eq_zero_iff, ← hcov]
  exact ⟨fun hj => .inr hj.covers, fun hj => .head (hj.resolve_left (Nat.two_pow_pos _).ne')⟩

/-- The indices whose walks have a slot are those with a common prefix. -/
theorem On.iff_prefix (hl : Links t live) {n o : ℕ} (h : On t i (some (n, o))) :
    On t j (some (n, o)) ↔ i / 2 ^ (t.nodes n).shift = j / 2 ^ (t.nodes n).shift := by
  generalize hs : some (n, o) = s at h
  induction h generalizing n o with
  | head => cases hs
  | @next s k h hread ih =>
    obtain ⟨rfl, rfl⟩ := mk.inj (some.inj hs)
    obtain ⟨hlive, hhome, hshift⟩ := hl.child _ (h.ok hl) _ hread
    -- above the node the walks are the same
    have hup : On t j s ↔ i / 2 ^ ((t.nodes n).shift + mapShift) = j /
      2 ^ ((t.nodes n).shift + mapShift) := by
      match s with
      | some (p, q) =>
        rw [hshift p q rfl]
        exact ih rfl
      | none => exact h.root_iff hread
    constructor
    · intro hj
      obtain ⟨hj', -, hd⟩ := hj.home hl
      rw [hhome] at hj'
      rw [Radix.div_eq mapShift, hup.mp hj', ← Node.descend, hd]
      exact (Radix.div_eq ..).symm
    intro heq
    have hj : On t j s :=
      hup.mpr (by rw [Nat.pow_add, ← Nat.div_div_eq_div_mul, ← Nat.div_div_eq_div_mul, heq])
    have hd : (t.nodes n).descend i = (t.nodes n).descend j := congrArg (· % _) heq
    have hnext := hj.next hread
    rw [slotIn, ← hd] at hnext
    exact hnext

/-- The walks that come to a node are those with a common prefix above it. -/
theorem On.iff_above {n : ℕ} (hl : Links t live) (h : On t i s) (hread : t.read s = .node n) :
    On t j s ↔ i / 2 ^ ((t.nodes n).shift + mapShift) = j / 2 ^ ((t.nodes n).shift + mapShift) := by
  match s with
  | none => exact h.root_iff hread
  | some (p, q) =>
    rw [(hl.child _ (h.ok hl) n hread).2.2 p q rfl]
    exact h.iff_prefix hl

theorem On.sibling (hl : Links t live) {n o : ℕ} (h : On t i (some (n, o)))
    (hup : i / 2 ^ ((t.nodes n).shift + mapShift) = j / 2 ^ ((t.nodes n).shift + mapShift)) :
    On t j (slotIn t n j) := by
  obtain ⟨hhome, hread, -⟩ := h.home hl
  exact .next ((hhome.iff_above hl hread).mpr hup) hread

/-! ### Walks -/

/-- The walk that a loop follows passes the slots in order. -/
theorem On.steps (h : On t i s) :
    ∃ k, ∀ fuel, tagClearLoop t i (fuel + k) none = tagClearLoop t i fuel s := by
  induction h with
  | head => exact ⟨0, fun _ => rfl⟩
  | @next s n _ hread ih =>
    obtain ⟨k, hk⟩ := ih
    refine ⟨k + 1, fun fuel => ?_⟩
    rw [show fuel + (k + 1) = fuel + 1 + k by omega, hk, tagClearLoop, hread]

theorem tagClearLoop_end {fuel : ℕ} (h : ∀ n, t.read s ≠ .node n) :
    tagClearLoop t i (fuel + 1) s = .ok (t.read s, s) := by
  rw [tagClearLoop]
  split
  · rename_i n hn
    exact absurd hn (h n)
  · rfl

/-- A walk ends in one slot. -/
theorem On.unique (h : On t i s) (h' : On t i s') (hs : ∀ n, t.read s ≠ .node n)
    (hs' : ∀ n, t.read s' ≠ .node n) : s = s' := by
  obtain ⟨k, hk⟩ := h.steps
  obtain ⟨k', hk'⟩ := h'.steps
  have h1 := hk (k' + 1)
  have h2 := hk' (k + 1)
  rw [show k' + 1 + k = k + 1 + k' by omega, h2, tagClearLoop_end hs, tagClearLoop_end hs'] at h1
  exact (mk.inj (Except.ok.inj h1)).2.symm

/-- What a walk finds at its end. -/
theorem Links.read_end (hl : Links t live) (h : On t i s) (hs : ∀ n, t.read s ≠ .node n) :
    t.read s = .null ∨ ∃ v, t.read s = .item v ∧ ∀ p o, s = some (p, o) → (t.nodes p).shift = 0 := by
  cases hread : t.read s with
  | null => exact .inl rfl
  | node n => exact absurd hread (hs n)
  | item v =>
    refine .inr ⟨v, rfl, ?_⟩
    rintro p o rfl
    obtain ⟨hp, ho⟩ := h.ok hl p o rfl
    exact hl.item p hp o ho v hread

/-- The number of slots that may still come. -/
def Tree.rest (t : Tree) (s : Slot) : ℕ :=
  match s with
  | none => bitsPerLong
  | some (p, _) => (t.nodes p).shift

theorem Links.rest_slotIn (hl : Links t live) (h : SlotOk live s) {n : ℕ} (hread : t.read s = .node n) :
    t.rest (slotIn t n i) < t.rest s := by
  obtain ⟨hn, -, hshift⟩ := hl.child s h n hread
  match s with
  | none => exact (hl.shift n hn).2
  | some (p, o) =>
    have h1 := hshift p o rfl
    have h2 := Config.pos
    simp only [Tree.rest, slotIn]
    omega

/-- Induction down the tree. -/
@[elab_as_elim] theorem Links.below_induction (hl : Links t live) {P : Slot → Prop} (hs : SlotOk live s)
    (hstep : ∀ s, SlotOk live s → (∀ n o, t.read s = .node n → o < mapSize → P (some (n, o))) → P s) :
    P s := by
  induction hr : t.rest s using Nat.strong_induction_on generalizing s with
  | _ r ih =>
    refine hstep s hs fun n o hread ho => ih _ ?_ (slotOk_some.mpr ⟨(hl.child s hs n hread).1, ho⟩) rfl
    exact hr ▸ hl.rest_slotIn (i := 0) hs hread

/-- Every walk comes to an end. -/
theorem tagClearLoop_spec (hl : Links t live) (fuel : ℕ) (h : On t i s) (hf : t.rest s < fuel) :
    ∃ s', On t i s' ∧ (∀ n, t.read s' ≠ .node n) ∧ tagClearLoop t i fuel s = .ok (t.read s', s') := by
  induction fuel generalizing s with
  | zero => omega
  | succ fuel ih =>
    by_cases hs : ∃ n, t.read s = .node n
    · obtain ⟨n, hread⟩ := hs
      have hrest := hl.rest_slotIn (i := i) (h.ok hl) hread
      rw [tagClearLoop, hread]
      exact ih (h.next hread) (by omega)
    · push Not at hs
      exact ⟨s, h, hs, tagClearLoop_end hs⟩

/-- The loop of the lookup does the same: it only stops one step earlier. -/
theorem lookupLoop_eq (hl : Links t live) (fuel : ℕ) (h : On t i s) (hf : t.rest s < fuel) :
    lookupLoop t i fuel s = tagClearLoop t i fuel s := by
  induction fuel generalizing s with
  | zero => omega
  | succ fuel ih =>
    rw [lookupLoop, tagClearLoop]
    cases hread : t.read s with
    | null | item v => rfl
    | node n =>
      have hrest := hl.rest_slotIn (i := i) (h.ok hl) hread
      have hn := (hl.child s (h.ok hl) n hread).1
      dsimp only
      split
      · rename_i hzero
        -- a node at the bottom has no child nodes
        have hend : ∀ c, t.read (slotIn t n i) ≠ .node c := by
          intro c hc
          have := (hl.child _ (slotIn_ok hn) c hc).2.2 n _ rfl
          have := Config.pos
          omega
        obtain ⟨fuel, rfl⟩ : ∃ k, fuel = k + 1 := ⟨fuel - 1, by omega⟩
        rw [tagClearLoop_end hend]
      · exact ih (h.next hread) (by omega)

end

end LinuxNote.RadixTree
