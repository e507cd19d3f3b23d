import Mathlib.Data.Nat.Bitwise
import Mathlib.Data.Set.Lattice
import Mathlib.Tactic.Ring

/-! Dyadic blocks: `2 ^ order` consecutive numbers from a multiple of `2 ^ order` on. Two of them are
    disjoint or one is in the other. A set of numbers is the union of disjoint dyadic blocks of bounded
    order in many ways, but in one way only if no two of the blocks are buddies, the halves of a larger
    block. -/

namespace LinuxNote.DyadicBlocks
open Set Nat

/-- `2 ^ order` numbers from `start` on. -/
structure Block where
  start : ℕ
  order : ℕ
  deriving DecidableEq

variable {a b : Block} {p q o : ℕ}

instance : Membership ℕ Block := ⟨fun b p => b.start ≤ p ∧ p < b.start + 2 ^ b.order⟩

theorem mem_iff : p ∈ b ↔ b.start ≤ p ∧ p < b.start + 2 ^ b.order := Iff.rfl

def Block.Aligned (b : Block) : Prop := 2 ^ b.order ∣ b.start

theorem start_mem (b : Block) : b.start ∈ b := ⟨le_rfl, Nat.lt_add_of_pos_right (Nat.two_pow_pos _)⟩

theorem mem_iff_div (h : b.Aligned) : p ∈ b ↔ p / 2 ^ b.order = b.start / 2 ^ b.order := by
  obtain ⟨k, hk⟩ := h
  have hpos := Nat.two_pow_pos b.order
  rw [mem_iff, hk, Nat.mul_div_cancel_left _ hpos, Nat.div_eq_iff hpos, Nat.mul_comm k]
  omega

/-- A block that meets one of at least its order lies in it. -/
theorem subset_of_meet (ha : a.Aligned) (hb : b.Aligned) (hle : a.order ≤ b.order) (hpa : p ∈ a)
    (hpb : p ∈ b) (hq : q ∈ a) : q ∈ b := by
  rw [mem_iff_div ha] at hpa hq
  rw [mem_iff_div hb] at hpb ⊢
  obtain ⟨d, hd⟩ := Nat.exists_eq_add_of_le hle
  rw [hd, Nat.pow_add, ← Nat.div_div_eq_div_mul] at hpb ⊢
  rw [hq, ← hpa, hpb]

theorem eq_of_meet (ha : a.Aligned) (hb : b.Aligned) (ho : a.order = b.order) (hpa : p ∈ a)
    (hpb : p ∈ b) : a = b := by
  have hle := (subset_of_meet ha hb ho.le hpa hpb (start_mem a)).1
  have hge := (subset_of_meet hb ha ho.ge hpb hpa (start_mem b)).1
  rcases a with ⟨s, o⟩
  rcases b with ⟨s', o'⟩
  exact congrArg₂ Block.mk (le_antisymm hge hle) ho

theorem order_le_of_subset (h : ∀ q ∈ a, q ∈ b) : a.order ≤ b.order := by
  have hfirst := h a.start (start_mem a)
  have hlast := h (a.start + 2 ^ a.order - 1) ⟨by have := Nat.two_pow_pos a.order; omega,
    by have := Nat.two_pow_pos a.order; omega⟩
  rw [mem_iff] at hfirst hlast
  exact (Nat.pow_le_pow_iff_right (a := 2) (by decide)).mp (by omega)

/-! ### Halves and buddies -/

/-- The other half of the block that a block is half of. -/
def Block.buddy (b : Block) : Block := ⟨b.start ^^^ 2 ^ b.order, b.order⟩

/-- The block that a block is half of. -/
def Block.parent (b : Block) : Block := ⟨b.start &&& b.buddy.start, b.order + 1⟩

theorem xor_one_eq (k : ℕ) : k ^^^ 1 = if k % 2 = 0 then k + 1 else k - 1 := by
  split
  · rename_i h
    exact xor_one_of_even (even_iff.mpr h)
  rename_i h
  exact xor_one_of_odd (odd_iff.mpr (by omega))

theorem and_xor_one (k : ℕ) : k &&& (k ^^^ 1) = 2 * (k / 2) := by
  refine eq_of_testBit_eq fun i => ?_
  rw [testBit_and, testBit_xor]
  cases i with
  | zero => simp [testBit_zero]
  | succ i => simp [testBit_succ]

theorem buddy_mk (o k : ℕ) : (⟨2 ^ o * k, o⟩ : Block).buddy = ⟨2 ^ o * (k ^^^ 1), o⟩ := by
  rw [mul_comm, ← shiftLeft_eq, mul_comm, ← shiftLeft_eq, shiftLeft_xor_distrib, one_shiftLeft]
  rfl

theorem parent_mk (o k : ℕ) : (⟨2 ^ o * k, o⟩ : Block).parent = ⟨2 ^ (o + 1) * (k / 2), o + 1⟩ := by
  rw [Block.parent, buddy_mk]
  refine congrArg₂ Block.mk ?_ rfl
  rw [mul_comm, ← shiftLeft_eq, mul_comm, ← shiftLeft_eq, ← shiftLeft_and_distrib, and_xor_one,
    shiftLeft_eq, pow_succ]
  ring

theorem aligned_mk (o k : ℕ) : (⟨2 ^ o * k, o⟩ : Block).Aligned := Nat.dvd_mul_right ..

theorem mem_mk {k : ℕ} : p ∈ (⟨2 ^ o * k, o⟩ : Block) ↔ p / 2 ^ o = k := by
  rw [mem_iff_div (aligned_mk o k)]
  rw [Nat.mul_div_cancel_left _ (Nat.two_pow_pos o)]

theorem Block.Aligned.eq_mk (h : b.Aligned) : ∃ o k, b = ⟨2 ^ o * k, o⟩ := by
  obtain ⟨k, hk⟩ := h
  exact ⟨b.order, k, by rw [← hk]⟩

section
variable (h : b.Aligned)
include h

theorem buddy_aligned : b.buddy.Aligned := by
  obtain ⟨o, k, rfl⟩ := h.eq_mk
  rw [buddy_mk]
  exact aligned_mk ..

theorem parent_aligned : b.parent.Aligned := by
  obtain ⟨o, k, rfl⟩ := h.eq_mk
  rw [parent_mk]
  exact aligned_mk ..

theorem buddy_buddy : b.buddy.buddy = b := by
  obtain ⟨o, k, rfl⟩ := h.eq_mk
  rw [buddy_mk, buddy_mk, Nat.xor_assoc, Nat.xor_self, Nat.xor_zero]

theorem parent_buddy : b.buddy.parent = b.parent := by
  rw [Block.parent, buddy_buddy h, Nat.and_comm]
  rfl

/-- A block of the next order is made of two buddies. -/
theorem mem_parent : p ∈ b.parent ↔ p ∈ b ∨ p ∈ b.buddy := by
  obtain ⟨o, k, rfl⟩ := h.eq_mk
  rw [buddy_mk, parent_mk, mem_mk, mem_mk, mem_mk, Nat.pow_succ, ← Nat.div_div_eq_div_mul, xor_one_eq]
  split <;> omega

theorem notMem_buddy (hp : p ∈ b) : p ∉ b.buddy := by
  obtain ⟨o, k, rfl⟩ := h.eq_mk
  rw [mem_mk] at hp
  rw [buddy_mk, mem_mk, hp, xor_one_eq]
  split <;> omega

theorem buddy_ne : b.buddy ≠ b := by
  intro heq
  have := notMem_buddy h (start_mem b)
  rw [heq] at this
  exact this (start_mem b)

end

section
variable {s : ℕ} (h : (⟨s, o + 1⟩ : Block).Aligned)
include h

theorem half_eq : ∃ k, s = 2 ^ o * (2 * k) := by
  obtain ⟨k, hk⟩ := h
  refine ⟨k, ?_⟩
  rw [show s = _ from hk, pow_succ]
  ring

theorem half_aligned : (⟨s, o⟩ : Block).Aligned := by
  obtain ⟨k, rfl⟩ := half_eq h
  exact aligned_mk ..

theorem half_buddy : (⟨s, o⟩ : Block).buddy = ⟨s + 2 ^ o, o⟩ := by
  obtain ⟨k, rfl⟩ := half_eq h
  rw [buddy_mk, xor_one_eq, if_pos (by omega), mul_add, mul_one]

theorem half_parent : (⟨s, o⟩ : Block).parent = ⟨s, o + 1⟩ := by
  obtain ⟨k, rfl⟩ := half_eq h
  rw [parent_mk, Nat.mul_div_cancel_left _ (by decide), Nat.pow_succ, Nat.mul_assoc]

theorem mem_halves : p ∈ (⟨s, o + 1⟩ : Block) ↔ p ∈ (⟨s, o⟩ : Block) ∨ p ∈ (⟨s + 2 ^ o, o⟩ : Block) := by
  rw [← half_parent h, mem_parent (half_aligned h), half_buddy h]

end

/-! ### Tilings -/

/-- Disjoint blocks of order at most `m`. -/
structure Tiling (m : ℕ) (D : Set Block) : Prop where
  aligned : ∀ b ∈ D, b.Aligned
  order_le : ∀ b ∈ D, b.order ≤ m
  disjoint : ∀ a ∈ D, ∀ b ∈ D, ∀ p, p ∈ a → p ∈ b → a = b

/-- The numbers in the blocks. -/
def pages (D : Set Block) : Set ℕ := {p | ∃ b ∈ D, p ∈ b}

/-- No two blocks of `D` are halves of a block of order at most `m`. -/
def Coalesced (m : ℕ) (D : Set Block) : Prop := ∀ b ∈ D, b.order < m → b.buddy ∉ D

variable {m : ℕ} {D D' : Set Block}

/-- A block of order `o` in a block of order at least `o` is all of it or lies in a block of the next
    order. -/
theorem eq_or_subset (ha : a.Aligned) (hb : b.Aligned) (hsub : ∀ p ∈ a, p ∈ b) :
    a = b ∨ ∀ p ∈ a.parent, p ∈ b := by
  rcases (order_le_of_subset hsub).eq_or_lt with heq | hlt
  · exact .inl (eq_of_meet ha hb heq (start_mem a) (hsub _ (start_mem a)))
  refine .inr fun p hp => subset_of_meet (parent_aligned ha) hb hlt ?_ (hsub _ (start_mem a)) hp
  exact (mem_parent ha).mpr (.inl (start_mem a))

section
variable (h : Tiling m D) (hc : Coalesced m D)
include h hc

/-- A block of numbers of a coalesced tiling lies in a block of the tiling. -/
theorem Tiling.exists_block (ha : a.Aligned) (hm : a.order ≤ m) (hsub : ∀ p ∈ a, p ∈ pages D) :
    ∃ b ∈ D, ∀ p ∈ a, p ∈ b := by
  obtain ⟨s, o⟩ := a
  induction o generalizing s with
  | zero =>
    obtain ⟨b, hb, hp⟩ := hsub s (start_mem _)
    refine ⟨b, hb, fun p hp' => ?_⟩
    obtain ⟨hge, hlt⟩ : s ≤ p ∧ p < s + 2 ^ 0 := hp'
    rwa [Nat.le_antisymm (Nat.lt_succ_iff.mp hlt) hge]
  | succ o ih =>
    have hlow := half_aligned ha
    have hupp : (⟨s + 2 ^ o, o⟩ : Block).Aligned := half_buddy ha ▸ buddy_aligned hlow
    obtain ⟨l, hl, hsubl⟩ :=
      ih s hlow (le_of_succ_le hm) fun p hp => hsub p ((mem_halves ha).mpr (.inl hp))
    obtain ⟨u, hu, hsubu⟩ := ih (s + 2 ^ o) hupp (le_of_succ_le hm) fun p hp =>
      hsub p ((mem_halves ha).mpr (.inr hp))
    -- two halves that are blocks of the tiling would be buddies
    rcases eq_or_subset hlow (h.aligned l hl) hsubl with rfl | hl'
    · rcases eq_or_subset hupp (h.aligned u hu) hsubu with rfl | hu'
      · exact absurd (half_buddy ha ▸ hu) (hc _ hl hm)
      rw [← half_buddy ha, parent_buddy hlow, half_parent ha] at hu'
      exact ⟨u, hu, hu'⟩
    · exact ⟨l, hl, fun p hp => hl' p (half_parent ha ▸ hp)⟩

theorem Tiling.subset (h' : Tiling m D') (hc' : Coalesced m D') (hpages : pages D = pages D') :
    D ⊆ D' := by
  intro b hb
  obtain ⟨b', hb', hsub⟩ := h'.exists_block hc' (h.aligned b hb) (h.order_le b hb) fun p hp =>
    hpages ▸ ⟨b, hb, hp⟩
  obtain ⟨d, hd, hsub'⟩ := h.exists_block hc (h'.aligned b' hb') (h'.order_le b' hb') fun p hp =>
    hpages ▸ ⟨b', hb', hp⟩
  -- the block around `b'` in the first tiling meets `b`, so it is `b`
  obtain rfl := h.disjoint b hb d hd b.start (start_mem b) (hsub' _ (hsub _ (start_mem b)))
  have ho := le_antisymm (order_le_of_subset hsub) (order_le_of_subset hsub')
  rwa [eq_of_meet (h.aligned b hb) (h'.aligned b' hb') ho (start_mem b) (hsub _ (start_mem b))]

end

/-! ### Free and used blocks -/

/-- The numbers `S` are divided into free blocks, which are coalesced, and used ones. -/
structure Partition (m : ℕ) (S : Set ℕ) (F O : Set Block) : Prop where
  tiling : Tiling m (F ∪ O)
  apart : ∀ b ∈ F, b ∉ O
  pages_eq : pages (F ∪ O) = S
  coalesced : Coalesced m F

variable {S : Set ℕ} {F O A A' : Set Block} {s : ℕ}

theorem pages_eq_biUnion (D : Set Block) : pages D = ⋃ b ∈ D, {p | p ∈ b} := by
  ext p
  simp [pages]

theorem pages_union : pages (A ∪ A') = pages A ∪ pages A' := by
  simp only [pages_eq_biUnion, biUnion_union]

theorem pages_singleton : pages {b} = {p | p ∈ b} := by
  rw [pages_eq_biUnion, biUnion_singleton]

theorem tiling_singleton (h : b.Aligned) (hm : b.order ≤ m) : Tiling m {b} :=
  ⟨fun _ hb => hb ▸ h, fun _ hb => hb ▸ hm, fun _ ha _ hb _ _ _ => ha.trans hb.symm⟩

theorem tiling_pair (h : b.Aligned) (hm : b.order ≤ m) : Tiling m {b, b.buddy} := by
  refine ⟨?_, ?_, ?_⟩
  · rintro _ (rfl | rfl)
    · exact h
    · exact buddy_aligned h
  · rintro _ (rfl | rfl)
    · exact hm
    · exact hm
  rintro _ (rfl | rfl) _ (rfl | rfl) p hp hp'
  · rfl
  · exact absurd hp' (notMem_buddy h hp)
  · exact absurd hp (notMem_buddy h hp')
  · rfl

theorem pages_pair (h : b.Aligned) : pages {b, b.buddy} = {p | p ∈ b.parent} := by
  rw [pages_eq_biUnion, biUnion_pair]
  ext p
  exact (mem_parent h).symm

/-- The blocks of order 0 of a set of numbers. -/
def units (S : Set ℕ) : Set Block := {b | ∃ p ∈ S, b = ⟨p, 0⟩}

theorem tiling_units (S : Set ℕ) : Tiling m (units S) := by
  refine ⟨?_, ?_, ?_⟩
  · rintro _ ⟨p, -, rfl⟩
    exact one_dvd p
  · rintro _ ⟨p, -, rfl⟩
    exact zero_le m
  rintro _ ⟨p, -, rfl⟩ _ ⟨q, -, rfl⟩ r ⟨hp, hp'⟩ ⟨hq, hq'⟩
  dsimp only at hp hp' hq hq'
  rw [show p = q by omega]

theorem pages_units (S : Set ℕ) : pages (units S) = S := by
  ext p
  constructor
  · rintro ⟨_, ⟨q, hq, rfl⟩, hge, hlt⟩
    dsimp only at hge hlt
    rwa [show p = q by omega]
  · intro hp
    exact ⟨⟨p, 0⟩, ⟨p, hp, rfl⟩, start_mem _⟩

namespace Partition
variable (h : Partition m S F O)
include h

/-- Used blocks may be cut in another way. -/
theorem replace (hA : A ⊆ O) (hA' : Tiling m A') (hp : pages A' = pages A) :
    Partition m S F (O \ A ∪ A') := by
  -- a block that stays and meets the numbers that are cut again is one of those that go
  have hgone : ∀ a ∈ F ∪ O, ∀ b ∈ A', ∀ p, p ∈ a → p ∈ b → a ∈ A := by
    intro a ha b hb p hpa hpb
    obtain ⟨c, hc, hpc⟩ : p ∈ pages A := hp ▸ ⟨b, hb, hpb⟩
    rwa [h.tiling.disjoint a ha c (.inr (hA hc)) p hpa hpc]
  have hfree : ∀ b ∈ F, b ∉ A' := fun b hb hb' =>
    h.apart b hb (hA (hgone b (.inl hb) b hb' b.start (start_mem b) (start_mem b)))
  have hcases : ∀ b ∈ F ∪ (O \ A ∪ A'), (b ∈ F ∪ O ∧ b ∉ A) ∨ b ∈ A' := by
    rintro b (hb | hb | hb)
    · exact .inl ⟨.inl hb, fun hbA => h.apart b hb (hA hbA)⟩
    · exact .inl ⟨.inr hb.1, hb.2⟩
    · exact .inr hb
  refine ⟨⟨?_, ?_, ?_⟩, ?_, ?_, h.coalesced⟩
  · intro b hb
    rcases hcases b hb with ⟨hb, -⟩ | hb
    · exact h.tiling.aligned b hb
    · exact hA'.aligned b hb
  · intro b hb
    rcases hcases b hb with ⟨hb, -⟩ | hb
    · exact h.tiling.order_le b hb
    · exact hA'.order_le b hb
  · intro a ha b hb p hpa hpb
    rcases hcases a ha with ⟨ha, hna⟩ | ha <;> rcases hcases b hb with ⟨hb, hnb⟩ | hb
    · exact h.tiling.disjoint a ha b hb p hpa hpb
    · exact absurd (hgone a ha b hb p hpa hpb) hna
    · exact absurd (hgone b hb a ha p hpb hpa) hnb
    · exact hA'.disjoint a ha b hb p hpa hpb
  · rintro b hb (hb' | hb')
    · exact h.apart b hb hb'.1
    · exact hfree b hb hb'
  · rw [pages_union, pages_union, hp, ← pages_union, sdiff_union_of_subset hA, ← pages_union, h.pages_eq]

/-- The used numbers as single blocks. -/
theorem toUnits : Partition m S F (units (pages O)) := by
  have hsingle := h.replace (Subset.refl O) (tiling_units (pages O)) (pages_units _)
  rwa [sdiff_self, empty_union] at hsingle

/-- The numbers in free blocks are those in no used block. -/
theorem pages_free : pages F = S \ pages O := by
  rw [← h.pages_eq, pages_union, union_sdiff_right]
  ext p
  refine ⟨?_, And.left⟩
  rintro ⟨a, ha, hpa⟩
  refine ⟨⟨a, ha, hpa⟩, ?_⟩
  rintro ⟨b, hb, hpb⟩
  refine h.apart a ha ?_
  rwa [h.tiling.disjoint a (.inl ha) b (.inr hb) p hpa hpb]

theorem tiling_free : Tiling m F :=
  ⟨fun a ha => h.tiling.aligned a (.inl ha), fun a ha => h.tiling.order_le a (.inl ha),
    fun a ha b hb => h.tiling.disjoint a (.inl ha) b (.inl hb)⟩

/-- The free blocks are known from the free numbers. -/
theorem unique {F' O' : Set Block} (h' : Partition m S F' O') (hpages : pages F = pages F') : F = F' :=
  (h.tiling_free.subset h.coalesced h'.tiling_free h'.coalesced hpages).antisymm
    (h'.tiling_free.subset h'.coalesced h.tiling_free h.coalesced hpages.symm)

/-- Any aligned block of used numbers can be made one of the used blocks. -/
theorem regroup (hb : b.Aligned) (hm : b.order ≤ m) (hsub : ∀ p ∈ b, p ∈ pages O) :
    ∃ O', Partition m S F O' ∧ b ∈ O' := by
  have hunits := h.toUnits
  have hcut : pages {b} = pages (units {p | p ∈ b}) := by rw [pages_units, pages_singleton]
  have hle : units {p | p ∈ b} ⊆ units (pages O) := by
    rintro _ ⟨p, hp, rfl⟩
    exact ⟨p, hsub p hp, rfl⟩
  exact ⟨_, hunits.replace hle (tiling_singleton hb hm) hcut, .inr rfl⟩

theorem exists_block (hp : p ∈ S) : ∃ b ∈ F ∪ O, p ∈ b := by
  rw [← h.pages_eq] at hp
  exact hp

theorem mem_of_block (hb : b ∈ F ∪ O) (hp : p ∈ b) : p ∈ S := by
  rw [← h.pages_eq]
  exact ⟨b, hb, hp⟩

end Partition

/-- A partition with a block `b` in hand, which is neither free nor one of the used blocks `O`. -/
structure Carrying (m : ℕ) (S : Set ℕ) (F : Set Block) (b : Block) (O : Set Block) : Prop where
  partition : Partition m S F (insert b O)
  fresh : b ∉ O

theorem Partition.take (h : Partition m S F O) (hb : b ∈ F) : Carrying m S (F \ {b}) b O := by
  have hunion : F \ {b} ∪ insert b O = F ∪ O := by
    rw [union_insert, ← insert_union, insert_sdiff_singleton, insert_eq_of_mem hb]
  refine ⟨⟨hunion ▸ h.tiling, ?_, hunion ▸ h.pages_eq, fun a ha ho hbud => h.coalesced a ha.1 ho hbud.1⟩,
    h.apart b hb⟩
  rintro a ⟨ha, hne⟩ (rfl | ha')
  · exact hne rfl
  · exact h.apart a ha ha'

theorem Partition.release (h : Partition m S F O) (hb : b ∈ O) : Carrying m S F b (O \ {b}) := by
  refine ⟨?_, fun hb' => hb'.2 rfl⟩
  rwa [insert_sdiff_singleton, insert_eq_of_mem hb]

namespace Carrying
variable (h : Carrying m S F b O)
include h

theorem aligned : b.Aligned :=
  h.partition.tiling.aligned b (.inr (.inl rfl))

theorem order_le : b.order ≤ m :=
  h.partition.tiling.order_le b (.inr (.inl rfl))

theorem start_mem : b.start ∈ S :=
  h.partition.mem_of_block (.inr (.inl rfl)) (DyadicBlocks.start_mem b)

/-- A block that is free or used does not meet the one in hand. -/
theorem notMem (ha : a ∈ F ∪ O) (hp : p ∈ a) : p ∉ b := by
  intro hpb
  have ha' : a ∈ F ∪ insert b O := ha.imp_right .inr
  rw [h.partition.tiling.disjoint a ha' b (.inr (.inl rfl)) p hp hpb] at ha
  rcases ha with ha | ha
  · exact h.partition.apart b ha (.inl rfl)
  · exact h.fresh ha

theorem give (hbuddy : b.order < m → b.buddy ∉ F) : Partition m S (insert b F) O := by
  have hunion : insert b F ∪ O = F ∪ insert b O := by
    rw [insert_union, union_insert]
  refine ⟨hunion ▸ h.partition.tiling, ?_, hunion ▸ h.partition.pages_eq, ?_⟩
  · rintro a (rfl | ha) ha'
    · exact h.fresh ha'
    · exact h.partition.apart a ha (.inr ha')
  rintro a (rfl | ha) ho (heq | hbud)
  · exact buddy_ne h.aligned heq
  · exact hbuddy ho hbud
  · -- the buddy of `a` is `b`
    rw [← heq] at hbuddy
    refine hbuddy ho ?_
    rwa [buddy_buddy (h.partition.tiling.aligned a (.inl ha))]
  · exact h.partition.coalesced a ha ho hbud

end Carrying

/-- The block in hand is cut and its upper half becomes free. -/
theorem Carrying.split (h : Carrying m S F ⟨s, o + 1⟩ O) :
    Carrying m S (insert ⟨s + 2 ^ o, o⟩ F) ⟨s, o⟩ O := by
  have hlow := half_aligned h.aligned
  have hhigh := half_buddy h.aligned
  have hout : ∀ a ∈ F ∪ O, a ≠ ⟨s, o⟩ ∧ a ≠ ⟨s + 2 ^ o, o⟩ := by
    refine fun a ha => ⟨?_, ?_⟩
    · rintro rfl
      exact h.notMem ha (DyadicBlocks.start_mem _)
        ((mem_halves h.aligned).mpr (.inl (DyadicBlocks.start_mem _)))
    rintro rfl
    exact h.notMem ha (DyadicBlocks.start_mem _)
      ((mem_halves h.aligned).mpr (.inr (DyadicBlocks.start_mem _)))
  have hcut : Partition m S F (insert ⟨s + 2 ^ o, o⟩ (insert ⟨s, o⟩ O)) := by
    have hpair := h.partition.replace (singleton_subset_iff.mpr (.inl rfl))
      (tiling_pair hlow ((le_succ o).trans h.order_le))
      (by rw [pages_pair hlow, half_parent h.aligned, pages_singleton])
    rw [insert_sdiff_self_of_notMem h.fresh, hhigh] at hpair
    rwa [insert_comm, insert_eq, insert_eq, ← union_assoc, ← insert_eq, union_comm]
  have hne : (⟨s + 2 ^ o, o⟩ : Block) ∉ insert (⟨s, o⟩ : Block) O := by
    rintro (heq | hmem)
    · exact buddy_ne hlow (hhigh.trans heq)
    · exact (hout _ (.inr hmem)).2 rfl
  refine ⟨Carrying.give ⟨hcut, hne⟩ fun _ hmem => ?_, fun hmem => (hout _ (.inr hmem)).1 rfl⟩
  rw [← hhigh, buddy_buddy hlow] at hmem
  exact (hout _ (.inl hmem)).1 rfl

/-- The buddy of the block in hand is free and joins it. -/
theorem Carrying.absorb (h : Carrying m S F b O) (hm : b.order < m) (hbuddy : b.buddy ∈ F) :
    Carrying m S (F \ {b.buddy}) b.parent O := by
  have htake := h.partition.take hbuddy
  have hbud : b.buddy ∉ O := fun hmem => htake.fresh (.inr hmem)
  have hjoin := htake.partition.replace (pair_subset (.inr (.inl rfl)) (.inl rfl))
    (tiling_singleton (parent_aligned h.aligned) hm) (by rw [pages_pair h.aligned, pages_singleton])
  have hrest : insert b.buddy (insert b O) \ {b, b.buddy} ∪ {b.parent} = insert b.parent O := by
    rw [union_singleton]
    congr 1
    ext a
    constructor
    · rintro ⟨rfl | rfl | ha, hna⟩
      · exact absurd (.inr rfl) hna
      · exact absurd (.inl rfl) hna
      · exact ha
    intro ha
    refine ⟨.inr (.inr ha), ?_⟩
    rintro (rfl | rfl)
    · exact h.fresh ha
    · exact hbud ha
  rw [hrest] at hjoin
  refine ⟨hjoin, fun hmem => ?_⟩
  exact h.notMem (.inr hmem) ((mem_parent h.aligned).mpr (.inl (DyadicBlocks.start_mem b)))
    (DyadicBlocks.start_mem b)

end LinuxNote.DyadicBlocks
