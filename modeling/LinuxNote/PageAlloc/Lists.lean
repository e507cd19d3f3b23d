import LinuxNote.PageAlloc.Basic
import Mathlib.Algebra.Order.BigOperators.Group.Finset

/-! The free lists of a zone agree with the flags of the pages and with the counts.

    A block leaves the lists, enters them or moves from one list to another. Each of the three keeps the
    agreement, and says what becomes of the set of free blocks and of the number of free pages. -/

namespace LinuxNote.PageAlloc
open Config DyadicBlocks Function List Nat

variable {z z' : Zone} {p q o o' : ℕ} {t t' mt : Migratetype}

/-- The blocks whose heads are on the list of their order. -/
def Zone.freeBlocks (z : Zone) : Set Block := {b | ∃ t, b.start ∈ z.freeList b.order t}

/-- The free-page counter and the number of isolated pageblocks stay. -/
structure Quiet (z z' : Zone) : Prop where
  nrFreePages_eq : z'.nrFreePages = z.nrFreePages
  nrIsolatePageblock_eq : z'.nrIsolatePageblock = z.nrIsolatePageblock

theorem Quiet.refl (z : Zone) : Quiet z z := ⟨rfl, rfl⟩

theorem Quiet.trans {z''} (h : Quiet z z') (h' : Quiet z' z'') : Quiet z z'' :=
  ⟨h'.1.trans h.1, h'.2.trans h.2⟩

/-! ### Sums -/

theorem sum_update_mul {s : Finset ℕ} {f w : ℕ → ℕ} {i v : ℕ} (hi : i ∈ s) :
    (∑ x ∈ s, update f i v x * w x) + f i * w i = (∑ x ∈ s, f x * w x) + v * w i := by
  rw [← Finset.add_sum_erase s _ hi, ← Finset.add_sum_erase s (fun x => f x * w x) hi, update_self]
  have hrest : ∑ x ∈ s.erase i, update f i v x * w x = ∑ x ∈ s.erase i, f x * w x :=
    Finset.sum_congr rfl fun x hx => by rw [update_of_ne (Finset.ne_of_mem_erase hx)]
  rw [hrest]
  omega

/-- The lengths of the lists of one order when the list of one type changes. -/
theorem sum_length_eq (mt : Migratetype) (L L' : Migratetype → List ℕ)
    (hother : ∀ t ≠ mt, (L' t).length = (L t).length) :
    (∑ t, (L' t).length) + (L mt).length = (∑ t, (L t).length) + (L' mt).length := by
  rw [← Finset.add_sum_erase _ (fun t => (L' t).length) (Finset.mem_univ mt),
    ← Finset.add_sum_erase _ (fun t => (L t).length) (Finset.mem_univ mt)]
  have hrest : ∑ t ∈ Finset.univ.erase mt, (L' t).length = ∑ t ∈ Finset.univ.erase mt, (L t).length :=
    Finset.sum_congr rfl fun t ht => hother t (Finset.ne_of_mem_erase ht)
  rw [hrest]
  omega

/-! ### What a new block changes -/

/-- `z'` is `z` with the block of order `o` at `p` put somewhere on the list of `mt`. -/
structure Given (z z' : Zone) (p o : ℕ) (mt : Migratetype) : Prop where
  perm : (z'.freeList o mt).Perm (p :: z.freeList o mt)
  other : ∀ o' t', ¬ (o' = o ∧ t' = mt) → z'.freeList o' t' = z.freeList o' t'
  nrFree_eq : z'.nrFree = Function.update z.nrFree o (z.nrFree o + 1)
  pageBuddy_eq : z'.pageBuddy = Function.update z.pageBuddy p true
  pagePrivate_eq : z'.pagePrivate = Function.update z.pagePrivate p o
  quiet : Quiet z z'

theorem given_add (z : Zone) (p o : ℕ) (mt : Migratetype) :
    Given z (((z.setPageOrder p o).listAdd p o mt).incNrFree o) p o mt where
  perm := by
    change (if o = o ∧ mt = mt then p :: z.freeList o mt else _).Perm _
    rw [if_pos ⟨rfl, rfl⟩]
  other _ _ hne := if_neg hne
  nrFree_eq := rfl
  pageBuddy_eq := rfl
  pagePrivate_eq := rfl
  quiet := ⟨rfl, rfl⟩

theorem given_addTail (z : Zone) (p o : ℕ) (mt : Migratetype) :
    Given z (((z.setPageOrder p o).listAddTail p o mt).incNrFree o) p o mt where
  perm := by
    change (if o = o ∧ mt = mt then z.freeList o mt ++ [p] else _).Perm _
    rw [if_pos ⟨rfl, rfl⟩]
    exact perm_append_singleton ..
  other _ _ hne := if_neg hne
  nrFree_eq := rfl
  pageBuddy_eq := rfl
  pagePrivate_eq := rfl
  quiet := ⟨rfl, rfl⟩

theorem Given.mem_iff (hg : Given z z' p o mt) : q ∈ z'.freeList o' t' ↔ (q = p ∧ o' = o ∧ t' = mt) ∨
    q ∈ z.freeList o' t' := by
  by_cases heq : o' = o ∧ t' = mt
  · obtain ⟨rfl, rfl⟩ := heq
    rw [hg.perm.mem_iff, mem_cons]
    exact or_congr_left ⟨fun h => ⟨h, rfl, rfl⟩, And.left⟩
  · rw [hg.other o' t' heq]
    exact ⟨.inr, fun h => h.resolve_left fun h => heq h.2⟩

theorem Given.freeBlocks_eq (hg : Given z z' p o mt) : z'.freeBlocks = insert ⟨p, o⟩ z.freeBlocks := by
  ext ⟨q, o'⟩
  constructor
  · rintro ⟨t', hq⟩
    rcases hg.mem_iff.mp hq with ⟨rfl, rfl, -⟩ | hq
    · exact .inl rfl
    · exact .inr ⟨t', hq⟩
  rintro (heq | ⟨t', hq⟩)
  · obtain ⟨rfl, rfl⟩ := Block.mk.inj heq
    exact ⟨mt, hg.mem_iff.mpr (.inl ⟨rfl, rfl, rfl⟩)⟩
  · exact ⟨t', hg.mem_iff.mpr (.inr hq)⟩

/-! ### The invariant -/

variable [Config]

/-- A page of the zone. -/
def Ours (p : ℕ) : Prop := pfnValidWithin p = true ∧ pageZoneId p = zoneId

theorem ours_of_managed (hp : p ∈ managed) : Ours p := ⟨managed_valid p hp, managed_zone p hp⟩

theorem ours_of_span (hs : zoneSpansPfn p = true) (hv : pfnValidWithin p = true) : Ours p := by
  rw [zoneSpansPfn, Bool.and_eq_true, decide_eq_true_iff, decide_eq_true_iff] at hs
  exact ⟨hv, span_zone p hs.1 hs.2 hv⟩

structure Zone.Lists (z : Zone) : Prop where
  nodup : ∀ o t, (z.freeList o t).Nodup
  mem : ∀ {p o t}, p ∈ z.freeList o t → o < maxOrder ∧ Ours p ∧ z.pageBuddy p = true ∧
    z.pagePrivate p = o
  type_unique : ∀ {p o t t'}, p ∈ z.freeList o t → p ∈ z.freeList o t' → t = t'
  exists_list : ∀ {p}, Ours p → z.pageBuddy p = true → ∃ t, p ∈ z.freeList (z.pagePrivate p) t
  nrFree_eq : ∀ o, z.nrFree o = ∑ t, (z.freeList o t).length

namespace Zone.Lists
variable (h : z.Lists)
include h

theorem eq_of_mem (hp : p ∈ z.freeList o t) (hp' : p ∈ z.freeList o' t') : o' = o ∧ t' = t := by
  obtain rfl : o' = o := (h.mem hp').2.2.2.symm.trans (h.mem hp).2.2.2
  exact ⟨rfl, h.type_unique hp' hp⟩

/-- A free block is known from the flags of its head. -/
theorem mem_freeBlocks_iff (hp : Ours p) : (⟨p, o⟩ : Block) ∈ z.freeBlocks ↔ z.pageBuddy p = true ∧
    z.pagePrivate p = o := by
  constructor
  · rintro ⟨t, ht⟩
    exact (h.mem ht).2.2
  rintro ⟨hbuddy, rfl⟩
  exact h.exists_list hp hbuddy

theorem nrFree_pos (hp : p ∈ z.freeList o t) : 0 < z.nrFree o := by
  rw [h.nrFree_eq]
  exact (length_pos_of_mem hp).trans_le
    (Finset.single_le_sum_of_canonicallyOrdered (f := fun t => (z.freeList o t).length)
      (Finset.mem_univ t))

end Zone.Lists

/-! ### A block leaves the lists -/

/-- `list_del`, `rmv_page_order` and `nr_free--`. -/
def Zone.take (z : Zone) (p o : ℕ) : Zone := ((z.listDel p).rmvPageOrder p).decNrFree o

omit [Config] in
theorem quiet_take (z : Zone) (p o : ℕ) : Quiet z (z.take p o) := ⟨rfl, rfl⟩

theorem mem_take (h : z.Lists) : q ∈ (z.take p o).freeList o' t' ↔ q ≠ p ∧ q ∈ z.freeList o' t' :=
  (h.nodup o' t').mem_erase_iff

section
variable (h : z.Lists) (hp : p ∈ z.freeList o t)
include h hp

theorem sum_length_take : (∑ t', ((z.take p o).freeList o t').length) + 1 = ∑ t',
    (z.freeList o t').length := by
  have hsum : (∑ t', ((z.take p o).freeList o t').length) + (z.freeList o t).length =
      (∑ t', (z.freeList o t').length) + ((z.freeList o t).erase p).length := by
    refine sum_length_eq t (z.freeList o) ((z.take p o).freeList o) fun t' hne => ?_
    have hnot : p ∉ z.freeList o t' := fun hp' => hne (h.type_unique hp' hp)
    exact congrArg length (erase_of_not_mem hnot)
  have hlen := length_erase_add_one hp
  omega

theorem Zone.Lists.take : (z.take p o).Lists where
  nodup o' t' := (h.nodup o' t').erase p
  mem {q o' t'} hq := by
    obtain ⟨hne, hq⟩ := (mem_take h).mp hq
    obtain ⟨ho, hours, hbuddy, hpriv⟩ := h.mem hq
    exact ⟨ho, hours, (update_of_ne hne ..).trans hbuddy, (update_of_ne hne ..).trans hpriv⟩
  type_unique hq hq' := h.type_unique ((mem_take h).mp hq).2 ((mem_take h).mp hq').2
  exists_list {q} hours hbuddy := by
    have hne : q ≠ p := by
      rintro rfl
      exact absurd ((update_self ..).symm.trans hbuddy) (by decide)
    obtain ⟨t', hq⟩ := h.exists_list hours ((update_of_ne hne ..).symm.trans hbuddy)
    refine ⟨t', (mem_take h).mpr ⟨hne, ?_⟩⟩
    rwa [show (z.take p o).pagePrivate q = z.pagePrivate q from update_of_ne hne ..]
  nrFree_eq o' := by
    by_cases ho : o' = o
    · subst ho
      have hsum := sum_length_take h hp
      have hnr : (z.take p o').nrFree o' = z.nrFree o' - 1 := update_self ..
      rw [hnr, h.nrFree_eq]
      omega
    have hnr : (z.take p o).nrFree o' = z.nrFree o' := update_of_ne ho ..
    rw [hnr, h.nrFree_eq]
    refine Finset.sum_congr rfl fun t' _ => ?_
    have hnot : p ∉ z.freeList o' t' := fun hp' => ho (h.eq_of_mem hp hp').1
    exact congrArg length (erase_of_not_mem hnot).symm

theorem freeBlocks_take : (z.take p o).freeBlocks = z.freeBlocks \ {⟨p, o⟩} := by
  ext ⟨q, o'⟩
  constructor
  · rintro ⟨t', hq⟩
    obtain ⟨hne, hq⟩ := (mem_take h).mp hq
    exact ⟨⟨t', hq⟩, fun heq => hne (congrArg Block.start heq)⟩
  rintro ⟨⟨t', hq⟩, hne⟩
  refine ⟨t', (mem_take h).mpr ⟨?_, hq⟩⟩
  rintro rfl
  obtain ⟨rfl, -⟩ := h.eq_of_mem hp hq
  exact hne rfl

theorem freePages_take : (z.take p o).freePages + 2 ^ o = z.freePages := by
  have hsum := sum_update_mul (f := z.nrFree) (w := fun o => 2 ^ o) (v := z.nrFree o - 1)
    (Finset.mem_range.mpr (h.mem hp).1)
  obtain ⟨n, hn⟩ := exists_eq_succ_of_ne_zero (h.nrFree_pos hp).ne'
  rw [hn, succ_sub_one, succ_mul] at hsum
  have htake : (z.take p o).freePages = ∑ x ∈ Finset.range maxOrder, update z.nrFree o n x * 2 ^ x := by
    rw [Zone.freePages]
    refine Finset.sum_congr rfl fun x _ => ?_
    rw [Zone.take, Zone.decNrFree]
    change update z.nrFree o (z.nrFree o - 1) x * 2 ^ x = _
    rw [hn, succ_sub_one]
  rw [htake, Zone.freePages]
  omega

end

/-! ### A block enters the lists -/

namespace Given
variable (hg : Given z z' p o mt)
include hg

theorem freePages_eq (ho : o < maxOrder) : z'.freePages = z.freePages + 2 ^ o := by
  have hsum := sum_update_mul (f := z.nrFree) (w := fun o => 2 ^ o) (v := z.nrFree o + 1)
    (Finset.mem_range.mpr ho)
  rw [← hg.nrFree_eq, succ_mul] at hsum
  change z'.freePages + _ = z.freePages + _ at hsum
  omega

theorem lists (h : z.Lists) (ho : o < maxOrder) (hours : Ours p) (hfree : z.pageBuddy p = false) :
    z'.Lists := by
  have hnot : ∀ o' t', p ∉ z.freeList o' t' := fun o' t' hp =>
    absurd (hfree.symm.trans (h.mem hp).2.2.1) (by decide)
  have hflags : ∀ q, q ≠ p → z'.pageBuddy q = z.pageBuddy q ∧ z'.pagePrivate q = z.pagePrivate q := by
    intro q hne
    rw [hg.pageBuddy_eq, hg.pagePrivate_eq]
    exact ⟨update_of_ne hne .., update_of_ne hne ..⟩
  have hself : z'.pageBuddy p = true ∧ z'.pagePrivate p = o := by
    rw [hg.pageBuddy_eq, hg.pagePrivate_eq]
    exact ⟨update_self .., update_self ..⟩
  refine ⟨?_, ?_, ?_, ?_, ?_⟩
  · intro o' t'
    by_cases heq : o' = o ∧ t' = mt
    · obtain ⟨rfl, rfl⟩ := heq
      rw [hg.perm.nodup_iff]
      exact nodup_cons.mpr ⟨hnot _ _, h.nodup ..⟩
    · rw [hg.other o' t' heq]
      exact h.nodup ..
  · intro q o' t' hq
    rcases hg.mem_iff.mp hq with ⟨rfl, rfl, -⟩ | hq
    · exact ⟨ho, hours, hself⟩
    obtain ⟨hlt, hours', hb, hpr⟩ := h.mem hq
    have hne : q ≠ p := fun heq => hnot _ _ (heq ▸ hq)
    exact ⟨hlt, hours', (hflags q hne).1.trans hb, (hflags q hne).2.trans hpr⟩
  · intro q o' t1 t2 h1 h2
    rcases hg.mem_iff.mp h1 with ⟨rfl, rfl, rfl⟩ | h1
    · rcases hg.mem_iff.mp h2 with ⟨-, -, rfl⟩ | h2
      · rfl
      · exact absurd h2 (hnot _ _)
    rcases hg.mem_iff.mp h2 with ⟨rfl, -, -⟩ | h2
    · exact absurd h1 (hnot _ _)
    · exact h.type_unique h1 h2
  · intro q hq hbuddy
    by_cases hne : q = p
    · subst hne
      rw [hself.2]
      exact ⟨mt, hg.mem_iff.mpr (.inl ⟨rfl, rfl, rfl⟩)⟩
    obtain ⟨t', ht⟩ := h.exists_list hq ((hflags q hne).1.symm.trans hbuddy)
    rw [(hflags q hne).2]
    exact ⟨t', hg.mem_iff.mpr (.inr ht)⟩
  intro o'
  by_cases heq : o' = o
  · subst heq
    have hsum := sum_length_eq mt (z.freeList o') (z'.freeList o') fun t' hne =>
      congrArg length (hg.other o' t' fun hc => hne hc.2)
    have hlen := hg.perm.length_eq
    rw [length_cons] at hlen
    rw [hg.nrFree_eq, update_self, h.nrFree_eq]
    omega
  · rw [hg.nrFree_eq, update_of_ne heq, h.nrFree_eq]
    exact Finset.sum_congr rfl fun t' _ => congrArg length (hg.other o' t' fun hc => heq hc.1).symm

end Given

/-! ### A block changes its list -/

/-- `z'` has the blocks of `z` on the lists, and those of `mt` have stayed there. -/
structure Moved (mt : Migratetype) (z z' : Zone) : Prop where
  lists : z'.Lists
  freeBlocks_eq : z'.freeBlocks = z.freeBlocks
  keeps : ∀ o, z.freeList o mt ⊆ z'.freeList o mt
  nrFree_eq : z'.nrFree = z.nrFree
  pageBuddy_eq : z'.pageBuddy = z.pageBuddy
  pagePrivate_eq : z'.pagePrivate = z.pagePrivate
  quiet : Quiet z z'

theorem Moved.refl (h : z.Lists) : Moved mt z z :=
  ⟨h, rfl, fun _ => Subset.refl _, rfl, rfl, rfl, .refl z⟩

theorem Moved.trans {z''} (h : Moved mt z z') (h' : Moved mt z' z'') : Moved mt z z'' :=
  ⟨h'.lists, h'.freeBlocks_eq.trans h.freeBlocks_eq, fun o _ hq => h'.keeps o (h.keeps o hq),
    h'.nrFree_eq.trans h.nrFree_eq, h'.pageBuddy_eq.trans h.pageBuddy_eq,
    h'.pagePrivate_eq.trans h.pagePrivate_eq, h.quiet.trans h'.quiet⟩

theorem mem_listMove (h : z.Lists) :
    q ∈ (z.listMove p o mt).freeList o' t' ↔ (q = p ∧ o' = o ∧ t' = mt) ∨
    (q ≠ p ∧ q ∈ z.freeList o' t') := by
  have hdel : q ∈ (z.freeList o' t').erase p ↔ q ≠ p ∧ q ∈ z.freeList o' t' :=
    (h.nodup o' t').mem_erase_iff
  change q ∈ (if o' = o ∧ t' = mt then p :: (z.freeList o' t').erase p
    else (z.freeList o' t').erase p) ↔ _
  split
  case isTrue heq =>
    rw [mem_cons, hdel]
    exact or_congr_left ⟨fun hq => ⟨hq, heq⟩, And.left⟩
  case isFalse hne =>
    rw [hdel]
    exact ⟨.inr, fun hq => hq.resolve_left fun hc => hne hc.2⟩

theorem sum_length_listMove (h : z.Lists) (hp : p ∈ z.freeList o t) :
    ∑ t', ((z.listMove p o mt).freeList o' t').length = ∑ t', (z.freeList o' t').length := by
  by_cases ho : o' = o
  · subst ho
    have hsum := sum_length_eq mt ((z.take p o').freeList o') ((z.listMove p o' mt).freeList o')
      fun t' hne =>
      congrArg length (if_neg fun hc => hne hc.2)
    have hself : ((z.listMove p o' mt).freeList o' mt) = p :: (z.take p o').freeList o' mt :=
      if_pos ⟨rfl, rfl⟩
    have htake := sum_length_take h hp
    rw [hself, length_cons] at hsum
    omega
  refine Finset.sum_congr rfl fun t' _ => ?_
  have hnot : p ∉ z.freeList o' t' := fun hp' => ho (h.eq_of_mem hp hp').1
  have hlist : (z.listMove p o mt).freeList o' t' = (z.freeList o' t').erase p :=
    if_neg fun hc => ho hc.1
  rw [hlist, erase_of_not_mem hnot]

theorem moved_listMove (h : z.Lists) (hp : p ∈ z.freeList o t) : Moved mt z (z.listMove p o mt) where
  lists :=
    { nodup := by
        intro o' t'
        change (if o' = o ∧
          t' = mt then p :: (z.freeList o' t').erase p else (z.freeList o' t').erase p).Nodup
        split
        · exact nodup_cons.mpr ⟨(h.nodup o' t').not_mem_erase, (h.nodup o' t').erase p⟩
        · exact (h.nodup o' t').erase p
      mem := by
        intro q o' t' hq
        rcases (mem_listMove h).mp hq with ⟨rfl, rfl, -⟩ | ⟨-, hq⟩
        · exact h.mem hp
        · exact h.mem hq
      type_unique := by
        intro q o' t1 t2 h1 h2
        rcases (mem_listMove h).mp h1 with ⟨rfl, rfl, rfl⟩ | ⟨hne, h1⟩
        · exact ((mem_listMove h).mp h2).elim (fun h2 => h2.2.2.symm) fun h2 => absurd rfl h2.1
        · exact ((mem_listMove h).mp h2).elim (fun h2 => absurd h2.1 hne) fun h2 => h.type_unique h1 h2.2
      exists_list := by
        intro q hours hbuddy
        by_cases hne : q = p
        · subst hne
          refine ⟨mt, (mem_listMove h).mpr (.inl ⟨rfl, ?_, rfl⟩)⟩
          exact (h.mem hp).2.2.2
        · obtain ⟨t', hq⟩ := h.exists_list hours hbuddy
          exact ⟨t', (mem_listMove h).mpr (.inr ⟨hne, hq⟩)⟩
      nrFree_eq := fun o' => (h.nrFree_eq o').trans (sum_length_listMove h hp).symm }
  freeBlocks_eq := by
    ext ⟨q, o'⟩
    constructor
    · rintro ⟨t', hq⟩
      rcases (mem_listMove h).mp hq with ⟨rfl, rfl, -⟩ | ⟨-, hq⟩
      · exact ⟨t, hp⟩
      · exact ⟨t', hq⟩
    rintro ⟨t', hq⟩
    by_cases hne : q = p
    · subst hne
      exact ⟨mt, (mem_listMove h).mpr (.inl ⟨rfl, (h.eq_of_mem hp hq).1, rfl⟩)⟩
    · exact ⟨t', (mem_listMove h).mpr (.inr ⟨hne, hq⟩)⟩
  keeps o' q hq := by
    by_cases hne : q = p
    · subst hne
      exact (mem_listMove h).mpr (.inl ⟨rfl, (h.eq_of_mem hp hq).1, rfl⟩)
    · exact (mem_listMove h).mpr (.inr ⟨hne, hq⟩)
  nrFree_eq := rfl
  pageBuddy_eq := rfl
  pagePrivate_eq := rfl
  quiet := ⟨rfl, rfl⟩

theorem listMove_mem (h : z.Lists) : p ∈ (z.listMove p o mt).freeList o mt :=
  (mem_listMove h).mpr (.inl ⟨rfl, rfl, rfl⟩)

end LinuxNote.PageAlloc
