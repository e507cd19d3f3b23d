import LinuxNote.Lib.Holding
import LinuxNote.VmapBlock.Basic
import Mathlib.Algebra.Order.BigOperators.Group.List
import Mathlib.Algebra.Order.Ring.Nat

/-! What holds in every state that an interleaving reaches. Nearly everything is said of one block at
    a time: a step changes one block, and what was known of the others stays. -/

namespace LinuxNote.VmapBlock
open List Option Function Nat

open Holding

variable {T C B : Type} [DecidableEq B]

/-- The pages of a block that are in use, rounded up as they were handed out. -/
def livePages (live : List (Alloc B)) (b : B) : ℕ :=
  (live.map fun a => if a.block = b then rounded a.pages else 0).sum

/-- Two allocations of one block do not share a page. -/
def Alloc.Disjoint [Config] (a a' : Alloc B) : Prop :=
  a.block = a'.block → offset a.addr + rounded a.pages ≤ offset a'.addr ∨
    offset a'.addr + rounded a'.pages ≤ offset a.addr

/-- The blocks that only this thread puts in place or takes away. -/
def Pc.owns : Pc C B → List B
  | .insert a | .enqueue a => [a.block]
  | .purging _ l | .draining l => l
  | .releasing b l => b :: l
  | _ => []

/-- The blocks that the thread has to remove from the tree. -/
def Pc.waiting : Pc C B → List B
  | .purging _ l | .draining l | .releasing _ l => l
  | _ => []

section
variable [Config]

/-- A block agrees with its allocations, and everything else that refers to it agrees with the block. -/
structure BlockOk (s : State T C B) (b : B) (vb : Block C) : Prop where
  dvd : blockSize ∣ vb.vaStart
  start_le : vmallocStart ≤ vb.vaStart
  account : vb.free + vb.dirty + livePages s.live b = bbmapBits
  inUse : b ∉ s.released → s.inUse vb.vaStart = true
  linked : vb.home ≠ none → vb.dirty ≠ bbmapBits → s.tree (addrToVbIdx vb.vaStart) = some b
  queue : ∀ cpu, b ∈ s.queue cpu ↔ vb.home = some cpu ∧ 0 < vb.free
  duty : vb.dirty = bbmapBits → b ∉ s.released → ∃ t, b ∈ (s.pc t).owns

/-- An allocation lies in the used part of its block, and its block is in the tree or is about to be put
    there. -/
structure AllocOk (s : State T C B) (a : Alloc B) (vb : Block C) : Prop where
  addr : a.addr = vb.vaStart + offset a.addr * pageSize
  below : offset a.addr + rounded a.pages + vb.free ≤ bbmapBits
  linked : s.tree (addrToVbIdx vb.vaStart) = some a.block ∨ ∃ t, s.pc t = .insert a

/-- What a thread that works on the block `b` relies on. -/
structure RolesOn (s : State T C B) (b : B) (p : Pc C B) : Prop where
  live : ∀ a ∈ p.allocs, a.block = b → a ∈ s.live
  pages : ∀ cpu pages, p = .walk cpu pages → 0 < pages ∧ pages ≤ maxAlloc
  freeing : ∀ b' a, p = .freeing b' a → a.block = b'
  insert : ∀ a, p = .insert a → a.block = b → (∀ i, s.tree i ≠ some b) ∧ ∃ vb, s.blocks b = some vb ∧
    vb.home = none ∧ 0 < vb.free
  enqueue : ∀ a, p = .enqueue a → a.block = b → ∃ vb, s.blocks b = some vb ∧ vb.home = none ∧
    0 < vb.free ∧ s.tree (addrToVbIdx vb.vaStart) = some b
  waiting : b ∈ p.waiting → b ∉ s.released ∧ ∃ vb, s.blocks b = some vb ∧ vb.dirty = bbmapBits ∧
    s.tree (addrToVbIdx vb.vaStart) = some b
  leaving : ∀ l, p = .releasing b l → b ∉ s.released ∧ (∀ i, s.tree i ≠ some b) ∧
    ∃ vb, s.blocks b = some vb ∧ vb.dirty = bbmapBits

/-- What holds between the steps. -/
structure Inv (s : State T C B) : Prop where
  block : ∀ b vb, s.blocks b = some vb → BlockOk s b vb
  alloc : ∀ a ∈ s.live, ∃ vb, s.blocks a.block = some vb ∧ AllocOk s a vb
  disjoint : s.live.Pairwise Alloc.Disjoint
  tree : ∀ i b, s.tree i = some b → ∃ vb, s.blocks b = some vb ∧ i = addrToVbIdx vb.vaStart ∧
    b ∉ s.released
  distinct : ∀ b b' vb vb', s.blocks b = some vb → s.blocks b' = some vb' → b ∉ s.released →
    b' ∉ s.released → vb.vaStart = vb'.vaStart → b = b'
  queue_nodup : ∀ cpu, (s.queue cpu).Nodup
  queue_mem : ∀ cpu, ∀ b ∈ s.queue cpu, ∃ vb, s.blocks b = some vb
  released : ∀ b ∈ s.released, ∃ vb, s.blocks b = some vb ∧ vb.dirty = bbmapBits
  released_nodup : s.released.Nodup
  roles : ∀ t b, RolesOn s b (s.pc t)
  allocs : Exclusive Pc.allocs s.pc
  owns : Exclusive Pc.owns s.pc

end

variable {s s' : State T C B} {t : T} {b b' : B} {vb : Block C} {a : Alloc B} {live : List (Alloc B)}
  {cpu : C} {p q : Pc C B} {pages off va i : ℕ}

/-! ### Pages and addresses -/

theorem rounded_pos (pages : ℕ) : 0 < rounded pages := Nat.two_pow_pos _

theorem rounded_le (hle : pages ≤ maxAlloc) : rounded pages ≤ 64 := by
  rw [rounded, getOrder]
  split_ifs with hone
  · decide
  have hlt : log2 (pages - 1) < 6 := (log2_lt hone).mpr (by rw [maxAlloc] at hle; omega)
  exact Nat.pow_le_pow_right (by decide) (show Nat.log2 (pages - 1) + 1 ≤ 6 by omega)

theorem livePages_cons (a : Alloc B) (live : List (Alloc B)) (b : B) :
    livePages (a :: live) b = (if a.block = b then rounded a.pages else 0) + livePages live b := by
  rw [livePages, map_cons, sum_cons, livePages]

theorem livePages_erase (ha : a ∈ live) (b : B) :
    (if a.block = b then rounded a.pages else 0) + livePages (live.erase a) b = livePages live b :=
  sum_map_erase (fun a : Alloc B => if a.block = b then rounded a.pages else 0) ha

/-- A live allocation counts. -/
theorem rounded_le_livePages (ha : a ∈ live) : rounded a.pages ≤ livePages live a.block := by
  rw [← livePages_erase ha, if_pos rfl]
  exact Nat.le_add_right ..

theorem livePages_eq_zero (h : ∀ a ∈ live, a.block ≠ b) : livePages live b = 0 := by
  induction live with
  | nil => rfl
  | cons a live ih =>
    rw [livePages_cons, if_neg (h a mem_cons_self), ih fun a' ha' => h a' (mem_cons_of_mem _ ha')]

section
variable [Config]

theorem blockSize_pos : 0 < blockSize := mul_pos (by have := bbmapBits_ge; omega) pageSize_pos

theorem offset_mul_lt (hoff : off < bbmapBits) : off * pageSize < blockSize :=
  mul_lt_mul_of_pos_right hoff pageSize_pos

section
variable (hdvd : blockSize ∣ va)
include hdvd

theorem offset_add (hoff : off < bbmapBits) : offset (va + off * pageSize) = off := by
  obtain ⟨k, rfl⟩ := hdvd
  rw [offset, Nat.mul_add_mod, Nat.mod_eq_of_lt (offset_mul_lt hoff), Nat.mul_div_cancel _ pageSize_pos]

/-- All addresses of a block have the index of its start. -/
theorem addrToVbIdx_add (hle : vmallocStart ≤ va) (hoff : off < bbmapBits) :
    addrToVbIdx (va + off * pageSize) = addrToVbIdx va := by
  have hbase : vmallocStart / blockSize * blockSize ≤ va := (div_mul_le_self ..).trans hle
  obtain ⟨k, hk⟩ := dvd_sub hdvd (dvd_mul_left blockSize (vmallocStart / blockSize))
  rw [addrToVbIdx, addrToVbIdx, Nat.sub_add_comm hbase, hk, Nat.mul_add_div blockSize_pos,
    Nat.div_eq_of_lt (offset_mul_lt hoff), Nat.add_zero, Nat.mul_div_cancel_left _ blockSize_pos]

theorem addrToVbIdx_inj {va' : ℕ} (hdvd' : blockSize ∣ va') (hle : vmallocStart ≤ va)
    (hle' : vmallocStart ≤ va') (heq : addrToVbIdx va = addrToVbIdx va') : va = va' := by
  have hbase : vmallocStart / blockSize * blockSize ≤ vmallocStart := div_mul_le_self ..
  obtain ⟨k, hk⟩ := dvd_sub hdvd (dvd_mul_left blockSize (vmallocStart / blockSize))
  obtain ⟨k', hk'⟩ := dvd_sub hdvd' (dvd_mul_left blockSize (vmallocStart / blockSize))
  rw [addrToVbIdx, addrToVbIdx, hk, hk', Nat.mul_div_cancel_left _ blockSize_pos,
    Nat.mul_div_cancel_left _ blockSize_pos] at heq
  rw [heq] at hk
  omega

theorem vmapBlockVaddr_eq (hle : vmallocStart ≤ va) (hoff : off < bbmapBits) :
    vmapBlockVaddr va off = .ok (va + off * pageSize) := by
  rw [vmapBlockVaddr]
  exact if_neg (not_not.mpr (addrToVbIdx_add hdvd hle hoff))

end

end

/-! ### A step changes one block -/

section
variable [DecidableEq T]

/-- Thread `t` goes on from `q` to `p`, and its step is about the block `b`. -/
structure Touches (s s' : State T C B) (t : T) (q p : Pc C B) (b : B) : Prop where
  blocks : ∀ b' ≠ b, s'.blocks b' = s.blocks b'
  tree : ∀ i, ∀ b' ≠ b, s'.tree i = some b' ↔ s.tree i = some b'
  queue : ∀ cpu, ∀ b' ≠ b, b' ∈ s'.queue cpu ↔ b' ∈ s.queue cpu
  inUse : ∀ b' ≠ b, ∀ vb, s.blocks b' = some vb → b' ∉ s.released → s.inUse vb.vaStart = true →
    s'.inUse vb.vaStart = true
  released : ∀ b' ≠ b, b' ∈ s'.released ↔ b' ∈ s.released
  live : ∀ a, a.block ≠ b → (a ∈ s'.live ↔ a ∈ s.live)
  pages : ∀ b' ≠ b, livePages s'.live b' = livePages s.live b'
  pc : s'.pc = update s.pc t p
  owns : ∀ b' ≠ b, b' ∈ q.owns → b' ∈ p.owns
  insert : ∀ a, q = .insert a → a.block = b

section
variable (ht : Touches s s' t q p b)
include ht

theorem Touches.pc_self : s'.pc t = p := by
  rw [ht.pc, update_self]

theorem Touches.pc_of_ne {t' : T} (htt : t' ≠ t) : s'.pc t' = s.pc t' := by
  rw [ht.pc, update_of_ne htt]

variable [Config]

theorem Touches.blockOk (old : s.pc t = q) (hne : b' ≠ b) (hb : s.blocks b' = some vb)
    (h : BlockOk s b' vb) : BlockOk s' b' vb := by
  refine ⟨h.dvd, h.start_le, ?_, fun hrel => ?_, fun hhome hdirty => ?_, fun cpu => ?_,
    fun hdirty hrel => ?_⟩
  · rw [ht.pages b' hne]
    exact h.account
  · rw [ht.released b' hne] at hrel
    exact ht.inUse b' hne vb hb hrel (h.inUse hrel)
  · exact (ht.tree _ b' hne).mpr (h.linked hhome hdirty)
  · rw [ht.queue cpu b' hne]
    exact h.queue cpu
  rw [ht.released b' hne] at hrel
  obtain ⟨t', ht'⟩ := h.duty hdirty hrel
  refine ⟨t', ?_⟩
  by_cases htt : t' = t
  · rw [htt, old] at ht'
    rw [htt, ht.pc_self]
    exact ht.owns b' hne ht'
  · rw [ht.pc_of_ne htt]
    exact ht'

theorem Touches.rolesOn {p' : Pc C B} (hne : b' ≠ b) (h : RolesOn s b' p') : RolesOn s' b' p' := by
  refine ⟨fun a ha hblock => (ht.live a (hblock ▸ hne)).mpr (h.live a ha hblock), h.pages, h.freeing,
    fun a ha hblock => ?_, fun a ha hblock => ?_, fun hw => ?_, fun l hl => ?_⟩
  · obtain ⟨htree, hvb⟩ := h.insert a ha hblock
    rw [ht.blocks b' hne]
    exact ⟨fun i hi => htree i ((ht.tree i b' hne).mp hi), hvb⟩
  · obtain ⟨vb, hvb, hhome, hfree, htree⟩ := h.enqueue a ha hblock
    rw [ht.blocks b' hne]
    exact ⟨vb, hvb, hhome, hfree, (ht.tree _ b' hne).mpr htree⟩
  · obtain ⟨hrel, vb, hvb, hdirty, htree⟩ := h.waiting hw
    rw [ht.blocks b' hne, ht.released b' hne]
    exact ⟨hrel, vb, hvb, hdirty, (ht.tree _ b' hne).mpr htree⟩
  obtain ⟨hrel, htree, hvb⟩ := h.leaving l hl
  rw [ht.blocks b' hne, ht.released b' hne]
  exact ⟨hrel, fun i hi => htree i ((ht.tree i b' hne).mp hi), hvb⟩

theorem Touches.allocOk (old : s.pc t = q) (hnb : a.block ≠ b) (h : AllocOk s a vb) :
    AllocOk s' a vb := by
  refine ⟨h.addr, h.below, ?_⟩
  rcases h.linked with htree | ⟨t', hins⟩
  · exact .inl ((ht.tree _ _ hnb).mpr htree)
  have htt : t' ≠ t := fun heq => hnb (ht.insert a (old ▸ heq ▸ hins))
  exact .inr ⟨t', (ht.pc_of_ne htt).trans hins⟩

end

variable [Config]

/-- What a step has to establish about its block. -/
structure Local (s s' : State T C B) (b : B) : Prop where
  block : ∀ vb, s'.blocks b = some vb → BlockOk s' b vb
  alloc : ∀ a ∈ s'.live, a.block = b → ∃ vb, s'.blocks b = some vb ∧ AllocOk s' a vb
  disjoint : s'.live.Pairwise Alloc.Disjoint
  tree : ∀ i, s'.tree i = some b → ∃ vb, s'.blocks b = some vb ∧ i = addrToVbIdx vb.vaStart ∧
    b ∉ s'.released
  distinct : ∀ b' vb vb', b' ≠ b → s'.blocks b = some vb → s.blocks b' = some vb' →
    b ∉ s'.released → b' ∉ s.released → vb.vaStart ≠ vb'.vaStart
  queue_nodup : ∀ cpu, (s'.queue cpu).Nodup
  queue_mem : ∀ cpu, b ∈ s'.queue cpu → ∃ vb, s'.blocks b = some vb
  released : b ∈ s'.released → ∃ vb, s'.blocks b = some vb ∧ vb.dirty = bbmapBits
  released_nodup : s'.released.Nodup

/-- What the thread that takes the step and the other threads can rely on afterwards. -/
structure Hands (s s' : State T C B) (t : T) (q p : Pc C B) (b : B) : Prop where
  self : RolesOn s' b p
  others : ∀ t' ≠ t, RolesOn s' b (s.pc t')
  elsewhere : ∀ b' ≠ b, RolesOn s b' p
  allocs_nodup : p.allocs.Nodup
  allocs : ∀ a ∈ p.allocs, a ∈ q.allocs ∨ ∀ t', a ∉ (s.pc t').allocs
  owns_nodup : p.owns.Nodup
  owns : ∀ b' ∈ p.owns, b' ∈ q.owns ∨ ∀ t', b' ∉ (s.pc t').owns

omit [DecidableEq T] in
theorem Inv.tree_at (h : Inv s) (hvb : s.blocks b = some vb) (hi : s.tree i = some b) :
    i = addrToVbIdx vb.vaStart ∧ b ∉ s.released := by
  obtain ⟨vb', hvb', hidx, hrel⟩ := h.tree i b hi
  obtain rfl := mem_unique hvb hvb'
  exact ⟨hidx, hrel⟩

omit [DecidableEq T] in
/-- A step that leaves the block where it is. -/
theorem Local.of_update {vb' : Block C} (h : Inv s) (hvb : s.blocks b = some vb)
    (hvb' : s'.blocks b = some vb') (hva : vb'.vaStart = vb.vaStart)
    (htree : ∀ i, s'.tree i = some b → i = addrToVbIdx vb.vaStart ∧ b ∉ s.released)
    (hrel : s'.released = s.released) (hdirty : vb.dirty = bbmapBits → vb'.dirty = bbmapBits)
    (hblock : BlockOk s' b vb') (halloc : ∀ a ∈ s'.live, a.block = b → AllocOk s' a vb')
    (hdisj : s'.live.Pairwise Alloc.Disjoint) (hqueue : ∀ cpu, (s'.queue cpu).Nodup) : Local s s' b := by
  refine ⟨fun vb1 h1 => ?_, fun a ha hb => ⟨vb', hvb', halloc a ha hb⟩, hdisj, fun i hi => ?_,
    fun b' vb1 vb2 hne h1 h2 hr1 hr2 heq => ?_, hqueue, fun _ _ => ⟨vb', hvb'⟩, fun hr => ?_, ?_⟩
  · obtain rfl := mem_unique hvb' h1
    exact hblock
  · exact ⟨vb', hvb', hva ▸ hrel ▸ htree i hi⟩
  · obtain rfl := mem_unique hvb' h1
    exact hne (h.distinct b b' vb vb2 hvb h2 (hrel ▸ hr1) hr2 (hva ▸ heq)).symm
  · obtain ⟨vb1, h1, hd⟩ := h.released b (hrel ▸ hr)
    obtain rfl := mem_unique hvb h1
    exact ⟨vb', hvb', hdirty hd⟩
  · rw [hrel]
    exact h.released_nodup

theorem Inv.step (h : Inv s) (old : s.pc t = q) (ht : Touches s s' t q p b) (hl : Local s s' b)
    (hh : Hands s s' t q p b) : Inv s' := by
  refine ⟨fun b' vb hb => ?_, fun a ha => ?_, hl.disjoint, fun i b' hi => ?_,
    fun b1 b2 vb1 vb2 h1 h2 hr1 hr2 heq => ?_, hl.queue_nodup, fun cpu b' hb => ?_, fun b' hrel => ?_,
    hl.released_nodup, fun t' b' => ?_, ?_, ?_⟩
  · by_cases hne : b' = b
    · rw [hne] at hb ⊢
      exact hl.block vb hb
    rw [ht.blocks b' hne] at hb
    exact ht.blockOk old hne hb (h.block b' vb hb)
  · by_cases hne : a.block = b
    · obtain ⟨vb, hvb, hok⟩ := hl.alloc a ha hne
      exact ⟨vb, hne ▸ hvb, hok⟩
    obtain ⟨vb, hvb, hok⟩ := h.alloc a ((ht.live a hne).mp ha)
    exact ⟨vb, (ht.blocks _ hne).trans hvb, ht.allocOk old hne hok⟩
  · by_cases hne : b' = b
    · rw [hne] at hi ⊢
      exact hl.tree i hi
    rw [ht.tree i b' hne] at hi
    rw [ht.blocks b' hne, ht.released b' hne]
    exact h.tree i b' hi
  · by_cases hne1 : b1 = b
    · by_cases hne2 : b2 = b
      · exact hne1.trans hne2.symm
      rw [ht.blocks b2 hne2] at h2
      rw [ht.released b2 hne2] at hr2
      exact absurd heq (hl.distinct b2 vb1 vb2 hne2 (hne1 ▸ h1) h2 (hne1 ▸ hr1) hr2)
    rw [ht.blocks b1 hne1] at h1
    rw [ht.released b1 hne1] at hr1
    by_cases hne2 : b2 = b
    · exact absurd heq.symm (hl.distinct b1 vb2 vb1 hne1 (hne2 ▸ h2) h1 (hne2 ▸ hr2) hr1)
    rw [ht.blocks b2 hne2] at h2
    rw [ht.released b2 hne2] at hr2
    exact h.distinct b1 b2 vb1 vb2 h1 h2 hr1 hr2 heq
  · by_cases hne : b' = b
    · rw [hne] at hb ⊢
      exact hl.queue_mem cpu hb
    rw [ht.queue cpu b' hne] at hb
    rw [ht.blocks b' hne]
    exact h.queue_mem cpu b' hb
  · by_cases hne : b' = b
    · rw [hne] at hrel ⊢
      exact hl.released hrel
    rw [ht.released b' hne] at hrel
    rw [ht.blocks b' hne]
    exact h.released b' hrel
  · by_cases htt : t' = t
    · rw [htt, ht.pc_self]
      by_cases hne : b' = b
      · rw [hne]
        exact hh.self
      · exact ht.rolesOn hne (hh.elsewhere b' hne)
    rw [ht.pc_of_ne htt]
    by_cases hne : b' = b
    · rw [hne]
      exact hh.others t' htt
    · exact ht.rolesOn hne (h.roles t' b')
  · rw [ht.pc]
    exact h.allocs.update hh.allocs_nodup (old ▸ hh.allocs)
  · rw [ht.pc]
    exact h.owns.update hh.owns_nodup (old ▸ hh.owns)

end

/-! ### Who works on a block -/

omit [DecidableEq B] in
/-- A thread that does not own the block has little to rely on. -/
theorem rolesOn_of_not_owns [Config] (hown : b ∉ p.owns)
    (hlive : ∀ a ∈ p.allocs, a.block = b → a ∈ s.live) (hpages : ∀ cpu pages, p = .walk cpu pages →
      0 < pages ∧ pages ≤ maxAlloc) (hfree : ∀ b' a, p = .freeing b' a → a.block = b') :
    RolesOn s b p := by
  refine ⟨hlive, hpages, hfree, ?_, ?_, fun hw => ?_, ?_⟩
  · rintro a rfl rfl
    exact absurd mem_cons_self hown
  · rintro a rfl rfl
    exact absurd mem_cons_self hown
  · refine absurd ?_ hown
    cases p with
    | purging cpu l | draining l => exact hw
    | releasing b' l => exact mem_cons_of_mem _ hw
    | _ => cases hw
  · rintro l rfl
    exact absurd mem_cons_self hown

omit [DecidableEq B] in
theorem rolesOn_idle [Config] : RolesOn s b .idle := rolesOn_of_not_owns nofun nofun nofun nofun

section
variable [Config] (h : Inv s)
include h

theorem Inv.alloc_at (ha : a ∈ s.live) (hb : a.block = b) (hvb : s.blocks b = some vb) :
    AllocOk s a vb := by
  obtain ⟨vb', hvb', hok⟩ := h.alloc a ha
  rw [hb, hvb] at hvb'
  cases hvb'
  exact hok

/-- A block with a live allocation is not all dirty. -/
theorem Inv.dirty_lt (ha : a ∈ s.live) (hvb : s.blocks a.block = some vb) : vb.dirty < bbmapBits := by
  have haccount := (h.block _ vb hvb).account
  have hle := rounded_le_livePages ha
  have hpos := rounded_pos a.pages
  omega

theorem Inv.not_released (hvb : s.blocks b = some vb) (hdirty : vb.dirty ≠ bbmapBits) :
    b ∉ s.released := by
  intro hrel
  obtain ⟨vb', hvb', hdirty'⟩ := h.released b hrel
  obtain rfl := mem_unique hvb hvb'
  exact hdirty hdirty'

theorem Inv.live_not_released (ha : a ∈ s.live) : a.block ∉ s.released := by
  obtain ⟨vb, hvb, -⟩ := h.alloc a ha
  exact h.not_released hvb (h.dirty_lt ha hvb).ne

/-- A block has an owner while it is put in place and when all of it is dirty. -/
theorem Inv.owned (hown : b ∈ (s.pc t).owns) : ∃ vb, s.blocks b = some vb ∧
    (vb.dirty = bbmapBits ∨ vb.home = none ∧ ∃ a ∈ (s.pc t).allocs, a.block = b) := by
  have hroles := h.roles t b
  cases hpc : s.pc t with
  | insert a =>
    rw [hpc] at hown hroles
    have hblock : a.block = b := (mem_singleton.mp hown).symm
    obtain ⟨-, vb, hvb, hhome, -⟩ := hroles.insert a rfl hblock
    exact ⟨vb, hvb, .inr ⟨hhome, a, mem_cons_self, hblock⟩⟩
  | enqueue a =>
    rw [hpc] at hown hroles
    have hblock : a.block = b := (mem_singleton.mp hown).symm
    obtain ⟨vb, hvb, hhome, -⟩ := hroles.enqueue a rfl hblock
    exact ⟨vb, hvb, .inr ⟨hhome, a, mem_cons_self, hblock⟩⟩
  | purging cpu l | draining l =>
    rw [hpc] at hown hroles
    obtain ⟨-, vb, hvb, hdirty, -⟩ := hroles.waiting hown
    exact ⟨vb, hvb, .inl hdirty⟩
  | releasing b' l =>
    rw [hpc] at hown hroles
    rcases mem_cons.mp hown with rfl | hmem
    · obtain ⟨-, -, vb, hvb, hdirty⟩ := hroles.leaving l rfl
      exact ⟨vb, hvb, .inl hdirty⟩
    obtain ⟨-, vb, hvb, hdirty, -⟩ := hroles.waiting hmem
    exact ⟨vb, hvb, .inl hdirty⟩
  | _ =>
    rw [hpc] at hown
    cases hown

/-- Nobody owns a block that is in its queue. -/
theorem Inv.not_owned (hvb : s.blocks b = some vb) (hhome : vb.home ≠ none)
    (hdirty : vb.dirty ≠ bbmapBits) (t : T) : b ∉ (s.pc t).owns := by
  intro hown
  obtain ⟨vb', hvb', hor⟩ := h.owned hown
  obtain rfl := mem_unique hvb hvb'
  rcases hor with hd | ⟨hnone, -⟩
  · exact hdirty hd
  · exact hhome hnone

/-- The other threads, when none of them owns the block and their allocations stay. -/
theorem Inv.roles_of_not_owns (hown : b ∉ (s.pc t).owns)
    (hlive : ∀ a ∈ (s.pc t).allocs, a.block = b → a ∈ s.live → a ∈ s'.live) : RolesOn s' b (s.pc t) :=
  rolesOn_of_not_owns hown (fun a ha hb => hlive a ha hb ((h.roles t b).live a ha hb))
    (h.roles t b).pages (h.roles t b).freeing

end

/-! ### Steps that change no block -/

section
variable [DecidableEq T]

omit [DecidableEq B] in
@[simp] theorem goto_pc_self : (s.goto t p).pc t = p := update_self ..

omit [DecidableEq B] in
theorem goto_pc_of_ne {t' : T} (htt : t' ≠ t) : (s.goto t p).pc t' = s.pc t' := update_of_ne htt ..

variable [Config]

theorem Inv.goto (h : Inv s) (hins : ∀ a, s.pc t ≠ .insert a) (hown : p.owns = (s.pc t).owns)
    (hroles : ∀ b, RolesOn s b p) (hnodup : p.allocs.Nodup)
    (hallocs : ∀ a ∈ p.allocs, ∀ t', a ∉ (s.pc t').allocs) : Inv (s.goto t p) := by
  have hpc : ∀ t', ((s.goto t p).pc t').owns = (s.pc t').owns := by
    intro t'
    by_cases htt : t' = t
    · rw [htt, goto_pc_self, hown]
    · rw [goto_pc_of_ne htt]
  refine ⟨fun b vb hvb => ?_, fun a ha => ?_, h.disjoint, h.tree, h.distinct, h.queue_nodup,
    h.queue_mem, h.released, h.released_nodup, fun t' b => ?_, h.allocs.update hnodup fun a ha =>
    .inr (hallocs a ha), ?_⟩
  · have hok := h.block b vb hvb
    refine { hok with duty := fun hdirty hrel => ?_ }
    obtain ⟨t', ht'⟩ := hok.duty hdirty hrel
    exact ⟨t', hpc t' ▸ ht'⟩
  · obtain ⟨vb, hvb, hok⟩ := h.alloc a ha
    refine ⟨vb, hvb, hok.addr, hok.below, hok.linked.imp_right fun ⟨t', hpc'⟩ => ⟨t', ?_⟩⟩
    have htt : t' ≠ t := fun heq => hins a (heq ▸ hpc')
    rw [goto_pc_of_ne htt]
    exact hpc'
  · have hsame : RolesOn s b ((s.goto t p).pc t') := by
      by_cases htt : t' = t
      · rw [htt, goto_pc_self]
        exact hroles b
      rw [goto_pc_of_ne htt]
      exact h.roles t' b
    exact { hsame with }
  · exact h.owns.update (hown ▸ h.owns.nodup t) fun a ha => .inl (hown ▸ ha)

/-- A thread without an allocation goes on and takes none. -/
theorem Inv.goto_plain (h : Inv s) (hold : (s.pc t).allocs = []) (hown : p.owns = (s.pc t).owns)
    (hnew : p.allocs = []) (hroles : ∀ b, RolesOn s b p) : Inv (s.goto t p) := by
  refine h.goto (fun a heq => ?_) hown hroles (hnew ▸ nodup_nil) fun a ha => ?_
  · rw [heq] at hold
    cases hold
  rw [hnew] at ha
  cases ha

/-- `vb_free` finds the block of the address. -/
theorem Inv.lookup (h : Inv s) (hpc : s.pc t = .idle) (ha : a ∈ s.live)
    (hheld : ∀ t', a ∉ (s.pc t').allocs) : ∃ s', lookup s t a = .ok s' ∧ Inv s' := by
  obtain ⟨vb, hvb, hok⟩ := h.alloc a ha
  have hblock := h.block _ vb hvb
  have hoff : offset a.addr < bbmapBits := by
    have hbelow := hok.below
    have hpos := rounded_pos a.pages
    omega
  have htree : s.tree (addrToVbIdx a.addr) = some a.block := by
    rw [hok.addr, addrToVbIdx_add hblock.dvd hblock.start_le hoff]
    refine hok.linked.resolve_right fun ⟨t', hins⟩ => hheld t' ?_
    rw [hins]
    exact mem_cons_self
  refine ⟨s.goto t (.freeing a.block a), by rw [VmapBlock.lookup, htree], ?_⟩
  refine h.goto (by rw [hpc]; exact nofun) (by rw [hpc]; rfl) (fun b => ?_) (pairwise_singleton _ a)
    fun a' ha' => ?_
  · refine rolesOn_of_not_owns nofun (fun a' ha' _ => ?_) nofun ?_
    · rw [mem_singleton.mp ha']
      exact ha
    rintro b' a' ⟨⟩
    rfl
  · rw [mem_singleton.mp ha']
    exact hheld

end

end LinuxNote.VmapBlock
