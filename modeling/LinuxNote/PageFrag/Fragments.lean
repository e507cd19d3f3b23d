import LinuxNote.Lib.Outcome
import LinuxNote.PageFrag.Basic
import Mathlib.Data.List.Perm.Basic

/-! Fragments do not overlap, and their blocks stay until the last one is freed. The count of a block is
    the bias of the cache, if the cache uses the block, and one for every fragment in it. The free part
    of the block lies below `offset`, and the bias stays above `offset`, so it never runs out. A fragment
    larger than the block is carved all the same: then it starts before the block. -/

namespace LinuxNote.PageFrag
open Function List Option Nat Prod State Except

/-- A piece of memory that `page_frag_alloc` returned. -/
structure Frag where
  ptr : ℤ
  len : ℕ
deriving DecidableEq

def Frag.Inside (f : Frag) (va : ℤ) (n : ℕ) : Prop := va ≤ f.ptr ∧ f.ptr + f.len ≤ va + n

def Frag.Disjoint (f g : Frag) : Prop := f.ptr + f.len ≤ g.ptr ∨ g.ptr + g.len ≤ f.ptr

/-- The number of fragments in the block at `va`. -/
def State.inBlock (s : State) (out : List Frag) (va : ℤ) : ℕ := out.countP fun f => s.head f.ptr = va

section
variable [Config]

/-- What the cache keeps for the block that it uses. -/
structure Current (s : State) (out : List Frag) (va : ℤ) : Prop where
  size_eq : s.size va = some s.blockSize
  size_le : s.blockSize ≤ maxSize
  offset_le : s.cache.offset ≤ s.blockSize
  offset_lt : s.cache.offset < s.cache.pagecntBias
  bias_le : s.cache.pagecntBias ≤ maxSize + 1
  above : ∀ f ∈ out, s.head f.ptr = va → va + s.cache.offset ≤ f.ptr

structure State.Inv (s : State) (out : List Frag) : Prop where
  pos : ∀ {va n}, s.size va = some n → 0 < n
  apart : ∀ {va n va' n'}, s.size va = some n → s.size va' = some n' → va ≠ va' → va + n ≤ va' ∨
    va' + n' ≤ va
  head : ∀ {va n a}, s.size va = some n → va ≤ a → a < va + n → s.head a = va
  frag : ∀ f ∈ out, 0 < f.len ∧ ∃ va n, s.size va = some n ∧ f.Inside va n
  disjoint : out.Pairwise Frag.Disjoint
  count : ∀ {va n}, s.size va = some n →
    s.count va = ((if s.cache.va = some va then s.cache.pagecntBias else 0) + s.inBlock out va : ℕ)
  current : ∀ {va}, s.cache.va = some va → Current s out va

variable {s s' : State} {out : List Frag} {va : ℤ} {n fragsz : ℕ} {f g : Frag} {r : Refill}

/-! ### Sizes -/

theorem pageSize_pos : 0 < pageSize := Nat.two_pow_pos _

theorem maxSize_eq : maxSize = if Config.pageShift ≤ 15 then 32768 else pageSize := by
  have hpos := pageSize_pos
  rw [maxSize]
  split
  case isTrue hle =>
    obtain ⟨k, hk⟩ : pageSize ∣ 32768 := Nat.pow_dvd_pow 2 hle
    rw [Nat.div_eq_of_lt_le (k := k) (by rw [mul_comm]; omega) (by rw [succ_mul, mul_comm]; omega),
      mul_comm, hk]
  case isFalse hgt =>
    have hle : 2 ^ 16 ≤ pageSize := Nat.pow_le_pow_right (by decide) (by omega)
    rw [Nat.div_eq_of_lt_le (k := 1) (by omega) (by omega), one_mul]

theorem maxSize_lt : maxSize < 2 ^ 31 := by
  rw [maxSize_eq]
  split
  · decide
  · exact Nat.pow_lt_pow_right (by decide) (lt_succ_of_le Config.pageShift_le)

/-- Every size of a block fits `nc->offset`. -/
theorem lt_offsetMod {k : ℕ} (hk : k ≤ maxSize) : k < offsetMod := by
  have hlt := maxSize_lt
  rw [offsetMod]
  split
  case isTrue hvar =>
    have hless : pageSize < maxSize := of_decide_eq_true hvar
    rw [maxSize_eq] at hless hk
    split at hk
    · omega
    rename_i hgt
    rw [if_neg hgt] at hless
    exact absurd hless (Nat.lt_irrefl _)
  case isFalse => omega

/-! ### Fragments and blocks -/

theorem State.Inv.head_of_inside (h : s.Inv out) (hs : s.size va = some n) (hf : f.Inside va n)
    (hlen : 0 < f.len) :
    s.head f.ptr = va :=
  h.head hs hf.1 (by have := hf.2; omega)

/-- A fragment next to the free part of the current block. -/
theorem State.Inv.disjoint_current (h : s.Inv out) (hva : s.cache.va = some va)
    (hlen : fragsz ≤ s.cache.offset) (hg : g ∈ out) :
    Frag.Disjoint ⟨va + (s.cache.offset - fragsz), fragsz⟩ g := by
  have hcur := h.current hva
  obtain ⟨hpos, va', n', hs', hin⟩ := h.frag g hg
  by_cases hne : va = va'
  · subst hne
    have habove := hcur.above g hg (h.head_of_inside hs' hin hpos)
    exact .inl (by dsimp only; omega)
  have hle := hcur.offset_le
  obtain ⟨hg1, hg2⟩ := hin
  rcases h.apart hcur.size_eq hs' hne with hap | hap
  · exact .inl (by dsimp only; omega)
  · exact .inr (by dsimp only; omega)

/-! ### Carving -/

/-- A cache that is about to carve a fragment of `fragsz` bytes at the end of its free part; if the free
    part is too short, it is the whole block. -/
structure Prepared (s : State) (out : List Frag) (va : ℤ) (fragsz : ℕ) : Prop where
  inv : s.Inv out
  va_eq : s.cache.va = some va
  enough : fragsz ≤ s.cache.offset ∨ s.cache.offset = s.blockSize

theorem Prepared.inside_iff (h : Prepared s out va fragsz) :
    Frag.Inside ⟨va + (s.cache.offset - fragsz), fragsz⟩ va s.blockSize ↔ fragsz ≤ s.blockSize := by
  have hle := (h.inv.current h.va_eq).offset_le
  constructor
  · rintro ⟨hge, -⟩
    dsimp only at hge
    omega
  intro hfit
  have hlen : fragsz ≤ s.cache.offset := h.enough.elim id fun heq => heq ▸ hfit
  constructor
  · dsimp only
    omega
  dsimp only
  omega

theorem Prepared.finish_inv (h : Prepared s out va fragsz) (hpos : 0 < fragsz)
    (hfit : fragsz ≤ s.blockSize) :
    (s.finish va (s.cache.offset - fragsz)).1.Inv (⟨va + (s.cache.offset - fragsz), fragsz⟩ :: out) := by
  have hcur := h.inv.current h.va_eq
  have hlen : fragsz ≤ s.cache.offset := h.enough.elim id fun heq => heq ▸ hfit
  have hle := hcur.offset_le
  have hlt := hcur.offset_lt
  have hbias := hcur.bias_le
  have hmax := maxSize_lt
  have hnew : (s.finish va (s.cache.offset - fragsz)).1.cache =
      ⟨some va, s.cache.offset - fragsz, s.cache.size, s.cache.pagecntBias - 1⟩ := by
    have hmod : s.cache.offset - fragsz < offsetMod := lt_offsetMod (by omega)
    have hbias' : (s.cache.pagecntBias + uintSize - 1) % uintSize = s.cache.pagecntBias - 1 := by
      rw [show s.cache.pagecntBias + uintSize - 1 = s.cache.pagecntBias - 1 + uintSize by omega,
        add_mod_right, mod_eq_of_lt (by rw [uintSize]; omega)]
    have hoff : (((s.cache.offset : ℤ) - fragsz) % (offsetMod : ℤ)).toNat = s.cache.offset - fragsz := by
      rw [Int.emod_eq_of_lt (by omega) (by omega)]
      omega
    rw [finish]
    dsimp only
    rw [h.va_eq, hbias', hoff]
  have hinside := h.inside_iff.mpr hfit
  have hhead := h.inv.head_of_inside hcur.size_eq hinside hpos
  have hblock : ∀ va', (s.finish va (s.cache.offset - fragsz)).1.inBlock
      (⟨va + (s.cache.offset - fragsz), fragsz⟩ :: out) va' = s.inBlock out va' + if va =
      va' then 1 else 0 := by
    intro va'
    rw [inBlock, inBlock, countP_cons]
    simp only [finish, hhead, decide_eq_true_eq]
    rfl
  refine ⟨h.inv.pos, h.inv.apart, h.inv.head, ?_, ?_, ?_, ?_⟩
  · intro g hg
    rcases mem_cons.mp hg with rfl | hg
    · exact ⟨hpos, va, s.blockSize, hcur.size_eq, hinside⟩
    · exact h.inv.frag g hg
  · exact pairwise_cons.mpr ⟨fun g hg => h.inv.disjoint_current h.va_eq hlen hg, h.inv.disjoint⟩
  · intro va' n' hs'
    have hcount := h.inv.count hs'
    rw [hblock, hnew]
    change s.count va' = _
    rw [hcount, h.va_eq]
    dsimp only
    by_cases heq : va = va'
    · subst heq
      rw [if_pos rfl, if_pos rfl, if_pos rfl]
      omega
    · rw [if_neg heq, if_neg fun hc => heq (some.inj hc), if_neg fun hc => heq (some.inj hc), add_zero]
  intro va' hva'
  rw [hnew] at hva'
  cases hva'
  refine ⟨hcur.size_eq, hcur.size_le, ?_, ?_, ?_, ?_⟩
  · rw [hnew]
    exact Nat.le_trans (sub_le ..) hle
  · rw [hnew]
    dsimp only
    omega
  · rw [hnew]
    dsimp only
    omega
  rw [hnew]
  intro g hg hghead
  rcases mem_cons.mp hg with rfl | hg
  · dsimp only
    omega
  have habove := hcur.above g hg hghead
  dsimp only
  omega

omit [Config] in
theorem pageRefSubAndTest_eq {nr : ℕ} (hs : s.size va = some n) : s.pageRefSubAndTest va nr =
    .ok (s.count va - nr == 0, { s with count := update s.count va (s.count va - nr) }) := by
  rw [pageRefSubAndTest, hs]
  rfl

omit [Config] in
theorem inBlock_eq_zero (h : s.inBlock out va = 0) : ∀ f ∈ out, s.head f.ptr ≠ va := by
  intro f hf hhead
  exact absurd (decide_eq_true hhead) (countP_eq_zero.mp h f hf)

/-- The block is used again from its end, when all fragments in it were freed. -/
theorem State.Inv.reset (h : s.Inv out) (hva : s.cache.va = some va) (hempty : s.inBlock out va = 0)
    (c : ℤ) :
    Prepared { s with cache := ⟨some va, s.blockSize, s.cache.size, maxSize + 1⟩
                      count := update (update s.count va c) va (maxSize + 1 : ℕ) } out va fragsz := by
  have hcur := h.current hva
  refine ⟨{ h with count := ?_, current := ?_ }, rfl, .inr rfl⟩
  · intro va' n' hs'
    change update (update s.count va c) va (maxSize + 1 : ℕ) va' =
      ((if some va = some va' then maxSize + 1 else 0) + s.inBlock out va' : ℕ)
    by_cases heq : va' = va
    · subst heq
      rw [update_self, if_pos rfl, hempty, add_zero]
    have hne : ¬ some va = some va' := fun hc => heq (some.inj hc).symm
    rw [update_of_ne heq, update_of_ne heq, h.count hs', hva, if_neg hne, if_neg hne]
  intro va' hva'
  cases hva'
  exact ⟨hcur.size_eq, hcur.size_le, Nat.le_refl _, lt_succ_of_le hcur.size_le, Nat.le_refl _,
    fun f hf hhead => absurd hhead (inBlock_eq_zero hempty f hf)⟩

/-- The cache lets go of its block. -/
theorem State.Inv.abandon (h : s.Inv out) (hva : s.cache.va = some va) :
    State.Inv { s with cache := { s.cache with va := none }
                       count := update s.count va (s.count va - s.cache.pagecntBias) } out := by
  refine { h with count := ?_, current := fun hc => nomatch hc }
  intro va' n' hs'
  have hcount := h.count hs'
  change update s.count va (s.count va - s.cache.pagecntBias) va' = (0 + s.inBlock out va' : ℕ)
  by_cases heq : va' = va
  · subst heq
    rw [if_pos hva] at hcount
    rw [update_self]
    omega
  · rw [if_neg fun hc => heq (some.inj (hc.symm.trans hva))] at hcount
    rw [update_of_ne heq, hcount]

/-- What carving from the block at `va` comes to. -/
def Carved.Spec (s : State) (out : List Frag) (va : ℤ) (fragsz : ℕ) : Carved → Prop
  | .done s' ptr => ¬(s.cache.offset < fragsz ∧ s.count va ≠ s.cache.pagecntBias) ∧
      ∃ s₁, Prepared s₁ out va fragsz ∧ s₁.size = s.size ∧ s₁.blockSize = s.blockSize ∧
        (s', ptr) = s₁.finish va (s₁.cache.offset - fragsz)
  | .refill s' => (s.cache.offset < fragsz ∧ s.count va ≠ s.cache.pagecntBias) ∧
      Inv { s' with cache := { s'.cache with va := none } } out ∧ s'.size = s.size ∧ s.inBlock out va ≠ 0

theorem carve_spec (h : s.Inv out) (hva : s.cache.va = some va) (fragsz : ℕ) :
    ∃ c, s.carve va fragsz = .ok c ∧ c.Spec s out va fragsz := by
  have hcur := h.current hva
  have hcount := h.count hcur.size_eq
  rw [if_pos hva] at hcount
  rw [carve]
  split
  case isFalse hge =>
    exact ⟨_, rfl, by omega, s, ⟨h, hva, .inl (by omega)⟩, rfl, rfl, rfl⟩
  case isTrue =>
    rw [pageRefSubAndTest_eq hcur.size_eq]
    by_cases hempty : s.inBlock out va = 0
    · have hzero : (s.count va - s.cache.pagecntBias == 0) = true := beq_iff_eq.mpr (by omega)
      rw [hzero]
      refine ⟨_, rfl, by omega, _, h.reset hva hempty (s.count va - s.cache.pagecntBias), rfl, rfl, ?_⟩
      rw [setPageCount, ← hva]
      rfl
    have hzero : (s.count va - s.cache.pagecntBias == 0) = false := beq_eq_false_iff_ne.mpr (by omega)
    rw [hzero]
    exact ⟨_, rfl, by omega, h.abandon hva, rfl, hempty⟩

/-! ### Refilling -/

/-- The page allocator promises a block that is not in use. -/
def Refill.Promised (r : Refill) (s : State) : Prop :=
  ∀ va n, r.block = some (va, n) → ∀ va' n', s.size va' = some n' → va + n ≤ va' ∨ va' + n' ≤ va

theorem Refill.block_size (h : r.block = some (va, n)) :
    n = (if varies then (if r.large.isSome then maxSize else pageSize) else pageSize) ∧ 0 < n ∧
    n ≤ maxSize := by
  have hpos := pageSize_pos
  have hle : pageSize ≤ maxSize := by
    rw [maxSize_eq]
    split
    case isTrue hle => exact Nat.pow_le_pow_right (by decide) hle
    case isFalse => exact Nat.le_refl _
  rw [Refill.block] at h
  rcases hlarge : (if varies then r.large else none) with _ | va'
  · rw [hlarge] at h
    obtain ⟨_, _, heq⟩ := map_eq_some_iff.mp h
    obtain rfl := (Prod.mk.inj heq).2
    refine ⟨?_, hpos, hle⟩
    split
    case isTrue hvar =>
      rw [if_pos hvar] at hlarge
      rw [hlarge]
      rfl
    case isFalse => rfl
  rw [hlarge] at h
  obtain rfl := (Prod.mk.inj (some.inj h)).2
  split at hlarge
  case isTrue hvar =>
    rw [if_pos hvar, hlarge]
    exact ⟨rfl, by omega, Nat.le_refl _⟩
  case isFalse => exact absurd hlarge (by simp)

/-- The cache after a refill that got the block of `n` bytes at `va`. -/
structure Refilled (s : State) (va : ℤ) (n : ℕ) (s' : State) : Prop where
  va_eq : s'.cache.va = some va
  offset_eq : s'.cache.offset = n
  bias_eq : s'.cache.pagecntBias = maxSize + 1
  blockSize_eq : s'.blockSize = n
  size_eq : s'.size = Function.update s.size va (some n)
  count_self : s'.count va = (maxSize + 1 : ℕ)
  count_of_ne : ∀ va' ≠ va, s'.count va' = s.count va'
  head_eq : ∀ a, s'.head a = if va ≤ a ∧ a < va + n then va else s.head a

theorem refill_refilled (hblock : r.block = some (va, n)) : Refilled s va n (s.refill r) := by
  obtain ⟨hn, hpos, hle⟩ := Refill.block_size hblock
  have hmod : n % offsetMod = n := mod_eq_of_lt (lt_offsetMod hle)
  have hoffset :
    (if varies then (if varies then (if r.large.isSome then maxSize else pageSize) else s.cache.size)
      else pageSize) = n := by
    rw [hn]
    split <;> rfl
  rw [refill, hblock]
  refine ⟨rfl, ?_, rfl, ?_, rfl, ?_, fun va' hne => ?_, fun a => rfl⟩
  · dsimp only
    rw [hoffset, hmod]
  · exact hoffset
  · change update (update s.count va 1) va (update s.count va 1 va + maxSize) va = _
    rw [update_self, update_self]
    omega
  · change update (update s.count va 1) va _ va' = _
    rw [update_of_ne hne, update_of_ne hne]

/-- A new block is all free. -/
theorem Refilled.prepared (hr : Refilled s va n s') (h : s.Inv out) (hva : s.cache.va = none)
    (hpos : 0 < n) (hle : n ≤ maxSize) (hapart : ∀ va' n', s.size va' = some n' → va + n ≤ va' ∨
      va' + n' ≤ va) (fragsz : ℕ) :
    Prepared s' out va fragsz ∧ s'.inBlock out va = 0 := by
  have hold : ∀ {va' n'}, s'.size va' = some n' → va' ≠ va → s.size va' = some n' := by
    intro va' n' hs' hne
    rwa [hr.size_eq, update_of_ne hne] at hs'
  have hself : ∀ {n'}, s'.size va = some n' → n' = n := by
    intro n' hs'
    rw [hr.size_eq, update_self] at hs'
    exact (some.inj hs').symm
  have hsize : ∀ {va' n'}, s.size va' = some n' → va' ≠ va ∧ s'.size va' = some n' := by
    intro va' n' hs'
    have hne : va' ≠ va := by
      rintro rfl
      have hpos' := h.pos hs'
      have hap := hapart va' n' hs'
      omega
    exact ⟨hne, by rwa [hr.size_eq, update_of_ne hne]⟩
  -- the old fragments lie outside of the new block
  have hhead : ∀ f ∈ out, s'.head f.ptr = s.head f.ptr ∧ s.head f.ptr ≠ va := by
    intro f hf
    obtain ⟨hlen, va', n', hs', hge, hend⟩ := h.frag f hf
    have hap := hapart va' n' hs'
    refine ⟨?_, ?_⟩
    · rw [hr.head_eq, if_neg (by omega)]
    rw [h.head hs' hge (by omega)]
    exact (hsize hs').1
  have hcountP : ∀ va', s'.inBlock out va' = s.inBlock out va' := fun va' =>
    countP_congr fun f hf => by rw [(hhead f hf).1]
  have hempty : s'.inBlock out va = 0 := countP_eq_zero.mpr fun f hf => by
    rw [(hhead f hf).1, decide_eq_true_eq]
    exact (hhead f hf).2
  refine ⟨⟨⟨?_, ?_, ?_, ?_, h.disjoint, ?_, ?_⟩, hr.va_eq,
    .inr (hr.offset_eq.trans hr.blockSize_eq.symm)⟩, hempty⟩
  · intro va' n' hs'
    by_cases heq : va' = va
    · subst heq
      exact hself hs' ▸ hpos
    · exact h.pos (hold hs' heq)
  · intro va1 n1 va2 n2 hs1 hs2 hne
    by_cases h1 : va1 = va
    · subst h1
      obtain rfl := hself hs1
      exact hapart va2 n2 (hold hs2 hne.symm)
    by_cases h2 : va2 = va
    · subst h2
      obtain rfl := hself hs2
      exact (hapart va1 n1 (hold hs1 hne)).symm
    · exact h.apart (hold hs1 h1) (hold hs2 h2) hne
  · intro va' n' a hs' hge hlt
    rw [hr.head_eq]
    by_cases heq : va' = va
    · subst heq
      obtain rfl := hself hs'
      exact if_pos ⟨hge, hlt⟩
    have hap := hapart va' n' (hold hs' heq)
    rw [if_neg (by omega)]
    exact h.head (hold hs' heq) hge hlt
  · intro f hf
    obtain ⟨hlen, va', n', hs', hin⟩ := h.frag f hf
    exact ⟨hlen, va', n', (hsize hs').2, hin⟩
  · intro va' n' hs'
    rw [hr.va_eq, hr.bias_eq]
    by_cases heq : va' = va
    · subst heq
      rw [hr.count_self, if_pos rfl, hempty]
    have hcount := h.count (hold hs' heq)
    rw [hva, if_neg (by simp)] at hcount
    rw [hr.count_of_ne va' heq, hcount, if_neg fun hc => heq (some.inj hc).symm, hcountP]
  intro va' hva'
  obtain rfl := some.inj (hr.va_eq.symm.trans hva')
  refine ⟨?_, ?_, ?_, ?_, ?_, ?_⟩
  · rw [hr.size_eq, update_self, hr.blockSize_eq]
  · rwa [hr.blockSize_eq]
  · exact Nat.le_of_eq (hr.offset_eq.trans hr.blockSize_eq.symm)
  · rw [hr.offset_eq, hr.bias_eq]
    omega
  · exact Nat.le_of_eq hr.bias_eq
  intro f hf hf'
  exact absurd hf' (inBlock_eq_zero hempty f hf)

/-! ### `page_frag_alloc` -/

/-- The size of the block that a fragment is going to be carved from: a new one, if the cache has none
    or what is left of its block is too short and there are fragments in it. -/
def State.nextBlock (s : State) (r : Refill) (fragsz : ℕ) : Option ℕ :=
  match s.cache.va with
  | none => r.block.map snd
  | some va =>
    if s.cache.offset < fragsz ∧ s.count va ≠ s.cache.pagecntBias then r.block.map snd
    else some s.blockSize

/-- What a call that asks for `fragsz` bytes comes to, with a block of the size `next`. -/
def AllocSpec (s : State) (out : List Frag) (fragsz : ℕ) (next : Option ℕ) : State × Option ℤ → Prop
  | (s', none) => s'.Inv out ∧ s'.size = s.size
  | (s', some ptr) => ∃ s₁ va, Prepared s₁ out va fragsz ∧ next = some s₁.blockSize ∧
      (∀ va' n, s.size va' = some n → s₁.size va' = some n) ∧
      (s', ptr) = s₁.finish va (s₁.cache.offset - fragsz)

theorem refillLoop_spec (h : Inv { s with cache := { s.cache with va := none } } out)
    (hprom : r.Promised s)
    (fragsz : ℕ) : ∃ res, refillLoop r fragsz 0 s = .ok res ∧
    AllocSpec s out fragsz (r.block.map snd) res := by
  -- the refill does not read the old address
  have hforget : s.refill r = refill { s with cache := { s.cache with va := none } } r := by
    rw [refill, refill]
    rcases r.block with _ | ⟨va, n⟩ <;> rfl
  rw [refillLoop]
  rcases hblock : r.block with _ | ⟨va, n⟩
  · -- a refill that gets nothing leaves the cache without a block
    rw [hforget, refill, hblock]
    exact ⟨_, rfl, { h with current := fun hc => nomatch hc }, rfl⟩
  obtain ⟨-, hpos, hle⟩ := Refill.block_size hblock
  have hrefilled := refill_refilled (s := { s with cache := { s.cache with va := none } }) hblock
  obtain ⟨hprep, hempty⟩ := hrefilled.prepared h rfl hpos hle (hprom va n hblock) fragsz
  have hsize := hrefilled.size_eq
  have hn := hrefilled.blockSize_eq
  rw [← hforget] at hprep hempty hsize hn
  obtain ⟨c, hc, hspec⟩ := carve_spec hprep.inv hprep.va_eq fragsz
  rw [hprep.va_eq]
  dsimp only
  rw [hc]
  rcases c with ⟨s', ptr⟩ | s'
  · obtain ⟨-, s1, hprep1, hsize1, hsame, heq⟩ := hspec
    refine ⟨_, rfl, s1, va, hprep1, congrArg some (hsame.trans hn).symm, fun va' n' hs' => ?_, heq⟩
    have hne : va' ≠ va := by
      rintro rfl
      have hpos' := h.pos hs'
      have hap := hprom va' n hblock va' n' hs'
      omega
    rw [hsize1, hsize, update_of_ne hne]
    exact hs'
  · exact absurd hempty hspec.2.2.2

theorem pageFragAlloc_spec (h : s.Inv out) (hprom : r.Promised s) (fragsz : ℕ) :
    ∃ res, pageFragAlloc r fragsz s = .ok res ∧ AllocSpec s out fragsz (s.nextBlock r fragsz) res := by
  rw [pageFragAlloc, nextBlock]
  rcases hva : s.cache.va with _ | va
  · have hsame : { s with cache := { s.cache with va := none } } = s := by rw [← hva]
    exact refillLoop_spec (hsame ▸ h) hprom fragsz
  obtain ⟨c, hc, hspec⟩ := carve_spec h hva fragsz
  dsimp only
  rw [hc]
  rcases c with ⟨s', ptr⟩ | s'
  · obtain ⟨hkeeps, s1, hprep, hsize, hsame, heq⟩ := hspec
    rw [if_neg hkeeps]
    exact ⟨_, rfl, s1, va, hprep, congrArg some hsame.symm, fun va' n hs => hsize ▸ hs, heq⟩
  obtain ⟨hrefills, hinv, hsize, -⟩ := hspec
  rw [if_pos hrefills]
  have hprom' : r.Promised s' := by
    intro va1 n1 hblock va2 n2 hs
    exact hprom va1 n1 hblock va2 n2 (hsize ▸ hs)
  obtain ⟨⟨s2, _ | ptr⟩, hres, hspec'⟩ := refillLoop_spec hinv hprom' fragsz
  · exact ⟨_, hres, hspec'.1, hspec'.2.trans hsize⟩
  obtain ⟨s1, va', hprep, hnext, hkeep, heq⟩ := hspec'
  exact ⟨_, hres, s1, va', hprep, hnext, fun va1 n1 hs => hkeep va1 n1 (hsize ▸ hs), heq⟩

/-! ### `page_frag_free` -/

omit [Config] in
theorem inBlock_erase (hf : f ∈ out) (va : ℤ) :
    s.inBlock out va = s.inBlock (out.erase f) va + if s.head f.ptr = va then 1 else 0 := by
  rw [inBlock, (perm_cons_erase hf).countP_eq, countP_cons]
  simp only [decide_eq_true_eq]
  rfl

theorem State.Inv.erase (h : s.Inv out) (hf : f ∈ out) :
    Inv { s with count := update s.count (s.head f.ptr) (s.count (s.head f.ptr) - (1 : ℕ)) }
      (out.erase f) := by
  have hmem : ∀ g ∈ out.erase f, g ∈ out := fun g hg => mem_of_mem_erase hg
  refine ⟨h.pos, h.apart, h.head, fun g hg => h.frag g (hmem g hg), h.disjoint.sublist erase_sublist, ?_,
    ?_⟩
  · intro va' n' hs'
    have hcount := h.count hs'
    have hsum := inBlock_erase (s := s) hf va'
    change update s.count (s.head f.ptr) (s.count (s.head f.ptr) - (1 : ℕ)) va' =
      ((if s.cache.va = some va' then s.cache.pagecntBias else 0) + s.inBlock (out.erase f) va' : ℕ)
    by_cases heq : s.head f.ptr = va'
    · subst heq
      rw [if_pos rfl] at hsum
      rw [update_self, hcount]
      omega
    · rw [if_neg heq] at hsum
      rw [update_of_ne (Ne.symm heq), hcount, hsum, add_zero]
  intro va' hva'
  have hcur := h.current hva'
  exact { hcur with above := fun g hg hhead => hcur.above g (hmem g hg) hhead }

/-- A block without fragments goes back to the page allocator. -/
theorem State.Inv.freeThePage (h : s.Inv out) (hva : s.cache.va ≠ some va)
    (hempty : s.inBlock out va = 0) :
    (s.freeThePage va).Inv out := by
  have hold : ∀ {va' n'}, (s.freeThePage va).size va' = some n' → s.size va' = some n' := by
    intro va' n' hs'
    change update s.size va none va' = some n' at hs'
    by_cases heq : va' = va
    · subst heq
      exact absurd hs' (by simp)
    · rwa [update_of_ne heq] at hs'
  have hkeep : ∀ {va' n'}, s.size va' = some n' → va' ≠ va → (s.freeThePage va).size va' = some n' := by
    intro va' n' hs' hne
    rw [State.freeThePage]
    dsimp only
    rwa [update_of_ne hne]
  refine ⟨fun hs => h.pos (hold hs), fun hs hs' => h.apart (hold hs) (hold hs'),
    fun hs => h.head (hold hs), ?_, h.disjoint, fun hs => h.count (hold hs), ?_⟩
  · intro f hf
    obtain ⟨hlen, va', n', hs', hin⟩ := h.frag f hf
    refine ⟨hlen, va', n', hkeep hs' ?_, hin⟩
    rintro rfl
    exact inBlock_eq_zero hempty f hf (h.head_of_inside hs' hin hlen)
  intro va' hva'
  have hcur := h.current hva'
  exact { hcur with size_eq := hkeep hcur.size_eq fun heq => hva (heq ▸ hva') }

/-- A fragment is freed. A block that goes back to the page allocator is not the one in the cache, and
    has no other fragment. -/
theorem pageFragFree_spec (h : s.Inv out) (hf : f ∈ out) : ∃ s', pageFragFree f.ptr s = .ok s' ∧
    s'.Inv (out.erase f) ∧ s'.cache = s.cache ∧
    ∀ va n, s.size va = some n → s'.size va = none → s.cache.va ≠ some va ∧ ∀ g ∈ out.erase f,
    ¬ g.Inside va n := by
  obtain ⟨hlen, va, n, hs, hin⟩ := h.frag f hf
  have hhead := h.head_of_inside hs hin hlen
  have hinv := h.erase hf
  have hcount := h.count hs
  have hsum := inBlock_erase (s := s) hf va
  rw [if_pos hhead] at hsum
  rw [hhead] at hinv
  rw [pageFragFree, dropRefs, hhead, pageRefSubAndTest_eq hs]
  by_cases hzero : s.count va - (1 : ℕ) = 0
  · rw [beq_iff_eq.mpr hzero]
    have hva : s.cache.va ≠ some va := by
      intro hva
      have hlt := (h.current hva).offset_lt
      rw [if_pos hva] at hcount
      omega
    have hempty : s.inBlock (out.erase f) va = 0 := by
      omega
    refine ⟨_, rfl, hinv.freeThePage hva hempty, rfl, fun va' n' hs' hnone => ?_⟩
    have heq : va' = va := by
      by_contra hne
      change update s.size va none va' = none at hnone
      rw [update_of_ne hne, hs'] at hnone
      exact absurd hnone (by simp)
    subst heq
    exact ⟨hva, fun g hg hgin =>
      inBlock_eq_zero hempty g hg (h.head_of_inside hs' hgin (h.frag g (mem_of_mem_erase hg)).1)⟩
  rw [beq_eq_false_iff_ne.mpr hzero]
  refine ⟨_, rfl, hinv, rfl, fun va' n' hs' hnone => ?_⟩
  exact absurd (hs'.symm.trans hnone) (by simp)

/-- The references of the cache are given up. -/
theorem pageFragCacheDrain_spec (h : s.Inv out) (hva : s.cache.va = some va) :
    ∃ s', pageFragCacheDrain va s.cache.pagecntBias s = .ok s' ∧
      State.Inv { s' with cache := { s'.cache with va := none } } out := by
  have hcur := h.current hva
  have hcount := h.count hcur.size_eq
  have hinv := h.abandon hva
  rw [if_pos hva] at hcount
  rw [pageFragCacheDrain, dropRefs, pageRefSubAndTest_eq hcur.size_eq]
  by_cases hzero : s.count va - s.cache.pagecntBias = 0
  · rw [beq_iff_eq.mpr hzero]
    exact ⟨_, rfl, hinv.freeThePage (fun hc => nomatch hc) (show s.inBlock out va = 0 by omega)⟩
  rw [beq_eq_false_iff_ne.mpr hzero]
  exact ⟨_, rfl, hinv⟩

end

/-! ### Histories -/

section
variable [Config]

/-- A cache without a block. -/
def State.Empty (s : State) : Prop := s.cache.va = none ∧ ∀ va, s.size va = none

/-- The state and the fragments not yet freed, after calls of which each allocation meets `ok`. -/
inductive Runs (ok : State → Refill → ℕ → Prop) : State → List Frag → Prop
  | init {s} : s.Empty → Runs ok s []
  | alloc {s out s' ptr} (r : Refill) (fragsz : ℕ) : Runs ok s out → 1 ≤ fragsz → fragsz ≤ maxSize →
      r.Promised s → ok s r fragsz → pageFragAlloc r fragsz s = .ok (s', some ptr) →
      Runs ok s' (⟨ptr, fragsz⟩ :: out)
  | refused {s out s'} (r : Refill) (fragsz : ℕ) : Runs ok s out → 1 ≤ fragsz → fragsz ≤ maxSize →
      r.Promised s → pageFragAlloc r fragsz s = .ok (s', none) → Runs ok s' out
  | free {s out f s'} : Runs ok s out → f ∈ out → pageFragFree f.ptr s = .ok s' →
      Runs ok s' (out.erase f)
  | drain {s out va s'} : Runs ok s out → s.cache.va = some va →
      pageFragCacheDrain va s.cache.pagecntBias s = .ok s' →
      Runs ok { s' with cache := { s'.cache with va := none } } out

/-- The fragment is not larger than the block that it is going to be carved from. -/
def Fits (s : State) (r : Refill) (fragsz : ℕ) : Prop := ∀ n, s.nextBlock r fragsz = some n → fragsz ≤ n

variable {s : State} {out : List Frag}

theorem State.Empty.inv (h : s.Empty) : s.Inv [] := by
  obtain ⟨hva, hsize⟩ := h
  have hno : ∀ {va n}, s.size va ≠ some n := fun {va n} hs => absurd ((hsize va).symm.trans hs) (by simp)
  exact ⟨fun hs => absurd hs hno, fun hs => absurd hs hno, fun hs => absurd hs hno,
    fun _ hf => absurd hf not_mem_nil, Pairwise.nil, fun hs => absurd hs hno,
    fun hc => absurd (hva.symm.trans hc) (by simp)⟩

theorem Runs.inv (h : Runs Fits s out) : s.Inv out := by
  induction h with
  | init hempty => exact hempty.inv
  | alloc r fragsz _ hpos _ hprom hfit hres ih =>
    obtain ⟨res, hres', hspec⟩ := pageFragAlloc_spec ih hprom fragsz
    obtain rfl := ok.inj (hres.symm.trans hres')
    obtain ⟨s1, va, hprep, hnext, -, heq⟩ := hspec
    obtain ⟨rfl, rfl⟩ := mk.inj heq
    exact hprep.finish_inv hpos (hfit _ hnext)
  | refused r fragsz _ _ _ hprom hres ih =>
    obtain ⟨res, hres', hspec⟩ := pageFragAlloc_spec ih hprom fragsz
    obtain rfl := ok.inj (hres.symm.trans hres')
    exact hspec.1
  | free _ hf hres ih =>
    obtain ⟨s', hres', hinv, -⟩ := pageFragFree_spec ih hf
    obtain rfl := ok.inj (hres.symm.trans hres')
    exact hinv
  | drain _ hva hres ih =>
    obtain ⟨s', hres', hinv⟩ := pageFragCacheDrain_spec ih hva
    obtain rfl := ok.inj (hres.symm.trans hres')
    exact hinv

/-- While no fragment is larger than its block, the fragments are disjoint and lie in blocks that are
    still out. The next allocation keeps all blocks, and what it returns is right exactly when it fits.
    The next free returns a block only when nothing else uses it. -/
theorem runs_fragments (h : Runs Fits s out) :
    out.Pairwise Frag.Disjoint ∧ (∀ f ∈ out, ∃ va n, s.size va = some n ∧ f.Inside va n) ∧
    (∀ (r : Refill) (fragsz : ℕ), 1 ≤ fragsz → fragsz ≤ maxSize → r.Promised s →
      ∃ s' res, pageFragAlloc r fragsz s = .ok (s', res) ∧
      (∀ va n, s.size va = some n → s'.size va = some n) ∧
      ∀ ptr, res = some ptr →
      (((∃ va, s'.cache.va = some va ∧ s'.size va = some s'.blockSize ∧
          Frag.Inside ⟨ptr, fragsz⟩ va s'.blockSize) ∧ ∀ f ∈ out, Frag.Disjoint ⟨ptr, fragsz⟩ f) ↔
        Fits s r fragsz)) ∧
    (∀ f ∈ out, ∃ s', pageFragFree f.ptr s = .ok s' ∧
      ∀ va n, s.size va = some n → s'.size va = none →
      s'.cache.va ≠ some va ∧ ∀ g ∈ out.erase f, ¬ g.Inside va n) := by
  have hinv := h.inv
  refine ⟨hinv.disjoint, fun f hf => (hinv.frag f hf).2, fun r fragsz hpos _ hprom => ?_, fun f hf => ?_⟩
  · obtain ⟨⟨s', _ | ptr⟩, hres, hspec⟩ := pageFragAlloc_spec hinv hprom fragsz
    · exact ⟨s', none, hres, fun va n hs => hspec.2 ▸ hs, fun ptr hc => nomatch hc⟩
    obtain ⟨s1, va, hprep, hnext, hkeep, heq⟩ := hspec
    obtain ⟨rfl, rfl⟩ := mk.inj heq
    refine ⟨_, _, hres, hkeep, fun ptr hptr => ?_⟩
    cases hptr
    constructor
    · rintro ⟨⟨va', hva', -, hin⟩, -⟩ n hn
      obtain rfl := Option.some.inj (hprep.va_eq.symm.trans hva')
      obtain rfl := Option.some.inj (hnext.symm.trans hn)
      exact hprep.inside_iff.mp hin
    intro hfits
    have hfit := hfits _ hnext
    have hnew := hprep.finish_inv hpos hfit
    exact ⟨⟨va, hprep.va_eq, (hprep.inv.current hprep.va_eq).size_eq, hprep.inside_iff.mpr hfit⟩,
      (List.pairwise_cons.mp hnew.disjoint).1⟩
  obtain ⟨s', hres, -, hcache, hfreed⟩ := pageFragFree_spec hinv hf
  refine ⟨s', hres, fun va n hs hnone => ?_⟩
  rw [hcache]
  exact hfreed va n hs hnone

end

/-! ### Pages of 4 KiB -/

@[reducible] def fourKib : Config := ⟨12, by decide⟩

def emptyCache : State := ⟨⟨none, 0, 0, 0⟩, id, fun _ => none, fun _ => 0⟩

/-- No large block is to be had, but a page at 40960. -/
def onePage : Refill := ⟨none, some 40960⟩

theorem onePage_promised : @Refill.Promised fourKib onePage emptyCache :=
  fun _ _ _ _ _ hs => nomatch hs

/-- A fragment of 1000 bytes is at the end of the page, and the next call keeps the page. -/
theorem runs_fragments_page : ∃ s, @Runs fourKib (@Fits fourKib) s [⟨44056, 1000⟩] ∧
    ∃ s' res, @pageFragAlloc fourKib ⟨none, none⟩ 500 s = .ok (s', res) ∧ s'.size 40960 = some 4096 := by
  let _ := fourKib
  have heval : (pageFragAlloc onePage 1000 emptyCache).toOption.map (fun p => (p.2, p.1.size 40960)) =
      some (some 44056, some 4096) := by decide +kernel
  obtain ⟨⟨s, ptr⟩, hres, hall⟩ := Outcome.exists_ok heval
  obtain ⟨rfl, hsize⟩ := mk.inj hall
  have hnext : emptyCache.nextBlock onePage 1000 = some 4096 := by decide +kernel
  have hruns : Runs Fits s [⟨44056, 1000⟩] :=
    .alloc onePage 1000 (.init ⟨rfl, fun _ => rfl⟩) (by decide) (by decide) onePage_promised
      (fun n hn => by cases hnext.symm.trans hn; decide) hres
  have hnone : Refill.block ⟨none, none⟩ = none := by decide +kernel
  obtain ⟨s', res, hs', hkeep, -⟩ :=
    (runs_fragments hruns).2.2.1 ⟨none, none⟩ 500 (by decide) (by decide) fun _ _ hb =>
      absurd (hnone.symm.trans hb) (by simp)
  exact ⟨s, hruns, s', res, hs', hkeep _ _ hsize⟩

/-- The page is too small for 8192 bytes: the fragment starts a page before it. -/
theorem runs_before_block : ∃ s, @Runs fourKib (fun _ _ _ => True) s [⟨36864, 8192⟩] ∧
    s.cache.va = some 40960 ∧ s.size 40960 = some 4096 ∧ ¬ Frag.Inside ⟨36864, 8192⟩ 40960 4096 := by
  let _ := fourKib
  have heval :
    (pageFragAlloc onePage 8192 emptyCache).toOption.map (fun p => (p.2, p.1.cache.va, p.1.size 40960)) =
    some (some 36864, some 40960, some 4096) := by decide +kernel
  obtain ⟨⟨s, ptr⟩, hres, hall⟩ := Outcome.exists_ok heval
  obtain ⟨rfl, hall'⟩ := mk.inj hall
  obtain ⟨hva, hsize⟩ := mk.inj hall'
  refine ⟨s, (Runs.init ⟨rfl, fun _ => rfl⟩).alloc onePage 8192 (by decide) (by decide) onePage_promised
    trivial hres, hva, hsize, fun hin => ?_⟩
  exact absurd hin.1 (by decide)

end LinuxNote.PageFrag
