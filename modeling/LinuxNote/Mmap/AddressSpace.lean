import LinuxNote.Lib.Intervals
import LinuxNote.Mmap.Basic
import Mathlib.Data.BitVec

/-! What a list of VMAs stands for: the map from addresses to what is mapped there. -/

namespace LinuxNote.Mmap
open List Nat

open Intervals

/-- What an address is mapped to. -/
structure Page where
  flags : BitVec 64
  file : Option ℕ
  pgoff : BitVec 64
  policy : Option ℕ
deriving DecidableEq

variable [Config]

/-- Up to `VM_SOFTDIRTY`. -/
def Page.clean (p : Page) : Page := { p with flags := p.flags &&& ~~~vmSoftdirty }

/-- What `vma` says about the address `a`. -/
def Vma.page (vma : Vma) (a : ℕ) : Page :=
  ⟨vma.vmFlags, vma.vmFile, vma.vmPgoff + BitVec.ofNat 64 (pages (a - vma.vmStart)), vma.vmPolicy⟩

/-- What a request wants at the address `a`. -/
def Request.page (r : Request) (a : ℕ) : Page :=
  ⟨r.vmFlags, r.file, r.pgoff + BitVec.ofNat 64 (pages (a - r.addr)), r.policy⟩

/-- The map of an address space. -/
def pageAt (mm : Mm) : ℕ → Option Page := valueAt Vma.vmStart Vma.vmEnd Vma.page mm.mmap

/-- The map up to `VM_SOFTDIRTY`. -/
def cleanAt (mm : Mm) : ℕ → Option Page := valueAt Vma.vmStart Vma.vmEnd
    (fun v a => (v.page a).clean) mm.mmap

/-- A VMA of whole pages. One without an `anon_vma` has an empty chain. -/
@[mk_iff] structure Vma.Ok (v : Vma) : Prop where
  start_lt : v.vmStart < v.vmEnd
  end_lt : v.vmEnd < 2 ^ 64
  start_dvd : pageSize ∣ v.vmStart
  end_dvd : pageSize ∣ v.vmEnd
  chain : v.anonVma = none → v.anonVmaChain = 0

/-- The VMAs in address order and counted. -/
@[mk_iff] structure WellFormed (mm : Mm) : Prop where
  ordered : Ordered Vma.vmStart Vma.vmEnd mm.mmap
  ok : ∀ v ∈ mm.mmap, v.Ok
  count : mm.mapCount = mm.mmap.length

instance (v : Vma) : Decidable v.Ok := decidable_of_iff _ v.ok_iff.symm

instance (mm : Mm) : Decidable (WellFormed mm) :=
  have : Decidable (Ordered Vma.vmStart Vma.vmEnd mm.mmap) := inferInstanceAs (Decidable (Pairwise _ _))
  decidable_of_iff _ (wellFormed_iff mm).symm

/-- Either an error and no change, or success and a new address space. -/
def Adjusts (res : Except Bug (Option Errno × Mm)) (mm : Mm) (P : Mm → Prop) : Prop :=
  (∃ err, res = .ok (some err, mm)) ∨ ∃ mm', res = .ok (none, mm') ∧ P mm'

/-! ### Page offsets -/

theorem pageSize_pos : 0 < pageSize := Nat.two_pow_pos _

/-- The pages up to `a`, counted from `s` and from a later page boundary. -/
theorem pages_split {s b a : ℕ} (hs : pageSize ∣ s) (hb : pageSize ∣ b) (hsb : s ≤ b) (hba : b ≤ a) :
    pages (a - s) = pages (b - s) + pages (a - b) := by
  obtain ⟨k, hk⟩ := dvd_sub hb hs
  have ha : a - s = a - b + k * pageSize := by rw [mul_comm, ← hk]; omega
  rw [pages, pages, pages, ha, Nat.add_mul_div_right _ _ pageSize_pos, hk,
    Nat.mul_div_cancel_left _ pageSize_pos, Nat.add_comm]

theorem pages_mul {s b : ℕ} (hs : pageSize ∣ s) (hb : pageSize ∣ b) (hsb : s ≤ b) :
    (pages (b - s) : ℤ) * pageSize = b - s := by
  rw [← cast_mul, pages, Nat.div_mul_cancel (Nat.dvd_sub hb hs)]
  omega

/-- A VMA whose start and offset have moved up by as many pages. -/
theorem Vma.page_up {v w : Vma} {b a : ℕ} (hv : pageSize ∣ v.vmStart) (hb : pageSize ∣ b)
    (hvb : v.vmStart ≤ b) (hba : b ≤ a) (hstart : w.vmStart = b)
    (hpgoff : w.vmPgoff = v.vmPgoff + BitVec.ofNat 64 (pages (b - v.vmStart)))
    (hflags : w.vmFlags = v.vmFlags) (hfile : w.vmFile = v.vmFile) (hpolicy : w.vmPolicy = v.vmPolicy) :
    w.page a = v.page a := by
  rw [page, page, hstart, hpgoff, hflags, hfile, hpolicy, pages_split hv hb hvb hba, BitVec.ofNat_add,
    BitVec.add_assoc]

/-! ### Moving the start -/

theorem Vma.shift_eq {v : Vma} {b : ℕ} {n : ℤ} (hn : n * pageSize = b - v.vmStart) (hlt : b < 2 ^ 64) :
    v.shift n = v.put b v.vmEnd (v.vmPgoff + BitVec.ofInt 64 n) := by
  have hstart : ((v.vmStart + n * pageSize) % 2 ^ 64).toNat = b := by
    rw [hn]
    omega
  rw [shift, hstart, put]

/-! ### Replacing a part of the list -/

section
variable {mm : Mm} {L R : List Vma} {lo hi : ℕ}

/-- Other VMAs in the place of some, between the bounds that the rest leaves. -/
theorem WellFormed.replace (M M' : List Vma) (h : WellFormed mm) (hmm : mm.mmap = L ++ (M ++ R))
    (hle : lo ≤ hi) (hL : ∀ v ∈ L, v.vmEnd ≤ lo) (hR : ∀ v ∈ R, hi ≤ v.vmStart)
    (hord : Ordered Vma.vmStart Vma.vmEnd M') (hM' : ∀ v ∈ M', v.Ok ∧ lo ≤ v.vmStart ∧ v.vmEnd ≤ hi)
    {count : ℕ} {locked : BitVec 64} (hcount : count + M.length = mm.mapCount + M'.length) :
    WellFormed ⟨L ++ (M' ++ R), count, locked⟩ := by
  obtain ⟨ho, hall, hc⟩ := h
  rw [hmm] at ho hall hc
  obtain ⟨hLo, hMR, -⟩ := ordered_append.mp ho
  refine ⟨?_, ?_, ?_⟩
  · refine ordered_append.mpr ⟨hLo,
      ordered_append.mpr ⟨hord, (ordered_append.mp hMR).2.1, fun u hu v hv => ?_⟩, fun u hu v hv => ?_⟩
    · exact (hM' u hu).2.2.trans (hR v hv)
    rcases mem_append.mp hv with hv | hv
    · exact (hL u hu).trans (hM' v hv).2.1
    · exact (hL u hu).trans (hle.trans (hR v hv))
  · intro v hv
    rcases mem_append.mp hv with hv | hv
    · exact hall v (mem_append_left _ hv)
    rcases mem_append.mp hv with hv | hv
    · exact (hM' v hv).1
    · exact hall v (mem_append_right _ (mem_append_right _ hv))
  · simp only [length_append] at hc ⊢
    omega

/-- A VMA of the list and its neighbours. -/
theorem WellFormed.around {v : Vma} (h : WellFormed mm) (hmm : mm.mmap = L ++ v :: R) :
    v.Ok ∧ (∀ u ∈ L, u.vmEnd ≤ v.vmStart) ∧ ∀ u ∈ R, v.vmEnd ≤ u.vmStart := by
  have ho := h.ordered
  rw [hmm] at ho
  obtain ⟨-, hvR, hL⟩ := ordered_append.mp ho
  refine ⟨h.ok v ?_, fun u hu => hL u hu v mem_cons_self, (ordered_cons.mp hvR).1⟩
  rw [hmm]
  exact mem_append_right _ mem_cons_self

end

end LinuxNote.Mmap
