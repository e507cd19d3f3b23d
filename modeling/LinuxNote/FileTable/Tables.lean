import LinuxNote.FileTable.Basic
import Mathlib.Algebra.Order.Floor.Div
import Mathlib.Data.Nat.Log
import Mathlib.Tactic.Ring

/-! What the bitmaps of a table say about each other, and how a table is copied into a larger one. The
    bitmaps survive every copy. The array of files does when the byte counts, as `unsigned int`s, do not
    wrap. -/

namespace LinuxNote.FileTable
open Function Nat Bool

variable {File : Type} {fdt ofdt nfdt : Fdtable File} {fd i w nr count : ℕ}

/-! ### The size of a new table -/

theorem le_roundupPowOfTwo (n : ℕ) : n ≤ roundupPowOfTwo n := by
  rw [roundupPowOfTwo, flsLong]
  split
  case isTrue h => omega
  case isFalse h =>
    have := lt_log2_self (n := n - 1)
    omega

/-- Rounding up to whole words. -/
theorem or_word (n : ℕ) : (n ||| (bitsPerLong - 1)) + 1 = bitsPerLong * (n / bitsPerLong + 1) := by
  have hlow : ∀ r < 64, r ||| 63 = 63 := by decide
  have hsplit : n ||| 63 = (n / 64) <<< 6 + 63 := by
    rw [shiftLeft_add_eq_or_of_lt (by decide)]
    conv_lhs => rw [← div_add_mod n 64, mul_comm, ← shiftLeft_eq _ 6,
      Nat.shiftLeft_add_eq_or_of_lt (Nat.mod_lt n (by decide)), Nat.or_assoc,
      hlow _ (mod_lt n (by decide))]
  rw [bitsPerLong, show 64 - 1 = 63 from rfl, hsplit, shiftLeft_eq]
  omega

/-- The chosen size is a whole number of words, and is beyond `nr` unless `sysctl_nr_open` is not. -/
theorem fdtableSize_spec (nrOpen : NrOpen) (h : nr < nrOpenMax) :
    bitsPerLong ∣ fdtableSize nrOpen nr ∧ fdtableSize nrOpen nr ≤ nrOpenMax ∧
    (nr < nrOpen.val → nr < fdtableSize nrOpen nr) := by
  have hhi := nrOpen.le_max
  have hge := le_roundupPowOfTwo (nr / 128 + 1)
  have hle : roundupPowOfTwo (nr / 128 + 1) ≤ 2 ^ 24 := by
    rw [nrOpenMax, bitsPerLong] at h
    rw [roundupPowOfTwo, flsLong]
    split
    case isTrue hn => exact Nat.one_le_two_pow
    case isFalse hn => exact Nat.pow_le_pow_right (by decide) ((Nat.log2_lt hn).mpr (by omega))
  rw [fdtableSize, or_word, ptrSize, show 1024 / 8 = 128 from rfl]
  generalize roundupPowOfTwo (nr / 128 + 1) = r at hge hle
  rw [nrOpenMax, bitsPerLong] at *
  have hwrap : r * 128 % uintSize = r * 128 := mod_eq_of_lt (by rw [uintSize]; omega)
  have hwrap' : 64 * ((nrOpen.val - 1) / 64 + 1) % uintSize = 64 * ((nrOpen.val - 1) / 64 + 1) :=
    mod_eq_of_lt (by rw [uintSize]; omega)
  rw [hwrap, hwrap']
  split
  case isTrue hgt => exact ⟨dvd_mul_right .., by omega, fun _ => by omega⟩
  case isFalse hgt => exact ⟨⟨r * 2, by ring⟩, by omega, fun _ => by omega⟩

/-! ### Bitmaps -/

theorem wordFull_iff {bits : ℕ → Bool} : wordFull bits w = true ↔ ∀ b < bitsPerLong, bits
    (bitsPerLong * w + b) = true := by
  rw [wordFull, List.all_eq_true]
  exact forall_congr' fun b => by rw [List.mem_range]

/-- The bitmaps of a table fit together, and nothing is set outside of them. -/
structure Fdtable.Bitmaps (fdt : Fdtable File) : Prop where
  pos : 0 < fdt.maxFds
  words : bitsPerLong ∣ fdt.maxFds
  small : fdt.maxFds ≤ nrOpenMax
  full : ∀ w, fdt.fullFdsBits w = true ↔ ∀ b < bitsPerLong, fdt.openFds (bitsPerLong * w + b) = true
  outside : ∀ i, fdt.maxFds ≤ i → fdt.openFds i = false
  execOutside : ∀ i, fdt.maxFds ≤ i → fdt.closeOnExec i = false

/-- Files are only in open slots. -/
def Fdtable.Installed (fdt : Fdtable File) : Prop := ∀ i, fdt.fd i ≠ none → fdt.openFds i = true

section

variable {file : Option File}

@[simp] theorem setOpenFd_openFds : (fdt.setOpenFd fd).openFds = update fdt.openFds fd true := rfl

@[simp] theorem clearOpenFd_fd : (fdt.clearOpenFd fd).fd = fdt.fd := rfl

@[simp] theorem clearOpenFd_openFds : (fdt.clearOpenFd fd).openFds = update fdt.openFds fd false := rfl

@[simp] theorem putFile_fd : (fdt.putFile fd file).fd = update fdt.fd fd file := rfl

end

theorem block_ne {b : ℕ} (hb : b < bitsPerLong) (hw : w ≠ fd / bitsPerLong) :
    bitsPerLong * w + b ≠ fd := by
  rintro rfl
  rw [mul_add_div (by decide), div_eq_of_lt hb, add_zero] at hw
  exact hw rfl

theorem Fdtable.Bitmaps.setOpenFd (h : fdt.Bitmaps) (hfd : fd < fdt.maxFds) :
    (fdt.setOpenFd fd).Bitmaps := by
  refine { h with full := fun w => ?_, outside := fun i hi => ?_ }
  · rw [setOpenFd_openFds]
    by_cases hw : w = fd / bitsPerLong
    · rw [hw, ← wordFull_iff, Fdtable.setOpenFd]
      split
      · rename_i hfull
        exact iff_of_true (update_self ..) hfull
      -- a word that was full is still full
      rename_i hfull
      refine iff_of_false (fun hset => hfull (wordFull_iff.mpr fun b hb => ?_)) hfull
      rw [update_apply, (h.full _).mp hset b hb, ite_self]
    have hsame : (fdt.setOpenFd fd).fullFdsBits w = fdt.fullFdsBits w := by
      rw [Fdtable.setOpenFd]
      split
      · exact update_of_ne hw ..
      · rfl
    rw [hsame, h.full]
    exact forall₂_congr fun b hb => by rw [update_of_ne (block_ne hb hw)]
  · rw [setOpenFd_openFds, update_of_ne (by rintro rfl; exact absurd hfd (not_lt.mpr hi))]
    exact h.outside i hi

theorem Fdtable.Bitmaps.clearOpenFd (h : fdt.Bitmaps) : (fdt.clearOpenFd fd).Bitmaps := by
  have hfull : (fdt.clearOpenFd fd).fullFdsBits = update fdt.fullFdsBits (fd / bitsPerLong) false := rfl
  refine { h with full := fun w => ?_, outside := fun i hi => ?_ }
  · rw [clearOpenFd_openFds, hfull]
    by_cases hw : w = fd / bitsPerLong
    · rw [hw, update_self]
      refine iff_of_false (by simp) fun hall => ?_
      have := hall (fd % bitsPerLong) (mod_lt _ (by decide))
      rw [div_add_mod, update_self] at this
      cases this
    · rw [update_of_ne hw, h.full]
      exact forall₂_congr fun b hb => by rw [update_of_ne (block_ne hb hw)]
  · rw [clearOpenFd_openFds, update_apply, h.outside i hi, ite_self]

theorem Fdtable.Bitmaps.putCloseOnExec {cloexec : Bool} (h : fdt.Bitmaps) (hfd : fd < fdt.maxFds) :
    (fdt.putCloseOnExec fd cloexec).Bitmaps := by
  refine { h with execOutside := fun i hi => ?_ }
  exact (update_of_ne (by rintro rfl; exact absurd hfd (not_lt.mpr hi)) ..).trans (h.execOutside i hi)

theorem Fdtable.Bitmaps.putFile {file : Option File} (h : fdt.Bitmaps) : (fdt.putFile fd file).Bitmaps :=
  { h with }

/-! ### Copies -/

theorem copyCells_eq {α : Type} {dst src : ℕ → α} {zero : α} {n m : ℕ} (hsrc : ∀ i, n ≤ i → src i = zero)
    (hdst : ∀ i, n + m ≤ i → dst i = zero) : copyCells dst src zero n m = src := by
  funext i
  rw [copyCells]
  split
  · rfl
  rename_i hn
  rw [hsrc i (not_lt.mp hn)]
  split
  · rfl
  rename_i hm
  exact hdst i (not_lt.mp hm)

/-- The byte counts of `copy_fdtable` do not wrap. -/
def CopyFits (old new : ℕ) : Prop := old * ptrSize < uintSize ∧ (new - old) * ptrSize < uintSize

instance (old new : ℕ) : Decidable (CopyFits old new) := inferInstanceAs (Decidable (_ ∧ _))

theorem bitbitNr_mul (k : ℕ) : bitbitNr (bitsPerLong * k) = (k + 63) / 64 := by
  rw [bitbitNr, bitsToLongs, bitsToLongs, bitsPerLong]
  omega

/-- A copy of `count` bits keeps a bitmap that is clear from there on. -/
theorem copyCells_bits {dst src : ℕ → Bool} {size : ℕ} (hcount : bitsPerLong ∣ count)
    (hsize : bitsPerLong ∣ size) (hle : count ≤ size) (hmax : size ≤ nrOpenMax)
    (hsrc : ∀ i, count ≤ i → src i = false) (hdst : ∀ i, size ≤ i → dst i = false) :
    copyCells dst src false (bitsPerByte * (count / bitsPerByte))
    (bitsPerByte * ((size + uintSize - count) % uintSize / bitsPerByte)) = src := by
  obtain ⟨k, rfl⟩ := hcount
  obtain ⟨n, rfl⟩ := hsize
  rw [nrOpenMax, bitsPerLong] at hmax
  rw [bitsPerLong] at hle hsrc hdst
  rw [bitsPerLong, bitsPerByte, uintSize]
  exact copyCells_eq (fun i hi => hsrc i (by omega)) (fun i hi => hdst i (by omega))

/-- What a copied table has of the old one. -/
structure Grown (ofdt nfdt : Fdtable File) (size : ℕ) : Prop where
  maxFds : nfdt.maxFds = size
  openFds : nfdt.openFds = ofdt.openFds
  closeOnExec : nfdt.closeOnExec = ofdt.closeOnExec
  fullFdsBits : nfdt.fullFdsBits = ofdt.fullFdsBits
  fd : CopyFits ofdt.maxFds size → ofdt.Installed → nfdt.fd = ofdt.fd

theorem Fdtable.Bitmaps.full_outside (h : fdt.Bitmaps) (hw : fdt.maxFds / bitsPerLong ≤ w) :
    fdt.fullFdsBits w = false := by
  refine eq_false_of_ne_true fun hset => ?_
  have hopen := (h.full w).mp hset 0 (by decide)
  rw [h.outside _ ?_] at hopen
  · cases hopen
  obtain ⟨k, hk⟩ := h.words
  rw [hk, Nat.mul_div_cancel_left _ (by decide)] at hw
  rw [hk]
  exact mul_le_mul_left _ hw

theorem Fdtable.Installed.outside (h : fdt.Installed) (hb : fdt.Bitmaps) (hi : fdt.maxFds ≤ i) :
    fdt.fd i = none := by
  by_contra hne
  have := h i hne
  rw [hb.outside i hi] at this
  cases this

theorem copyFdtable_grown (mem : Memory File) (h : ofdt.Bitmaps) (hnr : nr < nrOpenMax)
    (hle : ofdt.maxFds ≤ fdtableSize mem.nrOpen nr) :
    ∃ nfdt, copyFdtable (allocFdtable mem nr) ofdt = .ok nfdt ∧
    Grown ofdt nfdt (fdtableSize mem.nrOpen nr) := by
  obtain ⟨hwords, hmax, -⟩ := fdtableSize_spec mem.nrOpen hnr
  have hsize : (allocFdtable mem nr).maxFds = fdtableSize mem.nrOpen nr := rfl
  rw [copyFdtable, hsize, if_neg (not_lt.mpr hle)]
  refine ⟨_, rfl, rfl, copyCells_bits h.words hwords hle hmax h.outside fun i hi => ?_,
    copyCells_bits h.words hwords hle hmax h.execOutside fun i hi => ?_,
    copyCells_eq (fun w hw => h.full_outside ?_) fun w hw => ?_, fun hfits hin => ?_⟩
  · exact and_eq_false_imp.mpr fun hlt => absurd (of_decide_eq_true hlt) (not_lt.mpr hi)
  · exact and_eq_false_imp.mpr fun hlt => absurd (of_decide_eq_true hlt) (not_lt.mpr hi)
  · obtain ⟨k, hk⟩ := h.words
    rw [hk, bitbitSize, bitbitNr_mul, bitsPerLong, bitsPerByte] at hw
    rw [hk, bitsPerLong]
    omega
  · refine and_eq_false_imp.mpr fun hlt => absurd (of_decide_eq_true hlt) (not_lt.mpr ?_)
    obtain ⟨k, hk⟩ := h.words
    obtain ⟨n, hn⟩ := hwords
    rw [hk, hn, bitsPerLong] at hle
    rw [hn, nrOpenMax, bitsPerLong] at hmax
    dsimp only at hw
    rw [hk, hn, bitbitSize, bitbitSize, bitbitNr_mul, bitbitNr_mul, bitsPerLong, bitsPerByte,
      uintSize] at hw
    rw [hn, bitbitNr_mul, bitsPerLong]
    omega
  -- no count wraps, so that the two counts cover the new array
  rw [Nat.mod_eq_of_lt hfits.1, Nat.mod_eq_of_lt hfits.2, Nat.mul_div_cancel _ (by decide),
    Nat.mul_div_cancel _ (by decide)]
  refine copyCells_eq (fun i hi => hin.outside h hi) fun i hi => if_neg ?_
  rw [Nat.add_sub_cancel' hle] at hi
  exact not_lt.mpr hi

theorem Grown.bitmaps {size : ℕ} (hg : Grown ofdt nfdt size) (h : ofdt.Bitmaps)
    (hle : ofdt.maxFds ≤ size) (hwords : bitsPerLong ∣ size) (hmax : size ≤ nrOpenMax) :
    nfdt.Bitmaps := by
  refine ⟨?_, ?_, ?_, fun w => ?_, fun i hi => ?_, fun i hi => ?_⟩
  · rw [hg.maxFds]
    exact h.pos.trans_le hle
  · rwa [hg.maxFds]
  · rwa [hg.maxFds]
  · rw [hg.fullFdsBits, hg.openFds]
    exact h.full w
  · rw [hg.maxFds] at hi
    rw [hg.openFds]
    exact h.outside i (hle.trans hi)
  rw [hg.maxFds] at hi
  rw [hg.closeOnExec]
  exact h.execOutside i (hle.trans hi)

end LinuxNote.FileTable
