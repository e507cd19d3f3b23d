import Mathlib.Data.List.Basic
import Mathlib.Order.Lattice

/-! Queues kept in the order of a key, first in first out among equal keys. -/

namespace LinuxNote.KeyedQueue
open List

variable {α β : Type} [LinearOrder β] {key : α → β}

/-- `a` behind everything whose key is not greater. -/
def insert (key : α → β) (a : α) : List α → List α
  | [] => [a]
  | b :: bs => if key a < key b then a :: b :: bs else b :: insert key a bs

variable {a : α} {l : List α}

theorem mem_insert {b : α} : b ∈ insert key a l ↔ b = a ∨ b ∈ l := by
  induction l with
  | nil => simp [insert]
  | cons c cs ih =>
    unfold insert
    split
    · simp
    simp only [mem_cons, ih]
    tauto

theorem insert_nodup (ha : a ∉ l) (hl : l.Nodup) : (insert key a l).Nodup := by
  induction l with
  | nil => simp [insert]
  | cons c cs ih =>
    obtain ⟨hc, hnd⟩ := nodup_cons.mp hl
    unfold insert
    split
    · exact nodup_cons.mpr ⟨ha, hl⟩
    refine nodup_cons.mpr ⟨fun hmem => ?_, ih (fun h => ha (mem_cons_of_mem _ h)) hnd⟩
    rcases mem_insert.mp hmem with heq | hmem
    · exact ha (heq ▸ mem_cons_self)
    · exact hc hmem

theorem insert_sorted (hl : l.Pairwise fun x y => key x ≤ key y) :
    (insert key a l).Pairwise fun x y => key x ≤ key y := by
  induction l with
  | nil => simp [insert]
  | cons c cs ih =>
    obtain ⟨hc, hcs⟩ := pairwise_cons.mp hl
    unfold insert
    split
    case isTrue hlt =>
      have hle : key a ≤ key c := le_of_lt hlt
      refine pairwise_cons.mpr ⟨fun x hx => ?_, hl⟩
      rcases mem_cons.mp hx with rfl | hx
      · exact hle
      · exact hle.trans (hc x hx)
    case isFalse hge =>
      refine pairwise_cons.mpr ⟨fun x hx => ?_, ih hcs⟩
      rcases mem_insert.mp hx with rfl | hx
      · exact not_lt.mp hge
      · exact hc x hx

/-- What does not become the first is behind something whose key is not greater. -/
theorem exists_le_of_head_ne (h : (insert key a l).head? ≠ some a) : ∃ b ∈ l, key b ≤ key a := by
  rcases l with _ | ⟨c, cs⟩
  · simp [insert] at h
  unfold insert at h
  split at h
  · simp at h
  · exact ⟨c, mem_cons_self, not_lt.mp ‹_›⟩

/-- The first of a queue has the least key. -/
theorem head_le (hl : l.Pairwise fun x y => key x ≤ key y) (ha : l.head? = some a) :
    ∀ b ∈ l, key a ≤ key b := by
  rcases l with _ | ⟨c, cs⟩
  · cases ha
  cases ha
  intro b hb
  rcases mem_cons.mp hb with rfl | hb
  · exact le_rfl
  · exact rel_of_pairwise_cons hl hb

end LinuxNote.KeyedQueue
