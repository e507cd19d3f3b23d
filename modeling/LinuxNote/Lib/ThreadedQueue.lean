import Mathlib.Data.List.Chain
import Mathlib.Data.List.Nodup

/-! A queue threaded through an array: `next a` is the index behind `a`, and the two ends are kept beside
the array. -/

namespace LinuxNote.ThreadedQueue
open List Function

variable {α : Type*} {next next' : α → α} {head tail : Option α} {l : List α} {a b : α}

/-- The queue holds `l`. What the array has at the last index, and outside of the queue, does not
    matter. -/
structure Queued (next : α → α) (head tail : Option α) (l : List α) : Prop where
  nodup : l.Nodup
  head_eq : head = l.head?
  tail_eq : tail = l.getLast?
  links : l.IsChain (fun a b => next a = b)

theorem Queued.congr (h : Queued next head tail l) (hnext : ∀ a ∈ l, next' a = next a) :
    Queued next' head tail l := by
  refine { h with links := h.links.imp_of_mem_imp fun a b ha _ hab => ?_ }
  rw [hnext a ha, hab]

theorem queued_nil : Queued next none none [] := ⟨nodup_nil, rfl, rfl, isChain_nil⟩

theorem Queued.push [DecidableEq α] (h : Queued next head (some b) l) (ha : a ∉ l) :
    Queued (update next b a) head (some a) (l ++ [a]) := by
  obtain ⟨l, rfl⟩ := getLast?_eq_some_iff.mp h.tail_eq.symm
  obtain ⟨hl, -, hb⟩ := isChain_append.mp h.links
  have hnodup : (l ++ [b] ++ [a]).Nodup := by
    rw [nodup_append]
    exact ⟨h.nodup, nodup_singleton a, by rintro x hx y hy rfl; exact ha (mem_singleton.mp hy ▸ hx)⟩
  -- only the link of the old end has changed
  have hne : ∀ x ∈ l, update next b a x = next x := by
    rintro x hx
    refine update_of_ne ?_ a next
    rintro rfl
    exact (nodup_append.mp h.nodup).2.2 x hx x (mem_singleton_self x) rfl
  refine ⟨hnodup, by rw [h.head_eq]; cases l <;> rfl, by simp, ?_⟩
  rw [append_assoc, isChain_append]
  refine ⟨hl.imp_of_mem_imp fun x y hx _ hxy => (hne x hx).trans hxy, ?_, fun x hx y hy => ?_⟩
  · simp
  rw [hne x (mem_of_getLast? hx)]
  exact hb x hx y hy

theorem Queued.pop_last (h : Queued next (some a) (some a) l) : l = [a] := by
  obtain ⟨l, rfl⟩ := head?_eq_some_iff.mp h.head_eq.symm
  rcases l with _ | ⟨b, l⟩
  · rfl
  have hlast := h.tail_eq
  rw [getLast?_cons_cons] at hlast
  exact absurd (mem_of_getLast? hlast.symm) (nodup_cons.mp h.nodup).1

theorem Queued.pop (h : Queued next (some a) tail l) (hne : tail ≠ some a) :
    ∃ l', l = a :: l' ∧ Queued next (some (next a)) tail l' := by
  obtain ⟨l, rfl⟩ := head?_eq_some_iff.mp h.head_eq.symm
  rcases l with _ | ⟨b, l⟩
  · exact absurd h.tail_eq hne
  obtain ⟨hab, hl⟩ := isChain_cons_cons.mp h.links
  refine ⟨b :: l, rfl, (nodup_cons.mp h.nodup).2, by rw [hab]; rfl, ?_, hl⟩
  rw [h.tail_eq, getLast?_cons_cons]

end LinuxNote.ThreadedQueue
