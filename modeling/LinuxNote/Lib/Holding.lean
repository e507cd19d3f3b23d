import Mathlib.Data.List.Nodup

/-! Things that threads hold. A thing is held by at most one thread, and once; a thread that moves on
    may drop what it held and take what nobody holds. -/

namespace LinuxNote.Holding
open Function

variable {T σ α : Type*} {held : σ → List α} {pc : T → σ}

/-- What a thread in state `pc t` holds is held by no other thread. -/
structure Exclusive (held : σ → List α) (pc : T → σ) : Prop where
  nodup : ∀ t, (held (pc t)).Nodup
  unique : ∀ t t' a, a ∈ held (pc t) → a ∈ held (pc t') → t = t'

/-- A thread moves on. -/
theorem Exclusive.update [DecidableEq T] {t : T} {p : σ} (h : Exclusive held pc) (hp : (held p).Nodup)
    (hnew : ∀ a ∈ held p, a ∈ held (pc t) ∨ ∀ t', a ∉ held (pc t')) :
    Exclusive held (update pc t p) := by
  have hcases : ∀ t' a, a ∈ held (Function.update pc t p t') → t' = t ∧ a ∈ held p ∨ t' ≠ t ∧
    a ∈ held (pc t') := by
    intro t' a ha
    by_cases htt : t' = t
    · rw [htt, update_self] at ha
      exact .inl ⟨htt, ha⟩
    rw [update_of_ne htt] at ha
    exact .inr ⟨htt, ha⟩
  -- another thread holds nothing of what the thread has now
  have hother : ∀ t' a, t' ≠ t → a ∈ held (pc t') → a ∉ held p := by
    intro t' a hne ha hmem
    rcases hnew a hmem with hold | hfree
    · exact hne (h.unique t' t a ha hold)
    · exact hfree t' ha
  refine ⟨fun t' => ?_, fun t1 t2 a h1 h2 => ?_⟩
  · by_cases htt : t' = t
    · rw [htt, update_self]
      exact hp
    rw [update_of_ne htt]
    exact h.nodup t'
  rcases hcases t1 a h1 with ⟨rfl, ha⟩ | ⟨hne, ha⟩
  · rcases hcases t2 a h2 with ⟨rfl, -⟩ | ⟨hne', ha'⟩
    · rfl
    · exact absurd ha (hother t2 a hne' ha')
  rcases hcases t2 a h2 with ⟨rfl, ha'⟩ | ⟨-, ha'⟩
  · exact absurd ha' (hother t1 a hne ha)
  · exact h.unique t1 t2 a ha ha'

end LinuxNote.Holding
