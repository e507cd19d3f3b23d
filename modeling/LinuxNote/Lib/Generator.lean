import Mathlib.Data.List.Nodup

/-! Generators: a `next` function that from a state either yields a value and the next state or signals
    the end. `run` collects what a generator yields, with the states it goes through. A run that ends is
    unique and never comes back to a state. -/

namespace LinuxNote.Generator
open Option List

variable {σ α : Type*} {next : σ → Option (α × σ)}

/-- All values and states from `s` on, or `none` when `n` steps do not reach the end. -/
def run (next : σ → Option (α × σ)) : ℕ → σ → Option (List (α × σ))
  | 0, _ => none
  | n + 1, s =>
    match next s with
    | none => some []
    | some (a, s') => (run next n s').map ((a, s') :: ·)

theorem run_succ_none {n : ℕ} {s : σ} (h : next s = none) : run next (n + 1) s = some [] := by
  simp [run, h]

/-- A generator that is related, state by state, to the values still to come yields those values, in
    one step more than there are values. -/
theorem run_of_relation (P : σ → List α → Prop) (hstep : ∀ s l, P s l →
      (next s = none ∧ l = []) ∨ ∃ a s' l', next s = some (a, s') ∧ l = a :: l' ∧ P s' l') (l : List α)
    (s : σ) (h : P s l) : ∃ tr, tr.map Prod.fst = l ∧ ∀ n, l.length < n → run next n s = some tr := by
  induction l generalizing s with
  | nil =>
    refine ⟨[], rfl, fun n hn => ?_⟩
    obtain ⟨n, rfl⟩ := Nat.exists_eq_succ_of_ne_zero (Nat.ne_zero_of_lt hn)
    exact run_succ_none (by simpa using hstep s _ h)
  | cons a l ih =>
    obtain ⟨s', hs, hP⟩ : ∃ s', next s = some (a, s') ∧ P s' l := by simpa using hstep s _ h
    obtain ⟨tr, htr, hrun⟩ := ih s' hP
    refine ⟨(a, s') :: tr, by simp [htr], fun n hn => ?_⟩
    obtain ⟨n, rfl⟩ := Nat.exists_eq_succ_of_ne_zero (Nat.ne_zero_of_lt hn)
    simp [run, hs, hrun n (Nat.lt_of_succ_lt_succ hn)]

theorem run_unique : ∀ {n m : ℕ} {s : σ} {l l' : List (α × σ)}, run next n s = some l →
    run next m s = some l' → l = l'
  | 0, _, _, _, _, h, _ => by simp [run] at h
  | _ + 1, 0, _, _, _, _, h' => by simp [run] at h'
  | n + 1, m + 1, s, l, l', h, h' => by
    rw [run] at h h'
    rcases hs : next s with _ | p
    · simp_all
    simp only [hs, map_eq_some_iff] at h h'
    obtain ⟨k, hk, rfl⟩ := h
    obtain ⟨k', hk', rfl⟩ := h'
    rw [run_unique hk hk']

/-- The part of a run after a state is the run from that state. -/
theorem run_suffix : ∀ {n : ℕ} {s x : σ} {a : α} (l1 l2 : List (α × σ)),
    run next n s = some (l1 ++ (a, x) :: l2) → ∃ m, run next m x = some l2
  | 0, _, _, _, _, _, h => by simp [run] at h
  | n + 1, s, x, a, l1, l2, h => by
    rw [run] at h
    rcases hs : next s with _ | p
    · simp [hs] at h
    obtain ⟨b, s'⟩ := p
    simp only [hs, map_eq_some_iff] at h
    obtain ⟨k, hk, he⟩ := h
    rcases l1 with _ | ⟨y, l1⟩
    · obtain ⟨⟨rfl, rfl⟩, rfl⟩ : (b = a ∧ s' = x) ∧ k = l2 := by simpa using he
      exact ⟨n, hk⟩
    obtain ⟨rfl, rfl⟩ : (b, s') = y ∧ k = l1 ++ (a, x) :: l2 := by simpa using he
    exact run_suffix l1 l2 hk

/-- A run that ends never comes back to a state, the one it starts from included. -/
theorem run_states_nodup : ∀ {n : ℕ} {s : σ} {l : List (α × σ)}, run next n s = some l →
    (s :: l.map Prod.snd).Nodup
  | 0, _, _, h => by simp [run] at h
  | n + 1, s, l, h => by
    refine nodup_cons.mpr ⟨fun hmem => ?_, ?_⟩
    · obtain ⟨⟨b, x⟩, hx, rfl⟩ := mem_map.mp hmem
      obtain ⟨l1, l2, rfl⟩ := append_of_mem hx
      -- the run from the repeated state would be longer than itself
      obtain ⟨m, hm⟩ := run_suffix l1 l2 h
      have := congrArg length (run_unique h hm)
      simp at this
      omega
    rw [run] at h
    rcases hs : next s with _ | p
    · simp only [hs, some.injEq] at h
      subst h
      exact nodup_nil
    simp only [hs, map_eq_some_iff] at h
    obtain ⟨k, hk, rfl⟩ := h
    exact run_states_nodup hk

end LinuxNote.Generator
