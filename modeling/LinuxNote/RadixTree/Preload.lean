import LinuxNote.RadixTree.Map

/-! What `radix_tree_preload` is for: an insertion takes at most `RADIX_TREE_PRELOAD_SIZE` nodes. -/

namespace LinuxNote.RadixTree
open Nat
open Config (mapShift)

variable {alloc : ℕ → Bool} {t t' : Tree} {m : Contents} {live : Set ℕ} {i k fuel : ℕ} {s : Slot}

theorem nodeAlloc_next {p r : Option ℕ} {shift o c v : ℕ}
    (h : t.nodeAlloc alloc p shift o c v = (r, t')) : t'.next = t.next + 1 := by
  rw [Tree.nodeAlloc] at h
  split at h <;> cases h <;> rfl

theorem insertEntries_next {v : Item} (h : insertEntries s v t = some t') : t'.next = t.next := by
  unfold insertEntries at h
  split at h
  · cases h
  · split at h <;> cases h <;> rfl

section
variable [Config]

/-- `RADIX_TREE_MAX_PATH`. -/
def maxPath : ℕ := (bitsPerLong + mapShift - 1) / mapShift

/-- `RADIX_TREE_PRELOAD_SIZE`. -/
def preloadSize : ℕ := maxPath * 2 - 1

/-- `radix_tree_node_alloc` with `nr` preloaded nodes: what the cache does not give is taken from them.
    The first allocation is the one with number `first`. -/
def preloaded (cache : ℕ → Bool) (first nr k : ℕ) : Bool :=
  cache k || (List.range' first (k - first)).countP (fun j => !cache j) < nr

theorem le_maxPath (h : mapShift * k < bitsPerLong + mapShift) : k ≤ maxPath := by
  rw [maxPath, le_div_iff_mul_le Config.pos, mul_comm]
  omega

theorem pushTop_next (n : ℕ) : (pushTop n t).next = t.next := by
  have hadopt : ∀ e t', (adopt n e t').next = t'.next := by
    intro e t'
    unfold adopt
    split
    · rfl
    · split <;> rfl
  have htags : (pushTags n t).next = t.next := by
    unfold pushTags
    dsimp only
    split
    · split <;> rfl
    · rfl
  exact (hadopt ..).trans htags

/-- One node for each level, but none for the first one when there is something in the slot. -/
theorem createLoop_next {r : Option Slot}
    (h : createLoop alloc i fuel (mapShift * k) s t = .ok (r, t')) :
    t'.next ≤ t.next + k ∧ (t.read s ≠ .null → t'.next ≤ t.next + (k - 1)) := by
  induction fuel generalizing k s t with
  | zero => cases h
  | succ fuel ih =>
    rw [createLoop] at h
    split at h
    · cases h
      omega
    obtain ⟨k, rfl⟩ : ∃ c, k = c + 1 := exists_eq_succ_of_ne_zero (by rintro rfl; contradiction)
    rw [Nat.mul_succ, Nat.add_sub_cancel] at h
    split at h
    · refine ⟨?_, by simp [*]⟩
      split at h <;> have hnext := nodeAlloc_next (by assumption)
      · cases h
        omega
      have := (ih h).1
      rw [show ∀ n t, (linkChild s n t).next = t.next by cases s <;> exact fun _ _ => rfl] at this
      omega
    · cases h
      omega
    · have := (ih h).1
      omega

theorem extendLoop_next {a c : ℕ} {b : Bool} (hle : a ≤ c)
    (h : extendLoop alloc (mapShift * c) fuel (mapShift * a) t = .ok (b, t')) :
    t'.next ≤ t.next + (c + 1 - a) ∧ (b = true → t'.read none ≠ .null) := by
  induction fuel generalizing a t with
  | zero => cases h
  | succ fuel ih =>
    rw [extendLoop] at h
    split at h <;> have hnext := nodeAlloc_next (by assumption)
    · cases h
      exact ⟨by omega, by simp⟩
    split at h
    · cases h
    split at h
    · rename_i hmore
      obtain ⟨hle', hhead⟩ := ih (a := a + 1) (le_of_mul_le_mul_left hmore Config.pos) h
      rw [pushTop_next] at hle'
      exact ⟨by omega, hhead⟩
    cases h
    rw [pushTop_next]
    exact ⟨by omega, fun _ hnull => by cases hnull⟩

/-- The worst case is an item at index 0 alone: a branch above it, and another for the new index. -/
theorem create_next {r : Option Slot} (hs : Shape t live) (hi : i < 2 ^ bitsPerLong)
    (h : create alloc i t = .ok (r, t')) : t'.next ≤ t.next + preloadSize := by
  rw [create] at h
  dsimp only at h
  rw [preloadSize]
  split at h
  · rename_i habove
    have hge := (above_iff hi).mp habove
    obtain ⟨a, ha⟩ := loadRoot_dvd hs.toLinks
    obtain ⟨_, hm, hle, hlt, ⟨c, rfl⟩, -⟩ :=
      maxShift_spec hi maxSteps hge ⟨a, ha⟩ (by rw [maxSteps]; omega)
    rw [ha] at hm hle h
    have hpath := le_maxPath (k := c + 1) (by rw [mul_succ]; omega)
    rw [extend, hm] at h
    simp only [bind, Except.bind, ← mul_succ] at h
    split_ifs at h with hnull
    · have : t'.next ≤ t.next + _ := (createLoop_next h).1
      omega
    rcases hext : extendLoop alloc (mapShift * c) maxSteps (mapShift * a) t with e | p
    · simp [hext] at h
    obtain ⟨b, t1⟩ := p
    obtain ⟨hnext, hhead⟩ := extendLoop_next (le_of_mul_le_mul_left hle Config.pos) hext
    rw [hext] at h
    rcases b with _ | _
    · obtain rfl : t1 = t' := (Prod.mk.inj (Except.ok.inj h)).2
      omega
    have : t'.next ≤ t1.next + _ := (createLoop_next h).2 (hhead rfl)
    omega
  rename_i hbelow
  obtain ⟨⟨k, hk⟩, hlt⟩ := (at_root hi hbelow).dvd hs.toLinks
  rw [hk] at h hlt
  have := (createLoop_next h).1
  have := le_maxPath hlt
  omega

/-- An insertion takes at most `RADIX_TREE_PRELOAD_SIZE` nodes, so that with as many preloaded it does
    not fail for memory. -/
theorem insert_preloaded (h : Runs alloc t m) (hi : i < 2 ^ bitsPerLong) (v : Item) :
    (∀ alloc, ∃ st t', insert alloc i v t = .ok (st, t') ∧ t'.next ≤ t.next + preloadSize) ∧
    ∀ cache, ∃ st t', insert (preloaded cache t.next preloadSize) i v t = .ok (st, t') ∧
    st ≠ .nomem := by
  obtain ⟨live, hg⟩ := h.good
  have hnext : ∀ alloc st t', insert alloc i v t = .ok (st, t') → t'.next ≤ t.next + preloadSize := by
    intro alloc st t' hins
    obtain ⟨r, t1, -, heq, -⟩ := create_spec alloc hg.shape hg.isIdr hi
    have hle := create_next hg.shape hi heq
    rw [insert, heq] at hins
    rcases r with _ | s
    · cases hins
      exact hle
    dsimp only [bind, Except.bind] at hins
    split at hins
    · cases hins
      exact hle
    split at hins <;> cases hins
    rename_i hentries _
    rwa [insertEntries_next hentries]
  refine ⟨fun alloc => ?_, fun cache => ?_⟩
  · obtain ⟨st, t', -, heq, -⟩ := insert_spec alloc v hg.shape hg.isIdr hi
    exact ⟨st, t', heq, hnext alloc st t' heq⟩
  obtain ⟨st, t', live', heq, -, -, hins, -⟩ :=
    insert_spec (preloaded cache t.next preloadSize) v hg.shape hg.isIdr hi
  refine ⟨st, t', heq, ?_⟩
  rintro rfl
  refine hins.2.1 fun k hk hk' => ?_
  have hle := hnext _ _ _ heq
  have hcount := List.countP_le_length (p := fun j => !cache j) (l := List.range' t.next (k - t.next))
  rw [List.length_range'] at hcount
  simp only [preloaded, Bool.or_eq_true, decide_eq_true_eq]
  omega

end

/-- An empty cache and the last index. -/
theorem insert_preloaded_last : ∃ st t',
    @insert sixBits (preloaded (fun _ => false) 0 (@preloadSize sixBits)) (2 ^ bitsPerLong - 1)
    (.pointer 7) (init false) = .ok (st, t') ∧ st ≠ .nomem := by
  let _ := sixBits
  exact (insert_preloaded (Runs.init : Runs (fun _ => true) _ _) (by decide) (.pointer 7)).2 _

end LinuxNote.RadixTree
