import Mathlib.Data.List.Count
import Mathlib.Data.List.Nodup

/-! Ordered forests in first-child, next-sibling form, as pointer trees have them.

    Nodes are addressed by a key, which stands for the address of the node in memory. -/

namespace LinuxNote
open Prod List Option

/-- A list of sibling trees: the first node, its children, and the siblings after it. -/
inductive Forest (α : Type*) where
  | nil
  | cons (node : α) (child sibling : Forest α)
  deriving DecidableEq

namespace Forest
variable {α β κ : Type*}

/-- The nodes of the top level. -/
def siblings : Forest α → List α
  | nil => []
  | cons r _ s => r :: siblings s

/-- The nodes of the top level, each with the forest of its children. -/
def top : Forest α → List (α × Forest α)
  | nil => []
  | cons r c s => (r, c) :: top s

/-- All nodes, each with the forest of its children. -/
def nodes : Forest α → List (α × Forest α)
  | nil => []
  | cons r c s => (r, c) :: (nodes c ++ nodes s)

def append : Forest α → Forest α → Forest α
  | nil, t => t
  | cons r c s, t => cons r c (append s t)

/-- Change the nodes of the top level. -/
def mapTop (g : α → α) : Forest α → Forest α
  | nil => nil
  | cons r c s => cons (g r) c (mapTop g s)

section
variable (key : α → κ)

/-- The keys of all nodes. -/
def keys : Forest α → List κ
  | nil => []
  | cons r c s => key r :: (keys c ++ keys s)

variable [DecidableEq κ] (k : κ)

/-- The node with key `k`. -/
def find? : Forest α → Option α
  | nil => none
  | cons r c s => if key r = k then some r else (find? c).or (find? s)

/-- Let `f` change the children of the node with key `k`. -/
def modifyAt (f : α → Forest α → β × Forest α) : Forest α → Option (β × Forest α)
  | nil => none
  | cons r c s =>
    if key r = k then some ((f r c).1, cons r (f r c).2 s)
    else match modifyAt f c with
      | some (b, c') => some (b, cons r c' s)
      | none => (modifyAt f s).map fun p => (p.1, cons r c p.2)

/-- Take the node with key `k` out, with all that is below it. -/
def prune : Forest α → Forest α
  | nil => nil
  | cons r c s => if key r = k then s else cons r (prune c) (prune s)

end

/-- The second forest is the first one with `d` in place of the list `c` of children of `r`. -/
inductive Replaced (r : α) (c d : Forest α) : Forest α → Forest α → Prop
  | here (s : Forest α) : Replaced r c d (cons r c s) (cons r d s)
  | child (q : α) (s : Forest α) {t t' : Forest α} : Replaced r c d t t' →
      Replaced r c d (cons q t s) (cons q t' s)
  | sibling (q : α) (t : Forest α) {s s' : Forest α} : Replaced r c d s s' →
      Replaced r c d (cons q t s) (cons q t s')

/-! ### Top level -/

variable {t c : Forest α} {r : α}

theorem siblings_eq_map (t : Forest α) : t.siblings = t.top.map fst := by
  induction t with
  | nil => rfl
  | cons q d s _ ih => rw [siblings, top, map_cons, ih]

theorem mem_siblings_of_top (h : (r, c) ∈ t.top) : r ∈ t.siblings :=
  siblings_eq_map t ▸ mem_map_of_mem h

theorem top_subset_nodes (h : (r, c) ∈ t.top) : (r, c) ∈ t.nodes := by
  induction t with
  | nil => simp [top] at h
  | cons q d s _ ih =>
    rcases mem_cons.mp h with heq | h
    · exact mem_cons.mpr (.inl heq)
    · exact mem_cons_of_mem _ (mem_append_right _ (ih h))

theorem siblings_subset_nodes (h : r ∈ t.siblings) : ∃ c, (r, c) ∈ t.nodes := by
  rw [siblings_eq_map] at h
  obtain ⟨⟨_, c⟩, hmem, rfl⟩ := mem_map.mp h
  exact ⟨c, top_subset_nodes hmem⟩

/-! ### Keys -/

section
variable {key : α → κ}

@[simp] theorem keys_append (s t : Forest α) : (s.append t).keys key = s.keys key ++ t.keys key := by
  induction s with
  | nil => rfl
  | cons r c s _ ih => simp only [append, keys, ih, cons_append, append_assoc]

theorem keys_mapTop {g : α → α} (hg : ∀ r, key (g r) = key r) (t : Forest α) :
    (t.mapTop g).keys key = t.keys key := by
  induction t with
  | nil => rfl
  | cons r c s _ ih => simp only [mapTop, keys, hg, ih]

variable {t c d t' : Forest α} {r : α}

theorem key_mem_keys (h : (r, c) ∈ t.nodes) : key r ∈ t.keys key := by
  induction t with
  | nil => simp [nodes] at h
  | cons q d s ihc ihs =>
    simp only [nodes, mem_cons, mem_append, mk.injEq] at h
    simp only [keys, mem_cons, mem_append]
    rcases h with ⟨rfl, rfl⟩ | h | h
    · exact .inl rfl
    · exact .inr (.inl (ihc h))
    · exact .inr (.inr (ihs h))

/-- The keys of a forest with distinct keys, taken apart. -/
theorem nodup_cons {s : Forest α} :
    ((cons r c s).keys key).Nodup ↔ key r ∉ c.keys key ∧ key r ∉ s.keys key ∧
      (c.keys key).Nodup ∧ (s.keys key).Nodup ∧ ∀ k ∈ c.keys key, k ∉ s.keys key := by
  simp only [keys, List.nodup_cons, List.mem_append, not_or, List.nodup_append]
  constructor
  · rintro ⟨⟨h1, h2⟩, h3, h4, h5⟩
    exact ⟨h1, h2, h3, h4, fun k hk hk' => h5 k hk k hk' rfl⟩
  rintro ⟨h1, h2, h3, h4, h5⟩
  exact ⟨⟨h1, h2⟩, h3, h4, fun a ha b hb hab => h5 a ha (hab ▸ hb)⟩

theorem Replaced.mem_nodes (h : Replaced r c d t t') : (r, c) ∈ t.nodes := by
  induction h with
  | here s => simp [nodes]
  | child q s _ ih | sibling q t _ ih => simp [nodes, ih]

theorem Replaced.refl (h : (r, c) ∈ t.nodes) : Replaced r c c t t := by
  induction t with
  | nil => simp [nodes] at h
  | cons q d s ihd ihs =>
    simp only [nodes, mem_cons, mem_append, mk.injEq] at h
    rcases h with ⟨rfl, rfl⟩ | h | h
    · exact .here s
    · exact .child q s (ihd h)
    · exact .sibling q d (ihs h)

theorem Replaced.eq_self (h : Replaced r c c t t') : t' = t := by
  induction h with
  | here s => rfl
  | child q s _ ih | sibling q t _ ih => rw [ih]

theorem mem_nodes_trans {p : α × Forest α} (h : (r, c) ∈ t.nodes) (hp : p ∈ c.nodes) : p ∈ t.nodes := by
  induction t with
  | nil => simp [nodes] at h
  | cons q d s ihd ihs =>
    simp only [nodes, mem_cons, mem_append, mk.injEq] at *
    rcases h with ⟨rfl, rfl⟩ | h | h
    · exact .inr (.inl hp)
    · exact .inr (.inl (ihd h))
    · exact .inr (.inr (ihs h))

variable [DecidableEq κ] {k : κ}

theorem count_keys_child (h : (r, c) ∈ t.nodes) (x : κ) :
    (c.keys key).count x ≤ (t.keys key).count x := by
  induction t with
  | nil => simp [nodes] at h
  | cons q d s ihd ihs =>
    simp only [nodes, mem_cons, mem_append, mk.injEq] at h
    simp only [keys, count_cons, count_append]
    rcases h with ⟨rfl, rfl⟩ | h | h
    · omega
    · have := ihd h
      omega
    have := ihs h
    omega

/-- The keys of the list come and go. -/
theorem Replaced.count (h : Replaced r c d t t') (x : κ) :
    (t'.keys key).count x + (c.keys key).count x = (t.keys key).count x + (d.keys key).count x := by
  induction h with
  | here s | child q s _ ih | sibling q t _ ih =>
    simp only [keys, count_cons, count_append]
    omega

theorem find?_isSome : (t.find? key k).isSome ↔ k ∈ t.keys key := by
  induction t with
  | nil => simp [find?, keys]
  | cons r c s ihc ihs =>
    rw [find?, keys]
    split
    · simp_all
    rename_i hk
    rw [isSome_or, Bool.or_eq_true, ihc, ihs, mem_cons, mem_append]
    simp [Ne.symm hk]

theorem prune_of_notMem (h : k ∉ t.keys key) : t.prune key k = t := by
  induction t with
  | nil => rfl
  | cons r c s ihc ihs =>
    simp only [keys, mem_cons, mem_append, not_or] at h
    rw [prune, if_neg (Ne.symm h.1), ihc h.2.1, ihs h.2.2]

theorem prune_comm (t : Forest α) (j k : κ) :
    (t.prune key j).prune key k = (t.prune key k).prune key j := by
  induction t with
  | nil => rfl
  | cons r c s ihc ihs =>
    by_cases hj : key r = j
    · by_cases hk : key r = k
      · rw [← hj, ← hk]
      · simp [prune, hj ▸ hk, hj]
    by_cases hk : key r = k
    · simp [prune, hk ▸ hj, hk]
    · simp [prune, hj, hk, ihc, ihs]

theorem count_prune (t : Forest α) (x : κ) :
    ((t.prune key k).keys key).count x ≤ (t.keys key).count x := by
  induction t with
  | nil => simp [prune]
  | cons r c s ihc ihs =>
    rw [prune]
    split <;> simp only [keys, count_cons, count_append] <;> omega

/-! ### Changing the children of one node -/

section
variable {f : α → Forest α → β × Forest α}

variable {t : Forest α}

theorem modifyAt_isSome : (t.modifyAt key k f).isSome ↔ k ∈ t.keys key := by
  induction t with
  | nil => simp [modifyAt, keys]
  | cons r c s ihc ihs =>
    rw [modifyAt, keys, mem_cons, mem_append]
    split
    · simp_all
    rename_i hk
    split
    · rename_i h
      simp [← ihc, h]
    rename_i h
    have hc : k ∉ c.keys key := by rw [← ihc, h]; simp
    simp [hc, Ne.symm hk, ← ihs]

/-- The list that changes is the one of a node with key `k`. -/
theorem replaced_of_modifyAt {b : β} {t' : Forest α} (h : t.modifyAt key k f = some (b, t')) :
    ∃ r c, key r = k ∧ (f r c).1 = b ∧ Replaced r c (f r c).2 t t' := by
  induction t generalizing t' with
  | nil => simp [modifyAt] at h
  | cons r c s ihc ihs =>
    rw [modifyAt] at h
    split at h
    · rename_i hk
      obtain ⟨hb, rfl⟩ := mk.inj (some.inj h)
      exact ⟨r, c, hk, hb, .here s⟩
    split at h
    · rename_i b' c' hc
      obtain ⟨rfl, rfl⟩ := mk.inj (some.inj h)
      obtain ⟨q, d, hq, hb, hrep⟩ := ihc hc
      exact ⟨q, d, hq, hb, .child r s hrep⟩
    obtain ⟨⟨b', s'⟩, hs, heq⟩ := map_eq_some_iff.mp h
    obtain ⟨rfl, rfl⟩ := mk.inj heq
    obtain ⟨q, d, hq, hb, hrep⟩ := ihs hs
    exact ⟨q, d, hq, hb, .sibling r c hrep⟩

end

end

end Forest

end LinuxNote
