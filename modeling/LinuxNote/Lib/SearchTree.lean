import Mathlib.Data.List.Basic

/-! Binary trees whose in-order sequence is kept sorted by the code around them. A new node is linked at
    the place the directions of a descent lead to, and a descent to the left of every hit finds a lower
    bound. How the tree is balanced does not matter: everything is said about the in-order sequence. -/

namespace LinuxNote.SearchTree
open List

inductive BinTree (α : Type*) where
  | nil
  | node (left : BinTree α) (val : α) (right : BinTree α)

inductive Side | left | right
deriving DecidableEq

variable {α : Type*}

namespace BinTree

/-- The values in order. -/
def toList : BinTree α → List α
  | nil => []
  | node l a r => l.toList ++ a :: r.toList

/-- A tree with the given in-order sequence. -/
def ofList : List α → BinTree α
  | [] => nil
  | a :: l => node nil a (ofList l)

/-- Link a new leaf where the directions lead to; nothing when they give out. -/
def link (dir : α → Option Side) (x : α) : BinTree α → Option (BinTree α)
  | nil => some (node nil x nil)
  | node l a r =>
    match dir a with
    | some .left => (l.link dir x).map fun l' => node l' a r
    | some .right => (r.link dir x).map fun r' => node l a r'
    | none => none

/-- Descend to the left of every `hit`, to the right of every miss, and end early at a hit that is good
    enough. -/
def lowerBound (hit stop : α → Bool) : Option α → BinTree α → Option α
  | best, nil => best
  | best, node l a r =>
    if hit a then
      if stop a then some a else lowerBound hit stop (some a) l
    else lowerBound hit stop best r

@[simp] theorem toList_nil : (nil : BinTree α).toList = [] := rfl

@[simp] theorem toList_node (l : BinTree α) (a : α) (r : BinTree α) :
    (node l a r).toList = l.toList ++ a :: r.toList := rfl

@[simp] theorem toList_ofList (l : List α) : (ofList l).toList = l := by
  induction l with
  | nil => rfl
  | cons a l ih => rw [ofList, toList_node, ih, toList_nil, nil_append]

end BinTree

/-! ### Linking a node -/

/-- A sequence cut in two, when one of its values is known to lie on a side of the cut. -/
theorem append_cons_eq_append {l r L R : List α} {a : α} (h : l ++ a :: r = L ++ R) :
    (∃ r', L = l ++ a :: r' ∧ r = r' ++ R) ∨ ∃ l', l = L ++ l' ∧ R = l' ++ a :: r := by
  rcases append_eq_append_iff.mp h with ⟨t, hL, hr⟩ | ⟨t, hl, hR⟩
  · rcases t with _ | ⟨b, t⟩
    · exact .inr ⟨[], by rw [hL, append_nil, append_nil], hr.symm⟩
    obtain ⟨rfl, rfl⟩ := cons.inj hr
    exact .inl ⟨t, hL, rfl⟩
  · exact .inr ⟨t, hl, hR⟩

/-- When the directions lead to one place of the sequence, the new node gets there. -/
theorem link_toList {dir : α → Option Side} (x : α) (t : BinTree α) {L R : List α}
    (h : t.toList = L ++ R) (hL : ∀ a ∈ L, dir a = some .right) (hR : ∀ a ∈ R, dir a = some .left) :
    ∃ t', t.link dir x = some t' ∧ t'.toList = L ++ x :: R := by
  induction t generalizing L R with
  | nil =>
    obtain ⟨rfl, rfl⟩ := append_eq_nil_iff.mp h.symm
    exact ⟨_, rfl, rfl⟩
  | node l a r ihl ihr =>
    rcases append_cons_eq_append h with ⟨r', rfl, hr⟩ | ⟨l', hl, rfl⟩
    · obtain ⟨t', ht, hlist⟩ := ihr hr (fun b hb => hL b (mem_append_right _ (mem_cons_of_mem _ hb))) hR
      refine ⟨.node l a t', ?_, ?_⟩
      · rw [BinTree.link, hL a (mem_append_right _ mem_cons_self), ht]
        rfl
      · rw [BinTree.toList_node, hlist, append_assoc, cons_append]
    obtain ⟨t', ht, hlist⟩ := ihl hl hL (fun b hb => hR b (mem_append_left _ hb))
    refine ⟨.node t' a r, ?_, ?_⟩
    · rw [BinTree.link, hR a (mem_append_right _ mem_cons_self), ht]
      rfl
    · rw [BinTree.toList_node, hlist, append_assoc, cons_append]

/-! ### Searching -/

section
variable {hit stop : α → Bool}

/-- The search ends at a hit that is good enough or at the first hit, and finds nothing only when there
    is no hit. -/
def IsLowerBound (hit stop : α → Bool) (l : List α) (res : Option α) : Prop :=
  (res = none ∧ ∀ a ∈ l, hit a = false) ∨
    ∃ pre x post, res = some x ∧ l = pre ++ x :: post ∧ hit x = true ∧
    (stop x = true ∨ ∀ a ∈ pre, hit a = false)

/-- Either there is a hit in the tree or the best value so far stays. -/
theorem lowerBound_cases (t : BinTree α) (best : Option α)
    (h : t.toList.Pairwise fun a b => hit a = true → hit b = true) :
    (t.lowerBound hit stop best = best ∧ ∀ a ∈ t.toList, hit a = false) ∨
    ∃ pre x post, t.lowerBound hit stop best = some x ∧ t.toList = pre ++ x :: post ∧ hit x = true ∧
    (stop x = true ∨ ∀ a ∈ pre, hit a = false) := by
  induction t generalizing best with
  | nil => exact .inl ⟨rfl, fun a ha => absurd ha not_mem_nil⟩
  | node l a r ihl ihr =>
    rw [BinTree.toList_node, pairwise_append, pairwise_cons] at h
    obtain ⟨hl, ⟨-, hr⟩, hcross⟩ := h
    rw [BinTree.lowerBound, BinTree.toList_node]
    split
    case isTrue ha =>
      by_cases hs : stop a = true
      · exact .inr ⟨_, a, _, if_pos hs, rfl, ha, .inl hs⟩
      rw [if_neg hs]
      rcases ihl (some a) hl with ⟨heq, hmiss⟩ | ⟨pre, x, post, heq, hlist, hx, hfirst⟩
      · exact .inr ⟨_, a, _, heq, rfl, ha, .inr hmiss⟩
      · exact .inr ⟨pre, x, post ++ a :: r.toList, heq, by rw [hlist, append_assoc, cons_append], hx,
          hfirst⟩
    case isFalse ha =>
      have hmissl : ∀ b ∈ l.toList, hit b = false := fun b hb =>
        Bool.eq_false_iff.mpr fun hb' => ha (hcross b hb a mem_cons_self hb')
      have hmiss : ∀ pre : List α, (∀ b ∈ pre, hit b = false) → ∀ b ∈ l.toList ++ a :: pre,
        hit b = false := by
        intro pre hpre b hb
        rcases mem_append.mp hb with hb | hb
        · exact hmissl b hb
        rcases mem_cons.mp hb with rfl | hb
        · exact Bool.eq_false_iff.mpr ha
        · exact hpre b hb
      rcases ihr best hr with ⟨heq, hmissr⟩ | ⟨pre, x, post, heq, hlist, hx, hfirst⟩
      · exact .inl ⟨heq, hmiss _ hmissr⟩
      refine .inr ⟨l.toList ++ a :: pre, x, post, heq, ?_, hx, hfirst.imp_right (hmiss pre)⟩
      rw [hlist, append_assoc, cons_append]

end

end LinuxNote.SearchTree
