import Mathlib.Data.List.FinRange
import LinuxNote.Lib.Word

/-! Permanent kernel mappings (`mm/highmem.c`). Each section under `kmap_lock` is one step; a call that
    sleeps in `map_new_virtual` stands in `asleep` until it takes the lock again. A translation may be in
    a TLB from the time it is in the page table until the next flush, which is what `seen` records. -/

namespace LinuxNote.Kmap
open Function List Option Word

/-- The slots are `Fin (m + 1)`, for `LAST_PKMAP = m + 1`; `address` is `page_address` as a slot, and the
    counts are `int`s. `mapped` has a page once for each mapping that was handed out and not taken
    back. -/
structure State (m : ℕ) (π : Type) where
  pkmapCount : Fin (m + 1) → ℤ
  pageTable : Fin (m + 1) → Option π
  address : π → Option (Fin (m + 1))
  seen : Fin (m + 1) → List π
  lastPkmapNr : Fin (m + 1)
  asleep : List π
  mapped : List π
  bug : Bool

variable {m : ℕ} {π : Type} [DecidableEq π]

/-- The body of the loop of `flush_all_zero_pkmaps`, with `need_flush`. -/
def State.clearSlot : State m π × Bool → Fin (m + 1) → State m π × Bool
  | (s, needFlush), i =>
    if s.pkmapCount i ≠ 1 then (s, needFlush)
    else match s.pageTable i with
      | none => ({ s with pkmapCount := update s.pkmapCount i 0, bug := true }, true)
      | some page =>
        ({ s with pkmapCount := update s.pkmapCount i 0, pageTable := update s.pageTable i none,
                               address := update s.address page none }, true)

variable (s : State m π)

/-- `flush_all_zero_pkmaps`. -/
def State.flushAllZeroPkmaps : State m π :=
  let r := (List.finRange (m + 1)).foldl State.clearSlot (s, false)
  if r.2 then { r.1 with seen := fun i => (r.1.pageTable i).toList } else r.1

/-- The next slot of the cursor; past the last one the unused slots are flushed. -/
def State.advance : State m π :=
  let s := { s with lastPkmapNr := s.lastPkmapNr + 1 }
  if s.lastPkmapNr = 0 then s.flushAllZeroPkmaps else s

/-- The loop of `map_new_virtual`: the slot it breaks with, or `none` when it has to sleep. -/
def State.findSlot : ℕ → ℕ → State m π → Option (State m π × Option (Fin (m + 1)))
  | 0, _, _ => none
  | fuel + 1, count, s =>
    let s := s.advance
    let count := if s.lastPkmapNr = 0 then m + 1 else count
    if s.pkmapCount s.lastPkmapNr = 0 then some (s, some s.lastPkmapNr)
    else if count - 1 ≠ 0 then s.findSlot fuel (count - 1)
    else some (s, none)

/-- One more user of the slot, in `kmap_high` and `kmap_high_get`, which have a `BUG_ON` each. -/
def State.pin (page : π) (i : Fin (m + 1)) (bugOn : Bool) : State m π :=
  { s with pkmapCount := update s.pkmapCount i (s32 (s.pkmapCount i + 1)), mapped := page :: s.mapped,
           bug := s.bug || bugOn }

/-- The end of `kmap_high`; the `BUG_ON` is after the increment. -/
def State.pinHigh (page : π) (i : Fin (m + 1)) : State m π :=
  s.pin page i (s32 (s.pkmapCount i + 1) < 2)

/-- `map_new_virtual`, and the rest of `kmap_high`. -/
def State.mapNewVirtual (page : π) : Option (State m π) :=
  match s.findSlot (2 * (m + 1)) (m + 1) with
  | none => none
  | some (s, none) => some { s with asleep := page :: s.asleep }
  | some (s, some i) => some (State.pinHigh
      { s with pageTable := update s.pageTable i (some page), pkmapCount := update s.pkmapCount i 1,
               address := update s.address page (some i), seen := update s.seen i (page :: s.seen i) }
      page i)

/-- `kmap_high`, and a call that comes back from its sleep, which starts with the same test. -/
def State.kmapHigh (page : π) : Option (State m π) :=
  match s.address page with
  | some i => some (s.pinHigh page i)
  | none => s.mapNewVirtual page

/-- `kmap_high_get`; the `BUG_ON` is before the increment. -/
def State.kmapHighGet (page : π) : State m π :=
  match s.address page with
  | some i => s.pin page i (s.pkmapCount i < 1)
  | none => s

/-- `kunmap_high`. -/
def State.kunmapHigh (page : π) : State m π :=
  match s.address page with
  | none => { s with bug := true }
  | some i =>
    let count := s32 (s.pkmapCount i - 1)
    { s with pkmapCount := update s.pkmapCount i count, mapped := s.mapped.erase page,
             bug := s.bug || decide (count = 0) }

inductive Event (π : Type) where
  | kmapHigh (page : π)
  | wake (i : ℕ)
  | kmapHighGet (page : π)
  | kunmapHigh (page : π)
  | kmapFlushUnused

def State.step : Event π → Option (State m π)
  | .kmapHigh page => s.kmapHigh page
  | .wake i =>
    match s.asleep[i]? with
    | none => none
    | some page => { s with asleep := s.asleep.eraseIdx i }.kmapHigh page
  | .kmapHighGet page => some (s.kmapHighGet page)
  -- one for each mapping that was handed out
  | .kunmapHigh page => if page ∈ s.mapped then some (s.kunmapHigh page) else none
  | .kmapFlushUnused => some s.flushAllZeroPkmaps

/-- The states of runs in which no page ever has more than `most` mappings handed out. -/
inductive Reached (most : ℕ) : State m π → Prop
  | init {nr : Fin (m + 1)} :
    Reached most ⟨fun _ => 0, fun _ => none, fun _ => none, fun _ => [], nr, [], [], false⟩
  | step {s s' : State m π} {e : Event π} : Reached most s → s.step e = some s' →
    (∀ page, s'.mapped.count page ≤ most) → Reached most s'

/-- What a count has room for, beside the mapping itself. -/
def mostMappings : ℕ := 2 ^ 31 - 2

/-! ### The invariant -/

/-- The count that belongs to a slot. -/
def users (mapped : List π) : Option π → ℤ
  | none => 0
  | some page => 1 + mapped.count page

/-- The books of the slots, without the TLB. -/
structure Books (s : State m π) : Prop where
  bug : s.bug = false
  table : ∀ i page, s.pageTable i = some page ↔ s.address page = some i
  count : ∀ i, s.pkmapCount i = users s.mapped (s.pageTable i)
  mapped : ∀ page ∈ s.mapped, s.address page ≠ none

structure Inv (s : State m π) : Prop extends Books s where
  seen : ∀ i, s.seen i = (s.pageTable i).toList

open State

section
variable {s s' : State m π} {page : π} {i : Fin (m + 1)}

theorem Books.clearSlot (h : Books s) (need : Bool) (i : Fin (m + 1)) :
    Books (clearSlot (s, need) i).1 := by
  rw [State.clearSlot]
  split
  · exact h
  have hone : s.pkmapCount i = 1 := not_not.mp ‹_›
  have hcount := h.count i
  rw [hone] at hcount
  split
  · rename_i hnone
    rw [hnone, users] at hcount
    exact absurd hcount (by decide)
  rename_i page hpage
  rw [hpage, users] at hcount
  have hunmapped : page ∉ s.mapped := count_eq_zero.mp (by omega)
  refine ⟨h.bug, fun j q => ?_, fun j => ?_, fun q hq => ?_⟩
  · have := h.table j q
    have := h.table i page
    grind
  · have := h.count j
    grind [users]
  · have hne : q ≠ page := fun heq => hunmapped (heq ▸ hq)
    simpa only [update_of_ne hne] using h.mapped q hq

/-- No page gets an address. -/
def Clears (s s' : State m π) : Prop := ∀ page, s.address page = none → s'.address page = none

theorem clearSlot_clears (need : Bool) (i : Fin (m + 1)) :
    (clearSlot (s, need) i).1.lastPkmapNr = s.lastPkmapNr ∧ Clears s (clearSlot (s, need) i).1 := by
  rw [clearSlot]
  split
  · exact ⟨rfl, fun _ => id⟩
  split
  · exact ⟨rfl, fun _ => id⟩
  refine ⟨rfl, fun q hq => ?_⟩
  grind

/-- The loop keeps the books, and changes nothing when nothing is to be flushed. -/
theorem clearSlots (l : List (Fin (m + 1))) (need : Bool) (h : Books s) :
    Books (l.foldl clearSlot (s, need)).1 ∧
    ((l.foldl clearSlot (s, need)).1.lastPkmapNr = s.lastPkmapNr ∧
      Clears s (l.foldl clearSlot (s, need)).1) ∧
    ((l.foldl clearSlot (s, need)).2 = false → (l.foldl clearSlot (s, need)).1 = s ∧
      need = false) := by
  induction l generalizing s need with
  | nil => exact ⟨h, ⟨rfl, fun _ => id⟩, fun hneed => ⟨rfl, hneed⟩⟩
  | cons i l ih =>
    obtain ⟨hnr, hclears⟩ := clearSlot_clears (s := s) need i
    obtain ⟨hbooks, ⟨hnr', hclears'⟩, hsame⟩ := ih (clearSlot (s, need) i).2 (h.clearSlot need i)
    refine ⟨hbooks, ⟨hnr'.trans hnr, fun q hq => hclears' q (hclears q hq)⟩, fun hneed => ?_⟩
    obtain ⟨heq, hneed⟩ := hsame hneed
    have hskip : clearSlot (s, need) i = (s, need) := by
      rw [clearSlot] at hneed ⊢
      split at hneed
      · exact if_pos ‹_›
      · split at hneed <;> exact nomatch hneed
    rw [hskip] at heq hneed
    rw [foldl_cons, hskip]
    exact ⟨heq, hneed⟩

theorem Inv.flushAllZeroPkmaps (h : Inv s) : Inv s.flushAllZeroPkmaps ∧
    s.flushAllZeroPkmaps.lastPkmapNr = s.lastPkmapNr ∧ Clears s s.flushAllZeroPkmaps := by
  obtain ⟨hbooks, hclears, hsame⟩ := clearSlots (finRange (m + 1)) false h.toBooks
  rw [State.flushAllZeroPkmaps]
  split
  · exact ⟨{ hbooks with seen := fun i => rfl }, hclears⟩
  rw [(hsame (Bool.eq_false_iff.mpr ‹_›)).1]
  exact ⟨h, rfl, fun _ => id⟩

theorem Inv.advance (h : Inv s) :
    Inv s.advance ∧ s.advance.lastPkmapNr = s.lastPkmapNr + 1 ∧ Clears s s.advance := by
  have hnext : Inv { s with lastPkmapNr := s.lastPkmapNr + 1 } := { h with }
  rw [State.advance]
  split
  · exact hnext.flushAllZeroPkmaps
  · exact ⟨hnext, rfl, fun _ => id⟩

/-- The search ends, as the cursor wraps once at most; it keeps the invariant, and the slot it found is
    empty. -/
theorem Inv.findSlot : ∀ {fuel count : ℕ} {s : State m π}, Inv s → 0 < count →
    count + (if m + 1 ≤ s.lastPkmapNr.val + count then m + 1 else 0) ≤ fuel →
    ∃ s' r, s.findSlot fuel count = some (s', r) ∧ (Inv s' ∧ Clears s s') ∧ ∀ i ∈ r, s'.pkmapCount i = 0
  | 0, _, _, _, hc, hf => absurd hf (by omega)
  | fuel + 1, count, s, h, hc, hf => by
    obtain ⟨hinv, hnr, hclears⟩ := h.advance
    rw [State.findSlot]
    generalize s.advance = t at hinv hnr hclears
    generalize hcount : (if t.lastPkmapNr = 0 then m + 1 else count) = count'
    split
    · exact ⟨t, _, rfl, ⟨hinv, hclears⟩, fun i hi => some.inj hi ▸ ‹_›⟩
    split
    · have hval : t.lastPkmapNr.val = if s.lastPkmapNr.val = m then 0 else s.lastPkmapNr.val + 1 := by
        rw [hnr, Fin.val_add_one]
        grind
      have hzero : t.lastPkmapNr = 0 ↔ s.lastPkmapNr.val = m := by
        rw [← Fin.val_eq_zero_iff, hval]
        grind
      have hleft :
          count' - 1 + (if m + 1 ≤ t.lastPkmapNr.val + (count' - 1) then m + 1 else 0) ≤ fuel := by grind
      obtain ⟨s', r, hfind, ⟨hinv', hclears'⟩, hempty⟩ := hinv.findSlot (Nat.pos_of_ne_zero ‹_›) hleft
      exact ⟨s', r, hfind, ⟨hinv', fun q hq => hclears' q (hclears q hq)⟩, hempty⟩
    · exact ⟨t, none, rfl, ⟨hinv, hclears⟩, nofun⟩

theorem one_le_users {l : List π} {o : Option π} : 1 ≤ users l o ↔ o ≠ none := by
  cases o with
  | none => simp [users]
  | some page => exact ⟨fun _ => some_ne_none page, fun _ => by rw [users]; omega⟩

theorem users_congr {l l' : List π} {o : Option π} (h : ∀ q ∈ o, l'.count q = l.count q) :
    users l' o = users l o := by
  cases o with
  | none => rfl
  | some q => rw [users, users, h q rfl]

/-- One user more or less of the page in slot `i`. -/
theorem Inv.recount {l : List π} {n : ℤ} (h : Inv s) (hi : s.address page = some i)
    (hn : n = 1 + l.count page) (hl : ∀ q, q ≠ page → l.count q = s.mapped.count q) {t : State m π}
    (ht : t = { s with pkmapCount := update s.pkmapCount i n, mapped := l }) : Inv t := by
  have hpage := (h.table i page).mpr hi
  subst ht
  refine { h with count := fun j => ?_, mapped := fun q hq => ?_ }
  · by_cases hj : j = i
    · rw [hj, hpage, users, ← hn]
      exact update_self ..
    refine (update_of_ne hj ..).trans ((h.count j).trans (users_congr fun q hq => ?_))
    refine (hl q fun heq => hj ?_).symm
    rw [heq] at hq
    exact some.inj (((h.table j page).mp hq).symm.trans hi)
  by_cases heq : q = page
  · rw [heq]
    exact hi ▸ some_ne_none i
  · exact h.mapped q (count_pos_iff.mp (hl q heq ▸ count_pos_iff.mpr hq))

theorem Inv.count_eq (h : Inv s) (hi : s.address page = some i) :
    s.pkmapCount i = 1 + s.mapped.count page := by
  rw [h.count i, (h.table i page).mpr hi, users]

/-- The count has room for one more, and both `BUG_ON`s pass. -/
theorem Inv.pin (h : Inv s) (hi : s.address page = some i)
    (hmost : (page :: s.mapped).count page ≤ mostMappings) {bugOn : Bool}
    (hbug : 1 ≤ s.pkmapCount i → s32 (s.pkmapCount i + 1) = s.pkmapCount i + 1 → bugOn = false) :
    Inv (s.pin page i bugOn) := by
  rw [count_cons_self, mostMappings] at hmost
  have hcount := h.count_eq hi
  have hroom : s32 (s.pkmapCount i + 1) = s.pkmapCount i + 1 := s32_eq (by omega) (by omega)
  have hnext : s.pkmapCount i + 1 = 1 + ((page :: s.mapped).count page : ℕ) := by
    rw [hcount, count_cons_self]
    omega
  refine h.recount hi hnext (fun q hq => count_cons_of_ne (Ne.symm hq)) ?_
  rw [State.pin, hroom, hbug (by omega) hroom, Bool.or_false]

theorem Inv.pinHigh (h : Inv s) (hi : s.address page = some i)
    (hmost : (page :: s.mapped).count page ≤ mostMappings) : Inv (s.pinHigh page i) :=
  h.pin hi hmost fun hpos hroom => decide_eq_false (by omega)

theorem Inv.kunmapHigh (h : Inv s) (hp : page ∈ s.mapped)
    (hmost : (s.mapped.erase page).count page ≤ mostMappings) : Inv (s.kunmapHigh page) := by
  have hpos := count_pos_iff.mpr hp
  rw [count_erase_self, mostMappings] at hmost
  rw [State.kunmapHigh]
  split
  · exact absurd ‹_› (h.mapped page hp)
  rename_i i hi
  have hcount := h.count_eq hi
  have hroom : s32 (s.pkmapCount i - 1) = s.pkmapCount i - 1 := s32_eq (by omega) (by omega)
  have hnext : s.pkmapCount i - 1 = 1 + ((s.mapped.erase page).count page : ℕ) := by
    rw [hcount, count_erase_self]
    omega
  refine h.recount hi hnext (fun q hq => count_erase_of_ne hq) ?_
  dsimp only
  rw [hroom, decide_eq_false (by omega), Bool.or_false]

/-- An empty slot is given to a page that has none. -/
theorem Inv.assign (h : Inv s) (hpage : s.address page = none) (hi : s.pkmapCount i = 0) :
    Inv { s with pageTable := update s.pageTable i (some page), pkmapCount := update s.pkmapCount i 1,
                 address := update s.address page (some i), seen :=
                   update s.seen i (page :: s.seen i) } := by
  have hnone : s.pageTable i = none := by
    by_contra hne
    have hpos := (one_le_users (l := s.mapped)).mpr hne
    rw [← h.count i, hi] at hpos
    exact absurd hpos (by decide)
  have hunmapped : page ∉ s.mapped := fun hp => h.mapped page hp hpage
  refine ⟨⟨h.bug, fun j q => ?_, fun j => ?_, fun q hq => ?_⟩, fun j => ?_⟩
  · have := h.table j q
    grind
  · have := h.count j
    grind [users]
  · have := h.mapped q hq
    grind
  have := h.seen j
  grind

/-- `kmap_high` returns or goes to sleep. -/
theorem Inv.kmapHigh (h : Inv s) (page : π) :
    ∃ s', s.kmapHigh page = some s' ∧ ((∀ q, s'.mapped.count q ≤ mostMappings) → Inv s') := by
  rw [State.kmapHigh]
  split
  · exact ⟨_, rfl, fun hmost => h.pinHigh ‹_› (hmost page)⟩
  rename_i hpage
  have hfuel : m + 1 + (if m + 1 ≤ s.lastPkmapNr.val + (m + 1) then m + 1 else 0) ≤ 2 * (m + 1) := by
    split <;> omega
  obtain ⟨t, r, hfind, ⟨ht, hclears⟩, hempty⟩ := h.findSlot (Nat.succ_pos m) hfuel
  rw [mapNewVirtual, hfind]
  rcases r with _ | i
  · exact ⟨_, rfl, fun _ => { ht with }⟩
  have hinv := ht.assign (hclears page hpage) (hempty i rfl)
  exact ⟨_, rfl, fun hmost => hinv.pinHigh (update_self ..) (hmost page)⟩

theorem Inv.step {e : Event π} (h : Inv s) (hs : s.step e = some s')
    (hmost : ∀ page, s'.mapped.count page ≤ mostMappings) : Inv s' := by
  cases e with
  | kmapHigh page =>
    obtain ⟨t, ht, hinv⟩ := h.kmapHigh page
    obtain rfl := mem_unique ht hs
    exact hinv hmost
  | wake i =>
    rw [State.step] at hs
    split at hs
    · exact nomatch hs
    rename_i page _
    have hwoken : Inv { s with asleep := s.asleep.eraseIdx i } := { h with }
    obtain ⟨t, ht, hinv⟩ := hwoken.kmapHigh page
    obtain rfl := mem_unique ht hs
    exact hinv hmost
  | kmapHighGet page =>
    cases hs
    rw [kmapHighGet] at hmost ⊢
    split at hmost
    · exact h.pin ‹_› (hmost page) fun hpos _ => decide_eq_false (by omega)
    · exact h
  | kunmapHigh page =>
    rw [State.step] at hs
    split at hs
    · cases hs
      have hcount := hmost page
      refine h.kunmapHigh ‹_› ?_
      rw [State.kunmapHigh] at hcount
      split at hcount
      · exact absurd ‹_› (h.mapped page ‹_›)
      · exact hcount
    · exact nomatch hs
  | kmapFlushUnused => exact some.inj hs ▸ h.flushAllZeroPkmaps.1

theorem Reached.inv (h : Reached mostMappings s) : Inv s := by
  induction h with
  | init => exact ⟨⟨rfl, fun _ _ => by simp, fun _ => rfl, nofun⟩, fun _ => rfl⟩
  | step _ hs hmost ih => exact ih.step hs hmost

/-- In every state of a run in which the counts have room: no `BUG` was reached; the count of a slot is 0
    when it is empty, and else 1 plus the number of mappings of its page that are handed out; a page's
    address is the slot it is in, which no other page has; and a TLB can have no translation but the one
    of the page table, so none of a page that was in the slot before. `kmap_high` returns or goes to
    sleep. -/
theorem Reached.consistent (h : Reached mostMappings s) :
    s.bug = false ∧ (∀ i, s.pkmapCount i = match s.pageTable i with
      | none => 0
      | some page => 1 + (s.mapped.count page : ℤ)) ∧
    (∀ i page, s.address page = some i ↔ s.pageTable i = some page) ∧
    (∀ i page page', s.address page = some i → s.address page' = some i → page = page') ∧
    (∀ i, 1 ≤ s.pkmapCount i ↔ ∃ page, s.address page = some i) ∧
    (∀ page ∈ s.mapped, ∃ i, s.address page = some i ∧ 2 ≤ s.pkmapCount i) ∧
    (∀ i, s.seen i = (s.pageTable i).toList) ∧ ∀ page, s.kmapHigh page ≠ none := by
  have hinv := h.inv
  have htable := fun i page => (hinv.table i page).symm
  refine ⟨hinv.bug, fun i => ?_, htable, fun i p q hp hq => ?_, fun i => ?_, fun p hp => ?_, hinv.seen,
    fun p hp => ?_⟩
  · rw [hinv.count i]
    cases s.pageTable i <;> rfl
  · exact Option.some.inj (((htable i p).mp hp).symm.trans ((htable i q).mp hq))
  · rw [hinv.count i, one_le_users, Option.ne_none_iff_exists']
    exact exists_congr fun p => (htable i p).symm
  · obtain ⟨i, hi⟩ := Option.ne_none_iff_exists'.mp (hinv.mapped p hp)
    have hpos := List.count_pos_iff.mpr hp
    have hcount := hinv.count_eq hi
    exact ⟨i, hi, by omega⟩
  · obtain ⟨t, ht, -⟩ := hinv.kmapHigh p
    exact Option.some_ne_none t (ht.symm.trans hp)

end

/-- Two pages and one slot: the second page gets the slot after the first one gave it back, and after a
    flush. -/
theorem consistent_reused : ∃ s : State 0 Bool,
    Reached mostMappings s ∧ s.pageTable 0 = some true ∧ s.address false = none ∧ s.bug = false := by
  have hempty : Reached mostMappings
    (⟨fun _ => 0, fun _ => none, fun _ => none, fun _ => [], 0, [], [], false⟩ : State 0 Bool) := .init
  have hslept :=
    (hempty.step (e := .kmapHigh false) rfl (by decide)).step (e := .kmapHigh true) rfl (by decide)
  have hgiven :=
    (hslept.step (e := .kunmapHigh false) rfl (by decide)).step (e := .wake 0) rfl (by decide)
  exact ⟨_, hgiven, rfl, rfl, hgiven.consistent.1⟩

/-- A page has any number of mappings that its count has room for. -/
theorem reached_mappings (most : ℕ) : ∀ n < most, n < mostMappings → ∃ s : State 0 Unit,
    Reached most s ∧ s.address () = some 0 ∧ s.mapped = replicate (n + 1) () ∧ s.pkmapCount 0 = n + 2
  | 0, hmost, _ =>
    ⟨_, .step (e := .kmapHigh ()) (@Reached.init _ _ _ _ 0) rfl fun _ => hmost, rfl, rfl, rfl⟩
  | n + 1, hmost, hn => by
    obtain ⟨s, hs, haddr, hmapped, hcount⟩ := reached_mappings most n (by omega) (by omega)
    rw [mostMappings] at hn
    have hroom : s32 (s.pkmapCount 0 + 1) = s.pkmapCount 0 + 1 := s32_eq (by omega) (by omega)
    have hstep : s.step (.kmapHigh ()) = some (s.pinHigh () 0) := by
      rw [State.step, State.kmapHigh, haddr]
    have hmapped' : (s.pinHigh () 0).mapped = replicate (n + 2) () := congrArg (() :: ·) hmapped
    have hcount' : (s.pinHigh () 0).pkmapCount 0 = s32 (s.pkmapCount 0 + 1) := by
      simp [State.pinHigh, State.pin]
    refine ⟨_, hs.step hstep fun _ => ?_, haddr, hmapped', by omega⟩
    rw [hmapped', count_replicate_self]
    exact hmost

/-- With one mapping more the count wraps, and the `BUG_ON` of `kmap_high` is reached. -/
theorem kmapHigh_overflows : ∃ s : State 0 Unit, Reached (mostMappings + 1) s ∧ s.bug = true := by
  obtain ⟨s, hs, haddr, hmapped, hcount⟩ :=
    reached_mappings (mostMappings + 1) (mostMappings - 1) (by decide) (by decide)
  have hwraps : s32 (s.pkmapCount 0 + 1) < 2 := by
    rw [hcount]
    decide
  refine ⟨s.pinHigh () 0, hs.step (e := .kmapHigh ()) ?_ fun _ => ?_, ?_⟩
  · rw [State.step, State.kmapHigh, haddr]
  · show (() :: s.mapped).count _ ≤ _
    rw [hmapped, count_cons_self, count_replicate_self]
    decide
  · show (s.bug || decide _) = true
    rw [decide_eq_true hwraps, Bool.or_true]

end LinuxNote.Kmap
