import Mathlib.Data.List.Nodup
import Mathlib.Data.List.Perm.Basic
import Mathlib.Algebra.Order.Group.Nat

/-! Memory pools (`mm/mempool.c`) under concurrent calls. Each section under `pool->lock` is one step, as
    is each call of `pool->alloc` or `pool->free` and the test `mempool_free` makes without the lock.
    Calls in progress stand where they wait for their next step, and any of them may take it. -/

namespace LinuxNote.Mempool
open List

variable {ε : Type} [DecidableEq ε]

/-- A call in progress, before its next step. -/
inductive Op (ε : Type) where
  /-- `mempool_alloc` before `pool->alloc`; `second` when `gfp_temp` is `gfp_mask` -/
  | alloc (direct second : Bool)
  /-- `mempool_alloc` before it takes the lock -/
  | reserve (direct second : Bool)
  /-- `mempool_free` before its test without the lock -/
  | free (element : ε)
  /-- `mempool_free` that has seen room, before it takes the lock -/
  | refill (element : ε)
  /-- before the last `pool->free` -/
  | release (element : ε)
  | resize (newMinNr : ℕ)
  /-- `mempool_resize` in its first loop, before `pool->free` -/
  | drop (newMinNr : ℕ) (element : ε)
  /-- `mempool_resize` in its first loop, before it takes the lock again -/
  | shrink (newMinNr : ℕ)
  /-- `mempool_resize` before `kmalloc_array` -/
  | grow (newMinNr : ℕ)
  /-- `mempool_resize` in its second loop, before `pool->alloc` -/
  | fill
  /-- `mempool_resize` in its second loop, before it takes the lock again -/
  | put (element : ε)
  deriving DecidableEq

/-- The element a call has at hand. -/
def Op.element? : Op ε → Option ε
  | .free e | .refill e | .release e | .drop _ e | .put e => some e
  | _ => none

/-- An element is on its way back and not given up yet. -/
def Op.returning : Op ε → Bool
  | .free _ | .refill _ => true
  | _ => false

def Op.resizing : Op ε → Bool
  | .resize _ | .drop _ _ | .shrink _ | .grow _ | .fill | .put _ => true
  | _ => false

/-- `elements` are the first `curr_nr` entries, the last one first; `held` are the elements of the
    users. -/
structure State (ε : Type) where
  elements : List ε
  minNr : ℕ
  held : List ε
  ops : List (Op ε)
  bug : Bool
  deriving DecidableEq

variable (s : State ε)

def State.currNr : ℕ := s.elements.length

/-- The elements in the hands of calls. -/
def State.moving : List ε := s.ops.filterMap Op.element?

/-- In how many places an element is: in the pool, with a user, or in the hands of a call. -/
def State.places (e : ε) : ℕ := s.elements.count e + s.held.count e + s.moving.count e

def State.start (op : Op ε) : State ε := { s with ops := op :: s.ops }

/-- `add_element`. -/
def State.addElement (e : ε) : State ε :=
  if s.currNr ≥ s.minNr then { s with bug := true } else { s with elements := e :: s.elements }

/-- `remove_element`, and what the caller goes on with. -/
def State.removeElement (next : State ε → ε → State ε) : State ε :=
  match s.elements with
  | [] => { s with bug := true }
  | e :: rest => next { s with elements := rest } e

def State.hold (e : ε) : State ε := { s with held := e :: s.held }

/-- The first loop of `mempool_resize`, with the lock held. -/
def State.shrinkLoop (newMinNr : ℕ) : State ε :=
  if newMinNr < s.currNr then s.removeElement fun s e => s.start (.drop newMinNr e)
  else { s with minNr := newMinNr }

/-- The second one. -/
def State.growLoop : State ε := if s.currNr < s.minNr then s.start .fill else s

/-- The next step of a call that was taken out of `ops`. `got` is what `pool->alloc` returns, `ok`
    whether `kmalloc_array` succeeds. -/
def State.advance (got : Option ε) (ok : Bool) : Op ε → State ε
  | .alloc direct second =>
    match got with
    | some e => s.hold e
    | none => s.start (.reserve direct second)
  | .reserve direct second =>
    if s.currNr ≠ 0 then s.removeElement hold
    else if !second then s.start (.alloc direct true)
    else if !direct then s
    -- after the sleep
    else s.start (.alloc direct true)
  | .free e => if s.currNr < s.minNr then s.start (.refill e) else s.start (.release e)
  | .refill e => if s.currNr < s.minNr then s.addElement e else s.start (.release e)
  | .release _ => s
  | .resize n => if n ≤ s.minNr then s.shrinkLoop n else s.start (.grow n)
  | .drop n _ => s.start (.shrink n)
  | .shrink n => s.shrinkLoop n
  | .grow n =>
    if !ok then s
    -- another resize did the work
    else if n ≤ s.minNr then s
    else { s with minNr := n }.growLoop
  | .fill =>
    match got with
    | some e => s.start (.put e)
    | none => s
  | .put e => if s.currNr < s.minNr then (s.addElement e).growLoop else s.start (.release e)

inductive Event (ε : Type) where
  | alloc (direct io : Bool)
  | free (element : ε)
  | resize (newMinNr : ℕ)
  | step (i : ℕ) (got : Option ε) (ok : Bool)

/-- Users give back elements they hold, resizes are serialised, and `pool->alloc` returns memory that is
    not in use. -/
def State.step (s : State ε) : Event ε → Option (State ε)
  | .alloc direct io => some (s.start (.alloc direct (!(direct || io))))
  | .free e =>
    if e ∈ s.held then some { s with held := s.held.erase e, ops := .free e :: s.ops } else none
  | .resize n => if 0 < n ∧ s.ops.all fun op => !op.resizing then some (s.start (.resize n)) else none
  | .step i got ok =>
    match s.ops[i]? with
    | none => none
    | some op =>
      if ∀ e ∈ got, s.places e = 0 then
        some ({ s with ops := s.ops.eraseIdx i }.advance got ok op)
      else none

/-- The states of runs from a full pool in which every event meets `P`. -/
inductive Reached (P : Event ε → Prop) : State ε → Prop
  | init {l : List ε} : l.Nodup → Reached P ⟨l, l.length, [], [], false⟩
  | step {s s' : State ε} {e : Event ε} : Reached P s → P e → s.step e = some s' → Reached P s'

/-! ### Every element has one place -/

structure Inv (s : State ε) : Prop where
  bug : s.bug = false
  le : s.currNr ≤ s.minNr
  once : ∀ e, s.places e ≤ 1

open State

section
variable {s s' : State ε} {op op' : Op ε} {e : ε} {rest : List ε} {got : Option ε}

@[simp] theorem places_start (s : State ε) (op : Op ε) (x : ε) :
    (s.start op).places x = s.places x + op.element?.toList.count x := by
  cases h : op.element? <;> simp [places, moving, start, h, count_cons, add_assoc]

@[simp] theorem places_hold (s : State ε) (e x : ε) :
    (s.hold e).places x = s.places x + [e].count x := by
  simp only [places, moving, hold, count_cons, count_nil]
  omega

theorem places_cons (h : s.elements = e :: rest) (x : ε) :
    s.places x = { s with elements := rest }.places x + [e].count x := by
  simp only [places, moving, h, count_cons, count_nil]
  omega

omit [DecidableEq ε] in
theorem take_perm {i : ℕ} (h : s.ops[i]? = some op) : (op :: s.ops.eraseIdx i).Perm s.ops := by
  obtain ⟨hi, rfl⟩ := List.getElem?_eq_some_iff.mp h
  exact getElem_cons_eraseIdx_perm hi

theorem Inv.of_places (h : Inv s) (hbug : s'.bug = s.bug) (hle : s'.currNr ≤ s'.minNr)
    (hp : ∀ x, s'.places x ≤ s.places x) : Inv s' :=
  ⟨hbug.trans h.bug, hle, fun x => (hp x).trans (h.once x)⟩

/-- A call goes on with the element it has, or with none. -/
theorem Inv.goOn (h : Inv (s.start op)) (hop : op'.element? = op.element? ∨ op'.element? = none) :
    Inv (s.start op') := by
  refine h.of_places rfl h.le fun x => ?_
  rcases hop with hop | hop <;> simp [hop]

/-- A call ends, and what it has at hand leaves the books. -/
theorem Inv.finish (h : Inv (s.start op)) : Inv s :=
  h.of_places rfl h.le fun x => by simp

/-- A new element comes in, with a user or with a call. -/
theorem Inv.bring (h : Inv s) (he : s.places e = 0) (hbug : s'.bug = s.bug) (hle : s'.currNr ≤ s'.minNr)
    (hp : ∀ x, s'.places x = s.places x + [e].count x) : Inv s' := by
  refine ⟨hbug.trans h.bug, hle, fun x => ?_⟩
  have hx := h.once x
  rw [hp, count_singleton]
  split
  · simp_all
  · exact hx

/-- An element taken out of the pool goes to the caller. -/
theorem Inv.removeElement {next : State ε → ε → State ε} (h : Inv s) (h0 : s.currNr ≠ 0)
    (hnext : ∀ s e, (next s e).bug = s.bug ∧ (next s e).elements = s.elements ∧
      (next s e).minNr = s.minNr ∧ ∀ x, (next s e).places x = s.places x + [e].count x) :
    Inv (s.removeElement next) := by
  rw [State.removeElement]
  split
  · rename_i hnil
    exact absurd (congrArg length hnil) h0
  rename_i e rest hcons
  obtain ⟨hbug, helems, hmin, hp⟩ := hnext { s with elements := rest } e
  refine h.of_places hbug ?_ fun x => (hp x).trans (places_cons hcons x).symm |>.le
  have := h.le
  rw [currNr, helems, hmin]
  rw [currNr, hcons, length_cons] at this
  exact Nat.le_of_succ_le this

theorem Inv.addElement (h : Inv (s.start op)) (hop : op.element? = some e) (hlt : s.currNr < s.minNr) :
    Inv (s.addElement e) := by
  rw [State.addElement, if_neg (not_le.mpr hlt)]
  refine h.of_places rfl hlt fun x => ?_
  rw [places_cons (s := { s with elements := e :: s.elements }) rfl, places_start, hop]
  exact le_rfl

theorem Inv.shrinkLoop (h : Inv s) (n : ℕ) : Inv (s.shrinkLoop n) := by
  rw [State.shrinkLoop]
  split
  · exact h.removeElement (by omega) fun s e => ⟨rfl, rfl, rfl, places_start s (.drop n e)⟩
  · exact ⟨h.bug, not_lt.mp ‹_›, h.once⟩

theorem Inv.growLoop (h : Inv s) : Inv s.growLoop := by
  rw [State.growLoop]
  split
  · exact h.of_places rfl h.le fun x => by simp [Op.element?]
  · exact h

/-- One step of a call. -/
theorem Inv.advance (h : Inv (s.start op)) (hgot : ∀ e ∈ got, s.places e = 0) (ok : Bool) :
    Inv (s.advance got ok op) := by
  have hle := h.le
  cases op with
  | alloc direct second =>
    cases got with
    | none => exact h.goOn (.inl rfl)
    | some e => exact h.finish.bring (hgot e rfl) rfl hle (places_hold s e)
  | reserve direct second =>
    rw [advance]
    split
    · exact h.finish.removeElement ‹_› fun s e => ⟨rfl, rfl, rfl, places_hold s e⟩
    split
    · exact h.goOn (.inl rfl)
    split
    · exact h.finish
    · exact h.goOn (.inl rfl)
  | free e =>
    rw [advance]
    split
    · exact h.goOn (.inl rfl)
    · exact h.goOn (.inl rfl)
  | refill e =>
    rw [advance]
    split
    · exact h.addElement rfl ‹_›
    · exact h.goOn (.inl rfl)
  | release e => exact h.finish
  | resize n =>
    rw [advance]
    split
    · exact h.finish.shrinkLoop n
    · exact h.goOn (.inl rfl)
  | drop n e => exact h.goOn (.inr rfl)
  | shrink n => exact h.finish.shrinkLoop n
  | grow n =>
    rw [advance]
    split
    · exact h.finish
    split
    · exact h.finish
    · exact (h.finish.of_places rfl (hle.trans (Nat.le_of_not_le ‹_›)) fun _ =>
        le_rfl : Inv { s with minNr := n }).growLoop
  | fill =>
    cases got with
    | none => exact h.finish
    | some e => exact h.finish.bring (hgot e rfl) rfl hle (places_start s (.put e))
  | put e =>
    rw [advance]
    split
    · exact (h.addElement rfl ‹_›).growLoop
    · exact h.goOn (.inl rfl)

end

/-! ### The reserve -/

/-- Nobody resizes the pool, and what is missing from it is with users or on its way back. -/
structure Reserved (s : State ε) : Prop where
  fixed : ∀ op ∈ s.ops, op.resizing = false
  full : s.minNr ≤ s.currNr + s.held.length + s.ops.countP Op.returning

section
variable {s : State ε} {op : Op ε} {got : Option ε}

omit [DecidableEq ε] in
theorem Reserved.advance (h : Reserved (s.start op)) (ok : Bool) : Reserved (s.advance got ok op) := by
  obtain ⟨hfixed, hfull⟩ := h
  rw [start, forall_mem_cons] at hfixed
  simp only [start, currNr, countP_cons] at hfull
  have hgo : ∀ op', op'.resizing = false →
    (op.returning = true → op'.returning = true ∨ s.minNr ≤ s.currNr) → Reserved (s.start op') := by
    intro op' hres hret
    refine ⟨forall_mem_cons.mpr ⟨hres, hfixed.2⟩, ?_⟩
    simp only [start, currNr, countP_cons] at *
    grind
  have hend : op.returning = false → Reserved s :=
    fun hret => ⟨hfixed.2, by simpa [hret, currNr] using hfull⟩
  cases op with
  | alloc direct second =>
    cases got with
    | none => exact hgo _ rfl nofun
    | some e => exact ⟨hfixed.2, by simp [advance, hold, currNr, Op.returning] at *; omega⟩
  | reserve direct second =>
    rw [advance]
    split
    · rw [removeElement]
      split
      · exact ⟨hfixed.2, by simpa [Op.returning, currNr] using hfull⟩
      rename_i e rest hcons
      rw [hcons] at hfull
      exact ⟨hfixed.2, by simp [hold, currNr, Op.returning] at *; omega⟩
    split
    · exact hgo _ rfl nofun
    split
    · exact hend rfl
    · exact hgo _ rfl nofun
  | free e =>
    rw [advance]
    split
    · exact hgo _ rfl fun _ => .inl rfl
    · exact hgo _ rfl fun _ => .inr (Nat.le_of_not_lt ‹_›)
  | refill e =>
    rw [advance]
    split
    · rw [addElement, if_neg (by omega)]
      exact ⟨hfixed.2, by simp [currNr, Op.returning] at *; omega⟩
    · exact hgo _ rfl fun _ => .inr (Nat.le_of_not_lt ‹_›)
  | release e => exact hend rfl
  | _ => exact nomatch hfixed.1

end

/-! ### Runs -/

section
variable {s s' : State ε} {P : Event ε → Prop}

theorem Inv.step {e : Event ε} (h : Inv s) (hs : s.step e = some s') : Inv s' := by
  cases e with
  | alloc direct io =>
    cases hs
    exact h.of_places rfl h.le fun x => by simp [Op.element?]
  | free e =>
    rw [State.step] at hs
    split at hs
    · cases hs
      refine h.of_places rfl h.le fun x => ?_
      simp only [places, moving, filterMap_cons, Op.element?, count_cons, count_erase]
      grind
    · exact nomatch hs
  | resize n =>
    rw [State.step] at hs
    split at hs
    · cases hs
      exact h.of_places rfl h.le fun x => by simp [Op.element?]
    · exact nomatch hs
  | step i got ok =>
    rw [State.step] at hs
    split at hs
    · exact nomatch hs
    rename_i op hop
    split at hs
    · rename_i hfresh
      cases hs
      have htake : ∀ x, ({ s with ops := s.ops.eraseIdx i }.start op).places x = s.places x := fun x =>
        congrArg _ (((take_perm hop).filterMap Op.element?).count_eq x)
      have hinv : Inv ({ s with ops := s.ops.eraseIdx i }.start op) :=
        h.of_places rfl h.le fun x => (htake x).le
      refine hinv.advance (fun e he => ?_) ok
      have := htake e
      rw [places_start, hfresh e he] at this
      omega
    · exact nomatch hs

theorem Reserved.step {e : Event ε} (h : Reserved s) (he : ∀ n, e ≠ .resize n)
    (hs : s.step e = some s') : Reserved s' := by
  obtain ⟨hfixed, hfull⟩ := h
  cases e with
  | alloc direct io =>
    cases hs
    exact ⟨forall_mem_cons.mpr ⟨rfl, hfixed⟩, by simpa [start, currNr, Op.returning] using hfull⟩
  | free e =>
    rw [State.step] at hs
    split at hs
    · cases hs
      refine ⟨forall_mem_cons.mpr ⟨rfl, hfixed⟩, ?_⟩
      simp only [currNr, countP_cons, Op.returning, if_true, length_erase_of_mem ‹e ∈ s.held›] at *
      omega
    · exact nomatch hs
  | resize n => exact absurd rfl (he n)
  | step i got ok =>
    rw [State.step] at hs
    split at hs
    · exact nomatch hs
    rename_i op hop
    split at hs
    · cases hs
      have hperm := take_perm hop
      have hres : Reserved ({ s with ops := s.ops.eraseIdx i }.start op) :=
        ⟨fun op' hop' => hfixed op' (hperm.mem_iff.mp hop'), by rw [start, hperm.countP_eq]; exact hfull⟩
      exact hres.advance ok
    · exact nomatch hs

theorem Reached.inv (h : Reached P s) : Inv s := by
  induction h with
  | init hl =>
    refine ⟨rfl, le_rfl, fun x => ?_⟩
    simpa [places, moving] using nodup_iff_count_le_one.mp hl x
  | step _ _ hs ih => exact ih.step hs

theorem Reached.reserved (hP : ∀ n, ¬P (.resize n)) (h : Reached P s) : Reserved s := by
  induction h with
  | init hl => exact ⟨nofun, Nat.le_add_right ..⟩
  | step _ he hs ih => exact ih.step (fun n hn => hP n (hn ▸ he)) hs

/-- In every run the pool has at most `min_nr` elements, no `BUG_ON` is reached, and every element is in
    one place at most. In a run without resizes what is missing from the reserve is with users or with
    calls that have not given it up, so the pool is full when everything has been returned. -/
theorem Reached.guarantee (h : Reached P s) : s.bug = false ∧ s.currNr ≤ s.minNr ∧
    (∀ e, s.elements.count e + s.held.count e + s.moving.count e ≤ 1) ∧
    ((∀ n, ¬P (.resize n)) → s.minNr ≤ s.currNr + s.held.length + s.ops.countP Op.returning ∧
      (s.held = [] → s.ops = [] → s.currNr = s.minNr)) := by
  refine ⟨h.inv.bug, h.inv.le, h.inv.once, fun hP => ?_⟩
  have hfull := (h.reserved hP).full
  refine ⟨hfull, fun hheld hops => le_antisymm h.inv.le ?_⟩
  simpa [hheld, hops] using hfull

end

/-- One element: it is taken from the reserve, and put back after the unlocked test. -/
theorem guarantee_refill : ∃ s : State Unit, Reached (fun e => ∀ n, e ≠ .resize n) s ∧
    s.ops = [.refill ()] ∧ s.currNr = 0 ∧ s.minNr ≤ s.currNr + s.held.length +
      s.ops.countP Op.returning := by
  have hfull : Reached (fun e : Event Unit => ∀ n, e ≠ .resize n) ⟨[()], 1, [], [], false⟩ :=
    .init (by decide)
  have htaken :=
    ((hfull.step (e := .alloc true false) nofun rfl).step (e := .step 0 none true) nofun rfl).step
      (e := .step 0 none true) nofun rfl
  have hback := (htaken.step (e := .free ()) nofun rfl).step (e := .step 0 none true) nofun rfl
  exact ⟨_, hback, rfl, rfl, (hback.guarantee.2.2.2 fun n hn => hn n rfl).1⟩

end LinuxNote.Mempool
