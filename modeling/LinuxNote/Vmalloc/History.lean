import LinuxNote.Vmalloc.Search

/-! Histories of allocations and frees from an empty address space. The areas in use stay apart, whatever
    the cache says, and a call that fails has missed nothing, as long as no aligned address overflows and
    the request is not exactly as large as the hole on record. -/

namespace LinuxNote.Vmalloc
open List Option

open SearchTree

def Area.Disjoint (a b : Area) : Prop := a.vaEnd ≤ b.vaStart ∨ b.vaEnd ≤ a.vaStart

instance (a b : Area) : Decidable (a.Disjoint b) := inferInstanceAs (Decidable (_ ∨ _))

/-- The areas that others may free during a call. -/
def freedBy (purge : List Area) (more : List (List Area × List Area)) : List Area :=
  purge ++ more.flatMap fun m => m.1 ++ m.2

/-- Each of the areas is in use, and none is freed twice. -/
structure Live (l freed : List Area) : Prop where
  mem : ∀ a ∈ freed, a ∈ l
  nodup : freed.Nodup

/-- The area that a call hands out. -/
def Result.areas : Result → List Area
  | .area va => [va]
  | _ => []

section
variable [Config]

/-- The address space after calls that are all `ok`. -/
inductive Runs (ok : Space → Request → Prop) : Space → Prop
  | start : Runs ok .empty
  | alloc {s req mem purge more s' r} : Runs ok s → Legal req → Live s.list (freedBy purge more) →
      ok s req → allocVmapArea s req mem purge more = .ok (s', r) → Runs ok s'
  | free {s va s'} : Runs ok s → va ∈ s.list → freeVmapArea s va = .ok s' → Runs ok s'

end

/-- The request does not use the cache, or is not exactly as large as the hole on record. -/
def HoleKept (s : Space) (req : Request) : Prop :=
  (invalidate s req).freeVmapCache = none ∨ req.size ≠ s.cachedHoleSize

instance (s : Space) (req : Request) : Decidable (HoleKept s req) := inferInstanceAs (Decidable (_ ∨ _))

/-- How an attempt ends. -/
inductive Attempted (s : Space) (req : Request) : Space → Option Area → Prop
  | failed {s'} : Inv s' → s'.list = s.list → (HoleKept s req → ∀ x, ¬Usable s.list req x) →
  Attempted s req s' none
  | found {s' pre rest va} : Inv s' → s.list = pre ++ rest → s'.list = pre ++ va :: rest →
      Usable s.list req va.vaStart → va.vaEnd = va.vaStart + req.size → Attempted s req s' (some va)

variable {s s' : Space} {l pre rest freed : List Area} {req : Request} {va a n c : Area} {r : Result}

/-! ### One attempt -/

section
variable [Config] (h : Inv s) (hlegal : Legal req) (hwrap : NoWrap s req)
include h hlegal hwrap

variable {addr : ℕ}

omit h hwrap in
/-- A search that comes too close to the end has passed every place that is large enough. -/
theorem Searched.missed {res : Option ℕ × Space} (hs : Searched s req res)
    (hseen : Seen s.list req.vstart req.align addr res.2.cachedHoleSize)
    (hfar : req.vend < addr + req.size) (hkeep : HoleKept s req) (x : ℕ) : ¬Usable s.list req x := by
  intro hx
  obtain ⟨hole, hended, hhole⟩ := hs.ended
  have hlt : hole < req.size := by
    rcases hhole with rfl | ⟨hne, rfl, hle⟩
    · exact hlegal.size_pos
    · exact lt_of_le_of_ne hle fun heq => (hkeep.resolve_left hne) heq.symm
  have hbelow : x < addr := by
    have := hx.le_vend
    omega
  exact absurd (hseen x _ hlegal.size_pos hx.vstart_le hx.aligned hx.free hbelow)
    (not_le.mpr (hended.lt_size hlt))

omit hwrap in
/-- The new area is the cached one. -/
theorem Searched.inserted {s1 : Space} {root : BinTree Area} (hs : Searched s req (some addr, s1))
    (hr : Reached s.list req pre rest ⟨addr, s1.cachedHoleSize⟩)
    (hfits : ∀ a ∈ rest, addr + req.size ≤ a.vaStart)
    (hroot : root.toList = pre ++ ⟨addr, addr + req.size⟩ :: rest) : Inv { s1 with
      root := root
      list := pre ++ ⟨addr, addr + req.size⟩ :: rest
      freeVmapCache := some ⟨addr, addr + req.size⟩ } := by
  obtain ⟨k, -, hk⟩ := hlegal.align_eq
  have hpos := hlegal.size_pos
  have hsorted : Sorted (pre ++ ⟨addr, addr + req.size⟩ :: rest) :=
    (hr.split ▸ h.sorted).insert hr.before hfits (show addr < addr + req.size by omega) hr.bounded
  refine ⟨hsorted, hroot, fun n hn => ?_, fun _ => ⟨k, hs.align_eq.trans hk⟩, fun n hn => ?_⟩
  · rw [← some.inj hn]
    exact mem_append_right _ mem_cons_self
  rw [← some.inj hn]
  have hseen :
    Seen (pre ++ ⟨addr, addr + req.size⟩ :: rest) req.vstart req.align addr s1.cachedHoleSize := by
    intro x len hlen hv hdvd hfree hlt
    refine hr.seen x len hlen hv hdvd (fun a ha => hfree a ?_) hlt
    rw [hr.split] at ha
    rcases mem_append.mp ha with ha | ha
    · exact mem_append_left _ ha
    · exact mem_append_right _ (mem_cons_of_mem _ ha)
  have hv : s1.cachedVstart = req.vstart := hs.vstart_eq
  have ha : s1.cachedAlign = req.align := hs.align_eq
  rw [← hv, ← ha] at hseen
  exact hseen

/-- An attempt reaches none of the `BUG`s. -/
theorem attempt_spec : ∃ s' r, attempt s req = .ok (s', r) ∧ Attempted s req s' r := by
  have hs := search_searched h hlegal hwrap
  obtain ⟨hole, hended, -⟩ := hs.ended
  rw [attempt]
  rcases hsearch : search s req with ⟨addr, s1⟩
  rw [hsearch] at hs hended
  rcases addr with _ | addr
  · obtain ⟨addr, hover, hseen⟩ := hended.overflow rfl
    exact ⟨s1, none, rfl,
      .failed hs.inv hs.list_eq (hs.missed hlegal hseen (hlegal.vend_lt.trans_le hover))⟩
  obtain ⟨pre, rest, hr, hstop⟩ := hended.found addr rfl
  have hbounded : addr + req.size < 2 ^ 64 := hr.bounded
  dsimp only
  rw [add_eq hbounded]
  by_cases hvend : addr + req.size > req.vend
  · rw [if_pos hvend]
    exact ⟨s1, none, rfl, .failed hs.inv hs.list_eq (hs.missed hlegal hr.seen hvend)⟩
  rw [if_neg hvend]
  have hfits := hstop.resolve_left hvend
  have hpos := hlegal.size_pos
  have hlist : s1.list = pre ++ rest := hs.list_eq.trans hr.split
  obtain ⟨root, hinsert, hroot⟩ := insertVmapArea_eq ⟨addr, addr + req.size⟩ hs.inv hlist hr.before hfits
    (show addr < addr + req.size by omega) hr.bounded
  have hfree : FreeRange s.list addr req.size := by
    intro a ha
    rw [hr.split] at ha
    rcases mem_append.mp ha with ha | ha
    · exact .inl (hr.before a ha)
    · exact .inr (hfits a ha)
  rw [hinsert]
  dsimp only
  rw [if_neg (not_not.mpr (Nat.mod_eq_zero_of_dvd hr.aligned)), if_neg (not_lt.mpr hr.vstart_le),
    if_neg hvend]
  exact ⟨_, _, rfl, .found (hs.inserted h hlegal hr hfits hroot) hr.split rfl
    ⟨hr.vstart_le, hr.aligned, not_lt.mp hvend, hfree⟩ rfl⟩

end

/-! ### Freeing areas -/

variable {vstart align : ℕ} {freed' : List Area} {call : Except Bug (Space × Result)}
  {ok : Space → Request → Prop}

/-- Freeing an area above leaves what is known of the places below `n`. -/
theorem Seen.erase {hole : ℕ} (h : Seen l vstart align c.vaStart hole) (hn : n ∈ l.erase va)
    (hlt : n.vaStart < n.vaEnd) (hc : n.vaStart ≤ c.vaStart) (hva : n.vaStart ≤ va.vaStart) :
    Seen (l.erase va) vstart align n.vaStart hole := by
  intro x len hlen hv hdvd hfree hx
  refine h x len hlen hv hdvd (fun a ha => ?_) (hx.trans_le hc)
  by_cases heq : a = va
  · rw [heq]
    have hbelow := (hfree n hn).resolve_left (by omega)
    exact .inr (hbelow.trans hva)
  · exact hfree a ((mem_erase_of_ne heq).mpr ha)

section
variable [Config] (h : Inv s)
include h

omit [Config] in
/-- The cache after an area was freed is an area below it that is still in use. -/
theorem Inv.free_cache (hsplit : s.list = pre ++ va :: rest) {cache : Option Area}
    (hcache : cache = match s.freeVmapCache with
      | none => none
      | some c =>
        if va.vaEnd < s.cachedVstart then none
        else if va.vaStart ≤ c.vaStart then rbPrev s.root va
        else some c) (hn : cache = some n) :
    ∃ c, s.freeVmapCache = some c ∧ n ∈ s.list.erase va ∧ n.vaStart ≤ c.vaStart ∧
    n.vaStart ≤ va.vaStart := by
  have hsorted : Sorted (pre ++ va :: rest) := hsplit ▸ h.sorted
  rw [hcache] at hn
  rcases hc : s.freeVmapCache with _ | c
  · rw [hc] at hn
    cases hn
  rw [hc] at hn
  dsimp only at hn
  refine ⟨c, rfl, ?_⟩
  split_ifs at hn with hend hbelow
  · rw [hsorted.rbPrev_eq (h.root_eq.trans hsplit)] at hn
    have hmem := mem_of_getLast? hn
    have hle := hsorted.before hmem
    have hlt := (hsorted.area n (mem_append_left _ hmem)).1
    rw [hsplit, erase_append_right _ hsorted.not_mem, erase_cons_head]
    exact ⟨mem_append_left _ hmem, by omega, by omega⟩
  obtain rfl := some.inj hn
  refine ⟨(mem_erase_of_ne fun heq => ?_).mpr (h.cache_mem c hc), le_rfl, (not_le.mp hbelow).le⟩
  rw [heq] at hbelow
  exact hbelow le_rfl

/-- An area in use is freed. -/
theorem freeVmapArea_spec (hva : va ∈ s.list) : ∃ s', freeVmapArea s va = .ok s' ∧ Inv s' ∧
    s'.list = s.list.erase va := by
  obtain ⟨pre, rest, hsplit⟩ := append_of_mem hva
  rw [freeVmapArea, if_pos hva]
  refine ⟨_, rfl, ⟨h.sorted.sublist erase_sublist, ?_, fun n hn => ?_, fun hne => ?_, fun n hn => ?_⟩,
    rfl⟩
  · rw [← h.root_eq]
    exact erase_toList va s.root
  · obtain ⟨c, -, hmem, -⟩ := h.free_cache hsplit rfl hn
    exact hmem
  · obtain ⟨n, hn⟩ := ne_none_iff_exists'.mp hne
    obtain ⟨c, hc, -⟩ := h.free_cache hsplit rfl hn
    exact h.align_eq (hc ▸ some_ne_none c)
  · obtain ⟨c, hc, hmem, hle, hle'⟩ := h.free_cache hsplit rfl hn
    exact (h.seen c hc).erase hmem (h.sorted.area n (mem_of_mem_erase hmem)).1 hle hle'

end

/-- The areas of `freed`, and no others, are gone. -/
structure Left (s s' : Space) (freed : List Area) : Prop where
  inv : Inv s'
  mem_iff : ∀ a, a ∈ s'.list ↔ a ∈ s.list ∧ a ∉ freed

theorem Left.live (h : Left s s' freed) (hl : Live s.list (freed ++ freed')) : Live s'.list freed' := by
  obtain ⟨-, hnodup, hdisj⟩ := nodup_append.mp hl.nodup
  refine ⟨fun a ha => (h.mem_iff a).mpr ⟨hl.mem a (mem_append_right _ ha), fun hmem => ?_⟩, hnodup⟩
  exact hdisj a hmem a ha rfl

theorem Live.left (hl : Live l (freed ++ freed')) : Live l freed :=
  ⟨fun a ha => hl.mem a (mem_append_left _ ha), (nodup_append.mp hl.nodup).1⟩

theorem freeAreas_left [Config] (h : Inv s) (hl : Live s.list freed) :
    ∃ s', freeAreas s freed = .ok s' ∧ Left s s' freed := by
  induction freed generalizing s with
  | nil => exact ⟨s, rfl, h, fun a => ⟨fun ha => ⟨ha, not_mem_nil⟩, And.left⟩⟩
  | cons va l ih =>
    obtain ⟨s1, hfree, hinv, hlist⟩ := freeVmapArea_spec h (hl.mem va mem_cons_self)
    have hleft : Left s s1 [va] := by
      refine ⟨hinv, fun a => ?_⟩
      rw [hlist, h.sorted.nodup.mem_erase_iff, mem_singleton, and_comm]
    obtain ⟨s2, hrest, hleft2⟩ := ih hinv (hleft.live hl)
    refine ⟨s2, ?_, hleft2.inv, fun a => ?_⟩
    · rw [freeAreas, hfree]
      exact hrest
    · rw [hleft2.mem_iff, hleft.mem_iff, mem_singleton, mem_cons, not_or, and_assoc]

/-! ### Whole calls -/

/-- What a call does: it hands out at most one area, as asked for, and loses none but those that others
    free. -/
structure Served (s s' : Space) (req : Request) (freed : List Area) (r : Result) : Prop where
  inv : Inv s'
  mem : ∀ a ∈ s'.list, a ∈ r.areas ∨ a ∈ s.list
  kept : ∀ a ∈ s.list, a ∈ s'.list ∨ a ∈ freed
  area : ∀ va, r = .area va → va ∈ s'.list ∧ va.vaEnd = va.vaStart + req.size ∧ req.align ∣ va.vaStart ∧
    req.vstart ≤ va.vaStart ∧ va.vaEnd ≤ req.vend ∧ ∀ a ∈ s.list, a.Disjoint va ∨ a ∈ freed

theorem Attempted.served (h : Attempted s req s' (some va)) : Served s s' req [] (.area va) := by
  cases h with
  | found hinv hsplit hlist husable hend =>
    refine ⟨hinv, fun a ha => ?_, fun a ha => .inl ?_, fun va' hva' => ?_⟩
    · rw [hlist] at ha
      rcases mem_append.mp ha with ha | ha
      · exact .inr (hsplit ▸ mem_append_left _ ha)
      rcases mem_cons.mp ha with rfl | ha
      · exact .inl mem_cons_self
      · exact .inr (hsplit ▸ mem_append_right _ ha)
    · rw [hsplit] at ha
      rw [hlist]
      rcases mem_append.mp ha with ha | ha
      · exact mem_append_left _ ha
      · exact mem_append_right _ (mem_cons_of_mem _ ha)
    obtain rfl := Result.area.inj hva'
    refine ⟨?_, hend, husable.aligned, husable.vstart_le, hend ▸ husable.le_vend, fun a ha => .inl ?_⟩
    · rw [hlist]
      exact mem_append_right _ mem_cons_self
    rw [Area.Disjoint, hend]
    exact husable.free a ha

theorem Served.mono (h : Served s s' req freed r) (hsub : ∀ a ∈ freed, a ∈ freed') :
    Served s s' req freed' r := by
  refine ⟨h.inv, h.mem, fun a ha => (h.kept a ha).imp_right (hsub a), fun va hva => ?_⟩
  obtain ⟨hmem, hend, hdvd, hstart, hle, hdisj⟩ := h.area va hva
  exact ⟨hmem, hend, hdvd, hstart, hle, fun a ha => (hdisj a ha).imp_right (hsub a)⟩

theorem Served.after {s1 : Space} {freed1 freed2 : List Area} (h : Served s1 s' req freed2 r)
    (hleft : Left s s1 freed1) : Served s s' req (freed1 ++ freed2) r := by
  have hkeep : ∀ a ∈ s.list, a ∈ s1.list ∨ a ∈ freed1 := fun a ha =>
    (em (a ∈ freed1)).symm.imp_left fun hgone => (hleft.mem_iff a).mpr ⟨ha, hgone⟩
  refine ⟨h.inv, fun a ha => ?_, fun a ha => ?_, fun va hva => ?_⟩
  · exact (h.mem a ha).imp_right fun hmem => ((hleft.mem_iff a).mp hmem).1
  · rcases hkeep a ha with hmem | hgone
    · exact (h.kept a hmem).imp_right (mem_append_right _)
    · exact .inr (mem_append_left _ hgone)
  obtain ⟨hmem, hend, hdvd, hstart, hle, hdisj⟩ := h.area va hva
  refine ⟨hmem, hend, hdvd, hstart, hle, fun a ha => ?_⟩
  rcases hkeep a ha with hmem | hgone
  · exact (hdisj a hmem).imp_right (mem_append_right _)
  · exact .inr (mem_append_left _ hgone)

theorem Left.served (h : Left s s' freed) : Served s s' req freed .busy :=
  ⟨h.inv, fun a ha => .inr ((h.mem_iff a).mp ha).1, fun a ha =>
    (em (a ∈ freed)).symm.imp_left fun hgone => (h.mem_iff a).mpr ⟨ha, hgone⟩, nofun⟩

theorem Left.noWrap (h : Left s s' freed) (hwrap : NoWrap s req) : NoWrap s' req :=
  ⟨hwrap.1, fun a ha => hwrap.2 a ((h.mem_iff a).mp ha).1⟩

/-- How a round ends: with an area, or without one after the purge. -/
inductive Ran (s : Space) (req : Request) (purge : List Area) : Space → Option Area → Prop
  | failed {s' : Space} : Left s s' purge → (HoleKept s req → ∀ x, ¬Usable s.list req x) →
  Ran s req purge s' none
  | found {s' : Space} {va : Area} : Served s s' req purge (.area va) → Ran s req purge s' (some va)

section
variable [Config] {more : List (List Area × List Area)} (h : Inv s) (hlegal : Legal req)
  (hwrap : NoWrap s req)
include h hlegal hwrap

theorem round_ran (purge : List Area) (hl : Live s.list purge) :
    ∃ s' r, round req s purge = .ok (s', r) ∧ Ran s req purge s' r := by
  obtain ⟨s1, r, hfirst, hatt⟩ := attempt_spec h hlegal hwrap
  rw [round, hfirst]
  cases r with
  | some va => exact ⟨s1, some va, rfl, .found (hatt.served.mono nofun)⟩
  | none =>
    cases hatt with
    | failed hinv hlist hnone =>
      obtain ⟨s2, hfree, hleft⟩ := freeAreas_left hinv (hlist ▸ hl)
      have hleft' : Left s s2 purge := ⟨hleft.inv, fun a => hlist ▸ hleft.mem_iff a⟩
      obtain ⟨s3, r, hsecond, hatt2⟩ := attempt_spec hleft.inv hlegal (hleft'.noWrap hwrap)
      dsimp only
      rw [hfree]
      refine ⟨s3, r, hsecond, ?_⟩
      cases r with
      | some va =>
        exact .found (append_nil purge ▸ hatt2.served.after hleft')
      | none =>
        cases hatt2 with
        | failed hinv3 hlist3 _ => exact .failed ⟨hinv3, fun a => hlist3 ▸ hleft'.mem_iff a⟩ hnone

variable {purge : List Area}

theorem rounds_served (hl : Live s.list (freedBy purge more)) :
    ∃ s' r, rounds req s purge more = .ok (s', r) ∧ Served s s' req (freedBy purge more) r := by
  induction more generalizing s purge with
  | nil =>
    obtain ⟨s1, r, hround, hran⟩ := round_ran h hlegal hwrap purge hl.left
    rw [rounds, hround]
    have hsub : ∀ a ∈ purge, a ∈ freedBy purge [] := fun a ha => mem_append_left _ ha
    cases hran with
    | found hserved => exact ⟨s1, _, rfl, hserved.mono hsub⟩
    | failed hleft _ => exact ⟨s1, _, rfl, hleft.served.mono hsub⟩
  | cons m more ih =>
    obtain ⟨notified, purge'⟩ := m
    have hfreed : freedBy purge ((notified, purge') :: more) = purge ++
      (notified ++ freedBy purge' more) := by
      rw [freedBy, freedBy, flatMap_cons, append_assoc]
    rw [hfreed] at hl ⊢
    obtain ⟨s1, r, hround, hran⟩ := round_ran h hlegal hwrap purge hl.left
    rw [rounds, hround]
    cases hran with
    | found hserved => exact ⟨s1, _, rfl, hserved.mono fun a ha => mem_append_left _ ha⟩
    | failed hleft _ =>
      have hl1 := hleft.live hl
      obtain ⟨s2, hfree, hleft2⟩ := freeAreas_left hleft.inv hl1.left
      obtain ⟨s', r, hrest, hserved⟩ :=
        ih hleft2.inv (hleft2.noWrap (hleft.noWrap hwrap)) (hleft2.live hl1)
      dsimp only
      rw [hfree]
      exact ⟨s', r, hrest, (hserved.after hleft2).after hleft⟩

omit h hwrap in
/-- The checks at the start let the request through. -/
theorem Legal.allocVmapArea_eq (mem : Bool) (purge : List Area) (more : List (List Area × List Area)) :
    allocVmapArea s req mem purge more = if mem =
      false then .ok (s, .nomem) else rounds req s purge more := by
  obtain ⟨k, -, hk⟩ := hlegal.align_eq
  rw [allocVmapArea, if_neg hlegal.size_pos.ne',
    if_neg (not_not.mpr (Nat.mod_eq_zero_of_dvd hlegal.page_dvd)),
    if_neg (by simp [hk, isPowerOf2, Nat.and_two_pow_sub_one_eq_mod])]

theorem allocVmapArea_served (mem : Bool) (hl : Live s.list (freedBy purge more)) :
    ∃ s' r, allocVmapArea s req mem purge more = .ok (s', r) ∧
    Served s s' req (freedBy purge more) r := by
  rw [hlegal.allocVmapArea_eq]
  split_ifs
  · exact ⟨s, .nomem, rfl, h, fun a ha => .inr ha, fun a ha => .inl ha, nofun⟩
  · exact rounds_served h hlegal hwrap hl

end

/-! ### Histories -/

theorem Runs.inv [Config] (h : Runs NoWrap s) : Inv s := by
  induction h with
  | start => exact ⟨⟨nofun, .nil⟩, rfl, nofun, fun h => absurd rfl h, nofun⟩
  | alloc _ hlegal hl hwrap hcall ih =>
    obtain ⟨s', r, heq, hserved⟩ := allocVmapArea_served ih hlegal hwrap _ hl
    rw [hcall] at heq
    cases heq
    exact hserved.inv
  | free _ hva hcall ih =>
    obtain ⟨s', heq, hinv, -⟩ := freeVmapArea_spec ih hva
    rw [hcall] at heq
    cases heq
    exact hinv

/-- The address space after a call, and the same when it reaches a `BUG`. -/
def spaceAfter (s : Space) (call : Except Bug (Space × Result)) : Space :=
  (call.toOption.map Prod.fst).getD s

/-- A call during which nothing is freed, when it is known to return. -/
theorem Runs.next [Config] (h : Runs ok s) (req : Request)
    (hcall : Legal req ∧ ok s req ∧ (allocVmapArea s req true [] []).isOk = true) :
    Runs ok (spaceAfter s (allocVmapArea s req true [] [])) := by
  obtain ⟨hlegal, hok, hret⟩ := hcall
  have hlive : Live s.list (freedBy [] []) := ⟨nofun, nodup_nil⟩
  rcases heq : allocVmapArea s req true [] [] with _ | x
  · rw [heq] at hret
    cases hret
  exact h.alloc hlegal hlive hok heq

/-- Pages of 4096 bytes, and a tree that is a list. -/
@[reducible] def pages : Config :=
  ⟨4096, id, fun a t => .ofList (t.toList.erase a), fun _ => rfl, fun _ _ => BinTree.toList_ofList _⟩

/-- A number of pages among the first ten. -/
def tenPages (n : ℕ) : Request := ⟨n * 4096, 4096, 0, 40960⟩

/-- Allocations from an empty address space. -/
def allocated [Config] (reqs : List Request) : Space :=
  reqs.foldl (fun s req => spaceAfter s (allocVmapArea s req true [] [])) .empty

theorem runs_allocated [Config] (reqs : List Request) (req : Request) (h : Runs ok (allocated reqs))
    (hcall : Legal req ∧ ok (allocated reqs) req ∧
      (allocVmapArea (allocated reqs) req true [] []).isOk = true) :
    Runs ok (allocated (reqs ++ [req])) := by
  rw [allocated, foldl_append]
  exact h.next req hcall

theorem Inv.disjoint (h : Inv s) : s.list.Pairwise Area.Disjoint := h.sorted.ordered.imp .inl

/-- The areas in use never meet, every area that is handed out is aligned and lies in the range asked
    for, and no call reaches a `BUG`, whatever the cache was left with. -/
theorem runs_vmapAreas [Config] (h : Runs NoWrap s) :
    s.list.Pairwise Area.Disjoint ∧
    (∀ req mem purge more, Legal req → Live s.list (freedBy purge more) → NoWrap s req →
      ∃ s' r, allocVmapArea s req mem purge more = .ok (s', r) ∧ s'.list.Pairwise Area.Disjoint ∧
      (∀ a ∈ s'.list, a ∈ r.areas ∨ a ∈ s.list) ∧ (∀ a ∈ s.list, a ∈ s'.list ∨ a ∈ freedBy purge more) ∧
      ∀ va, r = .area va → va ∈ s'.list ∧ va.vaEnd = va.vaStart + req.size ∧ req.align ∣ va.vaStart ∧
      req.vstart ≤ va.vaStart ∧ va.vaEnd ≤ req.vend ∧
      ∀ a ∈ s.list, a.Disjoint va ∨ a ∈ freedBy purge more) ∧
    ∀ va ∈ s.list, ∃ s', freeVmapArea s va = .ok s' ∧ s'.list = s.list.erase va := by
  have hinv := h.inv
  refine ⟨hinv.disjoint, fun req mem purge more hlegal hl hwrap => ?_, fun va hva => ?_⟩
  · obtain ⟨s', r, hcall, hserved⟩ := allocVmapArea_served hinv hlegal hwrap mem hl
    exact ⟨s', r, hcall, hserved.inv.disjoint, hserved.mem, hserved.kept, hserved.area⟩
  obtain ⟨s', hcall, -, hlist⟩ := freeVmapArea_spec hinv hva
  exact ⟨s', hcall, hlist⟩

/-- After two allocations. -/
theorem runs_vmapAreas_two :
    (@allocated pages [tenPages 2, tenPages 3]).list = [⟨0, 8192⟩, ⟨8192, 20480⟩] ∧
      (@allocated pages [tenPages 2, tenPages 3]).list.Pairwise Area.Disjoint := by
  let _ := pages
  have h1 : Runs NoWrap (allocated [tenPages 2]) :=
    runs_allocated [] _ .start (by decide +kernel)
  have h2 : Runs NoWrap (allocated [tenPages 2, tenPages 3]) :=
    runs_allocated _ _ h1 (by decide +kernel)
  exact ⟨by decide +kernel, (runs_vmapAreas h2).1⟩

/-- `ALIGN` overflows: the area is below `vstart`, or on top of another one. -/
theorem runs_vmapAreas_wrap : (@Legal pages ⟨4096, 2 ^ 63, 2 ^ 64 - 8192, 2 ^ 64 - 1⟩ ∧
      @allocVmapArea pages .empty ⟨4096, 2 ^ 63, 2 ^ 64 - 8192, 2 ^ 64 - 1⟩ true [] [] =
        .error .belowVstart) ∧ ∃ s, @Runs pages (fun _ _ => True) s ∧
    s.list = [⟨0, 4096⟩, ⟨0, 2 ^ 64 - 8192⟩, ⟨2 ^ 64 - 8192, 2 ^ 64 - 4096⟩] := by
  let _ := pages
  refine ⟨⟨by decide +kernel, rfl⟩, ?_⟩
  have h1 : Runs (fun _ _ => True) (allocated [⟨2 ^ 64 - 8192, 2 ^ 12, 0, 2 ^ 64 - 1⟩]) :=
    runs_allocated [] _ .start (by decide +kernel)
  have h2 := runs_allocated _ ⟨4096, 2 ^ 12, 0, 2 ^ 64 - 1⟩ h1 (by decide +kernel)
  have h3 := runs_allocated _ ⟨4096, 2 ^ 63, 0, 2 ^ 64 - 1⟩ h2 (by decide +kernel)
  exact ⟨_, h3, by decide +kernel⟩

/-- When nothing is freed meanwhile, a call fails only if there is no room, although the search may start
    from the cached area. -/
theorem runs_busy_iff [Config] (h : Runs NoWrap s) (hlegal : Legal req) (hwrap : NoWrap s req)
    (hkept : HoleKept s req) :
    (∃ s', allocVmapArea s req true [] [] = .ok (s', .busy)) ↔ ¬∃ x, Usable s.list req x := by
  obtain ⟨s', r, hround, hran⟩ := round_ran h.inv hlegal hwrap [] ⟨nofun, .nil⟩
  rw [hlegal.allocVmapArea_eq, if_neg Bool.true_eq_false.mp, rounds, hround]
  cases hran with
  | failed hleft hnone =>
    exact iff_of_true ⟨s', rfl⟩ fun ⟨x, hx⟩ => hnone hkept x hx
  | found hserved =>
    obtain ⟨-, hend, hdvd, hstart, hle, hdisj⟩ := hserved.area _ rfl
    refine iff_of_false (by rintro ⟨s', heq⟩; cases heq)
      (not_not.mpr ⟨_, hstart, hdvd, hend ▸ hle, fun a ha => ?_⟩)
    rw [← hend]
    exact (hdisj a ha).resolve_right List.not_mem_nil

theorem exists_of_result (h : call.toOption.map Prod.snd = some r) : ∃ s', call = .ok (s', r) := by
  cases call with
  | error e => cases h
  | ok x => exact ⟨x.1, congrArg (fun r => Except.ok (x.1, r)) (some.inj h)⟩

/-- Nine of ten pages are in use: there is no room for two more. -/
theorem runs_busy_iff_full :
    (∃ s', @allocVmapArea pages (@allocated pages [tenPages 9]) (tenPages 2) true [] [] =
        .ok (s', .busy)) ∧ ¬∃ x, Usable (@allocated pages [tenPages 9]).list (tenPages 2) x := by
  let _ := pages
  have h : Runs NoWrap (allocated [tenPages 9]) :=
    runs_allocated [] _ .start (by decide +kernel)
  have hbusy : ∃ s', allocVmapArea (allocated [tenPages 9]) (tenPages 2) true [] [] = .ok (s', .busy) :=
    exists_of_result (by decide +kernel)
  exact ⟨hbusy, (runs_busy_iff h (by decide) (by decide +kernel) (by decide +kernel)).mp hbusy⟩

/-- The hole on record is exactly as large as the request, and is not used. -/
theorem runs_busy_missed : ∃ s, @Runs pages NoWrap s ∧ NoWrap s (tenPages 2) ∧
    (∃ s', @allocVmapArea pages s (tenPages 2) true [] [] = .ok (s', .busy)) ∧
    Usable s.list (tenPages 2) 0 := by
  let _ := pages
  have h1 : Runs NoWrap (allocated [tenPages 2]) :=
    runs_allocated [] _ .start (by decide +kernel)
  have h2 := runs_allocated _ (tenPages 2) h1 (by decide +kernel)
  have hva : (⟨0, 8192⟩ : Area) ∈ (allocated ([tenPages 2] ++ [tenPages 2])).list := by decide +kernel
  have h3 := h2.free hva (if_pos hva)
  have h4 := h3.next (tenPages 3) (by decide +kernel)
  have h5 := h4.next (tenPages 3) (by decide +kernel)
  exact ⟨_, h5, by decide +kernel, exists_of_result (by decide +kernel), by decide, by decide, by decide,
    by decide +kernel⟩

end LinuxNote.Vmalloc
