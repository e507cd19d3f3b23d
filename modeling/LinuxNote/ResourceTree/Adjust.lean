import LinuxNote.ResourceTree.InsertRemove

/-! Changing the ranges of resources in place: `adjust_resource`, `release_mem_region_adjustable`, and
    the search for a slot with `reallocate_resource`. -/

namespace LinuxNote.ResourceTree
open Forest List

/-! ### Ends of ranges -/

theorem succ64_eq {a : ℕ} (h : a < sizeMax) : succ64 a = a + 1 := by
  simp only [succ64, sizeMax] at *
  omega

theorem pred64_eq {a : ℕ} (h0 : 0 < a) (h : a ≤ sizeMax) : pred64 a = a - 1 := by
  simp only [pred64, sizeMax] at *
  omega

theorem rangeEnd_eq {start n : ℕ} (h0 : 0 < n) (h : start + n - 1 ≤ sizeMax) :
    rangeEnd start n = start + n - 1 := by
  simp only [rangeEnd, sizeMax] at *
  omega

/-! ### Adjusting -/

section
variable {kids c s : Resources} {pid lo lo' hi hi' start stop : ℕ} {parent r : Resource}
  {prev : Option Resource}

/-- Children that are in a range can be bounded by it. -/
theorem Valid.restrict (h : Valid c pid lo hi) (hin : ∀ r ∈ c.siblings, lo' ≤ r.start ∧ r.stop ≤ hi') :
    Valid c pid lo' hi' := by
  induction c generalizing lo lo' with
  | nil => trivial
  | cons r c s _ ih =>
    obtain ⟨h1, h2, h3, h4, h5, h6⟩ := h
    obtain ⟨h7, h8⟩ := hin r (mem_cons_self ..)
    refine ⟨h7, h2, h8, h4, h5, ih h6 fun q hq => ?_⟩
    exact ⟨(h6.bounds q hq).1, (hin q (mem_cons_of_mem _ hq)).2⟩

/-- The sibling before is where the part of the list that is left begins. -/
def Before (parent : Resource) (prev : Option Resource) (lo : ℕ) : Prop :=
  match prev with
  | none => lo = parent.start
  | some q => lo = q.stop + 1

/-- A range that passes the checks fits in the place of the resource. -/
theorem canAdjust_fits (h : canAdjust parent prev c s start stop = true) (hb : Before parent prev lo)
    (hc : Valid c pid lo' hi') (hs : Valid s parent.id hi parent.stop) :
    lo ≤ start ∧ stop ≤ parent.stop ∧ Valid c pid start stop ∧
    Valid s parent.id (stop + 1) parent.stop := by
  simp only [canAdjust, Bool.not_eq_true', Bool.or_eq_false_iff, decide_eq_false_iff_not, not_or,
    not_lt] at h
  obtain ⟨⟨⟨⟨h1, h2⟩, h3⟩, h4⟩, h5⟩ := h
  refine ⟨?_, h2, hc.restrict fun q hq => ?_, ?_⟩
  · rcases prev with _ | q
    · rw [Before] at hb
      omega
    rw [Before] at hb
    simp only [Option.any_some, decide_eq_false_iff_not] at h4
    omega
  · simp only [sticksOut, any_eq_false, decide_eq_true_eq] at h5
    have := h5 q hq
    omega
  rcases s with _ | ⟨next, d, s⟩
  · trivial
  refine hs.raise ?_
  simp only [siblings, head?_cons, Option.any_some, decide_eq_false_iff_not] at h3
  omega

/-- What an operation on a list of children has to keep. -/
def Keeps (extra : List ℕ) (pid lo hi : ℕ) (kids kids' : Resources) : Prop :=
  Valid kids' pid lo hi ∧ Within extra kids kids'

/-- The call comes back: it has not run into the `BUG_ON`, and no loop has been cut short. -/
def Status.Returns (b : Status) : Prop := b ≠ .bug ∧ b ≠ .fuel

theorem Keeps.refl {extra : List ℕ} (h : Valid kids pid lo hi) : Keeps extra pid lo hi kids kids :=
  ⟨h, fun _ => Nat.le_add_left ..⟩

theorem Keeps.mono {extra extra' : List ℕ} {kids' : Resources} (h : Keeps extra pid lo hi kids kids')
    (hsub : ∀ x, extra.count x ≤ extra'.count x) : Keeps extra' pid lo hi kids kids' := by
  refine ⟨h.1, fun x => ?_⟩
  have h1 := h.2 x
  have h2 := hsub x
  omega

theorem Keeps.sibling {extra : List ℕ} {s' : Resources} (h : Keeps extra pid (r.stop + 1) hi s s')
    (hv : Valid (.cons r c s) pid lo hi) : Keeps extra pid lo hi (.cons r c s) (.cons r c s') := by
  obtain ⟨h1, h2, h3, h4, h5, -⟩ := hv
  refine ⟨⟨h1, h2, h3, h4, h5, h.1⟩, fun x => ?_⟩
  have := h.2 x
  simp only [ids_cons, count_cons, count_append]
  omega

theorem Keeps.child {extra : List ℕ} {c' : Resources} (h : Keeps extra r.id r.start r.stop c c')
    (hv : Valid (.cons r c s) pid lo hi) : Keeps extra pid lo hi (.cons r c s) (.cons r c' s) := by
  obtain ⟨h1, h2, h3, h4, -, h6⟩ := hv
  refine ⟨⟨h1, h2, h3, h4, h.1, h6⟩, fun x => ?_⟩
  have := h.2 x
  simp only [ids_cons, count_cons, count_append]
  omega

theorem adjustLoop_keeps (res : ℕ) (hle : start ≤ stop) (hv : Valid kids parent.id lo parent.stop)
    (hb : Before parent prev lo) :
    Keeps [] parent.id lo parent.stop kids (adjustLoop parent res start stop prev kids).2 := by
  induction kids generalizing prev lo with
  | nil => exact .refl hv
  | cons r c s _ ih =>
    rw [adjustLoop]
    have hv' := hv
    obtain ⟨h1, h2, h3, h4, h5, h6⟩ := hv
    split
    · split
      · rename_i hcan
        obtain ⟨hlo, hhi, hc, hs⟩ := canAdjust_fits hcan hb h5 h6
        exact ⟨⟨hlo, hle, hhi, h4, hc, hs⟩, fun x => Nat.le_add_left ..⟩
      · exact .refl hv'
    · exact (ih h6 (show Before parent (some r) (r.stop + 1) from rfl)).sibling hv'

end

/-! ### `release_mem_region_adjustable` -/

section
variable {kids c d s : Resources} {lo start stop size : ℕ} {parent q r : Resource}
  {prev : Option Resource} {alloc : Option ℕ} {left : List Resource}

section
variable (alloc : Option ℕ) (start stop : ℕ) (parent : Resource) (prev : Option Resource) (r : Resource)
  (c s : Resources)

/-- What becomes of the busy resource `r` that has the range. -/
inductive Adjusted : Status × Resources → Prop
  | fails {e : Status} : e ≠ .ok → Adjusted (e, .cons r c s)
  | whole : r.start = start → r.stop = stop → Adjusted (.ok, s)
  | low : r.start = start → stop < r.stop → canAdjust parent prev c s (stop + 1) r.stop →
      Adjusted (.ok, .cons (r.move (stop + 1) r.stop) c s)
  | high : r.start < start → r.stop = stop → canAdjust parent prev c s r.start (start - 1) →
      Adjusted (.ok, .cons (r.move r.start (start - 1)) c s)
  | split {id : ℕ} : r.start < start → stop < r.stop → alloc = some id →
      canAdjust parent prev c s r.start (start - 1) → Adjusted
      (.ok, .cons (r.move r.start (start - 1)) c (.cons { r with id := id, start := stop + 1 } .nil s))

end

theorem adjustThen_ind {P : Status × Resources → Prop} {f : Resource → Resources}
    (hend : rangeEnd start size = stop) (hok : canAdjust parent prev c s start stop →
      P (.ok, f (r.move start stop))) (hbusy : P (.busy, .cons r c s)) :
    P (adjustThen parent prev r c s start size f) := by
  rw [adjustThen, hend]
  split
  · exact hok (by assumption)
  · exact hbusy

theorem releaseMemFrom_adjusted (hmax : r.stop ≤ sizeMax) (hs : r.start ≤ start) (hle : start ≤ stop)
    (he : stop ≤ r.stop) :
    Adjusted alloc start stop parent prev r c s (releaseMemFrom alloc start stop parent prev r c s) := by
  unfold releaseMemFrom
  split
  · rename_i hwhole
    exact .whole hwhole.1 hwhole.2
  split
  · rw [succ64_eq (by omega)]
    refine adjustThen_ind (?_ : _ = r.stop) (.low (by assumption) (by omega)) (.fails (by simp))
    rw [rangeEnd_eq (by omega) (by omega)]
    omega
  have hend : rangeEnd r.start (start - r.start) = start - 1 := by
    rw [rangeEnd_eq (by omega) (by omega)]
    omega
  split
  · exact adjustThen_ind hend (.high (by omega) (by assumption)) (.fails (by simp))
  rcases alloc with _ | id
  · exact .fails (by simp)
  rw [succ64_eq (by omega)]
  exact adjustThen_ind hend (.split (by omega) (by omega) rfl) (.fails (by simp))

theorem Adjusted.keeps {p : Status × Resources} (h : Adjusted alloc start stop parent prev r c s p)
    (hle : start ≤ stop) (hv : Valid (.cons r c s) parent.id lo parent.stop)
    (hb : Before parent prev lo) : Keeps alloc.toList parent.id lo parent.stop (.cons r c s) p.2 := by
  have hv' := hv
  obtain ⟨h1, h2, h3, h4, h5, h6⟩ := hv
  -- the range of the resource changes, and maybe the list after it
  have hmove : ∀ {a b s' id}, a ≤ b → canAdjust parent prev c s a b →
    Keeps id parent.id (b + 1) parent.stop s s' →
    Keeps id parent.id lo parent.stop (.cons r c s) (.cons (r.move a b) c s') := by
    intro a b s' id hab hcan hs'
    obtain ⟨hlo, hhi, hc, -⟩ := canAdjust_fits hcan hb h5 h6
    refine ⟨⟨hlo, hab, hhi, h4, hc, hs'.1⟩, fun x => ?_⟩
    have := hs'.2 x
    simp only [ids_cons, count_cons, count_append, Resource.move] at this ⊢
    omega
  cases h with
  | fails => exact .refl hv'
  | whole =>
    refine ⟨h6.mono (by omega) le_rfl, fun x => ?_⟩
    simp only [ids_cons, count_cons, count_append]
    omega
  | low _ _ hcan => exact hmove (by omega) hcan (.refl h6)
  | high _ _ hcan => exact hmove (by omega) hcan (.refl (h6.mono (by omega) le_rfl))
  | split _ _ halloc hcan =>
    refine hmove (by omega) hcan ⟨⟨by simp only; omega, by simp only; omega, h3, h4, trivial, h6⟩,
      fun x => ?_⟩
    simp only [halloc, ids_cons, ids_nil, count_cons, count_append, count_nil, Option.toList]
    omega

theorem releaseMemLoop_keeps (hle : start ≤ stop) (hmax : parent.stop ≤ sizeMax)
    (hv : Valid kids parent.id lo parent.stop) (hb : Before parent prev lo) :
    Keeps alloc.toList parent.id lo parent.stop kids
      (releaseMemLoop alloc start stop parent prev kids).2 := by
  induction kids generalizing parent prev lo with
  | nil => exact .refl hv
  | cons res c s ihc ihs =>
    have hv' := hv
    obtain ⟨h1, h2, h3, h4, h5, h6⟩ := hv
    rw [releaseMemLoop]
    split
    · exact .refl hv'
    split
    · exact (ihs hmax h6 (show Before parent (some res) (res.stop + 1) from rfl)).sibling hv'
    split
    · exact .refl hv'
    split
    · exact .refl hv'
    split
    · exact (ihc (by omega) h5 (show Before res none res.start from rfl)).child hv'
    · exact (releaseMemFrom_adjusted (by omega) (by omega) hle (by omega)).keeps hle hv' hb

/-! ### What is released -/

/-- All resources, parents before their children. -/
def flat (kids : Resources) : List Resource := kids.keys fun r => r

/-- The busy System RAM that the search for the range leads to, with its children. -/
def memTarget (start stop : ℕ) : Resources → Option (Resource × Resources)
  | .nil => none
  | .cons r c s =>
    if r.start > start ∨ r.stop < stop then memTarget start stop s
    else if !r.has ioresourceSysram ∨ !r.has ioresourceMem then none
    else if r.busy then some (r, c) else memTarget start stop c

/-- What is left of the resource `r` without `[start, stop]`, and its children: all stay with the lower
    part, if there is one. -/
def leftOver (start stop id : ℕ) (r : Resource) (c : Resources) : List Resource :=
  if r.start < start then
    r.move r.start (start - 1) ::
      (flat c ++ if stop < r.stop then [{ r with id := id, start := stop + 1 }] else [])
  else if stop < r.stop then r.move (stop + 1) r.stop :: flat c
  else flat c

/-- `left` stands where `r` was with its children; nothing else has changed. -/
def Cut (r : Resource) (c : Resources) (left : List Resource) (kids kids' : Resources) : Prop :=
  ∃ a b, flat kids = a ++ r :: (flat c ++ b) ∧ flat kids' = a ++ (left ++ b)

/-- The target is cut to what `left` says, or the call fails and leaves the tree as it is. -/
def Released (start stop : ℕ) (left : ℕ → Resource → Resources → List Resource) (kids : Resources)
    (p : Status × Resources) : Prop :=
  (p.1 = .ok → ∀ r c, memTarget start stop kids = some (r, c) → ∃ id, Cut r c (left id r c) kids p.2) ∧
    (p.1 ≠ .ok → p.2 = kids)

theorem Cut.sibling {s' : Resources} (h : Cut r c left s s') :
    Cut r c left (.cons q d s) (.cons q d s') := by
  obtain ⟨a, b, h, h'⟩ := h
  refine ⟨q :: (flat d ++ a), b, ?_, ?_⟩ <;> simp_all [flat, Forest.keys]

theorem Cut.child {d' : Resources} (h : Cut r c left d d') :
    Cut r c left (.cons q d s) (.cons q d' s) := by
  obtain ⟨a, b, h, h'⟩ := h
  refine ⟨q :: a, b ++ flat s, ?_, ?_⟩ <;> simp_all [flat, Forest.keys]

/-- The call as it is: an entry that has just the range goes with all that is below it. -/
def taken (start stop id : ℕ) (r : Resource) (c : Resources) : List Resource :=
  if r.start = start ∧ r.stop = stop then [] else leftOver start stop id r c

theorem Adjusted.released {p : Status × Resources} (h : Adjusted alloc start stop parent prev r c s p)
    (htarget : memTarget start stop (.cons r c s) = some (r, c)) :
    Released start stop (taken start stop) (.cons r c s) p := by
  refine ⟨fun hok q d hq => ?_, fun herr => ?_⟩
  · cases htarget.symm.trans hq
    cases h with
    | fails he => exact absurd hok he
    | whole h1 h2 => exact ⟨0, [], flat s, rfl, by simp [taken, h1, h2]⟩
    | low h1 h2 =>
      exact ⟨0, [], flat s, rfl, by simp [taken, leftOver, h1, h2, h2.ne', flat, Forest.keys]⟩
    | high h1 h2 =>
      exact ⟨0, [], flat s, rfl, by simp [taken, leftOver, h1, h2, h1.ne, flat, Forest.keys]⟩
    | @split id h1 h2 =>
      exact ⟨id, [], flat s, rfl, by simp [taken, leftOver, h1, h2, h1.ne, flat, Forest.keys]⟩
  cases h with
  | fails => rfl
  | _ => exact absurd rfl herr

theorem releaseMemLoop_released (hlt : start < stop) (hmax : parent.stop ≤ sizeMax)
    (hv : Valid kids parent.id lo parent.stop) :
    Released start stop (taken start stop) kids (releaseMemLoop alloc start stop parent prev kids) := by
  induction kids generalizing parent prev lo with
  | nil => exact ⟨fun _ _ _ h => (by cases h), fun _ => rfl⟩
  | cons q d s ihd ihs =>
    obtain ⟨-, h2, h3, -, h5, h6⟩ := hv
    rw [releaseMemLoop]
    split
    · exact ⟨by simp, fun _ => rfl⟩
    split
    · rename_i hnot
      obtain ⟨hok, herr⟩ := ihs hmax h6
      refine ⟨fun h r c hr => ?_, fun h => congrArg _ (herr h)⟩
      rw [memTarget, if_pos hnot] at hr
      exact (hok h r c hr).imp fun _ => Cut.sibling
    rename_i hin
    split
    · rename_i hnot
      exact ⟨fun _ _ _ hr => by simp [memTarget, hin, hnot] at hr, fun _ => rfl⟩
    split
    · exact ⟨by simp, fun _ => rfl⟩
    rename_i hram hmem
    split
    · rename_i hfree
      obtain ⟨hok, herr⟩ := ihd (by omega) h5
      refine ⟨fun h r c hr => ?_, fun h => by rw [herr h]⟩
      rw [Bool.not_eq_true'] at hfree
      simp only [memTarget, hin, hram, hmem, hfree, or_self, if_false, Bool.false_eq_true] at hr
      exact (hok h r c hr).imp fun _ => Cut.child
    · exact (releaseMemFrom_adjusted (by omega) (by omega) hlt.le (by omega)).released
        (by simp_all [memTarget])

/-- A range that is all of a busy System RAM resource is always given back. -/
theorem releaseMemLoop_whole (alloc : Option ℕ) (prev : Option Resource) (hlt : start < stop)
    (hv : Valid kids parent.id lo parent.stop)
    (hr : memTarget start stop kids = some (r, c)) (hs : r.start = start) (he : r.stop = stop) :
    lo ≤ start ∧ stop ≤ parent.stop ∧ (releaseMemLoop alloc start stop parent prev kids).1 = .ok := by
  induction kids generalizing parent prev lo with
  | nil => cases hr
  | cons q d s ihd ihs =>
    obtain ⟨h1, h2, h3, -, h5, h6⟩ := hv
    rw [memTarget] at hr
    rw [releaseMemLoop]
    split at hr
    · rename_i hnot
      obtain ⟨hlo, hhi, hok⟩ := ihs _ h6 hr
      rw [if_neg (by omega), if_pos hnot]
      exact ⟨by omega, hhi, hok⟩
    rename_i hin
    split at hr
    · cases hr
    rename_i hram
    rw [if_neg (by omega), if_neg hin, if_neg fun h => hram (.inl h), if_neg fun h => hram (.inr h)]
    refine ⟨by omega, by omega, ?_⟩
    split at hr
    · cases hr
      simp_all [releaseMemFrom]
    rename_i hfree
    rw [if_pos (by simpa using hfree)]
    exact (ihd _ h5 hr).2.2

/-- The call takes the range from the busy System RAM it is in and leaves all else, or fails and
    leaves the tree as it is, unless the range is all of a resource that has children: they are lost. -/
theorem releaseMem_releases (hmax : parent.stop ≤ sizeMax)
    (hv : Valid kids parent.id parent.start parent.stop) (hlt : start < rangeEnd start size) :
    (Valid (releaseMemRegionAdjustable parent alloc start size kids).2 parent.id parent.start
        parent.stop ∧
      Released start (rangeEnd start size) (leftOver start (rangeEnd start size)) kids
        (releaseMemRegionAdjustable parent alloc start size kids)) ↔
    ∀ r c, memTarget start (rangeEnd start size) kids = some (r, c) →
    r.start = start → r.stop = rangeEnd start size → c = .nil := by
  unfold releaseMemRegionAdjustable
  generalize rangeEnd start size = stop at *
  dsimp only
  split
  · refine iff_of_true ⟨hv, by simp, fun _ => rfl⟩ fun r c hr hs he => ?_
    have := releaseMemLoop_whole alloc none hlt hv hr hs he
    omega
  rw [and_iff_right (releaseMemLoop_keeps hlt.le hmax hv (show Before parent none _ from rfl)).1]
  obtain ⟨hok, herr⟩ := releaseMemLoop_released hlt hmax hv
  rw [Released, and_iff_left herr]
  constructor
  · intro h r c hr hs he
    have hret := (releaseMemLoop_whole alloc none hlt hv hr hs he).2.2
    obtain ⟨id, a, b, ha, hb⟩ := hok hret r c hr
    obtain ⟨id', a', b', ha', hb'⟩ := h hret r c hr
    have h1 := congrArg length ha
    have h2 := congrArg length hb
    have h3 := congrArg length ha'
    have h4 := congrArg length hb'
    simp only [taken, leftOver, hs, he, lt_irrefl, if_false, and_self, if_true, length_append,
      length_cons, length_nil] at h1 h2 h3 h4
    rcases c with _ | _
    · rfl
    simp only [flat, Forest.keys, length_cons] at *
    omega
  intro hnil hret r c hr
  obtain ⟨id, hcut⟩ := hok hret r c hr
  unfold taken at hcut
  split at hcut
  · rename_i hexact
    obtain rfl := hnil r c hr hexact.1 hexact.2
    refine ⟨0, ?_⟩
    simpa [leftOver, hexact, flat, Forest.keys] using hcut
  · exact ⟨id, hcut⟩

/-- Busy System RAM with a resource in it, all of an address space of ten addresses. -/
def usedRam : Resources :=
  .cons ⟨1, 0, 9, 0, ioresourceMem ||| ioresourceSysram ||| ioresourceBusy, 0, some 0⟩
    (.cons ⟨2, 0, 4, 0, 0, 0, some 1⟩ .nil .nil) .nil

/-- The resource in the RAM is lost with it. -/
theorem releaseMem_loses_children :
    ¬(Valid (releaseMemRegionAdjustable ⟨0, 0, 9, 0, 0, 0, none⟩ none 0 10 usedRam).2 0 0 9 ∧
      Released 0 9 (leftOver 0 9) usedRam
      (releaseMemRegionAdjustable ⟨0, 0, 9, 0, 0, 0, none⟩ none 0 10 usedRam)) := by
  rintro ⟨-, h, -⟩
  obtain ⟨id, a, b, -, hleft⟩ := h (by decide) _ _ rfl
  have hlength : 0 = (a ++ (flat (.cons ⟨2, 0, 4, 0, 0, 0, some 1⟩ .nil .nil) ++ b)).length :=
    congrArg length hleft
  simp [flat, Forest.keys] at hlength

theorem releaseMem_releases_half : Released 5 (rangeEnd 5 5) (leftOver 5 (rangeEnd 5 5)) usedRam
    (releaseMemRegionAdjustable ⟨0, 0, 9, 0, 0, 0, none⟩ none 5 5 usedRam) :=
  ((releaseMem_releases (by decide) (by decide) (by decide)).mpr fun _ _ h hs _ => by
    cases h
    exact absurd hs (by decide)).2

end

end LinuxNote.ResourceTree
