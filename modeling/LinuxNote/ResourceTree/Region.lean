import LinuxNote.ResourceTree.InsertRemove

/-! Busy regions: `__request_region` and `__release_region`.

    Both walk down from the parent through nodes that are not busy, and never into a busy one. The
    regions that they deal with are the busy nodes met first on the way down. -/

namespace LinuxNote.ResourceTree
open Outcome Forest List Prod

/-- The busy regions that are reached from the top through nodes that are not busy, in order. -/
def held : Resources → List Resource
  | .nil => []
  | .cons r c s => (if r.busy then [r] else held c) ++ held s

/-- The range can be requested: no child overlaps it, or a child that is not busy has all of it, and
    below that child it is the same. -/
inductive Admits (start stop : ℕ) : Resources → Prop
  | free {kids : Resources} : (∀ r ∈ kids.siblings, stop < r.start ∨ r.stop < start) →
  Admits start stop kids
  | inside {kids c : Resources} {r : Resource} : (r, c) ∈ kids.top → r.busy = false →
      r.start ≤ start → stop ≤ r.stop → Admits start stop c → Admits start stop kids

/-- What has the address is busy and has no children. -/
def Bare (id : ℕ) : Resources → Prop
  | .nil => True
  | .cons r c s => (r.id = id → r.busy = true ∧ c = .nil) ∧ Bare id c ∧ Bare id s

section
variable {kids : Resources} {pid lo hi id : ℕ}

theorem Valid.held_bounds (hv : Valid kids pid lo hi) :
    ∀ r ∈ held kids, lo ≤ r.start ∧ r.start ≤ r.stop ∧ r.stop ≤ hi := by
  induction kids generalizing pid lo hi with
  | nil => simp [held]
  | cons q c s ihc ihs =>
    obtain ⟨h1, h2, h3, -, h5, h6⟩ := hv
    intro r hr
    rw [held, mem_append] at hr
    rcases hr with hr | hr
    · split at hr
      · obtain rfl := mem_singleton.mp hr
        exact ⟨h1, h2, h3⟩
      obtain ⟨h7, h8, h9⟩ := ihc h5 r hr
      exact ⟨by omega, h8, by omega⟩
    · obtain ⟨h7, h8, h9⟩ := ihs h6 r hr
      exact ⟨by omega, h8, h9⟩

/-- The held regions are in order and apart from each other. -/
theorem Valid.held_sorted (hv : Valid kids pid lo hi) :
    (held kids).Pairwise fun r q => r.stop < q.start := by
  induction kids generalizing pid lo hi with
  | nil => exact .nil
  | cons q c s ihc ihs =>
    obtain ⟨-, -, -, -, h5, h6⟩ := hv
    rw [held, pairwise_append]
    refine ⟨?_, ihs h6, fun r hr p hp => ?_⟩
    · split
      · exact pairwise_singleton ..
      · exact ihc h5
    have hlow := (h6.held_bounds p hp).1
    split at hr
    · obtain rfl := mem_singleton.mp hr
      omega
    have := (h5.held_bounds r hr).2.2
    omega

theorem held_sublist (kids : Resources) : ((held kids).map Resource.id).Sublist (ids kids) := by
  induction kids with
  | nil => exact .slnil
  | cons r c s ihc ihs =>
    rw [held, map_append, ids_cons]
    split
    · exact (ihs.trans (sublist_append_right ..)).cons_cons _
    · exact (ihc.append ihs).cons _

theorem held_ids {r : Resource} (h : r ∈ held kids) : r.id ∈ ids kids :=
  (held_sublist kids).subset (mem_map_of_mem h)

/-- A held region is taken out without touching the others. -/
theorem held_prune (hn : (ids kids).Nodup) {r : Resource} (h : r ∈ held kids) :
    held (kids.prune Resource.id r.id) = (held kids).filter fun q => q.id ≠ r.id := by
  induction kids with
  | nil => simp [held] at h
  | cons q c s ihc ihs =>
    obtain ⟨hqc, hqs, hnc, hns, hdisj⟩ := Forest.nodup_cons.mp hn
    have hkeep : ∀ {t : Resources}, r.id ∉ ids t → (held t).filter (fun q => q.id ≠ r.id) = held t := by
      intro t ht
      refine filter_eq_self.mpr fun p hp => ?_
      simp only [ne_eq, decide_not, Bool.not_eq_eq_eq_not, Bool.not_true, decide_eq_false_iff_not]
      rintro heq
      exact ht (heq ▸ held_ids hp)
    rw [held, mem_append] at h
    rw [held, filter_append]
    by_cases hqr : q.id = r.id
    · rw [prune, if_pos hqr, hkeep (t := s) (hqr ▸ hqs)]
      have hq : q.busy = true := by
        rcases h with h | h
        · split at h
          · assumption
          · exact absurd (held_ids h) (hqr ▸ hqc)
        · exact absurd (held_ids h) (hqr ▸ hqs)
      simp [hq, hqr]
    rw [prune, if_neg hqr, held]
    rcases h with h | h
    · split at h
      · obtain rfl := mem_singleton.mp h
        exact absurd rfl hqr
      rename_i hq
      have hs : r.id ∉ ids s := hdisj _ (held_ids h)
      rw [if_neg hq, if_neg hq, ihc hnc h, prune_of_notMem hs, hkeep hs]
    have hc : r.id ∉ ids c := fun hc => hdisj _ hc (held_ids h)
    rw [ihs hns h, prune_of_notMem hc]
    congr 1
    split
    · simp [hqr]
    · rw [hkeep hc]

theorem bare_of_notMem (h : id ∉ ids kids) : Bare id kids := by
  induction kids with
  | nil => trivial
  | cons r c s ihc ihs =>
    obtain ⟨hr, hc, hs⟩ := notMem_ids_cons.mp h
    exact ⟨fun h => absurd h hr, ihc hc, ihs hs⟩

theorem Bare.prune (h : Bare id kids) (k : ℕ) : Bare id (kids.prune Resource.id k) := by
  induction kids with
  | nil => trivial
  | cons r c s ihc ihs =>
    obtain ⟨hr, hc, hs⟩ := h
    rw [Forest.prune]
    split
    · exact hs
    refine ⟨fun h => ?_, ihc hc, ihs hs⟩
    obtain ⟨hbusy, rfl⟩ := hr h
    exact ⟨hbusy, rfl⟩

/-- What is busy and has no children is taken out alone. -/
theorem Bare.perm (h : Bare id kids) (hn : (ids kids).Nodup) (hid : id ∈ ids kids) :
    (ids kids).Perm (id :: ids (kids.prune Resource.id id)) := by
  induction kids with
  | nil => cases hid
  | cons r c s ihc ihs =>
    obtain ⟨hrc, hrs, hnc, hns, hdisj⟩ := Forest.nodup_cons.mp hn
    obtain ⟨hr, hc, hs⟩ := h
    rw [Forest.prune, ids_cons]
    split
    · rename_i heq
      obtain ⟨-, rfl⟩ := hr heq
      rw [heq]
      rfl
    rename_i hne
    rw [ids_cons]
    refine .trans (.cons _ ?_) (.swap ..)
    rw [ids_cons, mem_cons, mem_append] at hid
    rcases hid.resolve_left fun h => hne h.symm with hid | hid
    · rw [prune_of_notMem (hdisj _ hid)]
      exact (ihc hc hnc hid).append_right _
    rw [prune_of_notMem fun h => hdisj _ h hid]
    exact ((ihs hs hns hid).append_left _).trans perm_middle

end

/-! ### Releasing -/

section
variable {kids : Resources} {pid lo hi start stop : ℕ}

/-- `__release_region` finds the held region with the range, if there is one. -/
theorem releaseRegionLoop_some (hv : Valid kids pid lo hi) (hn : (ids kids).Nodup) {r : Resource}
    (hr : r ∈ held kids) (hs : r.start = start) (he : r.stop = stop) :
    releaseRegionLoop start stop kids = some (kids.prune Resource.id r.id) := by
  induction kids generalizing pid lo hi with
  | nil => simp [held] at hr
  | cons res c s ihc ihs =>
    obtain ⟨hqc, hqs, hnc, hns, hdisj⟩ := Forest.nodup_cons.mp hn
    obtain ⟨-, h2, -, -, h5, h6⟩ := hv
    rw [held, mem_append] at hr
    rw [releaseRegionLoop]
    rcases hr with hr | hr
    · split at hr
      · rename_i hbusy
        obtain rfl := mem_singleton.mp hr
        simp [prune, hbusy, hs, he]
      rename_i hbusy
      obtain ⟨hb1, hb2, hb3⟩ := h5.held_bounds r hr
      have hne : res.id ≠ r.id := fun h => hqc (h ▸ held_ids hr)
      rw [if_pos ⟨by omega, by omega⟩, if_pos (by simpa using hbusy), ihc h5 hnc hr, prune,
        if_neg hne, prune_of_notMem (hdisj _ (held_ids hr))]
      rfl
    obtain ⟨hb1, hb2, -⟩ := h6.held_bounds r hr
    have hne : res.id ≠ r.id := fun h => hqs (h ▸ held_ids hr)
    have hc : r.id ∉ ids c := fun hc => hdisj _ hc (held_ids hr)
    rw [if_neg (by omega), ihs h6 hns hr, prune, if_neg hne, prune_of_notMem hc]
    rfl

/-- Without such a region nothing is found. -/
theorem releaseRegionLoop_none (hv : Valid kids pid lo hi)
    (hr : ∀ r ∈ held kids, ¬(r.start = start ∧ r.stop = stop)) :
    releaseRegionLoop start stop kids = none := by
  induction kids generalizing pid lo hi with
  | nil => rfl
  | cons res c s ihc ihs =>
    obtain ⟨-, h2, -, -, h5, h6⟩ := hv
    simp only [held, mem_append] at hr
    have hs := ihs h6 fun r h => hr r (.inr h)
    rw [releaseRegionLoop, hs]
    split
    · rcases hbusy : res.busy with _ | _
      · have hc := ihc h5 fun r h => hr r (.inl (by simpa [hbusy] using h))
        simp [hc]
      have := hr res (.inl (by simp [hbusy]))
      rw [if_neg (by simp), if_pos (by omega)]
    · rfl

end

/-! ### Requesting -/

section
variable {kids : Resources} {lo id start stop : ℕ} {parent : Resource}

theorem regionUnder_busy (parent : Resource) (id start stop name : ℕ) (flags : BitVec 32) :
    (regionUnder parent id start stop name flags).busy = true := by
  have h : (parent.type ||| parent.extType ||| (ioresourceBusy ||| flags.setWidth 64)) &&&
      ioresourceBusy = ioresourceBusy := by
    ext i hi
    simp only [BitVec.getElem_and, BitVec.getElem_or]
    cases ioresourceBusy[i] <;> simp
  simp only [Resource.busy, Resource.has, regionUnder, h]
  decide

/-- The new region, as it is in the list afterwards. -/
structure Requested (id start stop : ℕ) (kids kids' : Resources) : Prop where
  oneMore : OneMore id kids kids'
  pruned : kids'.prune Resource.id id = kids
  held : ∃ new, new.id = id ∧ new.start = start ∧ new.stop = stop ∧ (held kids').Perm (new :: held kids)
  bare : ∀ k, Bare k kids → Bare k kids'

theorem Requested.sibling (tmp : Resource) (c : Resources) {s s' : Resources}
    (h : Requested id start stop s s') (hid : id ∉ ids (.cons tmp c s)) :
    Requested id start stop (.cons tmp c s) (.cons tmp c s') := by
  obtain ⟨htmp, hc, -⟩ := notMem_ids_cons.mp hid
  obtain ⟨new, h1, h2, h3, hperm⟩ := h.held
  refine ⟨h.oneMore.sibling, ?_, ⟨new, h1, h2, h3, ?_⟩, fun k hk => ⟨hk.1, hk.2.1, h.bare k hk.2.2⟩⟩
  · rw [prune, if_neg htmp, h.pruned, prune_of_notMem hc]
  rw [ResourceTree.held, ResourceTree.held]
  exact (hperm.append_left _).trans perm_middle

theorem Requested.child (tmp : Resource) (s : Resources) {c c' : Resources}
    (h : Requested id start stop c c') (hid : id ∉ ids (.cons tmp c s)) (hbusy : tmp.busy = false) :
    Requested id start stop (.cons tmp c s) (.cons tmp c' s) := by
  obtain ⟨htmp, -, hs⟩ := notMem_ids_cons.mp hid
  obtain ⟨new, h1, h2, h3, hperm⟩ := h.held
  refine ⟨h.oneMore.child, ?_, ⟨new, h1, h2, h3, ?_⟩,
    fun k hk => ⟨fun heq => ?_, h.bare k hk.2.1, hk.2.2⟩⟩
  · rw [prune, if_neg htmp, h.pruned, prune_of_notMem hs]
  · rw [ResourceTree.held, ResourceTree.held, hbusy]
    exact hperm.append_right _
  · cases hbusy.symm.trans (hk.1 heq).1

theorem Requested.front (parent : Resource) (start stop name : ℕ) (flags : BitVec 32) (s : Resources) :
    Requested id start stop s (.cons (regionUnder parent id start stop name flags) .nil s) := by
  refine ⟨fun x => ?_, ?_, ⟨regionUnder parent id start stop name flags, rfl, rfl, rfl, ?_⟩,
    fun k hk => ⟨fun _ => ⟨regionUnder_busy .., rfl⟩, trivial, hk⟩⟩
  · simp only [ids_cons, ids_nil, regionUnder, nil_append, count_cons, count_nil]
    omega
  · rw [prune, if_pos (show (regionUnder parent id start stop name flags).id = id from rfl)]
  rw [ResourceTree.held, if_pos (regionUnder_busy ..)]
  rfl

/-- `__request_region` below a node that has the range: the new region is put in, exactly when the range
    is admitted. -/
theorem requestRegionLoop_spec (name : ℕ) (flags : BitVec 32) (hv : Valid kids parent.id lo parent.stop)
    (hlo : lo ≤ start) (hle : start ≤ stop) (hhi : stop ≤ parent.stop) (hid : id ∉ ids kids) :
    Ensures (requestRegionLoop id start stop name flags parent kids)
    (fun kids' => Admits start stop kids ∧ Valid kids' parent.id lo parent.stop ∧
      Requested id start stop kids kids') (fun _ => ¬Admits start stop kids) := by
  induction kids generalizing parent lo with
  | nil =>
    exact ⟨.free (by simp [siblings]), ⟨hlo, hle, hhi, rfl, trivial, trivial⟩, .front ..⟩
  | cons tmp c s ihc ihs =>
    have hid' := notMem_ids_cons.mp hid
    obtain ⟨h1, h2, h3, h4, h5, h6⟩ := hv
    rw [requestRegionLoop]
    split
    · rename_i hgap
      refine ⟨.free fun r hr => .inl ?_, ⟨hlo, hle, hhi, rfl, trivial, ?_⟩, .front ..⟩
      · rcases mem_cons.mp hr with rfl | hr
        · exact hgap
        have := (h6.bounds r hr).1
        omega
      · exact ⟨by simp only [regionUnder]; omega, h2, h3, h4, h5, h6⟩
    split
    · rename_i hgap hbelow
      refine ((ihs h6 (by omega) hhi hid'.2.2).imp (fun _ h => h) fun e he hadm => he ?_).map
        fun kids' h' => ?_
      · -- the child before the range is neither in the way nor does it have the range
        rcases hadm with hfree | ⟨hmem, hb, hs, he, hadm⟩
        · exact .free fun r hr => hfree r (mem_cons_of_mem _ hr)
        rcases mem_cons.mp hmem with heq | hmem
        · obtain ⟨rfl, rfl⟩ := mk.inj heq
          omega
        · exact .inside hmem hb hs he hadm
      obtain ⟨hadm, hval, hreq⟩ := h'
      refine ⟨?_, ⟨h1, h2, h3, h4, h5, hval⟩, hreq.sibling tmp c hid⟩
      cases hadm with
      | free hfree =>
        refine .free fun r hr => ?_
        rcases mem_cons.mp hr with rfl | hr
        · exact .inr hbelow
        · exact hfree r hr
      | inside hmem hb hs he hadm => exact .inside (mem_cons_of_mem _ hmem) hb hs he hadm
    -- `tmp` overlaps the range, so only `tmp` can have it
    have honly : Admits start stop (.cons tmp c s) → tmp.busy = false ∧ tmp.start ≤ start ∧
        stop ≤ tmp.stop ∧ Admits start stop c := by
      intro hadm
      cases hadm with
      | free hfree =>
        have := hfree tmp (mem_cons_self ..)
        omega
      | @inside _ d r hmem hb hs he hadm =>
        rcases mem_cons.mp hmem with heq | hmem
        · obtain ⟨rfl, rfl⟩ := mk.inj heq
          exact ⟨hb, hs, he, hadm⟩
        have := (h6.bounds r (mem_siblings_of_top hmem)).1
        omega
    split
    · rename_i hbusy
      intro hadm
      simp [(honly hadm).1] at hbusy
    split
    · rename_i hout
      intro hadm
      obtain ⟨-, h7, h8, -⟩ := honly hadm
      rw [outside] at hout
      omega
    rename_i hbusy hin
    rw [outside] at hin
    have hbusy' : tmp.busy = false := by simpa using hbusy
    refine ((ihc h5 (by omega) (by omega) hid'.2.1).imp (fun _ h => h) fun e he hadm => he ?_).map
      fun c' h' => ?_
    · exact (honly hadm).2.2.2
    obtain ⟨hadm, hval, hreq⟩ := h'
    exact ⟨.inside (mem_cons_self ..) hbusy' (by omega) (by omega) hadm,
      ⟨h1, h2, h3, h4, hval, h6⟩, hreq.child tmp s hid hbusy'⟩

end

/-- `__request_region` of a region that is not muxed succeeds exactly when the range is in the parent
    and admitted, and changes nothing otherwise. -/
theorem requestRange_spec {parent : Resource} {kids : Resources} {id name : ℕ} {flags : BitVec 32}
    (start stop : ℕ) (hv : Valid kids parent.id parent.start parent.stop) (hid : id ∉ ids kids)
    (hflags : flags.setWidth 64 &&& ioresourceMuxed = 0) :
    (¬outside parent start stop ∧ Admits start stop kids ∧
      ∃ kids', requestRange parent id start stop name flags kids = (.region id, kids') ∧
      Valid kids' parent.id parent.start parent.stop ∧ Requested id start stop kids kids') ∨
    (¬(¬outside parent start stop ∧ Admits start stop kids) ∧
      requestRange parent id start stop name flags kids = (.null, kids)) := by
  have hnull : ∀ conflict : Resource, onConflict conflict flags = .null := by
    intro conflict
    simp [onConflict, Resource.has, hflags]
  rw [requestRange]
  by_cases hout : outside parent start stop
  · refine .inr ⟨fun h => h.1 hout, ?_⟩
    rw [if_pos hout, hnull]
  have hin := hout
  rw [outside] at hin
  have hspec := requestRegionLoop_spec name flags hv (by omega)
    (show start ≤ stop by omega) (by omega) hid
  rw [if_neg hout]
  cases hreq : requestRegionLoop id start stop name flags parent kids with
  | ok kids' =>
    obtain ⟨hadm, hval, hreq'⟩ := hspec.of_ok hreq
    exact .inl ⟨hout, hadm, kids', rfl, hval, hreq'⟩
  | error e =>
    refine .inr ⟨fun h => hspec.of_error hreq h.2, ?_⟩
    simp only [hnull]

/-- `__release_region` takes the held region with the range out, or does nothing. -/
theorem releaseRegion_spec {kids : Resources} {pid lo hi : ℕ} (start n : ℕ)
    (hv : Valid kids pid lo hi) (hn : (ids kids).Nodup) :
    (∀ r ∈ held kids, r.start = start → r.stop = rangeEnd start n →
      releaseRegion start n kids = kids.prune Resource.id r.id) ∧
    ((∀ r ∈ held kids, ¬(r.start = start ∧ r.stop = rangeEnd start n)) →
      releaseRegion start n kids = kids) := by
  refine ⟨fun r hr hs he => ?_, fun h => ?_⟩
  · rw [releaseRegion, releaseRegionLoop_some hv hn hr hs he, Option.getD_some]
  · rw [releaseRegion, releaseRegionLoop_none hv h, Option.getD_none]

/-! ### Runs -/

/-- A region acquired by a call: the address of its resource, and the arguments of the call. -/
structure Acquired where
  id : ℕ
  start : ℕ
  n : ℕ
  deriving DecidableEq

/-- The range is the one that was acquired. -/
def Acquired.Names (a : Acquired) (start n : ℕ) : Prop :=
  a.start = start ∧ rangeEnd a.start a.n = rangeEnd start n

/-- Runs of calls on the parent, from its children `kids₀`: what the children are, what the run has
    acquired and not released, and which other ranges it has released. Regions are not muxed, and
    allocation succeeds. -/
inductive RegionRun (parent : Resource) (kids₀ : Resources) :
    Resources → List Acquired → List (ℕ × ℕ) → Prop
  | start : RegionRun parent kids₀ kids₀ [] []
  | request {kids kids' acq gone id start n name flags} : RegionRun parent kids₀ kids acq gone →
      id ∉ ids kids → flags.setWidth 64 &&& ioresourceMuxed = 0 →
      requestRegion parent (some id) start n name flags kids = (.region id, kids') →
      RegionRun parent kids₀ kids' (⟨id, start, n⟩ :: acq) gone
  | refused {kids kids' acq gone id start n name flags} : RegionRun parent kids₀ kids acq gone →
      id ∉ ids kids → flags.setWidth 64 &&& ioresourceMuxed = 0 →
      requestRegion parent (some id) start n name flags kids = (.null, kids') →
      RegionRun parent kids₀ kids' acq gone
  | release {kids acq gone a} : RegionRun parent kids₀ kids acq gone → a ∈ acq →
      RegionRun parent kids₀ (releaseRegion a.start a.n kids) (acq.erase a) gone
  | releaseOther {kids acq gone start n} : RegionRun parent kids₀ kids acq gone →
      (∀ a ∈ acq, ¬a.Names start n) →
      RegionRun parent kids₀ (releaseRegion start n kids) acq (gone ++ [(start, n)])

/-- Release ranges one after the other. -/
def releaseAll (l : List (ℕ × ℕ)) (kids : Resources) : Resources :=
  l.foldl (fun kids p => releaseRegion p.1 p.2 kids) kids

/-- Take nodes out one after the other. -/
def pruneAll (l : List ℕ) (kids : Resources) : Resources :=
  l.foldl (fun kids id => kids.prune Resource.id id) kids

theorem pruneAll_perm {l l' : List ℕ} (h : l.Perm l') (kids : Resources) :
    pruneAll l kids = pruneAll l' kids :=
  h.foldl_eq' (fun j _ k _ kids => prune_comm kids j k) kids

theorem pruneAll_cons (id : ℕ) (l : List ℕ) (kids : Resources) :
    pruneAll (id :: l) kids = pruneAll l (kids.prune Resource.id id) := rfl

section
variable {parent : Resource} {kids₀ kids : Resources} {pid lo hi : ℕ} {acq : List Acquired}
  {gone : List (ℕ × ℕ)}

theorem Valid.prune (h : Valid kids pid lo hi) (id : ℕ) :
    Valid (kids.prune Resource.id id) pid lo hi := by
  induction kids generalizing pid lo hi with
  | nil => trivial
  | cons r c s ihc ihs =>
    obtain ⟨h1, h2, h3, h4, h5, h6⟩ := h
    rw [Forest.prune]
    split
    · exact h6.mono (by omega) le_rfl
    · exact ⟨h1, h2, h3, h4, ihc h5, ihs h6⟩

theorem nodup_prune (h : (ids kids).Nodup) (id : ℕ) : (ids (kids.prune Resource.id id)).Nodup :=
  nodup_iff_count_le_one.mpr fun x =>
    (count_prune kids x).trans (nodup_iff_count_le_one.mp h x)

/-- Every acquired region is held, and they are different ones. -/
structure Holds (kids : Resources) (acq : List Acquired) : Prop where
  held : ∀ a ∈ acq, ∃ r ∈ held kids, r.id = a.id ∧ r.start = a.start ∧ r.stop = rangeEnd a.start a.n
  nodup : (acq.map Acquired.id).Nodup
  bare : ∀ a ∈ acq, Bare a.id kids

theorem Holds.prune (h : Holds kids acq) (hn : (ids kids).Nodup) {r : Resource}
    (hr : r ∈ ResourceTree.held kids) {acq' : List Acquired} (hsub : acq'.Sublist acq)
    (hne : ∀ a ∈ acq', a.id ≠ r.id) : Holds (kids.prune Resource.id r.id) acq' := by
  refine ⟨fun a ha => ?_, h.nodup.sublist (hsub.map _), fun a ha => (h.bare a (hsub.subset ha)).prune _⟩
  obtain ⟨q, hq, hid, hrange⟩ := h.held a (hsub.subset ha)
  refine ⟨q, ?_, hid, hrange⟩
  rw [held_prune hn hr, mem_filter]
  exact ⟨hq, by simpa [hid] using hne a ha⟩

/-- The regions left when some held ones are taken out. -/
theorem held_pruneAll {l : List ℕ} (hn : (ids kids).Nodup) (hnl : l.Nodup)
    (hl : ∀ id ∈ l, ∃ r ∈ held kids, r.id = id) :
    held (pruneAll l kids) = (held kids).filter fun q => q.id ∉ l := by
  induction l generalizing kids with
  | nil => simp [pruneAll]
  | cons id l ih =>
    obtain ⟨r, hr, rfl⟩ := hl id (mem_cons_self ..)
    obtain ⟨hmem, hnl⟩ := nodup_cons.mp hnl
    have hprune := held_prune hn hr
    rw [pruneAll_cons, ih (nodup_prune hn _) hnl, hprune, filter_filter]
    · congr 1
      ext q
      simp [Bool.and_comm]
    intro id hid
    obtain ⟨q, hq, rfl⟩ := hl id (mem_cons_of_mem _ hid)
    refine ⟨q, ?_, rfl⟩
    rw [hprune, mem_filter]
    exact ⟨hq, by simpa using fun h : q.id = r.id => hmem (h ▸ hid)⟩

theorem valid_pruneAll (l : List ℕ) (hv : Valid kids pid lo hi) (hn : (ids kids).Nodup) :
    Valid (pruneAll l kids) pid lo hi ∧ (ids (pruneAll l kids)).Nodup := by
  induction l generalizing kids with
  | nil => exact ⟨hv, hn⟩
  | cons id l ih => exact ih (hv.prune id) (nodup_prune hn id)

/-- What a run keeps: the shape of the list, that the acquired regions are held, and that without
    them the list is what the other releases alone make of the first one. -/
structure RunInv (parent : Resource) (kids₀ kids : Resources) (acq : List Acquired)
    (gone : List (ℕ × ℕ)) : Prop where
  valid : Valid kids parent.id parent.start parent.stop
  nodup : (ids kids).Nodup
  holds : Holds kids acq
  base : pruneAll (acq.map Acquired.id) kids = releaseAll gone kids₀

section
variable (h : RunInv parent kids₀ kids acq gone)
include h

theorem RunInv.request {id start n name : ℕ} {flags : BitVec 32} {kids' : Resources}
    (hid : id ∉ ids kids) (hflags : flags.setWidth 64 &&& ioresourceMuxed = 0)
    (hreq : requestRegion parent (some id) start n name flags kids = (.region id, kids')) :
    RunInv parent kids₀ kids' (⟨id, start, n⟩ :: acq) gone := by
  rw [requestRegion] at hreq
  rcases requestRange_spec start (rangeEnd start n) h.valid hid hflags with
    ⟨-, -, kids'', heq, hval, hreq'⟩ | ⟨-, heq⟩
  · obtain rfl : kids'' = kids' := by simpa using heq.symm.trans hreq
    obtain ⟨new, h1, h2, h3, hperm⟩ := hreq'.held
    refine ⟨hval, ?_, ⟨?_, ?_, ?_⟩, ?_⟩
    · refine nodup_iff_count_le_one.mpr fun x => ?_
      have hx := hreq'.oneMore x
      have hold := nodup_iff_count_le_one.mp h.nodup x
      rw [count_singleton] at hx
      split at hx
      · rename_i hxid
        obtain rfl : id = x := by simpa using hxid
        have := count_eq_zero.mpr hid
        omega
      · omega
    · refine forall_mem_cons.mpr ⟨⟨new, hperm.mem_iff.mpr (by simp), h1, h2, h3⟩, ?_⟩
      intro a ha
      obtain ⟨r, hr, hrest⟩ := h.holds.held a ha
      exact ⟨r, hperm.mem_iff.mpr (mem_cons_of_mem _ hr), hrest⟩
    · refine nodup_cons.mpr ⟨fun hmem => ?_, h.holds.nodup⟩
      obtain ⟨a, ha, haid⟩ := mem_map.mp hmem
      obtain ⟨r, hr, hrid, -⟩ := h.holds.held a ha
      have haid' : a.id = id := haid
      exact hid (haid' ▸ hrid ▸ held_ids hr)
    · exact forall_mem_cons.mpr
        ⟨hreq'.bare _ (bare_of_notMem hid), fun a ha => hreq'.bare _ (h.holds.bare a ha)⟩
    · rw [map_cons, pruneAll_cons, hreq'.pruned]
      exact h.base
  · simp [heq] at hreq

theorem RunInv.release {a : Acquired} (ha : a ∈ acq) :
    RunInv parent kids₀ (releaseRegion a.start a.n kids) (acq.erase a) gone := by
  obtain ⟨r, hr, hid, hs, he⟩ := h.holds.held a ha
  rw [(releaseRegion_spec a.start a.n h.valid h.nodup).1 r hr hs he]
  have hne : ∀ b ∈ acq.erase a, b.id ≠ r.id := by
    intro b hb heq
    obtain ⟨hne, hb'⟩ := h.holds.nodup.of_map.mem_erase_iff.mp hb
    exact hne (inj_on_of_nodup_map h.holds.nodup hb' ha (heq.trans hid))
  refine ⟨h.valid.prune _, nodup_prune h.nodup _, h.holds.prune h.nodup hr erase_sublist hne, ?_⟩
  have hperm : (acq.map Acquired.id).Perm (a.id :: (acq.erase a).map Acquired.id) :=
    (perm_cons_erase ha).map Acquired.id
  rw [← h.base, pruneAll_perm hperm, pruneAll_cons, hid]

theorem RunInv.releaseOther {start n : ℕ} (hother : ∀ a ∈ acq, ¬a.Names start n) :
    RunInv parent kids₀ (releaseRegion start n kids) acq (gone ++ [(start, n)]) := by
  obtain ⟨hsome, hnone⟩ := releaseRegion_spec start n h.valid h.nodup
  obtain ⟨hbv, hbn⟩ := valid_pruneAll (acq.map Acquired.id) h.valid h.nodup
  obtain ⟨hbsome, hbnone⟩ := releaseRegion_spec start n hbv hbn
  have hheld : held (pruneAll (acq.map Acquired.id) kids) = (held kids).filter fun q => q.id ∉
    acq.map Acquired.id := by
    refine held_pruneAll h.nodup h.holds.nodup fun id hid => ?_
    obtain ⟨a, ha, rfl⟩ := mem_map.mp hid
    obtain ⟨r, hr, hrid, -⟩ := h.holds.held a ha
    exact ⟨r, hr, hrid⟩
  have hbase : releaseAll (gone ++ [(start, n)]) kids₀ =
    releaseRegion start n (pruneAll (acq.map Acquired.id) kids) := by
    rw [h.base, releaseAll, foldl_append]
    rfl
  by_cases hex : ∃ r ∈ held kids, r.start = start ∧ r.stop = rangeEnd start n
  · obtain ⟨r, hr, hs, he⟩ := hex
    -- the region was there before the run, so it is also there without the acquired ones
    have hne : ∀ a ∈ acq, a.id ≠ r.id := by
      intro a ha heq
      obtain ⟨q, hq, hqid, hqs, hqe⟩ := h.holds.held a ha
      obtain rfl : q = r := inj_on_of_nodup_map (h.nodup.sublist (held_sublist _)) hq hr (hqid.trans heq)
      exact hother a ha ⟨hqs.symm.trans hs, hqe.symm.trans he⟩
    have hrb : r ∈ held (pruneAll (acq.map Acquired.id) kids) := by
      rw [hheld, mem_filter]
      refine ⟨hr, ?_⟩
      simpa using hne
    rw [hsome r hr hs he]
    refine ⟨h.valid.prune _, nodup_prune h.nodup _, h.holds.prune h.nodup hr (.refl _) hne, ?_⟩
    rw [hbase, hbsome r hrb hs he, ← pruneAll_cons, pruneAll_perm (perm_append_singleton ..).symm,
      pruneAll, foldl_append]
    rfl
  push Not at hex
  have hnot : ∀ r ∈ held kids, ¬(r.start = start ∧ r.stop = rangeEnd start n) :=
    fun r hr hrange => hex r hr hrange.1 hrange.2
  rw [hnone hnot]
  refine ⟨h.valid, h.nodup, h.holds, ?_⟩
  rw [hbase, hbnone]
  intro r hr
  rw [hheld] at hr
  exact hnot r (mem_filter.mp hr).1

end

theorem RegionRun.inv (hv : Valid kids₀ parent.id parent.start parent.stop) (hn : (ids kids₀).Nodup)
    (h : RegionRun parent kids₀ kids acq gone) : RunInv parent kids₀ kids acq gone := by
  induction h with
  | start => exact ⟨hv, hn, ⟨by simp, by simp, by simp⟩, rfl⟩
  | request _ hid hflags hreq ih => exact ih.request hid hflags hreq
  | @refused _ _ _ _ _ start n _ _ _ hid hflags hreq ih =>
    rcases requestRange_spec start (rangeEnd start n) ih.valid hid hflags with
      ⟨-, -, kids'', heq, -⟩ | ⟨-, heq⟩
    · cases heq.symm.trans hreq
    obtain rfl := (mk.inj (heq.symm.trans hreq)).2
    exact ih
  | release _ ha ih => exact ih.release ha
  | releaseOther _ hother ih => exact ih.releaseOther hother

/-- Releasing what was acquired, in any order. -/
theorem RunInv.releaseAll {l : List Acquired} (h : RunInv parent kids₀ kids acq gone) (hl : l.Perm acq) :
    releaseAll (l.map fun a => (a.start, a.n)) kids = ResourceTree.releaseAll gone kids₀ := by
  induction l generalizing kids acq with
  | nil =>
    obtain rfl : acq = [] := hl.symm.eq_nil
    exact h.base
  | cons a l ih =>
    have ha : a ∈ acq := hl.mem_iff.mp (mem_cons_self ..)
    have hl' : l.Perm (acq.erase a) := by simpa using hl.erase a
    exact ih (h.release ha) hl'

end

/-- In every state of a run on a node of a tree in good shape: the held regions are apart, those the
    run has acquired among them, which have no children, so that a release takes out nothing else. A
    request succeeds exactly when the range is in the parent and admitted. A release takes out the
    held region that has the range, with what is below it, and does nothing when there is none.
    Releasing what the run has acquired, in any order, gives the list that the other releases alone
    lead to, which without such releases is the first one. -/
theorem regionRun_spec {t : Tree} {parent : Resource} {kids₀ kids : Resources} {acq : List Acquired}
    {gone : List (ℕ × ℕ)} (hv : t.Valid) (hp : (parent, kids₀) ∈ t.forest.nodes)
    (h : RegionRun parent kids₀ kids acq gone) :
    ((held kids).Pairwise (fun r q => r.stop < q.start) ∧
      ∀ a ∈ acq, (∃ r ∈ held kids, r.id = a.id ∧ r.start = a.start ∧ r.stop = rangeEnd a.start a.n) ∧
      (ids kids).Perm (a.id :: ids (releaseRegion a.start a.n kids))) ∧
    (∀ id ∉ ids kids, ∀ start n name flags, BitVec.setWidth 64 flags &&& ioresourceMuxed = 0 →
      ((∃ kids', requestRegion parent (some id) start n name flags kids = (.region id, kids')) ↔
        ¬outside parent start (rangeEnd start n) ∧ Admits start (rangeEnd start n) kids)) ∧
    (∀ start n,
      (∀ r ∈ held kids, r.start = start → r.stop = rangeEnd start n →
        releaseRegion start n kids = kids.prune Resource.id r.id ∧
        held (releaseRegion start n kids) = (held kids).filter fun q => q.id ≠ r.id) ∧
      ((∀ r ∈ held kids, ¬(r.start = start ∧ r.stop = rangeEnd start n)) →
        releaseRegion start n kids = kids)) ∧
    (∀ l : List Acquired, l.Perm acq →
      releaseAll (l.map fun a => (a.start, a.n)) kids = releaseAll gone kids₀) := by
  obtain ⟨⟨-, -, hval, hnd, -⟩, -⟩ := hv.replaced [] rfl (Replaced.refl hp)
  have hinv := h.inv hval hnd
  refine ⟨⟨hinv.valid.held_sorted, fun a ha => ⟨hinv.holds.held a ha, ?_⟩⟩,
    fun id hid start n name flags hflags => ?_, fun start n => ?_, fun l hl => hinv.releaseAll hl⟩
  · obtain ⟨r, hr, hid, hs, he⟩ := hinv.holds.held a ha
    rw [(releaseRegion_spec a.start a.n hinv.valid hinv.nodup).1 r hr hs he, hid]
    exact (hinv.holds.bare a ha).perm hinv.nodup (hid ▸ held_ids hr)
  · rw [requestRegion]
    rcases requestRange_spec start (rangeEnd start n) hinv.valid hid hflags with
      ⟨hin, hadm, kids', heq, -⟩ | ⟨hnot, heq⟩
    · exact ⟨fun _ => ⟨hin, hadm⟩, fun _ => ⟨kids', heq⟩⟩
    refine ⟨fun ⟨kids', hreq⟩ => ?_, fun h => absurd h hnot⟩
    cases heq.symm.trans hreq
  obtain ⟨hsome, hnone⟩ := releaseRegion_spec start n hinv.valid hinv.nodup
  refine ⟨fun r hr hs he => ?_, hnone⟩
  rw [hsome r hr hs he]
  exact ⟨rfl, held_prune hinv.nodup hr⟩

/-- A bus with a bus below it, and a region that is busy from the start. -/
def buses : Tree :=
  ⟨⟨0, 0, 1000, 0, 0, 0, none⟩,
    .cons ⟨1, 10, 40, 0, 0, 0, some 0⟩ (.cons ⟨2, 10, 20, 0, 0, 0, some 1⟩ .nil .nil)
      (.cons ⟨3, 50, 60, 0, ioresourceBusy, 0, some 0⟩ .nil .nil)⟩

/-- Regions are taken on both buses and on the root, a range in use is refused, the first of them and
    the busy one are released; the other two are released in the order they were taken. -/
theorem regionRun_spec_buses : ∃ kids, RegionRun buses.root buses.child kids
    [⟨6, 70, 4⟩, ⟨5, 22, 4⟩] [(50, 11)] ∧ ids kids = [1, 2, 5, 6] ∧
      releaseAll [(22, 4), (70, 4)] kids = releaseRegion 50 11 buses.child := by
  have hinner : RegionRun buses.root buses.child _ [⟨4, 12, 4⟩] [] :=
    .request .start (by decide) (by decide) (rfl : requestRegion _ (some 4) 12 4 0 0 _ = _)
  have houter := hinner.request (by decide) (by decide)
    (rfl : requestRegion _ (some 5) 22 4 0 0 _ = (.region 5, _))
  have hroot := houter.request (by decide) (by decide)
    (rfl : requestRegion _ (some 6) 70 4 0 0 _ = (.region 6, _))
  have hrefused := hroot.refused (by decide) (by decide)
    (rfl : requestRegion _ (some 7) 14 4 0 0 _ = (.null, _))
  have hfirst : RegionRun buses.root buses.child _ [⟨6, 70, 4⟩, ⟨5, 22, 4⟩] [] :=
    hrefused.release (a := ⟨4, 12, 4⟩) (by decide)
  have hreleased : RegionRun _ _ _ _ [(50, 11)] := hfirst.releaseOther (by simp [Acquired.Names])
  obtain ⟨-, -, -, hback⟩ :=
    regionRun_spec (t := buses) ⟨rfl, by decide, by decide, by decide, by decide⟩
      (mem_cons_self ..) hreleased
  exact ⟨_, hreleased, by decide, hback [⟨5, 22, 4⟩, ⟨6, 70, 4⟩] (.swap ..)⟩

/-- A region from before the run that has a child takes it along. -/
theorem releaseRegion_takes_children : ∃ t : Tree, t.Valid ∧
    (∃ r ∈ held t.child, r.id = 1 ∧ r.start = 0 ∧ r.stop = rangeEnd 0 10) ∧ ids t.child = [1, 2] ∧
    releaseRegion 0 10 t.child = .nil :=
  ⟨⟨⟨0, 0, 9, 0, 0, 0, none⟩, .cons ⟨1, 0, 9, 0, ioresourceBusy, 0, some 0⟩
    (.cons ⟨2, 0, 4, 0, 0, 0, some 1⟩ .nil .nil) .nil⟩,
    ⟨rfl, by decide, by decide, by decide, by decide⟩, by decide, by decide, by decide⟩

end LinuxNote.ResourceTree
