import LinuxNote.Memblock.Sweep

/-! The ranges of `for_each_mem_range` in terms of addresses. The meetings of a region with the areas
    between the reservations are the maximal intervals of the region minus the reservations, and one
    empty range for each address inside the region at which two reservations touch. -/

namespace LinuxNote.Memblock
open Intervals List Prod Nat Region Generator

/-- The addresses of `m` that no region of `l` covers. -/
def freePart (m : Region) (l : List Region) : Set ℕ :=
  {a | (m.base ≤ a ∧ a < m.stop) ∧ attrs l a = none}

/-- Two regions of `l` touch at the address `p`, which lies strictly inside `m`. -/
def TouchInside (m : Region) (l : List Region) (p : ℕ) : Prop :=
  (m.base < p ∧ p < m.stop) ∧ ∃ r ∈ l, ∃ s ∈ l, r.stop = p ∧ s.base = p

/-! ### Areas and covered addresses -/

variable {l : List Region} {s : ℕ} {want : Region → Bool} {d : Region}

/-- No address of an area is covered. -/
theorem attrs_of_mem_areasFrom (hl : Good l) (hs : ∀ r ∈ l, s ≤ r.base) :
    ∀ g ∈ areasFrom s l, ∀ a, g.1 ≤ a → a < g.2 → attrs l a = none := by
  induction l generalizing s with
  | nil => intro g _ a _ _; rfl
  | cons r l ih =>
    obtain ⟨-, hrl, hl'⟩ := good_cons.mp hl
    have hr : r.base ≤ r.stop := Nat.le_add_right ..
    intro g hg a h1 h2
    rcases mem_cons.mp hg with rfl | hg
    · refine attrAt_eq_none_of_lt_lo fun t ht => ?_
      rcases mem_cons.mp ht with rfl | ht
      · exact h2
      have := hrl t ht
      omega
    have := mem_areasFrom_le hl' hrl g hg
    rw [attrs_cons, if_neg (by omega)]
    exact ih hl' hrl g hg a h1 h2

/-- Every address that is not covered lies in an area. -/
theorem exists_area {a : ℕ} (hs : s ≤ a) (ha : a < physAddrMax)
    (hn : attrs l a = none) : ∃ g ∈ areasFrom s l, g.1 ≤ a ∧ a < g.2 := by
  induction l generalizing s with
  | nil => exact ⟨_, mem_singleton_self _, hs, ha⟩
  | cons r l ih =>
    rw [attrs_cons] at hn
    split at hn
    · simp at hn
    rename_i hr
    by_cases hlt : a < r.base
    · exact ⟨_, mem_cons_self .., hs, hlt⟩
    obtain ⟨g, hg, h⟩ := ih (s := r.stop) (by omega) hn
    exact ⟨g, mem_cons_of_mem _ hg, h⟩

/-- An area starts where it must or at the end of a region, and ends at the end of memory or at the base
    of one. -/
theorem area_bounds : ∀ g ∈ areasFrom s l,
    (g.1 = s ∨ ∃ r ∈ l, r.stop = g.1) ∧ (g.2 = physAddrMax ∨ ∃ r ∈ l, r.base = g.2) := by
  induction l generalizing s with
  | nil => simp [areasFrom]
  | cons r l ih =>
    intro g hg
    rcases mem_cons.mp hg with rfl | hg
    · exact ⟨.inl rfl, .inr ⟨r, mem_cons_self .., rfl⟩⟩
    obtain ⟨hstart, hstop⟩ := ih g hg
    simp only [mem_cons, exists_eq_or_imp]
    exact ⟨.inr (hstart.imp_left Eq.symm), hstop.imp_right .inr⟩

/-- Where two regions touch there is an empty area. -/
theorem touch_mem_areas (hl : Good l) (hp : Proper l) {r t : Region}
    (hr : r ∈ l) (ht : t ∈ l) (hrt : r.stop = t.base) : (t.base, t.base) ∈ areasFrom s l := by
  induction l generalizing s with
  | nil => simp at hr
  | cons x l ih =>
    obtain ⟨-, hxl, hl'⟩ := good_cons.mp hl
    obtain ⟨hx, hp'⟩ := proper_cons.mp hp
    refine mem_cons_of_mem _ ?_
    rcases mem_cons.mp hr with rfl | hr'
    · -- the regions are neighbours: nothing fits between them
      rcases mem_cons.mp ht with rfl | ht
      · simp only [stop] at hrt; omega
      rcases l with _ | ⟨y, l⟩
      · simp at ht
      have hy : r.stop ≤ y.base := hxl y (mem_cons_self ..)
      have hyt : y.base ≤ t.base := by
        rcases mem_cons.mp ht with rfl | ht
        · exact le_rfl
        have := (good_cons.mp hl').2.1 t ht
        simp only [stop] at this
        omega
      have : y.base = t.base := by omega
      simp [areasFrom, hrt, this]
    rcases mem_cons.mp ht with rfl | ht
    · have := hxl r hr'
      simp only [stop] at *
      omega
    · exact ih hl' hp' hr' ht

/-- With no empty region between them, areas are strictly apart. -/
theorem areas_apart (hl : Good l) (hp : Proper l) : (areasFrom s l).Pairwise fun g h => g.2 < h.1 := by
  induction l generalizing s with
  | nil => simp [areasFrom]
  | cons r l ih =>
    obtain ⟨-, hrl, hl'⟩ := good_cons.mp hl
    obtain ⟨hr, hp'⟩ := proper_cons.mp hp
    refine pairwise_cons.mpr ⟨fun g hg => ?_, ih hl' hp'⟩
    have := mem_areasFrom_le hl' hrl g hg
    simp only [stop] at this
    omega

/-! ### Meetings -/

section
variable {want : Region → Bool} {la lb : List Region}

variable {x : Range} {m : Region} {g : ℕ × ℕ}

theorem mem_allMeetings {gs : List (ℕ × ℕ)} :
    x ∈ allMeetings want la gs ↔ ∃ m ∈ la, want m = true ∧ ∃ g ∈ gs, Meets m g ∧ x = meet m g := by
  simp only [allMeetings, meetings, mem_flatMap, mem_map, mem_filter, decide_eq_true_eq]
  constructor
  · rintro ⟨m, ⟨hm, hw⟩, g, ⟨hg, hmg⟩, rfl⟩
    exact ⟨m, hm, hw, g, hg, hmg, rfl⟩
  rintro ⟨m, hm, hw, g, hg, hmg, rfl⟩
  exact ⟨m, ⟨hm, hw⟩, g, ⟨hg, hmg⟩, rfl⟩

/-- A non-empty meeting is a maximal interval of what is free. -/
theorem isMaximal_meeting (hl : Good lb) (hp : Proper lb) (hg : g ∈ areas lb) (hm : m.stop ≤ physAddrMax)
    (hlt : max m.base g.1 < min m.stop g.2) :
    IsMaximal (freePart m lb) (max m.base g.1) (min m.stop g.2) := by
  have hfree := attrs_of_mem_areasFrom hl (fun _ _ => zero_le _) g hg
  refine isMaximal_iff.mpr ⟨hlt, fun a h1 h2 => ⟨by omega, hfree a (by omega) (by omega)⟩, ?_, ?_⟩
  · rintro a ha ⟨hin, hnone⟩
    -- the area starts at the end of a region, which covers the address before
    rcases (area_bounds g hg).1 with h | ⟨r, hr, h⟩
    · omega
    have := hp r hr
    exact attrAt_eq_none_iff.mp hnone r hr ⟨by simp only [stop] at h; omega, by omega⟩
  rintro ⟨hin, hnone⟩
  rcases (area_bounds g hg).2 with h | ⟨r, hr, h⟩
  · omega
  have := hp r hr
  exact attrAt_eq_none_iff.mp hnone r hr ⟨by omega, by simp only [stop]; omega⟩

/-- Every maximal interval of what is free is a meeting. -/
theorem exists_meeting_of_isMaximal {s e : ℕ} (hl : Good lb)
    (hp : Proper lb) (hm : m.stop ≤ physAddrMax) (h : IsMaximal (freePart m lb) s e) :
    ∃ g ∈ areas lb, Meets m g ∧ max m.base g.1 = s ∧ min m.stop g.2 = e := by
  obtain ⟨hlt, hin, hleft, hright⟩ := isMaximal_iff.mp h
  have hs := hin s (le_refl s) hlt
  have he := hin (e - 1) (by omega) (by omega)
  obtain ⟨g, hg, hgs, hsg⟩ := exists_area (zero_le s) (by have := hs.1; omega) hs.2
  have hfree := attrs_of_mem_areasFrom hl (fun _ _ => zero_le _) g hg
  have hs1 := hs.1
  have he1 := he.1
  refine ⟨g, hg, ⟨by omega, by omega⟩, ?_, ?_⟩
  · by_contra hne
    exact hleft (s - 1) (by omega) ⟨by omega, hfree (s - 1) (by omega) (by omega)⟩
  -- the area cannot end inside the interval
  have hge : e ≤ g.2 := by
    by_contra hlt'
    rcases (area_bounds g hg).2 with h | ⟨r, hr, h⟩
    · omega
    have := hp r hr
    exact attrAt_eq_none_iff.mp (hin g.2 (by omega) (by omega)).2 r hr
      ⟨by omega, by simp only [stop]; omega⟩
  by_contra hne
  exact hright ⟨by omega, hfree e (by omega) (by omega)⟩

/-- The meetings, by addresses. -/
theorem mem_allMeetings_iff (hla : Good la) (hpa : Proper la) (hlb : Good lb) (hpb : Proper lb) :
    x ∈ allMeetings want la (areas lb) ↔ ∃ m ∈ la, want m = true ∧ x.nid = m.nid ∧
    (IsMaximal (freePart m lb) x.start x.stop ∨ (x.start = x.stop ∧ TouchInside m lb x.start)) := by
  rw [mem_allMeetings]
  constructor
  · rintro ⟨m, hm, hw, g, hg, hmg, rfl⟩
    have hfit := hla.fits m hm
    refine ⟨m, hm, hw, rfl, ?_⟩
    simp only [meet, rend_eq hfit]
    by_cases hlt : max m.base g.1 < min m.stop g.2
    · exact .inl (isMaximal_meeting hlb hpb hg hfit hlt)
    -- an empty meeting is an address inside the region at which two reservations touch
    obtain ⟨h1, h2⟩ := hmg
    have hord := (areasOrdered hlb).2 g hg
    have hpos : m.base < m.stop := Nat.lt_add_of_pos_right (hpa m hm)
    have heq : g.1 = g.2 := by omega
    have hmax : max m.base g.1 = g.1 := by omega
    have hmin : min m.stop g.2 = g.1 := by omega
    rw [hmax, hmin]
    refine .inr ⟨rfl, ⟨by omega, h1⟩, ?_⟩
    obtain ⟨h | ⟨r, hr, hr'⟩, h' | ⟨t, ht, ht'⟩⟩ := area_bounds g hg
    iterate 3 omega
    exact ⟨r, hr, t, ht, hr', ht'.trans heq.symm⟩
  rintro ⟨m, hm, hw, hnid, h⟩
  have hfit := hla.fits m hm
  suffices ∃ g ∈ areas lb, Meets m g ∧ max m.base g.1 = x.start ∧ min m.stop g.2 = x.stop by
    obtain ⟨g, hg, hmg, h1, h2⟩ := this
    refine ⟨m, hm, hw, g, hg, hmg, ?_⟩
    rw [meet, rend_eq hfit, h1, h2, ← hnid]
  rcases h with h | ⟨heq, ⟨h1, h2⟩, r, hr, t, ht, hr', ht'⟩
  · exact exists_meeting_of_isMaximal hlb hpb hfit h
  refine ⟨(t.base, t.base), touch_mem_areas hlb hpb hr ht (hr'.trans ht'.symm), ?_⟩
  simp only [Meets]
  omega

/-- The meetings come in ascending order. -/
theorem allMeetings_ascending (hla : Good la) (hpa : Proper la) (hlb : Good lb) (hpb : Proper lb) :
    (allMeetings want la (areas lb)).Pairwise fun x y => x.start < y.start ∧ x.stop ≤ y.stop := by
  rw [allMeetings, pairwise_flatMap]
  refine ⟨fun m _ => ?_, (hla.ordered.filter want).imp_of_mem ?_⟩
  · rw [meetings, pairwise_map, pairwise_filter]
    refine (areas_apart (s := 0) hlb hpb).imp_of_mem ?_
    intro g h hg hh hgh hmg _
    obtain ⟨h1, h2⟩ := of_decide_eq_true hmg
    have := (areasOrdered hlb).2 g hg
    have := (areasOrdered hlb).2 h hh
    simp only [meet]
    omega
  intro m m' hm hm' hmm x hx y hy
  have hm0 := hpa m (mem_of_mem_filter hm)
  simp only [meetings, mem_map, mem_filter] at hx hy
  obtain ⟨g, ⟨-, hg⟩, rfl⟩ := hx
  obtain ⟨h, ⟨-, hh⟩, rfl⟩ := hy
  have hg := (of_decide_eq_true hg).1
  have hh := (of_decide_eq_true hh).2
  have := rend_eq (hla.fits m (mem_of_mem_filter hm))
  have := rend_eq (hla.fits m' (mem_of_mem_filter hm'))
  simp only [meet, stop] at *
  omega

end

/-! ### Empty types -/

section
variable {env : Env} {nid : ℤ} {flags : Flags}

variable {d : Region}

/-- The dummy entry of an empty `type_a` meets no area. -/
theorem nextMemRange_dummy (hd : d.stop = 0) (lb : List Region) :
    nextMemRange env nid flags [d] (some lb) 0 = none := by
  have hrend : d.rend = 0 := (rend_eq (by omega)).trans hd
  have hscan : scanAreas d lb (lb.length + 2) 0 = (0, none) := by
    have hz : u64 0 = 0 := rfl
    rw [scanAreas, hz, if_pos (succ_pos _)]
    cases h : areaAt lb 0 with
    | none => rfl
    | some g => simp [hrend]
  have hz : unpackA 0 = 0 := by decide
  have hz' : unpackB 0 = 0 := by decide
  have h0 : u64 0 = 0 := rfl
  have h1 : toInt (0 + 1) = 1 := by decide
  have h2 : ¬u64 1 < 1 := by decide
  have hr : rgnAt [d] 0 = some d := rfl
  simp only [nextMemRange, hz, hz', nextLoop, length_singleton, h0, hr, hscan, h1, h2, if_false,
    ite_self, zero_lt_one]

theorem scanAreasRev_dummy (hd : d.rend = 0) (l : List Region) :
    ∀ (n : ℕ) (i : ℤ), (scanAreasRev d l n i).2 = none
  | 0, i => rfl
  | n + 1, i => by
    rw [scanAreasRev]
    split
    · rcases h : areaAt l i with _ | g
      · rfl
      simp only [hd]
      split
      · rfl
      rw [if_neg (not_lt_zero _)]
      exact scanAreasRev_dummy hd l n _
    · rfl

theorem nextLoopRev_dummy (hd : d.rend = 0) (lb : List Region) (j : ℤ) :
    nextLoopRev env nid flags [d] (some lb) 2 0 j = none := by
  have hr : rgnAt [d] 0 = some d := rfl
  have hend : ∀ j, nextLoopRev env nid flags [d] (some lb) 1 (toInt (0 - 1)) j = none := by
    intro j
    rw [nextLoopRev, if_neg (by decide)]
  obtain ⟨j', hscan⟩ : ∃ j', scanAreasRev d lb (lb.length + 2) j = (j', none) :=
    ⟨_, Prod.ext rfl (scanAreasRev_dummy hd lb (lb.length + 2) j)⟩
  rw [nextLoopRev, if_pos le_rfl, hr]
  simp only [hend, hscan, ite_self]

theorem nextMemRangeRev_dummy (hd : d.stop = 0) (lb : List Region) :
    nextMemRangeRev env nid flags [d] (some lb) ullongMax = none := by
  have hz : toInt (([d].length : ℤ) - 1) = 0 := by rw [length_singleton]; decide
  rw [nextMemRangeRev, if_pos rfl, hz]
  exact nextLoopRev_dummy ((rend_eq (hd ▸ zero_le _)).trans hd) lb _

end

/-- The entries of a well-formed type that are regions: all of them, or none. -/
theorem WellFormed.live {t : MemblockType} (h : WellFormed t) : Proper t.regions ∨ ∃ d, t.regions = [d] ∧
    d.stop = 0 :=
  h.proper.imp_right fun ⟨_, _, hd⟩ => ⟨_, hd, rfl⟩

theorem allMeetings_dummy (hd : d.stop = 0) (gs : List (ℕ × ℕ)) : allMeetings want [d] gs = [] := by
  rw [allMeetings_cons, meetings_eq_nil fun g _ h => by have := h.1; omega]
  exact ite_self _

/-- The dummy entry of an empty `type_b` excludes nothing. -/
theorem allMeetings_areas_dummy {la : List Region}
    (hd : d.stop = 0) : allMeetings want la (areas [d]) = allMeetings want la (areas []) := by
  have hb : d.base = 0 := by simp only [stop] at hd; omega
  have harea : areas [d] = (0, 0) :: areas [] := by simp [areas, areasFrom, hb, hd]
  rw [harea]
  exact allMeetings_drop fun m _ h => not_lt_zero _ h.2

section
variable (env : Env) (nid : ℤ) (flags : Flags) {A B : MemblockType}

/-- Both iterators hand out the meetings, one in order and one backwards. -/
theorem forEach_meetings (hA : WellFormed A) (hB : WellFormed B) (ha : A.cnt ≤ intMax)
    (hb : B.cnt ≤ intMax) : ∃ up down : List (Range × ℕ),
    (∀ n, up.length < n → forEachMemRange env nid flags A.regions (some B.regions) n = some up) ∧
    (∀ n, up.length < n → forEachMemRangeRev env nid flags A.regions (some B.regions) n = some down) ∧
    up.map fst = allMeetings (wanted env nid flags) A.regions (areas B.regions) ∧
    down.map fst = (up.map fst).reverse := by
  rcases hA.live with hp | ⟨d, hd, hstop⟩
  · obtain ⟨up, hup, hrun⟩ := forEachMemRange_spec env nid flags hA.good hp hB.good ha hb
    obtain ⟨down, hdown, hrunRev⟩ := forEachMemRangeRev_spec env nid flags hA.good hp hB.good ha hb
    rw [← hup, length_map] at hrun hrunRev
    exact ⟨up, down, hrun, hrunRev, hup, by rw [hdown, hup]⟩
  refine ⟨[], [], fun n hn => ?_, fun n hn => ?_, ?_, rfl⟩
  · obtain ⟨n, rfl⟩ := exists_eq_succ_of_ne_zero (ne_zero_of_lt hn)
    exact run_succ_none (by rw [untilMax, hd, nextMemRange_dummy hstop])
  · obtain ⟨n, rfl⟩ := exists_eq_succ_of_ne_zero (ne_zero_of_lt hn)
    exact run_succ_none (by rw [untilMax, hd, nextMemRangeRev_dummy hstop])
  · rw [hd, allMeetings_dummy hstop]; rfl

/-- The meetings of two well-formed types, by addresses. -/
theorem allMeetings_wellFormed (want : Region → Bool) (hA : WellFormed A) (hB : WellFormed B) :
    (allMeetings want A.regions (areas B.regions)).Pairwise
    (fun x y => x.start < y.start ∧ x.stop ≤ y.stop) ∧
    ∀ x, x ∈ allMeetings want A.regions (areas B.regions) ↔ ∃ m ∈ A.regions, want m = true ∧
    x.nid = m.nid ∧ (IsMaximal (freePart m B.regions) x.start x.stop ∨
      (x.start = x.stop ∧ TouchInside m B.regions x.start)) := by
  rcases hA.live with hp | ⟨d, hd, hstop⟩
  · rcases hB.live with hpb | ⟨d, hd, hstop⟩
    · exact ⟨allMeetings_ascending hA.good hp hB.good hpb,
        fun x => mem_allMeetings_iff hA.good hp hB.good hpb⟩
    have hp0 : Proper [] := by simp [Proper]
    rw [hd, allMeetings_areas_dummy hstop]
    refine ⟨allMeetings_ascending hA.good hp good_nil hp0, fun x => ?_⟩
    rw [mem_allMeetings_iff hA.good hp good_nil hp0]
    have hfree : ∀ m, freePart m [d] = freePart m [] := by
      intro m; ext a; simp [freePart, attrs_cons, hstop]
    have htouch : ∀ m p, TouchInside m [d] p ↔ TouchInside m [] p := by
      intro m p; simp [TouchInside]; omega
    simp only [hfree, htouch]
  rw [hd, allMeetings_dummy hstop]
  refine ⟨Pairwise.nil, fun x => ⟨by simp, ?_⟩⟩
  -- an empty region has no free part
  rintro ⟨m, hm, -, -, h | ⟨-, h, -⟩⟩
  · obtain rfl := mem_singleton.mp hm
    have := (h.inside x.start le_rfl h.nonempty).1
    omega
  · obtain rfl := mem_singleton.mp hm
    omega

theorem untilMax_some {next : ℕ → Option (Range × ℕ)} {idx : ℕ} {p : Range × ℕ}
    (h : untilMax next idx = some p) : next idx = some p ∧ p.2 ≠ ullongMax := by
  unfold untilMax at h
  split at h
  · simp at h
  split at h
  · simp at h
  rename_i hn hne
  cases h
  exact ⟨hn, hne⟩

/-- A `for_each` loop never sees `ULLONG_MAX` as an index. -/
theorem ullongMax_not_mem_run {next : ℕ → Option (Range × ℕ)} :
    ∀ {n idx : ℕ} {tr : List (Range × ℕ)}, run (untilMax next) n idx = some tr → ullongMax ∉ tr.map snd
  | 0, _, _, h => by simp [run] at h
  | n + 1, idx, tr, h => by
    rw [run] at h
    rcases hs : untilMax next idx with _ | p
    · simp only [hs, Option.some.injEq] at h
      subst h; simp
    obtain ⟨r, idx'⟩ := p
    simp only [hs, Option.map_eq_some_iff] at h
    obtain ⟨k, hk, rfl⟩ := h
    rw [map_cons, mem_cons, not_or]
    exact ⟨(untilMax_some hs).2.symm, ullongMax_not_mem_run hk⟩

/-- `for_each_mem_range` over well-formed types ends and hands out, in ascending order and each once, the
    maximal non-empty intervals of `r` minus `type_b` for the wanted regions `r` of `type_a`, and an
    empty range at each address strictly inside such an `r` where two regions of `type_b` touch;
    `for_each_mem_range_rev` hands out the same backwards. No index is seen twice, and none is the end
    value. -/
theorem forEachMemRange_free (hA : WellFormed A) (hB : WellFormed B) (ha : A.cnt ≤ intMax)
    (hb : B.cnt ≤ intMax) : ∃ up down : List (Range × ℕ),
    (∀ n, up.length < n → forEachMemRange env nid flags A.regions (some B.regions) n = some up) ∧
    (∀ n, up.length < n → forEachMemRangeRev env nid flags A.regions (some B.regions) n = some down) ∧
    down.map fst = (up.map fst).reverse ∧ (up.map fst).Pairwise (fun x y => x.start < y.start) ∧
    (∀ x, x ∈ up.map fst ↔ ∃ m ∈ A.regions, wanted env nid flags m = true ∧ x.nid = m.nid ∧
      (IsMaximal (freePart m B.regions) x.start x.stop ∨
        (x.start = x.stop ∧ TouchInside m B.regions x.start))) ∧
    (0 :: up.map snd).Nodup ∧ ullongMax ∉ up.map snd ∧ (ullongMax :: down.map snd).Nodup := by
  obtain ⟨up, down, hup, hdown, hmeet, hrev⟩ :=
    forEach_meetings env nid flags hA hB ha hb
  obtain ⟨hasc, hmem⟩ := allMeetings_wellFormed (wanted env nid flags) hA hB
  have hrun := hup _ (lt_succ_self _)
  have hrunRev := hdown _ (lt_succ_self _)
  exact ⟨up, down, hup, hdown, hrev, hmeet ▸ hasc.imp And.left, hmeet ▸ hmem, run_states_nodup hrun,
    ullongMax_not_mem_run hrun, run_states_nodup hrunRev⟩

end

/-! ### Where the ranges are not the maximal intervals -/

/-- Two memory regions, and reservations of which two touch inside the first. -/
def touchingMemory : MemblockType := ⟨[⟨5, 25, 0, 0⟩, ⟨40, 60, 0, 0⟩], 128, 85, none, false⟩
def touchingReserved : MemblockType :=
  ⟨[⟨0, 10, 64, 0⟩, ⟨10, 10, 64, 1⟩, ⟨50, 5, 64, 0⟩], 128, 25, none, false⟩

theorem wellFormed_touchingMemory : WellFormed touchingMemory where
  good := by simp [touchingMemory, good_cons, good_nil, stop, physAddrMax]
  proper := .inl (by simp [touchingMemory, Proper])
  minimal := by simp [touchingMemory, Minimal, Mergeable, stop]
  nonempty := by simp [touchingMemory]
  bounded := by decide
  total := by decide

theorem wellFormed_touchingReserved : WellFormed touchingReserved where
  good := by simp [touchingReserved, good_cons, good_nil, stop, physAddrMax]
  proper := .inl (by simp [touchingReserved, Proper])
  minimal := by simp [touchingReserved, Minimal, Mergeable, stop]
  nonempty := by simp [touchingReserved]
  bounded := by decide
  total := by decide

/-- `n` one-byte regions at the even addresses. -/
def evenBytes (n : ℕ) : List Region := (List.range n).map fun i => ⟨2 * i, 1, 0, 0⟩

def evenMemory (n : ℕ) : MemblockType := ⟨evenBytes n, n, sizes (evenBytes n), none, false⟩

theorem wellFormed_evenMemory {n : ℕ} (h0 : 0 < n) (hn : n < 2 ^ 63) : WellFormed (evenMemory n) where
  good := by
    refine ⟨?_, fun r hr => ?_⟩
    · rw [evenMemory, evenBytes, Ordered, pairwise_map]
      exact pairwise_lt_range.imp fun h => by simp only [stop]; omega
    obtain ⟨i, hi, rfl⟩ := mem_map.mp hr
    have := mem_range.mp hi
    simp only [stop, physAddrMax]; omega
  proper := .inl fun r hr => by
    obtain ⟨i, -, rfl⟩ := mem_map.mp hr
    exact one_pos
  minimal := by
    refine Pairwise.isChain (pairwise_map.mpr (pairwise_lt_range.imp ?_))
    rintro i j - ⟨h, -⟩
    simp only [stop] at h; omega
  nonempty := by
    intro h
    have := congrArg length h
    simp [evenMemory, evenBytes] at this; omega
  bounded := by simp [evenMemory, evenBytes, MemblockType.cnt]
  total := rfl

/-- The index of the last of `2 ^ 31 + 1` regions does not fit an `int`. -/
theorem nextMemRangeRev_evenMemory (lb : List Region) :
    nextMemRangeRev plainEnv numaNoNode 0 (evenMemory (2 ^ 31 + 1)).regions (some lb)
    ullongMax = none := by
  have hlen : (evenMemory (2 ^ 31 + 1)).regions.length = 2 ^ 31 + 1 := by
    simp [evenMemory, evenBytes]
  have hidx : toInt (((2 ^ 31 + 1 : ℕ) : ℤ) - 1) = -2 ^ 31 := by decide
  rw [nextMemRangeRev, if_pos rfl, hlen, hidx, nextLoopRev]
  exact if_neg (by decide)

/-- The empty range at the address 10 is handed out; and the downward iteration over `2 ^ 31 + 1`
    regions, whose first index does not fit an `int`, hands out nothing. -/
theorem forEachMemRange_touching : (WellFormed touchingMemory ∧ WellFormed touchingReserved ∧
      (forEachMemRange plainEnv numaNoNode 0 touchingMemory.regions (some touchingReserved.regions)
        5).map (List.map fst) = some [⟨10, 10, 0⟩, ⟨20, 30, 0⟩, ⟨40, 50, 0⟩, ⟨55, 100, 0⟩]) ∧
    (WellFormed (evenMemory (2 ^ 31 + 1)) ∧ forEachMemRangeRev plainEnv numaNoNode 0
      (evenMemory (2 ^ 31 + 1)).regions (some touchingReserved.regions) 1 = some []) := by
  refine ⟨⟨wellFormed_touchingMemory, wellFormed_touchingReserved, by decide⟩,
    wellFormed_evenMemory (by decide) (by decide), ?_⟩
  exact run_succ_none (by rw [untilMax, nextMemRangeRev_evenMemory])

/-- The ranges of the touching reservations, empty one included. -/
theorem forEachMemRange_free_touching : ∃ up down : List (Range × ℕ),
    (∀ n, up.length < n → forEachMemRange plainEnv numaNoNode 0 touchingMemory.regions
      (some touchingReserved.regions) n = some up) ∧
    (∀ n, up.length < n → forEachMemRangeRev plainEnv numaNoNode 0 touchingMemory.regions
      (some touchingReserved.regions) n = some down) ∧ down.map fst = (up.map fst).reverse :=
  let ⟨up, down, h₁, h₂, h₃, _⟩ := forEachMemRange_free plainEnv numaNoNode 0
    wellFormed_touchingMemory wellFormed_touchingReserved (by decide) (by decide)
  ⟨up, down, h₁, h₂, h₃⟩

end LinuxNote.Memblock
