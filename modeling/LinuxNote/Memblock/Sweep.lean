import LinuxNote.Memblock.NextRange

/-! What the iterators hand out. The lockstep walk is first described on lists, as a sweep over the
    regions of `type_a` and the areas of `type_b`; the packed-index functions are shown to take the
    steps of that sweep, and the sweep to produce every meeting of a wanted region with an area. -/

namespace LinuxNote.Memblock
open List Nat Region

/-! ### Packed indices -/

variable {i : ℤ} {j s : ℕ} {l : List Region} {m : Region} {gs : List (ℕ × ℕ)} {g : ℕ × ℕ}

theorem toInt_of_range (h1 : -2 ^ 31 ≤ i) (h2 : i < 2 ^ 31) : toInt i = i := by
  rw [toInt, Int.bmod_def]
  split <;> omega

theorem toInt_succ {i : ℕ} (h : i < intMax) : toInt ((i : ℤ) + 1) = ((i + 1 : ℕ) : ℤ) :=
  toInt_of_range (by omega) (by simp only [intMax] at h; omega)

theorem toInt_pred {i : ℕ} (h : i ≤ intMax) : toInt ((i : ℤ) - 1) = (i : ℤ) - 1 :=
  toInt_of_range (by omega) (by simp only [intMax] at h; omega)

theorem u64_natCast {i : ℕ} (h : i ≤ intMax) : u64 i = i := by
  simp only [u64, intMax] at *; omega

theorem rgnAt_natCast (l : List Region) (i : ℕ) : rgnAt l i = l[i]? := by
  simp [rgnAt]

theorem pack_eq (i j : ℤ) : pack i j = u32 j * 2 ^ 32 + u32 i := by
  have hi : u32 i < 2 ^ 32 := by simp only [u32]; omega
  have hj : (u64 j <<< 32) % 2 ^ 64 = u32 j <<< 32 := by
    rw [shiftLeft_eq, shiftLeft_eq]; simp only [u32, u64]; omega
  rw [pack, hj, Nat.or_comm, ← Nat.shiftLeft_add_eq_or_of_lt hi, Nat.shiftLeft_eq]

theorem toInt_u32 (i : ℤ) : toInt (u32 i) = toInt i := by
  have hu : ((u32 i : ℕ) : ℤ) = i % (2 ^ 32 : ℕ) := by simp only [u32]; omega
  rw [toInt, toInt, hu, Int.emod_bmod]

theorem unpackA_pack (i j : ℤ) : unpackA (pack i j) = toInt i := by
  have hi : u32 i < 2 ^ 32 := by simp only [u32]; omega
  have : (u32 j * 2 ^ 32 + u32 i) &&& 0xffffffff = u32 i := by
    rw [show (0xffffffff : ℕ) = 2 ^ 32 - 1 from rfl, and_two_pow_sub_one_eq_mod]; omega
  rw [pack_eq, unpackA, this, toInt_u32]

theorem unpackB_pack (i j : ℤ) : unpackB (pack i j) = toInt j := by
  have hi : u32 i < 2 ^ 32 := by simp only [u32]; omega
  have : (u32 j * 2 ^ 32 + u32 i) >>> 32 = u32 j := by rw [shiftRight_eq_div_pow]; omega
  rw [pack_eq, unpackB, this, toInt_u32]

/-- The cursors are read back from the packed index as they were. -/
theorem unpack_pack (h1 : -2 ^ 31 ≤ i) (h2 : i < 2 ^ 31) (hj : j ≤ intMax) :
    unpackA (pack i j) = i ∧ unpackB (pack i j) = j ∧ pack i j ≠ ullongMax := by
  have hj' : u32 j ≤ intMax := by simp only [u32, intMax] at *; omega
  have hi : u32 i < 2 ^ 32 := by simp only [u32]; omega
  refine ⟨?_, ?_, ?_⟩
  · rw [unpackA_pack, toInt_of_range h1 h2]
  · rw [unpackB_pack]
    exact toInt_of_range (by omega) (by simp only [intMax] at hj; omega)
  rw [pack_eq]
  simp only [ullongMax, intMax] at *; omega

/-! ### The areas of a type -/

/-- The areas before, between and after the regions, the first from `s`. -/
def areasFrom : ℕ → List Region → List (ℕ × ℕ)
  | s, [] => [(s, physAddrMax)]
  | s, r :: l => (s, r.base) :: areasFrom r.stop l

/-- The areas the high half of the index counts. -/
def areas (l : List Region) : List (ℕ × ℕ) := areasFrom 0 l

theorem length_areasFrom (s : ℕ) (l : List Region) : (areasFrom s l).length = l.length + 1 := by
  induction l generalizing s with
  | nil => rfl
  | cons r l ih => simp [areasFrom, ih]

theorem areasFrom_zero (s : ℕ) (l : List Region) :
    (areasFrom s l)[0]? = some (s, (l[0]?.map base).getD physAddrMax) := by
  cases l <;> rfl

theorem areasFrom_succ : ∀ (l : List Region) (s i : ℕ), (areasFrom s l)[i + 1]? =
      l[i]?.map fun r => (r.stop, (l[i + 1]?.map base).getD physAddrMax)
  | [], s, i => by simp [areasFrom]
  | r :: l, s, 0 => by simp [areasFrom, areasFrom_zero]
  | r :: l, s, i + 1 => by simp [areasFrom, areasFrom_succ l r.stop i]

/-- The code's `r_start` and `r_end` are the bounds of the area. -/
theorem areaAt_natCast (hl : Good l) {i : ℕ} (hi : i ≤ l.length) (hmax : l.length ≤ intMax) :
    areaAt l i = (areas l)[i]? := by
  have hstop : areaStop l i = some ((l[i]?.map base).getD physAddrMax) := by
    rw [areaStop, u64_natCast (hi.trans hmax), rgnAt_natCast]
    split
    · rename_i h; simp [h]
    · rename_i h; simp [getElem?_eq_none (Nat.le_of_not_lt h)]
  rw [areaAt, hstop]
  rcases i with _ | i
  · rw [areas, areasFrom_zero]; rfl
  have hne : ((i + 1 : ℕ) : ℤ) ≠ 0 := by omega
  have hsub : ((i + 1 : ℕ) : ℤ) - 1 = i := by omega
  obtain ⟨r, hr⟩ : ∃ r, l[i]? = some r := ⟨l[i], by simp⟩
  have hfit := hl.fits r (mem_of_getElem? hr)
  rw [areas, areasFrom_succ, areaStart, if_neg hne, hsub, rgnAt_natCast, hr]
  simp [rend_eq hfit]

/-- Areas in ascending order, none reaching into the next. -/
def AreasOrdered (gs : List (ℕ × ℕ)) : Prop :=
  gs.Pairwise (fun g h => g.2 ≤ h.1) ∧ ∀ g ∈ gs, g.1 ≤ g.2

theorem mem_areasFrom_le (hl : Good l) (hs : ∀ r ∈ l, s ≤ r.base) : ∀ g ∈ areasFrom s l, s ≤ g.1 := by
  induction l generalizing s with
  | nil => simp [areasFrom]
  | cons r l ih =>
    obtain ⟨-, hrl, hl'⟩ := good_cons.mp hl
    intro g hg
    rcases mem_cons.mp hg with rfl | hg
    · exact le_refl s
    have := ih hl' hrl g hg
    have := hs r (mem_cons_self ..)
    simp only [stop] at *
    omega

theorem areasOrdered_from (hl : Good l) (hs : ∀ r ∈ l, s ≤ r.base) (hmax : s ≤ physAddrMax) :
    AreasOrdered (areasFrom s l) := by
  induction l generalizing s with
  | nil => simp [AreasOrdered, areasFrom, hmax]
  | cons r l ih =>
    obtain ⟨hr, hrl, hl'⟩ := good_cons.mp hl
    have h := ih hl' hrl hr
    refine ⟨pairwise_cons.mpr ⟨fun g hg => ?_, h.1⟩, forall_mem_cons.mpr ⟨?_, h.2⟩⟩
    · exact (le_add_right ..).trans (mem_areasFrom_le hl' hrl g hg)
    · exact hs r (mem_cons_self ..)

theorem areasOrdered (hl : Good l) : AreasOrdered (areas l) :=
  areasOrdered_from hl (fun _ _ => zero_le _) (zero_le _)

/-! ### The sweep -/

/-- The region and the area have a common boundary-crossing part. -/
def Meets (m : Region) (g : ℕ × ℕ) : Prop := g.1 < m.stop ∧ m.base < g.2

instance (m : Region) (g : ℕ × ℕ) : Decidable (Meets m g) := by unfold Meets; infer_instance

section
variable (want : Region → Bool)

/-- The meetings of one region with the areas. -/
def meetings (gs : List (ℕ × ℕ)) (m : Region) : List Range :=
  (gs.filter fun g => Meets m g).map (meet m)

/-- All meetings of wanted regions with areas, region by region. -/
def allMeetings (ms : List Region) (gs : List (ℕ × ℕ)) : List Range :=
  (ms.filter want).flatMap (meetings gs)

/-- The lockstep walk, in the direction in which regions and areas go from `lo` to `hi`. -/
def walk (lo hi : Region → ℤ) (lo' hi' : ℕ × ℕ → ℤ) : List Region → List (ℕ × ℕ) → List Range
  | [], _ => []
  | _ :: _, [] => []
  | m :: ms, g :: gs =>
    if !want m then walk lo hi lo' hi' ms (g :: gs)
    else if hi m ≤ lo' g then walk lo hi lo' hi' ms (g :: gs)
    else if lo m < hi' g then
      meet m g :: if hi m ≤ hi' g then walk lo hi lo' hi' ms (g :: gs) else walk lo hi lo' hi'
        (m :: ms) gs
    else walk lo hi lo' hi' (m :: ms) gs
  termination_by ms gs => ms.length + gs.length

/-- Upwards. -/
def sweep : List Region → List (ℕ × ℕ) → List Range :=
  walk want (fun m => m.base) (fun m => m.stop) (fun g => g.1) fun g => g.2

/-- Downwards: both lists are in descending order. -/
def sweepRev : List Region → List (ℕ × ℕ) → List Range :=
  walk want (fun m => -m.stop) (fun m => -m.base) (fun g => -g.2) fun g => -g.1

end

variable {want : Region → Bool}

section
variable {lo hi : Region → ℤ} {lo' hi' : ℕ × ℕ → ℤ}

theorem walk_skip (hw : want m = false) (ms : List Region) (gs : List (ℕ × ℕ)) :
    walk want lo hi lo' hi' (m :: ms) gs = walk want lo hi lo' hi' ms gs := by
  cases gs with
  | nil => cases ms <;> simp [walk]
  | cons g gs => rw [walk, if_pos (by simp [hw])]

theorem meetings_cons (g : ℕ × ℕ) (gs : List (ℕ × ℕ)) (m : Region) :
    meetings (g :: gs) m = if Meets m g then meet m g :: meetings gs m else meetings gs m := by
  unfold meetings
  by_cases h : Meets m g <;> simp [h]

theorem meetings_eq_nil (h : ∀ g ∈ gs, ¬Meets m g) : meetings gs m = [] := by
  simpa [meetings, filter_eq_nil_iff] using h

theorem allMeetings_cons (m : Region) (ms : List Region) (gs : List (ℕ × ℕ)) :
    allMeetings want (m :: ms) gs = if want m then meetings gs m ++
    allMeetings want ms gs else allMeetings want ms gs := by
  unfold allMeetings
  by_cases h : want m <;> simp [h]

/-- An area that none of the regions meets can be left out. -/
theorem allMeetings_drop {ms : List Region}
    (h : ∀ m ∈ ms, ¬Meets m g) : allMeetings want ms (g :: gs) = allMeetings want ms gs := by
  induction ms with
  | nil => rfl
  | cons m ms ih =>
    rw [allMeetings_cons, allMeetings_cons, ih fun m' hm' => h m' (mem_cons_of_mem _ hm'),
      meetings_cons, if_neg (h m (mem_cons_self ..))]

/-- The walk hands out every meeting. -/
theorem walk_eq (hmeets : ∀ m g, Meets m g ↔ lo' g < hi m ∧ lo m < hi' g) (hle : ∀ m, lo m ≤ hi m)
    (ms : List Region) (gs : List (ℕ × ℕ)) (hms : ms.Pairwise fun m m' => hi m ≤ lo m')
    (hgs : gs.Pairwise fun g h => hi' g ≤ lo' h) (hle' : ∀ g ∈ gs, lo' g ≤ hi' g) :
    walk want lo hi lo' hi' ms gs = allMeetings want ms gs := by
  induction ms generalizing gs with
  | nil => simp [walk, allMeetings]
  | cons m ms ih =>
    have hm := pairwise_cons.mp hms
    induction gs with
    | nil => simp [walk, allMeetings, meetings]
    | cons g gs ihg =>
      have hg := pairwise_cons.mp hgs
      have hle'' := forall_mem_cons.mp hle'
      specialize ih (g :: gs) hm.2 hgs hle'
      specialize ihg hg.2 hle''.2
      rw [walk]
      split_ifs with hw h1 h2 h3
      · rw [ih, allMeetings_cons, if_neg (by simpa using hw)]
      · -- `m` ends before this area, and so before all later ones
        rw [ih, allMeetings_cons, meetings_eq_nil (forall_mem_cons.mpr ⟨?_, fun h hh => ?_⟩),
          nil_append, ite_self]
        · rw [hmeets]; omega
        have := hg.1 h hh
        rw [hmeets]; omega
      all_goals try rw [allMeetings_cons, if_pos (by simpa using hw), meetings_cons,
        if_pos ((hmeets m g).mpr ⟨by omega, h2⟩)]
      · -- `m` ends in this area: no later area meets it
        rw [ih, meetings_eq_nil fun h hh => ?_, singleton_append]
        have := hg.1 h hh
        rw [hmeets]; omega
      · -- the area ends in `m`: no later region meets it
        rw [ihg, allMeetings_cons, if_pos (by simpa using hw), cons_append,
          allMeetings_drop fun m' hm' => ?_]
        have := hm.1 m' hm'
        rw [hmeets]; omega
      refine ihg.trans (allMeetings_drop (forall_mem_cons.mpr ⟨?_, fun m' hm' => ?_⟩)).symm
      · rw [hmeets]; omega
      have := hm.1 m' hm'
      have := hle m
      rw [hmeets]; omega

end

theorem sweep_eq (ms : List Region) (gs : List (ℕ × ℕ))
    (hms : ms.Pairwise fun m m' => m.stop ≤ m'.base) (hgs : AreasOrdered gs) :
    sweep want ms gs = allMeetings want ms gs := by
  refine walk_eq ?_ ?_ ms gs ?_ ?_ ?_
  · simp [Meets]
  · simp [stop]
  · simpa using hms
  · simpa using hgs.1
  · simpa using hgs.2

theorem sweepRev_eq (ms : List Region) (gs : List (ℕ × ℕ))
    (hms : ms.Pairwise fun m m' => m'.stop ≤ m.base)
    (hgs : gs.Pairwise (fun g h => h.2 ≤ g.1) ∧ ∀ g ∈ gs, g.1 ≤ g.2) :
    sweepRev want ms gs = allMeetings want ms gs := by
  refine walk_eq ?_ ?_ ms gs ?_ ?_ ?_
  · simp [Meets, and_comm]
  · simp [stop]
  · simpa using hms
  · simpa using hgs.1
  · simpa using hgs.2

/-- Going through both lists backwards gives the same meetings backwards. -/
theorem allMeetings_reverse (ms : List Region) (gs : List (ℕ × ℕ)) :
    allMeetings want ms.reverse gs.reverse = (allMeetings want ms gs).reverse := by
  induction ms with
  | nil => rfl
  | cons m ms ih =>
    have happ : ∀ l : List Region, allMeetings want (l ++ [m]) gs.reverse =
        allMeetings want l gs.reverse ++ allMeetings want [m] gs.reverse := by
      intro l; simp [allMeetings]
    rw [reverse_cons, happ, ih, allMeetings_cons, allMeetings_cons]
    split <;> simp [meetings, allMeetings]

/-! ### The packed-index functions take the steps of the sweep -/

/-- The regions the caller asks for. -/
def wanted (env : Env) (nid : ℤ) (flags : Flags) (m : Region) : Bool :=
  !skips env (fixNid env nid) flags m

theorem drop_areas (hj : j ≤ l.length) :
    ∃ g, (areas l)[j]? = some g ∧ (areas l).drop j = g :: (areas l).drop (j + 1) := by
  have hlt : j < (areas l).length := by rw [areas, length_areasFrom]; omega
  exact ⟨(areas l)[j], by simp [hlt], drop_eq_getElem_cons hlt⟩

/-- The last area ends at `PHYS_ADDR_MAX`. -/
theorem areas_last (l : List Region) (h : (areas l)[l.length]? = some g) : g.2 = physAddrMax := by
  rw [areas] at h
  rcases l.eq_nil_or_concat with rfl | ⟨l', r, rfl⟩
  · rw [length_nil, areasFrom_zero] at h
    cases h
    rfl
  rw [concat_eq_append, length_append, length_singleton, areasFrom_succ] at h
  simp at h
  rw [← h]

/-- An area that ends before is not the last one. -/
theorem lt_of_areas (hj : j ≤ l.length) (h : (areas l)[j]? = some g) (hlt : g.2 < physAddrMax) :
    j < l.length := by
  refine lt_of_le_of_ne hj ?_
  rintro rfl
  exact hlt.ne (areas_last l h)

section
variable {m : Region} {l : List Region}

/-- The inner loop of `__next_mem_range` stops at the first area that is past `m` or meets it. -/
theorem scanAreas_spec (hl : Good l) (hmax : l.length ≤ intMax) (hm : m.stop ≤ physAddrMax)
    (hm' : m.base < physAddrMax) (hw : want m = true) (ms : List Region) :
    ∀ (n j : ℕ), j ≤ l.length → l.length < n + j → ∃ j' g, j' ≤ l.length ∧ (areas l)[j']? = some g ∧
      ((scanAreas m l n j = ((j' : ℤ), none) ∧ sweep want (m :: ms) ((areas l).drop j) =
        sweep want ms ((areas l).drop j')) ∨
        (scanAreas m l n j = ((j' : ℤ), some g) ∧ sweep want (m :: ms) ((areas l).drop j) = meet m g ::
          if m.stop ≤ g.2 then sweep want ms ((areas l).drop j')
            else sweep want (m :: ms) ((areas l).drop (j' + 1)))) := by
  intro n
  induction n with
  | zero => intro j h1 h2; omega
  | succ n ih =>
    intro j hj hn
    have hn' : l.length < n + (j + 1) := by omega
    obtain ⟨g, hg, hdrop⟩ := drop_areas hj
    have hu : u64 (j : ℤ) < l.length + 1 := by rw [u64_natCast (hj.trans hmax)]; omega
    simp only [scanAreas, if_pos hu, areaAt_natCast hl hj hmax, hg, rend_eq hm]
    rw [hdrop, sweep, walk, if_neg (show ¬(!want m) = true by simp [hw])]
    simp only [cast_le, cast_lt]
    by_cases h1 : m.stop ≤ g.1
    · rw [if_pos h1, if_pos h1, ← hdrop]
      exact ⟨j, g, hj, hg, .inl ⟨rfl, rfl⟩⟩
    by_cases h2 : m.base < g.2
    · rw [if_neg h1, if_neg h1, if_pos h2, if_pos h2, ← hdrop]
      exact ⟨j, g, hj, hg, .inr ⟨rfl, rfl⟩⟩
    have hlt := lt_of_areas hj hg (by omega)
    rw [if_neg h1, if_neg h1, if_neg h2, if_neg h2, toInt_succ (hlt.trans_le hmax)]
    exact ih (j + 1) hlt hn'

variable {env : Env} {nid : ℤ} {flags : Flags} {la lb : List Region}

theorem drop_cons_getElem? {la : List Region} {i : ℕ} {m : Region} (h : la[i]? = some m) :
    la.drop i = m :: la.drop (i + 1) := by
  obtain ⟨hi, rfl⟩ := List.getElem?_eq_some_iff.mp h
  exact drop_eq_getElem_cons hi

/-- One call of `__next_mem_range`: it ends the iteration when nothing is left to hand out, and else
    hands out the next meeting and packs cursors from which the others follow. -/
theorem nextLoop_spec (hla : Good la) (hpa : Proper la) (hlb : Good lb) (ha : la.length ≤ intMax)
    (hb : lb.length ≤ intMax) : ∀ (n i j : ℕ), i ≤ la.length → j ≤ lb.length → la.length < n + i →
    (nextLoop env (fixNid env nid) flags la (some lb) n i j = none ∧
      sweep (wanted env nid flags) (la.drop i) ((areas lb).drop j) = []) ∨ ∃ r i' j', i' ≤ la.length ∧
    j' ≤ lb.length ∧ nextLoop env (fixNid env nid) flags la (some lb) n i j =
      some (r, pack (i' : ℕ) (j' : ℕ)) ∧ sweep (wanted env nid flags) (la.drop i) ((areas lb).drop j) =
      r :: sweep (wanted env nid flags) (la.drop i') ((areas lb).drop j') := by
  intro n
  induction n with
  | zero => intro i j h1 _ h2; omega
  | succ n ih =>
    intro i j hi hj hn
    have hn' : la.length < n + (i + 1) := by omega
    have hu : u64 (i : ℤ) = i := u64_natCast (hi.trans ha)
    rcases lt_or_ge i la.length with hlt | hge
    · obtain ⟨m, hm⟩ : ∃ m, la[i]? = some m := ⟨la[i], by simp [hlt]⟩
      have hmem := mem_of_getElem? hm
      have hfit := hla.fits m hmem
      have hpos := hpa m hmem
      simp only [nextLoop, hu, if_pos hlt, rgnAt_natCast, hm, toInt_succ (hlt.trans_le ha),
        drop_cons_getElem? hm]
      by_cases hs : skips env (fixNid env nid) flags m = true
      · -- a region that is not asked for
        rw [if_pos hs, sweep, walk_skip (by simp [wanted, hs])]
        exact ih (i + 1) j hlt hj hn'
      rw [if_neg hs]
      have hw : wanted env nid flags m = true := by simp [wanted, hs]
      obtain ⟨j', g, hj', hg, hscan⟩ := scanAreas_spec hlb hb hfit
        (by simp only [stop] at hfit; omega) hw (la.drop (i + 1)) (lb.length + 2) j hj (by omega)
      rcases hscan with ⟨hscan, hsweep⟩ | ⟨hscan, hsweep⟩
      · rw [hscan, hsweep]
        exact ih (i + 1) j' hlt hj' hn'
      rw [hscan, hsweep]
      refine .inr ?_
      simp only [rend_eq hfit]
      by_cases hend : m.stop ≤ g.2
      · rw [if_pos hend, if_pos hend]
        exact ⟨meet m g, i + 1, j', hlt, hj', rfl, rfl⟩
      -- the area ends first, so it is not the last one
      have hj'lt := lt_of_areas hj' hg (by omega)
      rw [if_neg hend, if_neg hend, toInt_succ (hj'lt.trans_le hb), ← drop_cons_getElem? hm]
      exact ⟨meet m g, i, j' + 1, hi, hj'lt, rfl, rfl⟩
    · left
      simp only [nextLoop, hu, if_neg (not_lt.mpr hge), drop_eq_nil_of_le hge, sweep, walk, and_self]

end

section
variable {m : Region} {l : List Region}

theorem take_reverse_getElem? {α : Type*} {l : List α} {i : ℕ} {x : α} (h : l[i]? = some x) :
    (l.take (i + 1)).reverse = x :: (l.take i).reverse := by
  rw [take_add_one, h]; simp

/-- The inner loop of `__next_mem_range_rev` stops at the first area, downwards, that is before `m` or
    meets it. -/
theorem scanAreasRev_spec (hl : Good l) (hmax : l.length ≤ intMax) (hm : m.stop ≤ physAddrMax)
    (hm' : 0 < m.stop) (hw : want m = true) (ms : List Region) :
    ∀ (n j : ℕ), j ≤ l.length → j < n → ∃ j' g, j' ≤ j ∧ (areas l)[j']? = some g ∧
    ((scanAreasRev m l n j = ((j' : ℤ), none) ∧
      sweepRev want (m :: ms) ((areas l).take (j + 1)).reverse =
      sweepRev want ms ((areas l).take (j' + 1)).reverse) ∨ (scanAreasRev m l n j = ((j' : ℤ), some g) ∧
        sweepRev want (m :: ms) ((areas l).take (j + 1)).reverse = meet m g :: if g.1 ≤
        m.base then sweepRev want ms ((areas l).take (j' + 1)).reverse
            else sweepRev want (m :: ms) ((areas l).take j').reverse)) := by
  intro n
  induction n with
  | zero => intro j h1 h2; omega
  | succ n ih =>
    intro j hj hn
    obtain ⟨g, hg, -⟩ := drop_areas hj
    have htake := take_reverse_getElem? hg
    simp only [scanAreasRev, if_pos (show (j : ℤ) ≥ 0 by omega), areaAt_natCast hl hj hmax, hg,
      rend_eq hm, gt_iff_lt]
    rw [htake, sweepRev, walk, if_neg (show ¬(!want m) = true by simp [hw])]
    simp only [neg_le_neg_iff, neg_lt_neg_iff, cast_le, cast_lt]
    by_cases h1 : g.2 ≤ m.base
    · rw [if_pos h1, if_pos h1, ← htake]
      exact ⟨j, g, le_rfl, hg, .inl ⟨rfl, rfl⟩⟩
    by_cases h2 : g.1 < m.stop
    · rw [if_neg h1, if_neg h1, if_pos h2, if_pos h2, ← htake]
      exact ⟨j, g, le_rfl, hg, .inr ⟨rfl, rfl⟩⟩
    -- the first area starts at 0, so this is not the first one
    rcases j with _ | j
    · rw [areas, areasFrom_zero] at hg
      cases hg
      exact absurd hm' h2
    rw [if_neg h1, if_neg h1, if_neg h2, if_neg h2, toInt_pred (hj.trans hmax), cast_succ,
      add_sub_cancel_right]
    obtain ⟨j', g', h1', h2', h3'⟩ := ih j (le_of_succ_le hj) (lt_of_succ_lt_succ hn)
    exact ⟨j', g', le_succ_of_le h1', h2', h3'⟩

variable {env : Env} {nid : ℤ} {flags : Flags} {la lb : List Region}

/-- One call of `__next_mem_range_rev`, with `k` regions still ahead. -/
theorem nextLoopRev_spec (hla : Good la) (hpa : Proper la) (hlb : Good lb)
    (ha : la.length ≤ intMax) (hb : lb.length ≤ intMax) :
    ∀ (n k j : ℕ), k ≤ la.length → j ≤ lb.length → k < n →
    (nextLoopRev env (fixNid env nid) flags la (some lb) n ((k : ℤ) - 1) j = none ∧
      sweepRev (wanted env nid flags) (la.take k).reverse ((areas lb).take (j + 1)).reverse = []) ∨
    ∃ r k' j', k' ≤ la.length ∧ j' ≤ lb.length ∧
    nextLoopRev env (fixNid env nid) flags la (some lb) n ((k : ℤ) - 1) j =
      some (r, pack ((k' : ℤ) - 1) (j' : ℕ)) ∧
    sweepRev (wanted env nid flags) (la.take k).reverse ((areas lb).take (j + 1)).reverse = r ::
    sweepRev (wanted env nid flags) (la.take k').reverse ((areas lb).take (j' + 1)).reverse := by
  intro n
  induction n with
  | zero => intro k j _ _ h; omega
  | succ n ih =>
    intro k j hk hj hn
    rcases k with _ | k
    · left
      simp [nextLoopRev, sweepRev, walk]
    have hn' : k < n := lt_of_succ_lt_succ hn
    have hk' : k ≤ la.length := le_of_succ_le hk
    obtain ⟨m, hm⟩ : ∃ m, la[k]? = some m := ⟨la[k], by simp⟩
    have hmem := mem_of_getElem? hm
    have hfit := hla.fits m hmem
    have hpos := hpa m hmem
    have hidx : ((k + 1 : ℕ) : ℤ) - 1 = (k : ℤ) := by omega
    simp only [hidx, nextLoopRev, if_pos (show (k : ℤ) ≥ 0 by omega), rgnAt_natCast, hm,
      toInt_pred (hk'.trans ha), take_reverse_getElem? hm]
    split
    case isTrue hs =>
      rw [sweepRev, walk_skip (by simp [wanted, hs])]
      exact ih k j hk' hj hn'
    rename_i hs
    have hw : wanted env nid flags m = true := by simp [wanted, hs]
    obtain ⟨j', g, hj', hg, hscan⟩ := scanAreasRev_spec hlb hb hfit
      (by simp only [stop]; omega) hw (la.take k).reverse (lb.length + 2) j hj
      (lt_of_le_of_lt hj (by omega))
    rcases hscan with ⟨hscan, hsweep⟩ | ⟨hscan, hsweep⟩
    · rw [hscan, hsweep]
      exact ih k j' hk' (hj'.trans hj) hn'
    rw [hscan, hsweep]
    refine .inr ?_
    simp only [ge_iff_le]
    by_cases hend : g.1 ≤ m.base
    · rw [if_pos hend, if_pos hend]
      exact ⟨meet m g, k, j', hk', hj'.trans hj, rfl, rfl⟩
    -- the area starts inside `m`, so it is not the first one
    rcases j' with _ | j'
    · rw [areas, areasFrom_zero] at hg
      cases hg
      exact absurd (zero_le _) hend
    rw [if_neg hend, if_neg hend, toInt_pred ((hj'.trans hj).trans hb), cast_succ, add_sub_cancel_right,
      ← take_reverse_getElem? hm]
    exact ⟨meet m g, k + 1, j', hk, le_of_succ_le (hj'.trans hj), by rw [hidx], rfl⟩

end

section
variable (env : Env) (nid : ℤ) (flags : Flags) {la lb : List Region}

section
variable (hla : Good la) (hpa : Proper la) (hlb : Good lb) (ha : la.length ≤ intMax)
  (hb : lb.length ≤ intMax)
include hla hpa hlb ha hb

/-- `for_each_mem_range` hands out all meetings, in order. -/
theorem forEachMemRange_spec : ∃ tr, tr.map Prod.fst = allMeetings (wanted env nid flags) la (areas lb) ∧
    ∀ n, (allMeetings (wanted env nid flags) la (areas lb)).length < n →
    forEachMemRange env nid flags la (some lb) n = some tr := by
  rw [← sweep_eq la (areas lb) hla.ordered (areasOrdered hlb)]
  -- the cursors in the index, and what the sweep has left from them
  refine Generator.run_of_relation
    (fun idx L => ∃ i j : ℕ, i ≤ la.length ∧ j ≤ lb.length ∧ unpackA idx = i ∧ unpackB idx = j ∧
      L = sweep (wanted env nid flags) (la.drop i) ((areas lb).drop j)) ?_ _ 0
    ⟨0, 0, zero_le _, zero_le _, by decide, by decide, by simp⟩
  rintro idx L ⟨i, j, hi, hj, h1, h2, rfl⟩
  rw [untilMax, nextMemRange, h1, h2]
  rcases nextLoop_spec hla hpa hlb ha hb (la.length + 1) i j hi hj (by omega) with
    ⟨hnext, h⟩ | ⟨r, i', j', hi', hj', hnext, h⟩
  · exact .inl ⟨by rw [hnext], h⟩
  obtain ⟨hA, hB, hne⟩ := unpack_pack (i := (i' : ℤ)) (j := j') (by omega)
    (by simp only [intMax] at ha; omega) (hj'.trans hb)
  refine .inr ⟨r, pack i' j', _, ?_, h, i', j', hi', hj', hA, hB, rfl⟩
  rw [hnext]
  exact if_neg hne

/-- `for_each_mem_range_rev` hands out all meetings, backwards. -/
theorem forEachMemRangeRev_spec :
    ∃ tr, tr.map Prod.fst = (allMeetings (wanted env nid flags) la (areas lb)).reverse ∧
      ∀ n, (allMeetings (wanted env nid flags) la (areas lb)).length < n →
        forEachMemRangeRev env nid flags la (some lb) n = some tr := by
  have hgs := areasOrdered hlb
  have hsweep : sweepRev (wanted env nid flags) la.reverse (areas lb).reverse =
      (allMeetings (wanted env nid flags) la (areas lb)).reverse := by
    rw [sweepRev_eq _ _ (pairwise_reverse.mpr hla.ordered)
      ⟨pairwise_reverse.mpr hgs.1, fun g hg => hgs.2 g (mem_reverse.mp hg)⟩, allMeetings_reverse]
  rw [← length_reverse, ← hsweep]
  refine Generator.run_of_relation (fun idx L => ∃ k j : ℕ, k ≤ la.length ∧ j ≤ lb.length ∧
      nextMemRangeRev env nid flags la (some lb) idx = nextLoopRev env (fixNid env nid) flags la
      (some lb) (la.length + 1) ((k : ℤ) - 1) j ∧
      L = sweepRev (wanted env nid flags) (la.take k).reverse ((areas lb).take (j + 1)).reverse) ?_ _
      ullongMax ⟨la.length, lb.length, le_rfl, le_rfl, ?_, ?_⟩
  · rintro idx L ⟨k, j, hk, hj, hidx, rfl⟩
    rw [untilMax, hidx]
    rcases nextLoopRev_spec hla hpa hlb ha hb (la.length + 1) k j hk hj (by omega) with
      ⟨hnext, h⟩ | ⟨r, k', j', hk', hj', hnext, h⟩
    · exact .inl ⟨by rw [hnext], h⟩
    obtain ⟨hA, hB, hne⟩ := unpack_pack (i := (k' : ℤ) - 1) (j := j') (by omega)
      (by simp only [intMax] at ha; omega) (hj'.trans hb)
    refine .inr ⟨r, pack ((k' : ℤ) - 1) j', _, ?_, h, k', j', hk', hj', ?_, rfl⟩
    · rw [hnext]
      exact if_neg hne
    · simp only [nextMemRangeRev, if_neg hne, hA, hB]
  · simp only [nextMemRangeRev, if_true]
    rw [toInt_pred ha, toInt_of_range (by omega) (by simp only [intMax] at hb; omega)]
  · rw [take_length, take_of_length_le (by rw [areas, length_areasFrom])]

end

end

end LinuxNote.Memblock
