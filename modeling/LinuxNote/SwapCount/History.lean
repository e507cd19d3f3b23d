import LinuxNote.SwapCount.Digits
import Mathlib.Data.BitVec

/-! The count of a slot over a history of calls. Each slot keeps the digits of its number of references,
    whatever the slots that share its pages do. -/

namespace LinuxNote.SwapCount
open Function Nat List

open Odometer

section
variable {ι : Type*} {a a' : Area ι} {s t : ι} {n d : ℕ} {cache : Bool} {ds : List ℕ}

/-! ### The count of a slot -/

/-- The bytes of `s` are the digits of `n`. -/
structure Holds (a : Area ι) (s : ι) (n : ℕ) (cache : Bool) (d : ℕ) (ds : List ℕ) : Prop where
  digit_lt : d < 63
  canon : Canon 128 ds
  map_eq : a.swapMap s = lowByte d (!ds.isEmpty) cache
  value : n = d + 63 * Nat.ofDigits 128 ds
  digits : ds ≠ [] → ∃ pages, a.cont = some pages ∧ Digits s pages ds

/-- A slot in use, with `n` references. -/
def Counted (a : Area ι) (s : ι) (n : ℕ) : Prop := ∃ cache d ds, Holds a s n cache d ds ∧
    (n = 0 → cache = true)

/-- The value of a slot in use is not 0. -/
theorem Holds.map_ne (h : Holds a s n cache d ds) (huse : n = 0 → cache = true) : a.swapMap s ≠ 0#8 := by
  rw [h.map_eq, Ne, lowByte_eq_zero_iff d h.digit_lt]
  rintro ⟨rfl, hds, hcache⟩
  have hnil : ds = [] := by simpa using hds
  rw [huse (by rw [h.value, hnil]; rfl)] at hcache
  cases hcache

theorem zeroExtend_digit :
    ∀ d < 128, (BitVec.ofNat 8 d).zeroExtend 32 = BitVec.ofNat 32 d := by decide +kernel

/-- The loop over the pages adds up the digits. -/
theorem countPages_digits {pages : List (ι → Byte)} (hlt : ∀ d ∈ ds, d < 128) (hne : ds ≠ [])
    (hdigits : Digits s pages ds) (count m : BitVec 32) :
    countPages s pages count m = .ok (count + BitVec.ofNat 32 (ofDigits 128 ds) * m) := by
  induction ds generalizing pages count m with
  | nil => exact absurd rfl hne
  | cons d ds ih =>
    obtain ⟨zs, hcol⟩ := hdigits
    obtain ⟨page, rest, rfl, hpage, hrest⟩ := map_eq_cons_iff.mp hcol.symm
    have hd := hlt d mem_cons_self
    rw [countPages, hpage, (contByte_fields d hd _).1, (contByte_fields d hd _).2, zeroExtend_digit d hd,
      ofDigits_cons]
    rcases ds with _ | ⟨e, ds⟩
    · simp
    have hmore : (!(e :: ds).isEmpty) = true := rfl
    rw [hmore, if_pos (by decide),
      ih (fun c hc => hlt c (mem_cons_of_mem _ hc)) (by simp) ⟨zs, hrest.symm⟩, BitVec.ofNat_add,
      BitVec.ofNat_mul]
    have h128 : swapContMax.zeroExtend 32 + 1#32 = BitVec.ofNat 32 128 := by decide
    rw [h128]
    congr 1
    ring

/-- `swp_swapcount` reports the count as an `int`. -/
theorem Holds.swapcount (h : Holds a s n cache d ds) (huse : n = 0 → cache = true) :
    swpSwapcount a s = .ok (BitVec.ofNat 32 n).toInt := by
  have hd := h.digit_lt
  rw [swpSwapcount, if_neg (h.map_ne huse), h.map_eq]
  dsimp only
  rw [swapCount, lowByte_count d hd, (lowByte_fields d hd _ false).2.2.2.2, lowByte_digit d hd]
  by_cases hds : ds = []
  · subst hds
    have hn : n = d := by simpa using h.value
    have hmore : (!([] : List ℕ).isEmpty) = false := rfl
    have hbyte : lowByte d false false = BitVec.ofNat 8 d := by simp [lowByte]
    rw [hmore, if_pos (by decide), hn, hbyte, zeroExtend_digit d (by omega)]
  obtain ⟨pages, hcont, hdigits⟩ := h.digits hds
  have hmore : (!ds.isEmpty) = true := by simpa using hds
  rw [hmore, if_neg (by decide), hcont]
  dsimp only
  rw [countPages_digits h.canon.lt hds hdigits, zeroExtend_digit d (by omega)]
  have h63 : swapMapMax.zeroExtend 32 + 1#32 = BitVec.ofNat 32 63 := by decide
  rw [h63, h.value, BitVec.ofNat_add, BitVec.ofNat_mul, BitVec.mul_comm]

/-! ### What a call leaves alone -/

/-- Nothing that `t` reads has changed; pages may have been added. -/
structure Frame (a a' : Area ι) (t : ι) : Prop where
  map_eq : a'.swapMap t = a.swapMap t
  pages : ∀ pages, a.cont = some pages → ∃ pages', a'.cont = some pages' ∧
    column t pages <+: column t pages'

theorem Frame.trans {a'' : Area ι} (h : Frame a a' t) (h' : Frame a' a'' t) : Frame a a'' t := by
  refine ⟨h'.map_eq.trans h.map_eq, fun pages hp => ?_⟩
  obtain ⟨pages', hp', hpre⟩ := h.pages pages hp
  obtain ⟨pages'', hp'', hpre'⟩ := h'.pages pages' hp'
  exact ⟨pages'', hp'', hpre.trans hpre'⟩

theorem Holds.frame (h : Holds a t n cache d ds) (hf : Frame a a' t) : Holds a' t n cache d ds := by
  refine ⟨h.digit_lt, h.canon, hf.map_eq.trans h.map_eq, h.value, fun hne => ?_⟩
  obtain ⟨pages, hcont, hdigits⟩ := h.digits hne
  obtain ⟨pages', hcont', hpre⟩ := hf.pages pages hcont
  exact ⟨pages', hcont', hdigits.trans hpre⟩

theorem Counted.frame (h : Counted a t n) (hf : Frame a a' t) : Counted a' t n := by
  obtain ⟨cache, d, ds, h, huse⟩ := h
  exact ⟨cache, d, ds, h.frame hf, huse⟩

theorem Counted.swapcount (h : Counted a s n) : swpSwapcount a s = .ok (BitVec.ofNat 32 n).toInt := by
  obtain ⟨cache, d, ds, h, huse⟩ := h
  exact h.swapcount huse

/-- A call for `s` leaves it with `n` references and the other slots as they were. -/
structure Leaves (a a' : Area ι) (s : ι) (n : ℕ) : Prop where
  counted : Counted a' s n
  frame : ∀ t ≠ s, Frame a a' t
  cont_ne : a'.cont ≠ some []

variable [DecidableEq ι]

theorem put_swapMap_self (b : Byte) : (a.put s b).swapMap s = b := update_self ..

theorem put_swapMap_of_ne (b : Byte) (hts : t ≠ s) : (a.put s b).swapMap t = a.swapMap t :=
    update_of_ne hts ..

/-- Another lowest digit, or the same one with or without a cache. -/
theorem Holds.put (h : Holds a s n cache d ds) (hcont : a.cont ≠ some []) {d' : ℕ} {cache' : Bool}
    (hd' : d' < 63) (huse : d' + 63 * ofDigits 128 ds = 0 → cache' = true) :
    Leaves a (a.put s (lowByte d' (!ds.isEmpty) cache')) s (d' + 63 * ofDigits 128 ds) :=
  ⟨⟨cache', d', ds, ⟨hd', h.canon, put_swapMap_self _, rfl, h.digits⟩, huse⟩, fun _ ht =>
    ⟨put_swapMap_of_ne _ ht, fun pages hp => ⟨pages, hp, prefix_rfl⟩⟩, hcont⟩

/-- Other digits in the pages. -/
theorem leaves_moved {pages pages' : List (ι → Byte)} (hcont : a.cont = some pages) (hne : pages ≠ [])
    (hm : Moved s pages pages' ds) {d : ℕ} {cache : Bool} (hd : d < 63)
    (huse : d + 63 * ofDigits 128 ds = 0 → cache = true) :
    Leaves a (({ a with cont := some pages' } : Area ι).put s (lowByte d (!ds.isEmpty) cache)) s
      (d + 63 * ofDigits 128 ds) := by
  refine ⟨⟨cache, d, ds, ⟨hd, hm.canon, put_swapMap_self _, rfl, fun _ => ⟨pages', rfl, hm.digits⟩⟩,
    huse⟩, ?_, ?_⟩
  · intro t ht
    refine ⟨put_swapMap_of_ne _ ht, fun q hq => ?_⟩
    cases hcont.symm.trans hq
    exact ⟨pages', rfl, by rw [hm.others t ht]⟩
  · rintro ⟨⟩
    exact hne (length_eq_zero_iff.mp hm.length_eq.symm)

/-! ### One more reference -/

/-- The carry out of `swap_map` is taken by the pages. -/
def Carries (a : Area ι) (s : ι) (ds : List ℕ) : Prop :=
  ∃ pages pages' ds', a.cont = some pages ∧ pages ≠ [] ∧
    swapCountContinued a s (lowByte 62 (!ds.isEmpty) false) =
    .ok (true, { a with cont := some pages' }) ∧ ds' ≠ [] ∧ Nat.ofDigits 128 ds' = Nat.ofDigits 128 ds +
    1 ∧ Moved s pages pages' ds'

omit [DecidableEq ι] in
/-- A further page behind full ones. -/
theorem addSwapCountContinuation_full {pages : List (ι → Byte)}
    (hmap : a.swapMap s = lowByte 62 true cache) (hcont : a.cont = some pages)
    (hneeds : needsPage s (swapMapMax ||| countContinued) pages = true) (page : ι → Byte) :
    addSwapCountContinuation a s (some page) =
      .ok (none, { a with cont := some (pages ++ [page]) }) := by
  have hcount : lowByte 62 true false = swapMapMax ||| countContinued := rfl
  unfold addSwapCountContinuation
  simp only [hmap, hcont, lowByte_count 62 (by decide), lowByte_digit 62 (by decide)]
  rw [hcount, if_pos hneeds]
  cases cache <;> rfl

/-- The digits take the carry, or there is no page for one more digit and a new page takes it. -/
theorem Holds.carries (h : Holds a s n cache 62 ds) (hne : a.cont ≠ some []) :
    Carries a s ds ∨ (swapCountContinued a s (lowByte 62 (!ds.isEmpty) false) = .ok (false, a) ∧
      ∀ page, ∃ a1, addSwapCountContinuation a s (some page) = .ok (none, a1) ∧
      a1.swapMap = a.swapMap ∧ (∀ t, Frame a a1 t) ∧ Carries a1 s ds) := by
  by_cases hds : ds = []
  · subst hds
    rcases hcont : a.cont with _ | pages
    · refine .inr ⟨by rw [swapCountContinued, hcont]; rfl, fun page => ?_⟩
      refine ⟨{ a with cont := some [page] }, ?_, rfl, fun t => ⟨rfl, fun q hq => ?_⟩, ?_⟩
      · simp only [addSwapCountContinuation, h.map_eq, hcont, lowByte_count 62 (by decide),
          lowByte_digit 62 (by decide)]
        cases cache <;> rfl
      · cases hcont.symm.trans hq
      obtain ⟨pages', hrun, hm⟩ :=
        swapCountContinued_first (a := { a with cont := some [page] }) (s := s) rfl
      exact ⟨_, pages', [1], rfl, by simp, hrun, by simp, rfl, hm⟩
    rcases pages with _ | ⟨page, rest⟩
    · exact absurd hcont hne
    obtain ⟨pages', hrun, hm⟩ := swapCountContinued_first (s := s) hcont
    exact .inl ⟨_, pages', [1], hcont, by simp, hrun, by simp, rfl, hm⟩
  obtain ⟨pages, hcont, hdigits⟩ := h.digits hds
  have hmore : (!ds.isEmpty) = true := by simpa using hds
  have hcount : lowByte 62 true false = swapMapMax ||| countContinued := rfl
  have hpne : pages ≠ [] := fun hnil => hne (hnil ▸ hcont)
  have hmap := h.map_eq
  have hcanon := h.canon
  rw [Carries, hmore, hcount]
  obtain ⟨k, u, rfl, hu⟩ := exists_run 127 ds
  cases u with
  | cons d u =>
    -- some digit is below 127
    have hd : d < 127 := by
      have hlt := hcanon.lt d (by simp)
      have hne : d ≠ 127 := by simpa using hu
      omega
    obtain ⟨pages', hrun, hm⟩ := swapCountContinued_carry hcont hcanon hd hdigits
    exact .inl ⟨pages, pages', _, hcont, hpne, hrun, by simp,
      ofDigits_carry (by decide) (ofDigits_head_succ d), hm⟩
  | nil =>
    -- all digits are 127
    obtain ⟨k, rfl⟩ : ∃ k', k = k' + 1 := exists_eq_succ_of_ne_zero (by rintro rfl; exact hds rfl)
    obtain ⟨zs, hcol⟩ := hdigits
    have hval : ofDigits 128 (replicate (k + 1) 0 ++ [1]) =
        ofDigits 128 (replicate (k + 1) 127 ++ []) + 1 := ofDigits_carry (by decide) rfl
    rw [append_nil] at hcol
    obtain ⟨hlast, hnext⟩ := swapCountContinued_full hcont hcol.symm
    by_cases hzs : zs = []
    · obtain ⟨hrun, hneeds⟩ := hlast hzs
      refine .inr ⟨hrun, fun page => ?_⟩
      refine ⟨_, addSwapCountContinuation_full hmap hcont hneeds page, rfl,
        fun t => ⟨rfl, fun q hq => ?_⟩, ?_⟩
      · cases hcont.symm.trans hq
        exact ⟨_, rfl, column_append pages [page] ▸ prefix_append ..⟩
      have hcol' : column s (pages ++ [page]) = cells contByte (replicate (k + 1) 127) ++ [page s] := by
        rw [column_append, ← hcol, hzs, append_nil]
        rfl
      obtain ⟨pages', hrun', hm⟩ :=
        (swapCountContinued_full (a := { a with cont := some (pages ++ [page]) }) rfl hcol').2 (by simp)
      exact ⟨_, pages', _, rfl, by simp, hrun', by simp, hval, hm⟩
    · obtain ⟨pages', hrun, hm⟩ := hnext hzs
      exact .inl ⟨pages, pages', _, hcont, hpne, hrun, by simp, hval, hm⟩

/-- `__swap_duplicate` of a slot in use, up to what becomes of its count. -/
theorem Holds.duplicateOnce (h : Holds a s n cache d ds) (huse : n = 0 → cache = true) :
    swapDuplicateOnce a s 1#8 = if d < 62 then .ok (none, a.put s (lowByte (d + 1) (!ds.isEmpty) cache))
      else
        match swapCountContinued a s (lowByte d (!ds.isEmpty) false) with
        | .error b => .error b
        | .ok (true, a) => .ok (none, a.put s (countContinued ||| cacheByte cache))
        | .ok (false, a) => .ok (some .enomem, a.put s (lowByte d (!ds.isEmpty) cache)) := by
  have hd := h.digit_lt
  have hused : lowByte d (!ds.isEmpty) false ≠ 0#8 ∨ cacheByte cache ≠ 0#8 := by
    by_contra hnot
    rw [not_or, not_not, not_not] at hnot
    refine h.map_ne huse ?_
    rw [h.map_eq, ← lowByte_or_cache d hd, hnot.1, hnot.2]
    rfl
  have hbad : swapCount (lowByte d (!ds.isEmpty) cache) ≠ swapMapBad := by
    rw [swapCount, lowByte_count d hd]
    exact (lowByte_ne d hd _).1
  unfold swapDuplicateOnce
  simp only [h.map_eq, lowByte_count d hd, lowByte_cache d hd, lowByte_digit d hd]
  rw [if_neg hbad, if_neg (by decide), if_pos hused]
  by_cases hlt : d < 62
  · rw [if_pos hlt, if_pos ((digit_lt_max_iff d hd).1.mpr hlt), lowByte_succ d,
      lowByte_or_cache _ (by omega)]
  rw [if_neg hlt, if_neg (mt (digit_lt_max_iff d hd).1.mp hlt),
    if_neg (BitVec.not_lt.mpr (digit_lt_max_iff d hd).2)]
  rcases swapCountContinued a s (lowByte d (!ds.isEmpty) false) with b | ⟨_ | _, a'⟩
  · rfl
  · simp only [lowByte_or_cache d hd]
  · rfl

/-- A carry makes one more reference. -/
theorem Holds.duplicate_carry (h : Holds a s n cache 62 ds) (huse : n = 0 → cache = true)
    (hc : Carries a s ds) : ∃ a', swapDuplicateOnce a s 1#8 = .ok (none, a') ∧
    Leaves a a' s (n + 1) := by
  obtain ⟨pages, pages', ds', hcont, hpne, hrun, hds', hval, hm⟩ := hc
  refine ⟨_, by rw [h.duplicateOnce huse, if_neg (by decide), hrun], ?_⟩
  have hbyte : countContinued ||| cacheByte cache = lowByte 0 (!ds'.isEmpty) cache := by
    have hmore : (!ds'.isEmpty) = true := by simpa using hds'
    rw [hmore, ← lowByte_or_cache 0 (by decide)]
    rfl
  have hn : n + 1 = 0 + 63 * ofDigits 128 ds' := by
    rw [h.value, hval]
    omega
  rw [hbyte, hn]
  refine leaves_moved hcont hpne hm (by decide) ?_
  omega

/-- A loop that has ended has also ended with more rounds. -/
theorem swapDuplicate_mono {pages : ℕ → Option (ι → Byte)} {r : Except Bug (Option Errno × Area ι)}
    (fuel : ℕ) (h : swapDuplicate fuel pages a s = some r) : swapDuplicate (fuel + 1) pages a s =
      some r := by
  induction fuel generalizing pages a with
  | zero => cases h
  | succ fuel ih =>
    rw [swapDuplicate] at h ⊢
    split at h
    · exact h
    · split at h
      · exact h
      · exact h
      · exact ih h
    · exact h

/-- `swap_duplicate` goes around its loop at most twice. -/
theorem Counted.duplicate (h : Counted a s n) (hne : a.cont ≠ some []) {pages : ℕ → Option (ι → Byte)}
    (hpages : ∀ k, (pages k).isSome) :
    ∃ a', (∀ fuel, swapDuplicate (fuel + 2) pages a s = some (.ok (none, a'))) ∧
    Leaves a a' s (n + 1) := by
  obtain ⟨cache, d, ds, h, huse⟩ := h
  have hd := h.digit_lt
  by_cases hlt : d < 62
  · refine ⟨a.put s (lowByte (d + 1) (!ds.isEmpty) cache), fun fuel => ?_, ?_⟩
    · rw [swapDuplicate, h.duplicateOnce huse, if_pos hlt]
    have hn : n + 1 = (d + 1) + 63 * ofDigits 128 ds := by
      rw [h.value]
      omega
    rw [hn]
    exact h.put hne (by omega) (by omega)
  obtain rfl : d = 62 := by omega
  rcases h.carries hne with hc | ⟨hrun, hadd⟩
  · obtain ⟨a', hdup, hl⟩ := h.duplicate_carry huse hc
    exact ⟨a', fun fuel => by rw [swapDuplicate, hdup], hl⟩
  -- the first attempt needs a page, and with it the second one is done
  obtain ⟨page, hpage⟩ := Option.isSome_iff_exists.mp (hpages 0)
  obtain ⟨a1, hadd, hmap, hframe, hc⟩ := hadd page
  obtain ⟨a', hdup, hl⟩ := (h.frame (hframe s)).duplicate_carry huse hc
  refine ⟨a', fun fuel => ?_, hl.counted, fun t ht => (hframe t).trans (hl.frame t ht), hl.cont_ne⟩
  have hput : a.put s (lowByte 62 (!ds.isEmpty) cache) = a := by
    rw [Area.put, ← h.map_eq, update_eq_self]
  rw [swapDuplicate, h.duplicateOnce huse, if_neg (by decide), hrun]
  dsimp only
  rw [hput, hpage, hadd]
  dsimp only
  rw [swapDuplicate, hdup]

/-! ### One reference less, and the cache -/

/-- `__swap_entry_free_locked` puts back what is left. A slot with nothing left keeps `SWAP_HAS_CACHE`
    until it is free. -/
theorem Holds.put_left (h : Holds a s n cache d ds) (hne : a.cont ≠ some []) {d' : ℕ} (hd' : d' < 63)
    (cache' : Bool) : Leaves a (a.put s (if lowByte d' (!ds.isEmpty) cache' ≠
        0#8 then lowByte d' (!ds.isEmpty) cache' else swapHasCache)) s (d' + 63 * ofDigits 128 ds) := by
  rw [lowByte_left d' hd']
  refine h.put hne hd' fun h0 => ?_
  have hnil : ds = [] := by
    by_contra hds
    have := h.canon.ofDigits_pos (by decide) hds
    omega
  obtain rfl : d' = 0 := by omega
  simp [hnil]

/-- `swap_free` of a slot with references. -/
theorem Counted.free (h : Counted a s (n + 1)) (hne : a.cont ≠ some []) :
    ∃ a', swapFree a s = .ok a' ∧ Leaves a a' s n := by
  obtain ⟨cache, d, ds, h, huse⟩ := h
  have hd := h.digit_lt
  have hvalue := h.value
  rw [swapFree, if_neg (h.map_ne huse)]
  unfold swapEntryFreeLocked
  simp only [h.map_eq, lowByte_count d hd, lowByte_cache d hd, lowByte_digit d hd]
  rw [if_neg (by decide), if_neg (lowByte_ne d hd _).2, if_pos (digit_lt_max_iff d hd).2]
  rcases d with _ | d
  · -- the borrow
    have hds : ds ≠ [] := by
      rintro rfl
      simp at hvalue
    obtain ⟨pages, hcont, hdigits⟩ := h.digits hds
    obtain ⟨pages', ds', hrun, hval, hm⟩ := swapCountContinued_borrow hcont h.canon hds hdigits
    have hmore : (!ds.isEmpty) = true := by simpa using hds
    have hcount : lowByte 0 true false = countContinued := rfl
    have hn : n = 62 + 63 * ofDigits 128 ds' := by
      omega
    have hmax :
      (if swapMapMax ||| cacheByte cache ≠ 0#8 then swapMapMax ||| cacheByte cache else swapHasCache) =
      lowByte 62 false cache := by cases cache <;> decide
    have hfull : (if swapMapMax ||| countContinued ||| cacheByte cache ≠ 0#8
        then swapMapMax ||| countContinued ||| cacheByte cache else swapHasCache) =
        lowByte 62 true cache := by
      cases cache <;> decide
    have hput := leaves_moved hcont (fun hnil => hne (hnil ▸ hcont)) hm (by decide)
      (show 62 + 63 * ofDigits 128 ds' = 0 → cache = true by omega)
    rw [← hn] at hput
    refine ⟨_, ?_, hput⟩
    rw [hmore, hcount, if_pos rfl, hrun]
    cases ds' with
    | nil => exact congrArg (fun b => Except.ok (Area.put { a with cont := some pages' } s b)) hmax
    | cons e ds' =>
      exact congrArg (fun b => Except.ok (Area.put { a with cont := some pages' } s b)) hfull
  have hcount : lowByte (d + 1) (!ds.isEmpty) false ≠ countContinued := by
    rw [show countContinued = lowByte 0 true false from rfl, Ne, lowByte_inj (by omega) (by decide)]
    omega
  have hn : n = d + 63 * ofDigits 128 ds := by omega
  rw [if_neg hcount, ← lowByte_succ, BitVec.add_sub_cancel, lowByte_or_cache d (by omega)]
  exact ⟨_, rfl, hn ▸ h.put_left hne (by omega) cache⟩

/-- `swapcache_prepare`. -/
theorem Counted.prepare (h : Counted a s n) (hne : a.cont ≠ some []) :
    ∃ err a', swapDuplicateOnce a s swapHasCache = .ok (err, a') ∧ Leaves a a' s n := by
  obtain ⟨cache, d, ds, h, huse⟩ := h
  have hd := h.digit_lt
  have hbad : swapCount (lowByte d (!ds.isEmpty) cache) ≠ swapMapBad := by
    rw [swapCount, lowByte_count d hd]
    exact (lowByte_ne d hd _).1
  have hput : ∀ cache' : Bool, (n = 0 → cache' = true) →
    Leaves a (a.put s (lowByte d (!ds.isEmpty) cache')) s n := by
    intro cache' huse'
    have := h.put hne hd (h.value ▸ huse')
    rwa [← h.value] at this
  unfold swapDuplicateOnce
  simp only [h.map_eq, lowByte_count d hd, lowByte_cache d hd, lowByte_or_cache d hd]
  rw [if_neg hbad]
  have hcache : lowByte d (!ds.isEmpty) false ||| swapHasCache = lowByte d (!ds.isEmpty) true :=
    lowByte_or_cache d hd _ true
  rw [if_true, hcache]
  split
  · exact ⟨_, _, rfl, hput true fun _ => rfl⟩
  split
  · exact ⟨_, _, rfl, hput cache huse⟩
  · exact ⟨_, _, rfl, hput cache huse⟩

/-- The cache of a slot is dropped. -/
theorem Counted.uncache (h : Counted a s n) (hne : a.cont ≠ some [])
    (hcache : a.swapMap s &&& swapHasCache ≠ 0#8) :
    ∃ usage a', swapEntryFreeLocked a s swapHasCache = .ok (usage, a') ∧ Leaves a a' s n := by
  obtain ⟨cache, d, ds, h, huse⟩ := h
  have hd := h.digit_lt
  rw [h.map_eq, lowByte_cache d hd] at hcache
  unfold swapEntryFreeLocked
  simp only [h.map_eq, lowByte_count d hd, lowByte_cache d hd]
  rw [if_true, if_neg hcache, h.value]
  exact ⟨_, _, rfl, h.put_left hne hd false⟩

end

/-! ### Histories -/

section
variable {ι : Type*} [DecidableEq ι] {a a' : Area ι} {refs : ι → ℕ}

/-- The slots right after they have been allocated. -/
def Area.allocated : Area ι := ⟨fun _ => swapHasCache, none⟩

/-- Histories of calls for the slots of one page of `swap_map`, with the number of references of each
    slot. A slot that has no reference is not freed, and a cache that is dropped is there. -/
inductive Runs : Area ι → (ι → ℕ) → Prop
  | start : Runs .allocated fun _ => 0
  | duplicate {a a' : Area ι} {refs : ι → ℕ} {fuel : ℕ} {pages : ℕ → Option (ι → Byte)} (s : ι)
      (h : Runs a refs) (hpages : ∀ k, (pages k).isSome)
      (hrun : swapDuplicate fuel pages a s = some (.ok (none, a'))) :
      Runs a' (Function.update refs s (refs s + 1))
  | free {a a' : Area ι} {refs : ι → ℕ} (s : ι) (h : Runs a refs) (hs : 0 < refs s)
      (hrun : swapFree a s = .ok a') : Runs a' (Function.update refs s (refs s - 1))
  | prepare {a a' : Area ι} {refs : ι → ℕ} {err : Option Errno} (s : ι) (h : Runs a refs)
      (hrun : swapDuplicateOnce a s swapHasCache = .ok (err, a')) : Runs a' refs
  | uncache {a a' : Area ι} {refs : ι → ℕ} {usage : Byte} (s : ι) (h : Runs a refs)
      (hs : a.swapMap s &&& swapHasCache ≠ 0#8)
      (hrun : swapEntryFreeLocked a s swapHasCache = .ok (usage, a')) : Runs a' refs

/-- Every slot has the digits of its count. -/
structure Inv (a : Area ι) (refs : ι → ℕ) : Prop where
  counted : ∀ s, Counted a s (refs s)
  cont_ne : a.cont ≠ some []

theorem Inv.leaves {s : ι} {n : ℕ} (h : Inv a refs) (hl : Leaves a a' s n) :
    Inv a' (update refs s n) := by
  refine ⟨fun t => ?_, hl.cont_ne⟩
  by_cases ht : t = s
  · rw [ht, update_self]
    exact hl.counted
  rw [update_of_ne ht]
  exact (h.counted t).frame (hl.frame t ht)

omit [DecidableEq ι] in
theorem inv_allocated : Inv (.allocated : Area ι) fun _ => 0 :=
  ⟨fun _ => ⟨true, 0, [], ⟨by decide, canon_nil, rfl, rfl, fun h => absurd rfl h⟩, fun _ => rfl⟩,
    by simp [Area.allocated]⟩

theorem Runs.inv (h : Runs a refs) : Inv a refs := by
  induction h with
  | start => exact inv_allocated
  | duplicate s _ hpages hrun ih =>
    obtain ⟨a1, hdup, hl⟩ := (ih.counted s).duplicate ih.cont_ne hpages
    cases (swapDuplicate_mono _ (swapDuplicate_mono _ hrun)).symm.trans (hdup _)
    exact ih.leaves hl
  | free s _ hs hrun ih =>
    obtain ⟨n, hn⟩ := exists_eq_succ_of_ne_zero (ne_of_gt hs)
    have hcounted := ih.counted s
    rw [hn] at hcounted
    obtain ⟨a1, hfree, hl⟩ := hcounted.free ih.cont_ne
    cases hrun.symm.trans hfree
    rw [hn]
    exact ih.leaves hl
  | prepare s _ hrun ih =>
    obtain ⟨err, a1, hprep, hl⟩ := (ih.counted s).prepare ih.cont_ne
    cases hrun.symm.trans hprep
    have := ih.leaves hl
    rwa [update_eq_self] at this
  | uncache s _ hs hrun ih =>
    obtain ⟨usage, a1, huncache, hl⟩ := (ih.counted s).uncache ih.cont_ne hs
    cases hrun.symm.trans huncache
    have := ih.leaves hl
    rwa [update_eq_self] at this

/-- In every history `swp_swapcount` reports the number of references as an `int`, which is exact below
    `2^31`. `swap_duplicate` ends with 0 and `swap_free` ends, none of the `BUG_ON`s is reached, and the
    other slots do not notice. -/
theorem runs_counts (h : Runs a refs) :
    (∀ s, ∃ count, swpSwapcount a s = .ok count ∧ count = (BitVec.ofNat 32 (refs s)).toInt ∧
      (count = refs s ↔ refs s < 2 ^ 31)) ∧
    (∀ s pages, (∀ k, (pages k : Option (ι → Byte)).isSome) →
      ∃ a', (∀ fuel, 2 ≤ fuel → swapDuplicate fuel pages a s = some (.ok (none, a'))) ∧
      ∀ t ≠ s, swpSwapcount a' t = swpSwapcount a t) ∧
    ∀ s, 0 < refs s → ∃ a', swapFree a s = .ok a' ∧
    ∀ t ≠ s, swpSwapcount a' t = swpSwapcount a t := by
  have hinv := h.inv
  have hothers : ∀ {s : ι} {a' : Area ι} {n : ℕ}, Leaves a a' s n → ∀ t ≠ s,
    swpSwapcount a' t = swpSwapcount a t := by
    intro s a' n hl t ht
    rw [(hinv.counted t).swapcount, ((hinv.counted t).frame (hl.frame t ht)).swapcount]
  refine ⟨fun s => ?_, fun s pages hpages => ?_, fun s hs => ?_⟩
  · refine ⟨_, (hinv.counted s).swapcount, rfl, ?_⟩
    rw [BitVec.toInt_eq_toNat_cond, BitVec.toNat_ofNat]
    split <;> omega
  · obtain ⟨a', hdup, hl⟩ := (hinv.counted s).duplicate hinv.cont_ne hpages
    refine ⟨a', fun fuel hfuel => ?_, hothers hl⟩
    obtain ⟨k, rfl⟩ := Nat.exists_eq_add_of_le' hfuel
    exact hdup k
  obtain ⟨n, hn⟩ := Nat.exists_eq_succ_of_ne_zero (Nat.ne_of_gt hs)
  have hcounted := hinv.counted s
  rw [hn] at hcounted
  obtain ⟨a', hfree, hl⟩ := hcounted.free hinv.cont_ne
  exact ⟨a', hfree, hothers hl⟩

end

/-- One slot is duplicated as often as one likes. -/
theorem exists_runs (n : ℕ) : ∃ a refs, Runs (a : Area Unit) refs ∧ refs () = n := by
  induction n with
  | zero => exact ⟨_, _, .start, rfl⟩
  | succ n ih =>
    obtain ⟨a, refs, h, hn⟩ := ih
    have hpages : ∀ k, ((fun _ => some fun _ => 0x55#8 : ℕ → Option (Unit → Byte)) k).isSome :=
      fun _ => rfl
    obtain ⟨a', hdup, -⟩ := (h.inv.counted ()).duplicate h.inv.cont_ne hpages
    exact ⟨a', _, h.duplicate () hpages (hdup 0), by rw [update_self, hn]⟩

/-- A slot with ten thousand references, which take two continuation pages. -/
theorem runs_counts_ten_thousand :
    ∃ a refs, Runs (a : Area Unit) refs ∧ refs () = 10000 ∧ swpSwapcount a () = .ok 10000 := by
  obtain ⟨a, refs, h, hn⟩ := exists_runs 10000
  obtain ⟨count, hcount, -, hexact⟩ := (runs_counts h).1 ()
  exact ⟨a, refs, h, hn, by rw [hcount, hexact.mpr (by rw [hn]; decide), hn]; rfl⟩

/-- With `2^31` references `swp_swapcount` reports a negative number. -/
theorem runs_counts_negative :
    ∃ a refs, Runs (a : Area Unit) refs ∧ refs () = 2 ^ 31 ∧ swpSwapcount a () = .ok (-2147483648) := by
  obtain ⟨a, refs, h, hn⟩ := exists_runs (2 ^ 31)
  refine ⟨a, refs, h, hn, ?_⟩
  rw [(h.inv.counted ()).swapcount, hn]
  rfl

end LinuxNote.SwapCount
