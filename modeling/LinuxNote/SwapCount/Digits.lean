import LinuxNote.Lib.Odometer
import LinuxNote.SwapCount.Basic

/-! The bytes of a slot as the digits of its count. The byte of `swap_map` holds the lowest digit, to the
    base 63, and the bytes of the continuation pages hold the others, to the base 128. -/

namespace LinuxNote.SwapCount
open Function List Nat

open Odometer

/-- A byte of `swap_map`. -/
def lowByte (d : ℕ) (more cache : Bool) : Byte :=
  BitVec.ofNat 8 (d + (if cache then 64 else 0) + (if more then 128 else 0))

/-- A byte of a continuation page. -/
def contByte (d : ℕ) (more : Bool) : Byte := BitVec.ofNat 8 (d + (if more then 128 else 0))

/-- `SWAP_HAS_CACHE` or nothing. -/
def cacheByte (cache : Bool) : Byte := if cache then swapHasCache else 0#8

/-! ### Bytes -/

theorem contByte_full : contByte 127 true = swapContMax ||| countContinued := rfl

theorem contByte_max : contByte 127 false = swapContMax := rfl

theorem contByte_continued : contByte 0 true = countContinued := rfl

section
variable {d d' : ℕ} {more more' cache cache' : Bool}

theorem lowByte_toNat (hd : d < 64) :
    (lowByte d more cache).toNat = d + (if cache then 64 else 0) + (if more then 128 else 0) := by
  rw [lowByte, BitVec.toNat_ofNat]
  apply mod_eq_of_lt
  cases more <;> cases cache <;> simp <;> omega

theorem contByte_toNat (hd : d < 128) : (contByte d more).toNat = d + (if more then 128 else 0) := by
  rw [contByte, BitVec.toNat_ofNat]
  apply mod_eq_of_lt
  cases more <;> simp <;> omega

theorem lowByte_inj (hd : d < 64) (hd' : d' < 64) :
    lowByte d more cache = lowByte d' more' cache' ↔ d = d' ∧ more = more' ∧ cache = cache' := by
  constructor
  · intro h
    have hval := congrArg BitVec.toNat h
    rw [lowByte_toNat hd, lowByte_toNat hd'] at hval
    cases more <;> cases cache <;> cases more' <;> cases cache' <;> simp at hval ⊢ <;> omega
  · rintro ⟨rfl, rfl, rfl⟩
    rfl

theorem contByte_inj (hd : d < 128) (hd' : d' < 128) : contByte d more = contByte d' more' ↔ d = d' ∧
    more = more' := by
  constructor
  · intro h
    have hval := congrArg BitVec.toNat h
    rw [contByte_toNat hd, contByte_toNat hd'] at hval
    cases more <;> cases more' <;> simp at hval ⊢ <;> omega
  · rintro ⟨rfl, rfl⟩
    rfl

end

/-- The fields of a byte of `swap_map`. -/
theorem lowByte_fields :
    ∀ d < 63, ∀ more cache, lowByte d more cache &&& ~~~swapHasCache = lowByte d more false ∧
    lowByte d more cache &&& swapHasCache = cacheByte cache ∧ lowByte d more false ||| cacheByte cache =
      lowByte d more cache ∧ lowByte d more false &&& ~~~countContinued = BitVec.ofNat 8 d ∧
    lowByte d more false &&& countContinued = if more then countContinued else 0#8 := by
  decide +kernel

/-- The fields of a byte of a continuation page. -/
theorem contByte_fields : ∀ d < 128, ∀ more, contByte d more &&& ~~~countContinued = BitVec.ofNat 8 d ∧
    contByte d more &&& countContinued = if more then countContinued else 0#8 := by
  decide +kernel

section
variable (d : ℕ) (hd : d < 63)
include d hd

theorem lowByte_count (more cache : Bool) :
    lowByte d more cache &&& ~~~swapHasCache = lowByte d more false :=
  (lowByte_fields d hd more cache).1

theorem lowByte_cache (more cache : Bool) : lowByte d more cache &&& swapHasCache = cacheByte cache :=
  (lowByte_fields d hd more cache).2.1

theorem lowByte_or_cache (more cache : Bool) :
    lowByte d more false ||| cacheByte cache = lowByte d more cache :=
  (lowByte_fields d hd more cache).2.2.1

theorem lowByte_digit (more : Bool) : lowByte d more false &&& ~~~countContinued = BitVec.ofNat 8 d :=
  (lowByte_fields d hd more false).2.2.2.1

theorem lowByte_ne (more : Bool) :
    lowByte d more false ≠ swapMapBad ∧ lowByte d more false ≠ swapMapShmem := by
  constructor
  · intro h
    have :=
      (lowByte_inj (by omega) (by decide)).mp (show lowByte d more false = lowByte 63 false false from h)
    omega
  intro h
  have :=
    (lowByte_inj (by omega) (by decide)).mp (show lowByte d more false = lowByte 63 true false from h)
  omega

theorem lowByte_eq_zero_iff (more cache : Bool) : lowByte d more cache = 0#8 ↔ d = 0 ∧ more = false ∧
    cache = false := by
  rw [← lowByte_inj (by omega) (by decide)]
  rfl

/-- What `__swap_entry_free_locked` puts in the place of nothing left. -/
theorem lowByte_left (more cache : Bool) :
    (if lowByte d more cache ≠ 0#8 then lowByte d more cache else swapHasCache) =
      lowByte d more (cache || d == 0 && !more) := by
  split
  · next hne =>
    rw [Ne, lowByte_eq_zero_iff d hd] at hne
    congr 1
    cases more <;> cases cache <;> simp_all
  next heq =>
  obtain ⟨rfl, rfl, rfl⟩ := (lowByte_eq_zero_iff d hd more cache).mp (not_not.mp heq)
  rfl

end

theorem lowByte_succ (d : ℕ) (more : Bool) :
    lowByte d more false + 1#8 = lowByte (d + 1) more false := by
  rw [lowByte, lowByte, ← BitVec.ofNat_add]
  congr 1
  omega

theorem digit_lt_max_iff (d : ℕ) (hd : d < 63) : (BitVec.ofNat 8 d < swapMapMax ↔ d < 62) ∧
    BitVec.ofNat 8 d ≤ swapMapMax := by
  have hval : (BitVec.ofNat 8 d).toNat = d := by
    rw [BitVec.toNat_ofNat]
    omega
  rw [BitVec.lt_def, BitVec.le_def, hval]
  exact ⟨.rfl, Nat.lt_succ_iff.mp hd⟩

theorem contByte_eq_zero_iff (d : ℕ) (hd : d < 128) (more : Bool) :
    contByte d more = 0#8 ↔ d = 0 ∧ more = false := by
  rw [← contByte_inj hd (by decide)]
  rfl

theorem contByte_succ (d : ℕ) (more : Bool) : contByte d more + 1#8 = contByte (d + 1) more := by
  rw [contByte, contByte, ← BitVec.ofNat_add]
  congr 1
  omega

/-! ### Columns

The bytes of one slot in all the pages. -/

section
variable {ι : Type*} {s t : ι} {b x y : Byte} {k : ℕ} {front rest pages : List (ι → Byte)}
  {page : ι → Byte}

def column (s : ι) (pages : List (ι → Byte)) : List Byte := pages.map (· s)

/-- The pages hold the digits `ds` of `s`; what is behind them is left from other counts. -/
def Digits (s : ι) (pages : List (ι → Byte)) (ds : List ℕ) : Prop := cells contByte ds <+: column s pages

variable {zs : List Byte} {d : ℕ} {u : List ℕ}

/-- The walk stops at the first page with another byte. -/
theorem forward_spec (hcol : column s pages = replicate k x ++ y :: zs) (hne : y ≠ x)
    (behind : List (ι → Byte)) :
    ∃ front page rest, forward s x behind pages = (front.reverse ++ behind, page :: rest) ∧
    pages = front ++ page :: rest ∧ column s front = replicate k x ∧ page s = y ∧
    column s rest = zs := by
  induction k generalizing pages behind with
  | zero =>
    obtain ⟨page, rest, rfl, hpage, hrest⟩ := map_eq_cons_iff.mp hcol
    exact ⟨[], page, rest, by rw [forward, if_neg (by rw [hpage]; exact hne)]; rfl, rfl, rfl,
      hpage, hrest⟩
  | succ k ih =>
    obtain ⟨p, rest', rfl, hp, hrest'⟩ := map_eq_cons_iff.mp hcol
    obtain ⟨front, page, rest, hfwd, rfl, hfront, hpage, hrest⟩ := ih hrest' (p :: behind)
    refine ⟨p :: front, page, rest, ?_, rfl, ?_, hpage, hrest⟩
    · rw [forward, if_pos hp, hfwd]
      simp
    rw [column, map_cons, hp, ← column, hfront]
    rfl

theorem column_append (l l' : List (ι → Byte)) : column s (l ++ l') = column s l ++ column s l' :=
    map_append

variable [DecidableEq ι]

theorem column_setMap_self : column s (pages.map (setMap s b)) = replicate pages.length b := by
  induction pages with
  | nil => rfl
  | cons p pages ih =>
    rw [map_cons, column, map_cons, ← column, ih, setMap, update_self]
    rfl

theorem column_setMap_of_ne (hts : t ≠ s) : column t (pages.map (setMap s b)) = column t pages := by
  rw [column, column, map_map]
  refine map_congr_left fun p _ => ?_
  exact update_of_ne hts _ _

theorem borrow_continued (behind : List (ι → Byte)) : borrow s behind countContinued =
      (behind.map (setMap s (swapContMax ||| countContinued)), countContinued) := by
  induction behind with
  | nil => rfl
  | cons p behind ih => rw [borrow, ih]; rfl

/-- The highest digit is used up, and the one before it becomes the highest. -/
theorem decrement_top (p : ι → Byte) (h0 : page s - 1#8 = 0#8) :
    decrement s (front ++ [p]).reverse page rest =
      (true, front.map (setMap s (swapContMax ||| countContinued)) ++ setMap s swapContMax p ::
      setMap s (page s - 1#8) page :: rest) := by
  have hset : setMap s (page s - 1#8) page s = page s - 1#8 := update_self ..
  rw [decrement]
  rw [hset, if_pos h0, reverse_append, reverse_singleton, singleton_append, borrow, borrow_continued,
    map_reverse]
  simp [countContinued, swapContMax]

/-! ### Counting up and down -/

/-- A number in other digits, in pages that are the same for the other slots. -/
structure Moved (s : ι) (pages pages' : List (ι → Byte)) (ds' : List ℕ) : Prop where
  canon : Canon 128 ds'
  digits : Digits s pages' ds'
  others : ∀ t ≠ s, column t pages' = column t pages
  length_eq : pages'.length = pages.length

/-- `*map += 1` behind full digits. -/
theorem moved_increment (front : List (ι → Byte)) (hcanon : Canon 128 (d :: u))
    (hpage : page s + 1#8 = contByte d (!u.isEmpty)) (hrest : column s rest = cells contByte u ++ zs) :
    Moved s (front ++ page :: rest) (increment s front.reverse page rest)
    (replicate front.length 0 ++ d :: u) := by
  rw [increment, map_reverse, reverse_reverse]
  refine ⟨canon_replicate_append (by decide) hcanon (by simp), ⟨zs, ?_⟩, fun t ht => ?_, by simp⟩
  · rw [column_append, column_setMap_self, cells_replicate_append _ (by simp), cells, ← hpage,
      append_assoc, cons_append, ← hrest]
    simp [column, setMap, contByte, countContinued]
  rw [column_append, column_append, column_setMap_of_ne ht]
  simp [column, setMap, update_of_ne ht]

/-- The carry into a page that is cleared first. -/
theorem moved_increment_cleared (front : List (ι → Byte)) (page : ι → Byte) (rest : List (ι → Byte)) :
    Moved s (front ++ page :: rest) (increment s front.reverse (setMap s 0#8 page) rest)
    (replicate front.length 0 ++ [1]) := by
  have hzero : setMap s 0#8 page s + 1#8 = contByte 1 (!([] : List ℕ).isEmpty) := by
    rw [setMap, update_self]
    rfl
  have hmoved :=
    moved_increment front ⟨by simp, by simp⟩ hzero (show column s rest = cells contByte [] ++ _ from rfl)
  refine ⟨hmoved.canon, hmoved.digits, fun t ht => (hmoved.others t ht).trans ?_, by simp [increment]⟩
  simp [column, setMap, update_of_ne ht]

/-- `*map -= 1` behind zeros. -/
theorem moved_decrement (hcanon : Canon 128 (replicate front.length 0 ++ (d + 1) :: u))
    (hpage : page s = contByte (d + 1) (!u.isEmpty)) (hrest : column s rest = cells contByte u ++ zs) :
    ∃ ds', (decrement s front.reverse page rest).1 = !ds'.isEmpty ∧
    ofDigits 128 (replicate front.length 0 ++ (d + 1) :: u) = ofDigits 128 ds' + 1 ∧
    Moved s (front ++ page :: rest) (decrement s front.reverse page rest).2 ds' := by
  have hlt : d + 1 < 128 := hcanon.lt _ (by simp)
  have hpred : page s - 1#8 = contByte d (!u.isEmpty) := by
    rw [hpage, ← contByte_succ, BitVec.add_sub_cancel]
  have hset : setMap s (page s - 1#8) page s = page s - 1#8 := update_self ..
  by_cases htop : d = 0 ∧ u = []
  · obtain ⟨rfl, rfl⟩ := htop
    have h0 : page s - 1#8 = 0#8 := hpred
    refine ⟨replicate front.length 127, ?_⟩
    have hval : ofDigits 128 (replicate front.length 0 ++ [0 + 1]) =
        ofDigits 128 (replicate front.length 127 ++ []) + 1 := ofDigits_carry (by decide) rfl
    rw [append_nil] at hval
    rcases eq_nil_or_concat front with rfl | ⟨front, p, rfl⟩
    · rw [reverse_nil, decrement, hset, if_pos h0, borrow]
      refine ⟨rfl, hval, canon_nil, nil_prefix, fun t ht => ?_, rfl⟩
      simp [column, setMap, update_of_ne ht]
    rw [concat_eq_append] at hval ⊢
    rw [decrement_top p h0]
    refine ⟨by simp, hval, canon_replicate (by decide) (by decide), ?_, fun t ht => ?_, by simp⟩
    · refine ⟨(page s - 1#8) :: column s rest, ?_⟩
      rw [column_append, column_setMap_self, length_append, length_singleton, cells_replicate,
        contByte_full, contByte_max]
      simp [column, setMap]
    · rw [column_append, column_append, column_append, column_setMap_of_ne ht]
      simp [column, setMap, update_of_ne ht]
  have hne0 : page s - 1#8 ≠ 0#8 := by
    rw [hpred, Ne, contByte_eq_zero_iff d (by omega)]
    simpa using htop
  rw [decrement]
  dsimp only
  rw [hset, if_neg hne0, borrow_continued, map_reverse, reverse_reverse]
  refine ⟨replicate front.length 127 ++ d :: u, ?_, ?_, ?_, ?_, ?_, by simp⟩
  · rw [isEmpty_eq_false_iff.mpr (by simp)]
    rfl
  · exact ofDigits_carry (by decide) (ofDigits_head_succ d)
  · exact canon_replicate_append (by decide) (hcanon.head (by omega) (by tauto)) (by simp)
  · refine ⟨zs, ?_⟩
    rw [column_append, column_setMap_self, cells_replicate_append _ (by simp), cells, ← hpred,
      append_assoc, contByte_full, cons_append, ← hrest]
    simp [column, setMap]
  intro t ht
  rw [column_append, column_append, column_setMap_of_ne ht]
  simp [column, setMap, update_of_ne ht]

omit [DecidableEq ι] in
/-- All the pages are full, and the last one says that it is the last. -/
theorem needsPage_full {count : Byte} (hcount : count &&& countContinued ≠ 0#8)
    (hcol : column s pages = replicate k (contByte 127 true) ++ [contByte 127 false]) :
    needsPage s count pages = true := by
  induction k generalizing count pages with
  | zero =>
    obtain ⟨page, rest, rfl, hpage, hrest⟩ := map_eq_cons_iff.mp hcol
    obtain rfl := map_eq_nil_iff.mp hrest
    rw [needsPage, if_neg hcount, hpage, if_neg (by decide)]
    rfl
  | succ k ih =>
    obtain ⟨page, rest, rfl, hpage, hrest⟩ := map_eq_cons_iff.mp hcol
    rw [needsPage, if_neg hcount, hpage, if_neg (by decide)]
    exact ih (by decide) hrest

variable {a : Area ι} {ds : List ℕ}

omit [DecidableEq ι] in
theorem length_of_column {n : ℕ} (h : column s front = replicate n x) : front.length = n := by
  simpa [column] using congrArg length h

section
variable (hcont : a.cont = some pages)
include hcont

/-- The carry from `swap_map` stops at a digit below 127. -/
theorem swapCountContinued_carry (hcanon : Canon 128 (replicate k 127 ++ d :: u)) (hd : d < 127)
    (hdigits : Digits s pages (replicate k 127 ++ d :: u)) :
    ∃ pages', swapCountContinued a s (swapMapMax ||| countContinued) =
      .ok (true, { a with cont := some pages' }) ∧
    Moved s pages pages' (replicate k 0 ++ (d + 1) :: u) := by
  obtain ⟨zs, hcol⟩ := hdigits
  rw [cells_replicate_append _ (by simp), cells, append_assoc, cons_append, contByte_full] at hcol
  have hne : contByte d (!u.isEmpty) ≠ swapContMax ||| countContinued := by
    rw [Ne, ← contByte_full, contByte_inj (by omega) (by decide)]
    omega
  obtain ⟨front, page, rest, hfwd, rfl, hfront, hpage, hrest⟩ := forward_spec hcol.symm hne []
  have hmax : page s ≠ swapContMax := by
    rw [hpage, Ne, ← contByte_max, contByte_inj (by omega) (by decide)]
    omega
  refine ⟨increment s front.reverse page rest, ?_, ?_⟩
  · rw [swapCountContinued, hcont]
    dsimp only
    rw [if_neg (by decide), if_pos rfl, hfwd, append_nil]
    exact if_neg hmax
  rw [← length_of_column hfront]
  refine moved_increment front (hcanon.head (by omega) (by simp)) ?_ hrest
  rw [hpage, contByte_succ d]

/-- All digits are 127. The carry goes to a further page if there is one. -/
theorem swapCountContinued_full (hcol : column s pages = cells contByte (replicate (k + 1) 127) ++ zs) :
    (zs = [] → swapCountContinued a s (swapMapMax ||| countContinued) = .ok (false, a) ∧
      needsPage s (swapMapMax ||| countContinued) pages = true) ∧ (zs ≠ [] → ∃ pages',
      swapCountContinued a s (swapMapMax ||| countContinued) =
        .ok (true, { a with cont := some pages' }) ∧
      Moved s pages pages' (replicate (k + 1) 0 ++ [1])) := by
  rw [cells_replicate, append_assoc, contByte_full] at hcol
  obtain ⟨front, page, rest, hfwd, rfl, hfront, hpage, rfl⟩ := forward_spec hcol (by decide) []
  rw [append_nil] at hfwd
  refine ⟨fun hnil => ?_, fun hne => ?_⟩
  · obtain rfl := map_eq_nil_iff.mp hnil
    refine ⟨?_, needsPage_full (by decide) hcol⟩
    rw [swapCountContinued, hcont]
    dsimp only
    rw [if_neg (by decide), if_pos rfl, hfwd]
    exact if_pos hpage
  rcases rest with _ | ⟨next, rest⟩
  · exact absurd rfl hne
  have hrev : page :: front.reverse = (front ++ [page]).reverse := by simp
  refine ⟨increment s (front ++ [page]).reverse (setMap s 0#8 next) rest, ?_, ?_⟩
  · rw [swapCountContinued, hcont]
    dsimp only
    rw [if_neg (by decide), if_pos rfl, hfwd, ← hrev]
    exact if_pos hpage
  have hmoved := moved_increment_cleared (s := s) (front ++ [page]) next rest
  rwa [length_append, length_singleton, length_of_column hfront, append_assoc] at hmoved

end

/-- The first carry out of `swap_map`. -/
theorem swapCountContinued_first (hcont : a.cont = some (page :: rest)) :
    ∃ pages', swapCountContinued a s swapMapMax = .ok (true, { a with cont := some pages' }) ∧
      Moved s (page :: rest) pages' [1] := by
  refine ⟨increment s [] (setMap s 0#8 page) rest, ?_, moved_increment_cleared [] page rest⟩
  rw [swapCountContinued, hcont]
  rfl

/-- The borrow for `swap_map`. -/
theorem swapCountContinued_borrow (hcont : a.cont = some pages) (hcanon : Canon 128 ds) (hne : ds ≠ [])
    (hdigits : Digits s pages ds) : ∃ pages' ds', swapCountContinued a s countContinued =
      .ok (!ds'.isEmpty, { a with cont := some pages' }) ∧
    ofDigits 128 ds = ofDigits 128 ds' + 1 ∧ Moved s pages pages' ds' := by
  obtain ⟨zs, hcol⟩ := hdigits
  obtain ⟨k, d, u, rfl, hd⟩ := hcanon.exists_borrow hne
  obtain ⟨d, rfl⟩ : ∃ e, d = e + 1 := exists_eq_succ_of_ne_zero (by omega)
  have hlt : d + 1 < 128 := hcanon.lt _ (by simp)
  rw [cells_replicate_append _ (by simp), cells, append_assoc, cons_append, contByte_continued] at hcol
  have hstop : contByte (d + 1) (!u.isEmpty) ≠ countContinued := by
    rw [Ne, ← contByte_continued, contByte_inj hlt (by decide)]
    omega
  obtain ⟨front, page, rest, hfwd, rfl, hfront, hpage, hrest⟩ := forward_spec hcol.symm hstop []
  have hlen := length_of_column hfront
  have hpos : page s ≠ 0#8 := by
    rw [hpage, Ne, contByte_eq_zero_iff _ hlt]
    omega
  rw [append_nil] at hfwd
  obtain ⟨ds', hret, hval, hmoved⟩ := moved_decrement (hlen ▸ hcanon) hpage hrest
  rw [hlen] at hval
  refine ⟨_, ds', ?_, hval, hmoved⟩
  rw [swapCountContinued, hcont, ← hret]
  dsimp only
  rw [if_neg (by decide), if_neg (by decide), if_neg (by simp), hfwd]
  exact if_neg hpos

end

end LinuxNote.SwapCount
