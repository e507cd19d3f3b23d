import LinuxNote.Vmalloc.Basic
import Mathlib.Order.Nat
import Mathlib.Tactic.MkIffOfInductiveProp

/-! What a search finds. While it goes on, every area that was passed ends at or below the address
    reached, and no aligned free range that starts below is longer than the largest hole noticed. The
    cache of a reachable state says the same of the cached area, so a search may start from it. -/

namespace LinuxNote.Vmalloc
open List Nat Option

open SearchTree

/-- No area meets `[x, x + n)`. -/
def FreeRange (l : List Area) (x n : ℕ) : Prop := ∀ a ∈ l, a.vaEnd ≤ x ∨ x + n ≤ a.vaStart

instance (l : List Area) (x n : ℕ) : Decidable (FreeRange l x n) :=
  inferInstanceAs (Decidable (∀ a ∈ l, a.vaEnd ≤ x ∨ x + n ≤ a.vaStart))

/-- No aligned free range from `vstart` on that starts below `addr` is longer than `hole`. -/
def Seen (l : List Area) (vstart align addr hole : ℕ) : Prop :=
  ∀ x n, 0 < n → vstart ≤ x → align ∣ x → FreeRange l x n → x < addr → n ≤ hole

/-- An area that satisfies the request can start at `x`. -/
structure Usable (l : List Area) (req : Request) (x : ℕ) : Prop where
  vstart_le : req.vstart ≤ x
  aligned : req.align ∣ x
  le_vend : x + req.size ≤ req.vend
  free : FreeRange l x req.size

/-- Areas of positive size in address order. -/
structure Sorted (l : List Area) : Prop where
  area : ∀ a ∈ l, a.vaStart < a.vaEnd ∧ a.vaEnd < 2 ^ 64
  ordered : l.Pairwise fun a b => a.vaEnd ≤ b.vaStart

/-- The tree and the list hold the same areas, and nothing but holes of at most the recorded size was
    left below the cached area. -/
structure Inv (s : Space) : Prop where
  sorted : Sorted s.list
  root_eq : s.root.toList = s.list
  cache_mem : ∀ n, s.freeVmapCache = some n → n ∈ s.list
  align_eq : s.freeVmapCache ≠ none → ∃ k, s.cachedAlign = 2 ^ k
  seen : ∀ n, s.freeVmapCache = some n →
    Seen s.list s.cachedVstart s.cachedAlign n.vaStart s.cachedHoleSize

/-- What the checks at the start of `alloc_vmap_area` ask for, in machine words. -/
@[mk_iff] structure Legal [Config] (req : Request) : Prop where
  size_pos : 0 < req.size
  size_lt : req.size < 2 ^ 64
  page_dvd : pageSize ∣ req.size
  align_eq : ∃ k < 64, req.align = 2 ^ k
  vstart_lt : req.vstart < 2 ^ 64
  vend_lt : req.vend < 2 ^ 64

instance [Config] (req : Request) : Decidable (Legal req) := decidable_of_iff _ (legal_iff req).symm

/-- No address that the search aligns is so high that `ALIGN` overflows. -/
def NoWrap (s : Space) (req : Request) : Prop :=
  req.vstart + (req.align - 1) < 2 ^ 64 ∧ ∀ a ∈ s.list, a.vaEnd + (req.align - 1) < 2 ^ 64

instance (s : Space) (req : Request) : Decidable (NoWrap s req) := inferInstanceAs (Decidable (_ ∧ _))

variable {s : Space} {l pre rest : List Area} {req : Request} {p : Place} {va a b : Area}
  {x y addr align hole vstart : ℕ}

/-! ### Machine words -/

theorem add_eq (h : x + y < 2 ^ 64) : add x y = x + y := mod_eq_of_lt h

/-- The test `addr + size < addr` sees every overflow. -/
theorem add_lt_iff (hx : x < 2 ^ 64) (hy : y < 2 ^ 64) : add x y < x ↔ 2 ^ 64 ≤ x + y := by
  rw [add]
  by_cases h : x + y < 2 ^ 64
  · rw [mod_eq_of_lt h]
    omega
  rw [mod_eq_sub_mod (by omega), mod_eq_of_lt (by omega)]
  omega

theorem dvd_alignUp : align ∣ alignUp x align := Nat.dvd_mul_left ..

theorem alignUp_lt (x align : ℕ) : alignUp x align < 2 ^ 64 :=
  (div_mul_le_self ..).trans_lt (mod_lt _ (by decide))

section
variable (ha : 0 < align) (hx : x + (align - 1) < 2 ^ 64)
include ha hx

theorem le_alignUp : x ≤ alignUp x align := by
  have hdiv := div_add_mod (x + (align - 1)) align
  have hmod := mod_lt (x + (align - 1)) ha
  rw [alignUp, add_eq hx, mul_comm]
  omega

/-- It is the least multiple from `x` on. -/
theorem alignUp_le (hdvd : align ∣ y) (hxy : x ≤ y) : alignUp x align ≤ y := by
  obtain ⟨z, rfl⟩ := hdvd
  have hlt : x + (align - 1) < (z + 1) * align := by
    rw [Nat.add_mul, one_mul, mul_comm z]
    omega
  have hdiv : (x + (align - 1)) / align < z + 1 := (div_lt_iff_lt_mul ha).mpr hlt
  rw [alignUp, add_eq hx, mul_comm align]
  exact mul_le_mul_right _ (Nat.lt_succ_iff.mp hdiv)

end

/-! ### Lists of areas -/

theorem Sorted.sublist (h : Sorted l) (hsub : rest.Sublist l) : Sorted rest :=
  ⟨fun a ha => h.area a (hsub.subset ha), h.ordered.sublist hsub⟩

theorem Sorted.nodup (h : Sorted l) : l.Nodup := by
  refine h.ordered.imp_of_mem fun {a b} ha _ hab heq => ?_
  have hlt := (h.area a ha).1
  rw [← heq] at hab
  omega

section
variable (h : Sorted (pre ++ a :: rest))
include h

theorem Sorted.before (hb : b ∈ pre) : b.vaEnd ≤ a.vaStart :=
  (pairwise_append.mp h.ordered).2.2 b hb a mem_cons_self

theorem Sorted.after (hb : b ∈ rest) : a.vaEnd ≤ b.vaStart :=
  (pairwise_cons.mp (pairwise_append.mp h.ordered).2.1).1 b hb

theorem Sorted.not_mem : a ∉ pre := by
  intro ha
  have hle := h.before ha
  have hlt := (h.area a (mem_append_right _ mem_cons_self)).1
  omega

theorem Sorted.fromFirst_eq : fromFirst (pre ++ a :: rest) a = a :: rest := by
  rw [fromFirst, dropWhile_append_of_pos, dropWhile_cons_of_neg (by simp)]
  intro b hb
  exact decide_eq_true fun heq => h.not_mem (heq ▸ hb)

theorem Sorted.rbPrev_eq {t : BinTree Area} (ht : t.toList = pre ++ a :: rest) :
    rbPrev t a = pre.getLast? := by
  rw [rbPrev, ht, takeWhile_append_of_pos, takeWhile_cons_of_neg (by simp), append_nil]
  intro b hb
  exact decide_eq_true fun heq => h.not_mem (heq ▸ hb)

end

theorem listAdd_append (hb : b ∉ pre) : listAdd va b (pre ++ b :: rest) = pre ++ b :: va :: rest := by
  induction pre with
  | nil => exact if_pos rfl
  | cons c pre ih =>
    have hc : c ≠ b := fun heq => hb (heq ▸ mem_cons_self)
    rw [cons_append, listAdd, if_neg hc, ih fun hmem => hb (mem_cons_of_mem _ hmem), cons_append]

/-- An area fits between two parts of the list. -/
theorem Sorted.insert (h : Sorted (pre ++ rest)) (hpre : ∀ a ∈ pre, a.vaEnd ≤ va.vaStart)
    (hrest : ∀ a ∈ rest, va.vaEnd ≤ a.vaStart) (hva : va.vaStart < va.vaEnd) (hlt : va.vaEnd < 2 ^ 64) :
    Sorted (pre ++ va :: rest) := by
  obtain ⟨hp, hr, hcross⟩ := pairwise_append.mp h.ordered
  refine ⟨fun a ha => ?_, pairwise_append.mpr ⟨hp, pairwise_cons.mpr ⟨hrest, hr⟩, fun a ha b hb => ?_⟩⟩
  · rcases mem_append.mp ha with ha | ha
    · exact h.area a (mem_append_left _ ha)
    rcases mem_cons.mp ha with rfl | ha
    · exact ⟨hva, hlt⟩
    · exact h.area a (mem_append_right _ ha)
  rcases mem_cons.mp hb with rfl | hb
  · exact hpre a ha
  · exact hcross a ha b hb

/-! ### The walk -/

/-- The search has come to an address: the areas of `pre` are passed, those of `rest` are not. -/
structure Reached (l : List Area) (req : Request) (pre rest : List Area) (p : Place) : Prop where
  split : l = pre ++ rest
  before : ∀ a ∈ pre, a.vaEnd ≤ p.addr
  least : ∀ a ∈ rest, p.addr ≤ alignUp a.vaEnd req.align
  vstart_le : req.vstart ≤ p.addr
  aligned : req.align ∣ p.addr
  bounded : p.addr + req.size < 2 ^ 64
  hole_le : p.holeSize ≤ req.size
  seen : Seen l req.vstart req.align p.addr p.holeSize

/-- How a search ends: at an address where the area fits or would reach beyond `vend`, or with an
    overflow. The size of the largest hole only grows, but not to the size that was asked for. -/
structure Ended (l : List Area) (req : Request) (hole : ℕ) (res : Option ℕ × ℕ) : Prop where
  found : ∀ addr, res.1 = some addr → ∃ pre rest, Reached l req pre rest ⟨addr, res.2⟩ ∧
    (req.vend < addr + req.size ∨ ∀ a ∈ rest, addr + req.size ≤ a.vaStart)
  overflow : res.1 = none → ∃ addr, 2 ^ 64 ≤ addr + req.size ∧ Seen l req.vstart req.align addr res.2
  hole_le : hole ≤ res.2
  le_size : res.2 ≤ req.size
  lt_size : hole < req.size → res.2 < req.size

/-- The next area is passed. -/
theorem Seen.step (hseen : Seen l vstart align addr hole) (hmem : a ∈ l) {hole' : ℕ}
    (hle : hole ≤ hole') (hgap : a.vaStart ≤ addr + hole') (ha : 0 < align)
    (hwrap : a.vaEnd + (align - 1) < 2 ^ 64) : Seen l vstart align (alignUp a.vaEnd align) hole' := by
  intro x n hn hvs hdvd hfree hlt
  by_cases hx : x < addr
  · exact (hseen x n hn hvs hdvd hfree hx).trans hle
  have hend : x < a.vaEnd := by
    by_contra hge
    exact absurd hlt (not_lt.mpr (alignUp_le ha hwrap hdvd (not_lt.mp hge)))
  rcases hfree a hmem with hout | hout
  · omega
  · omega

/-- The hole before the next area is noticed, and is smaller than the request. -/
theorem noteHole_spec (hr : Reached l req pre (a :: rest) p) (ha : a.vaEnd < 2 ^ 64)
    (hlt : a.vaStart < a.vaEnd) (hcond : a.vaStart < p.addr + req.size) :
    p.holeSize ≤ noteHole a p ∧ a.vaStart ≤ p.addr + noteHole a p ∧ noteHole a p ≤ req.size ∧
    (p.holeSize < req.size → noteHole a p < req.size) := by
  have hsum : p.addr + p.holeSize < 2 ^ 64 := (Nat.add_le_add_left hr.hole_le _).trans_lt hr.bounded
  have hle := hr.hole_le
  rw [noteHole, add_eq hsum]
  split_ifs with hgap
  · rw [sub]
    omega
  · omega

/-- Where the search stops. -/
theorem Reached.ended (hr : Reached l req pre rest p)
    (hstop : req.vend < p.addr + req.size ∨ ∀ a ∈ rest, p.addr + req.size ≤ a.vaStart) :
    Ended l req p.holeSize (some p.addr, p.holeSize) := by
  refine ⟨fun addr haddr => ?_, nofun, le_rfl, hr.hole_le, id⟩
  cases haddr
  exact ⟨pre, rest, hr, hstop⟩

section
variable (hl : Sorted l) (hsize : req.size < 2 ^ 64) (halign : 0 < req.align)
  (hwrap : ∀ a ∈ l, a.vaEnd + (req.align - 1) < 2 ^ 64)
include hl hsize halign hwrap

/-- The next area is passed, and the end of the address space is not reached. -/
theorem Reached.step (hr : Reached l req pre (a :: rest) p) (hcond : a.vaStart < p.addr + req.size)
    (hover : ¬add (alignUp a.vaEnd req.align) req.size < alignUp a.vaEnd req.align) :
    Reached l req (pre ++ [a]) rest ⟨alignUp a.vaEnd req.align, noteHole a p⟩ := by
  have hmem : a ∈ l := by
    rw [hr.split]
    exact mem_append_right _ mem_cons_self
  obtain ⟨hlt, hend⟩ := hl.area a hmem
  obtain ⟨hhole, hgap, hle, -⟩ := noteHole_spec hr hend hlt hcond
  have hup := le_alignUp halign (hwrap a hmem)
  have hsplit := hr.split ▸ hl
  rw [add_lt_iff (alignUp_lt ..) hsize, not_le] at hover
  refine ⟨by rw [hr.split, append_cons], fun b hb => ?_, fun b hb => ?_,
    hr.vstart_le.trans (hr.least a mem_cons_self), dvd_alignUp, hover, hle,
    hr.seen.step hmem hhole hgap halign (hwrap a hmem)⟩
  · rcases mem_append.mp hb with hb | hb
    · exact ((hsplit.before hb).trans hlt.le).trans hup
    rw [mem_singleton.mp hb]
    exact hup
  have hb' : b ∈ l := by
    rw [hr.split]
    exact mem_append_right _ (mem_cons_of_mem _ hb)
  refine alignUp_le halign (hwrap a hmem) dvd_alignUp ?_
  exact ((hsplit.after hb).trans (hl.area b hb').1.le).trans (le_alignUp halign (hwrap b hb'))

theorem walk_ended (hr : Reached l req pre rest p) : Ended l req p.holeSize (walk req rest p) := by
  induction rest generalizing pre p with
  | nil => exact hr.ended (.inr fun a ha => absurd ha not_mem_nil)
  | cons first rest ih =>
    have hmem : first ∈ l := by
      rw [hr.split]
      exact mem_append_right _ mem_cons_self
    obtain ⟨hlt, hend⟩ := hl.area first hmem
    rw [walk, add_eq hr.bounded]
    dsimp only
    split_ifs with hcond hover
    · obtain ⟨hhole, hgap, hle, hless⟩ := noteHole_spec hr hend hlt hcond.1
      refine ⟨nofun, fun _ => ⟨alignUp first.vaEnd req.align, ?_, ?_⟩, hhole, hle, hless⟩
      · exact (add_lt_iff (alignUp_lt ..) hsize).mp hover
      · exact hr.seen.step hmem hhole hgap halign (hwrap first hmem)
    · obtain ⟨hhole, -, -, hless⟩ := noteHole_spec hr hend hlt hcond.1
      have hrest := ih (hr.step hl hsize halign hwrap hcond.1 hover)
      exact ⟨hrest.found, hrest.overflow, hhole.trans hrest.hole_le, hrest.le_size,
        fun hs => hrest.lt_size (hless hs)⟩
    refine hr.ended ?_
    rcases not_and_or.mp hcond with hfits | hvend
    · refine .inr fun b hb => ?_
      rcases mem_cons.mp hb with rfl | hb
      · exact not_lt.mp hfits
      · exact ((not_lt.mp hfits).trans hlt.le).trans ((hr.split ▸ hl).after hb)
    · exact .inl (not_le.mp hvend)

end

/-! ### One search -/

theorem Legal.align_pos [Config] (h : Legal req) : 0 < req.align := by
  obtain ⟨k, -, hk⟩ := h.align_eq
  rw [hk]
  exact Nat.two_pow_pos k

/-- A search from `vstart`. -/
theorem scan_ended [Config] (hl : Sorted s.list) (hroot : s.root.toList = s.list)
    (hzero : s.cachedHoleSize = 0) (hlegal : Legal req) (hwrap : NoWrap s req) :
    Ended s.list req 0 (scan s req) := by
  have hpos := hlegal.align_pos
  have hseen : Seen s.list req.vstart req.align (alignUp req.vstart req.align) 0 := by
    intro x n _ hvs hdvd _ hlt
    exact absurd hlt (not_lt.mpr (alignUp_le hpos hwrap.1 hdvd hvs))
  rw [scan, hzero]
  split_ifs with hover
  · exact ⟨nofun, fun _ => ⟨_, (add_lt_iff (alignUp_lt ..) hlegal.size_lt).mp hover, hseen⟩, le_rfl,
      zero_le _, fun _ => hlegal.size_pos⟩
  rw [add_lt_iff (alignUp_lt ..) hlegal.size_lt, not_le] at hover
  have hreached : ∀ pre rest, s.list = pre ++ rest →
    (∀ a ∈ pre, a.vaEnd ≤ alignUp req.vstart req.align) →
    (∀ a ∈ rest, alignUp req.vstart req.align ≤ a.vaEnd) →
    Reached s.list req pre rest ⟨alignUp req.vstart req.align, 0⟩ := by
    intro pre rest hsplit hbefore hrest
    refine ⟨hsplit, hbefore, fun a ha => ?_, le_alignUp hpos hwrap.1, dvd_alignUp, hover,
      zero_le _, hseen⟩
    have hmem : a ∈ s.list := by
      rw [hsplit]
      exact mem_append_right _ ha
    exact (hrest a ha).trans (le_alignUp hpos (hwrap.2 a hmem))
  have hmono : s.root.toList.Pairwise fun a b =>
      decide (a.vaEnd ≥ alignUp req.vstart req.align) = true →
        decide (b.vaEnd ≥ alignUp req.vstart req.align) = true := by
    rw [hroot]
    refine hl.ordered.imp_of_mem fun {a b} _ hb hab => ?_
    have hlt := (hl.area b hb).1
    simp only [decide_eq_true_eq]
    omega
  have hfirst : IsLowerBound _ (fun tmp => tmp.vaStart ≤ alignUp req.vstart req.align) s.root.toList
    (findFirst s.root (alignUp req.vstart req.align)) := lowerBound_cases s.root none hmono
  rw [hroot] at hfirst
  rcases hfirst with ⟨hnone, hmiss⟩ | ⟨pre, first, rest, hsome, hsplit, hhit, hstop⟩
  · rw [hnone]
    refine (hreached s.list [] (append_nil _).symm (fun a ha => ?_) nofun).ended (.inr nofun)
    have hmiss' := hmiss a ha
    simp only [decide_eq_false_iff_not] at hmiss'
    omega
  rw [hsome]
  dsimp only
  have hsorted : Sorted (pre ++ first :: rest) := hsplit ▸ hl
  rw [hsplit, hsorted.fromFirst_eq, ← hsplit]
  refine walk_ended hl hlegal.size_lt hpos hwrap.2
    (hreached pre (first :: rest) hsplit (fun a ha => ?_) fun a ha => ?_)
  · rcases hstop with hstop | hmiss
    · exact (hsorted.before ha).trans (of_decide_eq_true hstop)
    have hmiss' := hmiss a ha
    simp only [decide_eq_false_iff_not] at hmiss'
    omega
  rcases mem_cons.mp ha with rfl | ha
  · exact of_decide_eq_true hhit
  have hle := hsorted.after ha
  have hlt' := (hsorted.area a (mem_append_right _ (mem_cons_of_mem _ ha))).1
  have hhit' : first.vaEnd ≥ alignUp req.vstart req.align := of_decide_eq_true hhit
  omega

/-- A search changes the cache only, and what it leaves is a cache again. It starts with the recorded
    hole only when the cache is used. -/
structure Searched (s : Space) (req : Request) (res : Option ℕ × Space) : Prop where
  list_eq : res.2.list = s.list
  inv : Inv res.2
  vstart_eq : res.2.cachedVstart = req.vstart
  align_eq : res.2.cachedAlign = req.align
  ended : ∃ hole, Ended s.list req hole (res.1, res.2.cachedHoleSize) ∧
    (hole = 0 ∨ (invalidate s req).freeVmapCache ≠ none ∧ hole = s.cachedHoleSize ∧ hole ≤ req.size)

section
variable [Config] (h : Inv s) (hlegal : Legal req) (hwrap : NoWrap s req)
include h hlegal hwrap

theorem searchNocache_searched : Searched s req (searchNocache s req) := by
  have hended : Ended s.list req 0 (scan (record (noCache s) req) req) :=
    scan_ended (s := record (noCache s) req) h.sorted h.root_eq rfl hlegal hwrap
  exact ⟨rfl, ⟨h.sorted, h.root_eq, nofun, fun hne => absurd rfl hne, nofun⟩, rfl, rfl, 0,
    hended, .inl rfl⟩

section
variable (hv : s.cachedVstart ≤ req.vstart) (ha : s.cachedAlign ≤ req.align)
include hv ha

omit hwrap in
/-- The cache stays when the parameters are less permissive and holes are noticed. -/
theorem Inv.keep (hhole : s.cachedHoleSize ≤ hole) :
    Inv { record s req with cachedHoleSize := hole } := by
  obtain ⟨k, -, hk⟩ := hlegal.align_eq
  refine { h with align_eq := fun _ => ⟨k, hk⟩, seen := fun n hn => ?_ }
  have hne : s.freeVmapCache ≠ none := by
    rw [show s.freeVmapCache = some n from hn]
    exact some_ne_none n
  obtain ⟨j, hj⟩ := h.align_eq hne
  have hdvd : s.cachedAlign ∣ req.align := by
    rw [hj, hk] at ha ⊢
    exact Nat.pow_dvd_pow 2 ((Nat.pow_le_pow_iff_right (by decide)).mp ha)
  intro x len hlen hvs hx hfree hlt
  exact (h.seen n hn x len hlen (hv.trans hvs) (Nat.dvd_trans hdvd hx) hfree hlt).trans hhole

variable {first : Area} (hcache : s.freeVmapCache = some first)
include hcache

/-- What is known of the places below the cached area. -/
theorem Inv.seen_below :
    Seen s.list req.vstart req.align (alignUp first.vaEnd req.align) s.cachedHoleSize := by
  have hmem := h.cache_mem first hcache
  have hseen := (h.keep hlegal hv ha le_rfl).seen first hcache
  exact Seen.step hseen hmem le_rfl (le_add_right _ _) hlegal.align_pos (hwrap.2 first hmem)

/-- A search may start from the cached area. -/
theorem Inv.reached (hhole : s.cachedHoleSize ≤ req.size)
    (hstart : req.vstart ≤ alignUp first.vaEnd req.align) (hsplit : s.list = pre ++ first :: rest)
    (hover : alignUp first.vaEnd req.align + req.size < 2 ^ 64) :
    Reached s.list req pre (first :: rest) ⟨alignUp first.vaEnd req.align, s.cachedHoleSize⟩ := by
  have hpos := hlegal.align_pos
  have hmem := h.cache_mem first hcache
  have hsorted : Sorted (pre ++ first :: rest) := hsplit ▸ h.sorted
  obtain ⟨hlt, hend⟩ := h.sorted.area first hmem
  have hup := le_alignUp hpos (hwrap.2 first hmem)
  refine ⟨hsplit, fun a ha => ((hsorted.before ha).trans hlt.le).trans hup, fun a ha => ?_, hstart,
    dvd_alignUp, hover, hhole, h.seen_below hlegal hwrap hv ha hcache⟩
  rcases mem_cons.mp ha with rfl | ha
  · exact le_rfl
  have ha' : a ∈ s.list := by
    rw [hsplit]
    exact mem_append_right _ (mem_cons_of_mem _ ha)
  refine alignUp_le hpos (hwrap.2 first hmem) dvd_alignUp ?_
  exact ((hsorted.after ha).trans (h.sorted.area a ha').1.le).trans (le_alignUp hpos (hwrap.2 a ha'))

end

theorem search_searched : Searched s req (search s req) := by
  by_cases hinv : s.freeVmapCache = none ∨ req.size < s.cachedHoleSize ∨ req.vstart < s.cachedVstart ∨
    req.align < s.cachedAlign
  · rw [search, invalidate, if_pos hinv]
    exact searchNocache_searched h hlegal hwrap
  have hsame : invalidate s req = s := if_neg hinv
  rw [search, hsame]
  rw [not_or, not_or, not_or, not_lt, not_lt, not_lt] at hinv
  obtain ⟨hne, hhole, hv, ha⟩ := hinv
  have hused : (invalidate s req).freeVmapCache ≠ none := by
    rw [hsame]
    exact hne
  obtain ⟨first, hcache⟩ := ne_none_iff_exists'.mp hne
  rw [show (record s req).freeVmapCache = some first from hcache]
  dsimp only
  split_ifs with hlow hover
  · exact searchNocache_searched h hlegal hwrap
  · have hover' := (add_lt_iff (alignUp_lt ..) hlegal.size_lt).mp hover
    refine ⟨rfl, h.keep hlegal hv ha le_rfl, rfl, rfl, s.cachedHoleSize, ?_, .inr ⟨hused, rfl, hhole⟩⟩
    exact ⟨nofun, fun _ => ⟨_, hover', h.seen_below hlegal hwrap hv ha hcache⟩, le_rfl, hhole, id⟩
  rw [add_lt_iff (alignUp_lt ..) hlegal.size_lt, not_le] at hover
  obtain ⟨pre, rest, hsplit⟩ := append_of_mem (h.cache_mem first hcache)
  have hreached := h.reached hlegal hwrap hv ha hcache hhole (not_lt.mp hlow) hsplit hover
  have hended := walk_ended h.sorted hlegal.size_lt hlegal.align_pos hwrap.2 hreached
  have hfirst : fromFirst (record s req).list first = first :: rest :=
    (congrArg (fromFirst · first) hsplit).trans (hsplit ▸ h.sorted).fromFirst_eq
  rw [hfirst]
  have hkeep := h.keep hlegal hv ha hended.hole_le
  rw [record, hcache] at hkeep
  exact ⟨rfl, hkeep, rfl, rfl, s.cachedHoleSize, hended, .inr ⟨hused, rfl, hhole⟩⟩

end

/-! ### Inserting an area -/

section
variable [Config] (va : Area) (h : Inv s) (hsplit : s.list = pre ++ rest)
  (hpre : ∀ a ∈ pre, a.vaEnd ≤ va.vaStart) (hrest : ∀ a ∈ rest, va.vaEnd ≤ a.vaStart)
  (hva : va.vaStart < va.vaEnd) (hlt : va.vaEnd < 2 ^ 64)
include h hsplit hpre hrest hva hlt

/-- An area that meets no other gets its place in the tree and in the list. -/
theorem insertVmapArea_eq :
    ∃ root, insertVmapArea s va = .ok { s with root := root, list := pre ++ va :: rest } ∧
    root.toList = pre ++ va :: rest := by
  have hroot : s.root.toList = pre ++ rest := h.root_eq.trans hsplit
  have hsorted : Sorted (pre ++ va :: rest) := (hsplit ▸ h.sorted).insert hpre hrest hva hlt
  have hright : ∀ a ∈ pre, insertDir va a = some .right := by
    intro a ha
    have hle := hpre a ha
    have hmem : a ∈ s.list := by
      rw [hsplit]
      exact mem_append_left _ ha
    have hpos := (h.sorted.area a hmem).1
    rw [insertDir, if_neg (by omega), if_pos (by omega)]
  have hleft : ∀ a ∈ rest, insertDir va a = some .left := by
    intro a ha
    have hle := hrest a ha
    have hmem : a ∈ s.list := by
      rw [hsplit]
      exact mem_append_right _ ha
    have hpos := (h.sorted.area a hmem).1
    rw [insertDir, if_pos (by omega)]
  obtain ⟨t, ht, htlist⟩ := link_toList va s.root hroot hright hleft
  have hcolor : (rbInsertColor t).toList = pre ++ va :: rest := (insertColor_toList t).trans htlist
  refine ⟨rbInsertColor t, ?_, hcolor⟩
  rw [insertVmapArea, ht]
  dsimp only
  rw [hsorted.rbPrev_eq hcolor]
  rcases eq_nil_or_concat' pre with rfl | ⟨init, prev, rfl⟩
  · rw [getLast?_nil, hsplit]
    rfl
  rw [append_assoc] at hsplit
  rw [getLast?_concat]
  dsimp only
  rw [hsplit, singleton_append, listAdd_append (hsplit ▸ h.sorted).not_mem, ← append_cons]

end

end LinuxNote.Vmalloc
