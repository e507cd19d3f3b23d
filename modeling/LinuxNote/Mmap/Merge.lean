import LinuxNote.Lib.Cursor
import LinuxNote.Mmap.AddressSpace

/-! `vma_merge` sets the range of the request and nothing else. Each of its cases replaces one, two or
    three VMAs by others that say the same outside of the range. -/

namespace LinuxNote.Mmap
open List Option Bool

open Intervals Cursor

section
variable [Config] {fails : Bool} {mm : Mm} {r : Request}

/-! ### The import of an `anon_vma` -/

/-- `v'` is `v` with an `anon_vma` and a chain of its own. -/
def Imported (v v' : Vma) : Prop :=
  ∃ a n, v' = { v with anonVma := a, anonVmaChain := n } ∧ (a = none → n = 0)

variable {importer v p n : Vma}

omit [Config] in
/-- A failed import leaves the importer as it was, since it had no `anon_vma`. -/
theorem importAnonVma_cases (fails : Bool) (exporter : Option Vma)
    (hchain : importer.anonVma = none → importer.anonVmaChain = 0) :
    (∃ err, importAnonVma fails exporter importer = (some err, importer)) ∨
      ∃ v, importAnonVma fails exporter importer = (none, v) ∧ Imported importer v := by
  rcases exporter with _ | exporter
  · exact .inr ⟨importer, rfl, _, _, rfl, hchain⟩
  rw [importAnonVma]
  split
  · rename_i h
    obtain ⟨hsome, hnone⟩ := and_eq_true_iff.mp h
    have hnone : importer.anonVma = none := isNone_iff_eq_none.mp hnone
    rw [anonVmaClone]
    split
    · refine .inl ⟨.enomem, ?_⟩
      have : importer = { importer with anonVma := none, anonVmaChain := 0 } := by
        rw [← hnone, ← hchain hnone]
      exact congrArg _ this.symm
    refine .inr ⟨_, rfl, _, _, rfl, fun he => ?_⟩
    rw [he] at hsome
    cases hsome
  · exact .inr ⟨importer, rfl, _, _, rfl, hchain⟩

omit [Config] in
theorem importing_adjusts {exporter : Option Vma} {put : Vma → List Vma} {go : Vma → Except Bug Mm}
    {P : Mm → Prop} (hchain : importer.anonVma = none → importer.anonVmaChain = 0)
    (hput : mm.mmap = put importer) (hgo : ∀ v, Imported importer v → ∃ mm', go v = .ok mm' ∧ P mm') :
    Adjusts (importing fails mm exporter importer put go) mm P := by
  rcases importAnonVma_cases fails exporter hchain with ⟨err, h⟩ | ⟨v, h, hv⟩
  · refine .inl ⟨err, ?_⟩
    rw [importing, h]
    dsimp only
    rw [← hput]
  obtain ⟨mm', hgo', hP⟩ := hgo v hv
  refine .inr ⟨mm', ?_, hP⟩
  rw [importing, h]
  dsimp only
  rw [hgo']

/-! ### What the neighbours say about the range -/

/-- `[addr, end)` is made of whole pages. -/
structure Request.Ok (r : Request) : Prop where
  addr_lt : r.addr < r.endAddr
  end_lt : r.endAddr < 2 ^ 64
  addr_dvd : pageSize ∣ r.addr
  end_dvd : pageSize ∣ r.endAddr

theorem isMergeableVma_iff (h : isMergeableVma v r) :
    v.vmFlags &&& ~~~vmSoftdirty = r.vmFlags &&& ~~~vmSoftdirty ∧ v.vmFile = r.file := by
  simp only [isMergeableVma, and_eq_true, beq_iff_eq] at h
  obtain ⟨⟨⟨hflags, hfile⟩, -⟩, -⟩ := h
  refine ⟨?_, hfile⟩
  refine BitVec.eq_of_getLsbD_eq fun i hi => ?_
  have hbit := congrArg (·.getLsbD i) hflags
  simp only [BitVec.getLsbD_and, BitVec.getLsbD_xor, BitVec.getLsbD_zero] at hbit ⊢
  revert hbit
  cases v.vmFlags.getLsbD i <;> cases r.vmFlags.getLsbD i <;> simp

/-- A predecessor that can be merged says what the request wants, from the range on. -/
theorem mergesAfter_page (h : mergesAfter r p) (hp : p.Ok) :
    p.vmEnd = r.addr ∧ ∀ a, r.addr ≤ a → (p.page a).clean = (r.page a).clean := by
  simp only [mergesAfter, canVmaMergeAfter, and_eq_true, beq_iff_eq] at h
  obtain ⟨⟨hend, hpolicy⟩, ⟨hvma, -⟩, hpgoff⟩ := h
  obtain ⟨hflags, hfile⟩ := isMergeableVma_iff hvma
  refine ⟨hend, fun a ha => ?_⟩
  rw [Vma.page, Request.page, Page.clean, Page.clean, hflags, hfile, hpolicy, ← hpgoff, ← hend, vmaPages,
    pages_split hp.start_dvd hp.end_dvd hp.start_lt.le (hend ▸ ha), BitVec.ofNat_add, BitVec.add_assoc]

/-- A successor that can be merged, moved down to the start of the range, says what the request wants. -/
theorem mergesBefore_page (h : mergesBefore r n) (hr : r.Ok) :
    r.endAddr = n.vmStart ∧ (∀ a, r.endAddr ≤ a → (n.page a).clean = (r.page a).clean) ∧
    ∀ a, r.addr ≤ a → ((n.put r.addr n.vmEnd (n.vmPgoff - r.pglen)).page a).clean =
      (r.page a).clean := by
  simp only [mergesBefore, canVmaMergeBefore, and_eq_true, beq_iff_eq] at h
  obtain ⟨⟨hend, hpolicy⟩, ⟨hvma, -⟩, hpgoff⟩ := h
  obtain ⟨hflags, hfile⟩ := isMergeableVma_iff hvma
  refine ⟨hend, fun a ha => ?_, fun a ha => ?_⟩
  · rw [Vma.page, Request.page, Page.clean, Page.clean, hflags, hfile, ← hpolicy, hpgoff, ← hend,
      Request.pglen, pages_split hr.addr_dvd hr.end_dvd hr.addr_lt.le ha, BitVec.ofNat_add,
      BitVec.add_assoc]
  · simp only [Vma.page, Vma.put, Request.page, Page.clean, hflags, hfile, ← hpolicy, hpgoff,
      BitVec.add_sub_cancel]

/-! ### Replacing VMAs -/

/-- Exactly the range of the request is set, and the VMA at `i` covers it. -/
structure Sets (mm : Mm) (r : Request) (i : ℕ) (mm' : Mm) : Prop where
  wellFormed : WellFormed mm'
  map : ∀ a, cleanAt mm' a = setOn r.addr r.endAddr (fun a => (r.page a).clean) (cleanAt mm) a
  covers : ∃ v, mm'.mmap[i]? = some v ∧ v.vmStart ≤ r.addr ∧ r.endAddr ≤ v.vmEnd

/-- A VMA over `[s, e)` that says what `f` says. -/
structure Vma.Over (w : Vma) (s e : ℕ) (f : ℕ → Page) : Prop where
  ok : w.Ok
  start_eq : w.vmStart = s
  end_eq : w.vmEnd = e
  page : ∀ a, s ≤ a → (w.page a).clean = (f a).clean

theorem Vma.Ok.imported (h : v.Ok) : Imported v v := ⟨_, _, rfl, h.chain⟩

/-- The predecessor with another end. -/
theorem Imported.resized {p' : Vma} (h : Imported p p') (hp : p.Ok) {e : ℕ} (hlt : p.vmStart < e)
    (he : e < 2 ^ 64) (hdvd : pageSize ∣ e) :
    (p'.put p.vmStart e p.vmPgoff).Over p.vmStart e p.page := by
  obtain ⟨_, _, rfl, hchain⟩ := h
  exact ⟨⟨hlt, he, hp.start_dvd, hdvd, hchain⟩, rfl, rfl, fun _ _ => rfl⟩

/-- The successor moved down to the start of the range. -/
theorem Imported.lowered {n' : Vma} (h : Imported n n') (hn : n.Ok) (hr : r.Ok)
    (hmerge : mergesBefore r n) :
    (n'.put r.addr n.vmEnd (n.vmPgoff - r.pglen)).Over r.addr n.vmEnd r.page := by
  obtain ⟨hend, -, hpage⟩ := mergesBefore_page hmerge hr
  obtain ⟨_, _, rfl, hchain⟩ := h
  have haddr := hr.addr_lt
  have hlt := hn.start_lt
  exact ⟨⟨by show r.addr < n.vmEnd; omega, hn.end_lt, hr.addr_dvd, hn.end_dvd, hchain⟩, rfl, rfl, hpage⟩

/-- The map up to `VM_SOFTDIRTY` of a part of the list. -/
def cleanOf (l : List Vma) : ℕ → Option Page := valueAt Vma.vmStart Vma.vmEnd
    (fun v a => (v.page a).clean) l

section
variable {L R : List Vma} {lo hi : ℕ} {f g : ℕ → Page} {w w' : Vma} {count : ℕ} (M : List Vma)
  (h : WellFormed mm) (hmm : mm.mmap = L ++ (M ++ R)) (hlo : lo ≤ r.addr) (hL : ∀ v ∈ L, v.vmEnd ≤ lo)
  (hR : ∀ v ∈ R, hi ≤ v.vmStart)
include h hmm hlo hL hR

/-- It is enough to look at the VMAs that are replaced. -/
theorem Sets.of_replace (M' : List Vma) (k : ℕ) (hle : lo ≤ hi) (hord : Ordered Vma.vmStart Vma.vmEnd M')
    (hM' : ∀ v ∈ M', v.Ok ∧ lo ≤ v.vmStart ∧ v.vmEnd ≤ hi)
    (hcount : count + M.length = mm.mapCount + M'.length)
    (hmap : ∀ a, cleanOf M' a = setOn r.addr r.endAddr (fun a => (r.page a).clean) (cleanOf M) a)
    (hk : ∃ v, M'[k]? = some v ∧ v.vmStart ≤ r.addr ∧ r.endAddr ≤ v.vmEnd) :
    Sets mm r (L.length + k) { mm with mmap := L ++ (M' ++ R), mapCount := count } := by
  refine ⟨h.replace M M' hmm hle hL hR hord hM' hcount, fun a => ?_, ?_⟩
  · rw [cleanAt, cleanAt, hmm, ← append_assoc, ← append_assoc]
    exact valueAt_set_middle (fun v hv => (hL v hv).trans hlo) hmap a
  obtain ⟨v, hv, hcover⟩ := hk
  refine ⟨v, ?_, hcover⟩
  have hlt : k < M'.length := (List.getElem?_eq_some_iff.mp hv).1
  rw [getElem?_append_right (Nat.le_add_right _ _), Nat.add_sub_cancel_left, getElem?_append_left hlt,
    hv]

/-- One VMA in the place of some. -/
theorem Sets.one (hr : r.Ok) (hw : w.Over lo hi f) (hhi : r.endAddr ≤ hi)
    (hcount : count = mm.mapCount + 1 - M.length) (hf : ∀ a, r.addr ≤ a → a < r.endAddr →
      (f a).clean = (r.page a).clean) (hM : ∀ a, ¬(r.addr ≤ a ∧ a < r.endAddr) →
      cleanOf M a = if lo ≤ a ∧ a < hi then some (f a).clean else none) :
    Sets mm r L.length { mm with mmap := L ++ w :: R, mapCount := count } := by
  have haddr := hr.addr_lt
  have hlen := h.count
  rw [hmm, length_append, length_append] at hlen
  refine Sets.of_replace M h hmm hlo hL hR [w] 0 (by omega) (ordered_singleton _)
    ?_ (by rw [length_singleton]; omega) ?_ ⟨w, rfl, hw.start_eq ▸ hlo, hw.end_eq ▸ hhi⟩
  · intro v hv
    obtain rfl := mem_singleton.mp hv
    exact ⟨hw.ok, hw.start_eq.ge, hw.end_eq.le⟩
  intro a
  rw [setOn, cleanOf, valueAt_cons, valueAt_nil, hw.start_eq, hw.end_eq]
  split
  · rename_i ha
    rw [hw.page a ha.1]
    split
    · rename_i hra
      rw [hf a hra.1 hra.2]
    rename_i hra
    rw [hM a hra, if_pos ha]
  · rename_i ha
    rw [if_neg (by omega), hM a (by omega), if_neg ha]

/-- Two VMAs in the place of some; the one at `k` covers the range. -/
theorem Sets.two {mid : ℕ} (k : ℕ) (hw : w.Over lo mid f) (hw' : w'.Over mid hi g)
    (hcount : count + M.length = mm.mapCount + 2)
    (hM : ∀ a, setOn r.addr r.endAddr (fun a => (r.page a).clean) (cleanOf M) a = if lo ≤ a ∧
      a < mid then some (f a).clean else if mid ≤ a ∧ a < hi then some (g a).clean else none)
      (hk : ∃ v, [w, w'][k]? = some v ∧ v.vmStart ≤ r.addr ∧ r.endAddr ≤ v.vmEnd) :
    Sets mm r (L.length + k) { mm with mmap := L ++ w :: w' :: R, mapCount := count } := by
  have hlt := hw.ok.start_lt
  have hlt' := hw'.ok.start_lt
  have hs := hw.start_eq
  have he := hw.end_eq
  have hs' := hw'.start_eq
  have he' := hw'.end_eq
  refine Sets.of_replace M h hmm hlo hL hR [w, w'] k (by omega) ?_ ?_ hcount ?_ hk
  · refine ordered_cons.mpr ⟨fun v hv => ?_, ordered_singleton _⟩
    obtain rfl := mem_singleton.mp hv
    omega
  · intro v hv
    rcases mem_cons.mp hv with rfl | hv
    · exact ⟨hw.ok, by omega, by omega⟩
    obtain rfl := mem_singleton.mp hv
    exact ⟨hw'.ok, by omega, by omega⟩
  intro a
  rw [hM, cleanOf, valueAt_cons, valueAt_cons, valueAt_nil, hs, he, hs', he']
  split
  · rename_i ha
    rw [hw.page a ha.1]
  split
  · rename_i ha
    rw [hw'.page a ha.1]
  · rfl

end

/-! ### One case at a time -/

section
variable {L R : List Vma} {p n x : Vma}

variable {s e : ℕ} {pgoff : BitVec 64} {expand : Option ℕ}

theorem vmaAdjust_next (hmm : mm.mmap = L ++ p :: n :: R) :
    vmaAdjust fails mm L.length s e pgoff none expand =
      adjustWithNext fails mm L p n R s e pgoff (expand = some (L.length + 1)) := by
  simp only [vmaAdjust, hmm, drop_left, take_left]

/-- A VMA that does not reach the next one changes alone. -/
theorem vmaAdjust_alone (h : WellFormed mm) (hmm : mm.mmap = L ++ p :: R) (hR : ∀ v ∈ R, e ≤ v.vmStart)
    (hp : p.vmEnd ≤ e) : vmaAdjust fails mm L.length s e pgoff none expand =
      .ok (none, { mm with mmap := L ++ p.put s e pgoff :: R }) := by
  rcases R with _ | ⟨n, R⟩
  · simp only [vmaAdjust, hmm, drop_left, take_left]
  have hen := hR n mem_cons_self
  have hn := (h.ok n (by simp [hmm])).start_lt
  rw [vmaAdjust_next hmm, adjustWithNext, if_neg (by omega), if_neg (by omega), if_neg (by omega)]

section
variable (h : WellFormed mm)
include h

theorem WellFormed.around_next (hmm : mm.mmap = L ++ p :: n :: R) :
    p.Ok ∧ (∀ u ∈ L, u.vmEnd ≤ p.vmStart) ∧ n.Ok ∧ ∀ u ∈ R, n.vmEnd ≤ u.vmStart := by
  obtain ⟨hok, -, hR⟩ := h.around (hmm.trans (append_cons L p (n :: R)))
  exact ⟨(h.around hmm).1, (h.around hmm).2.1, hok, hR⟩

section
variable (hr : r.Ok)
include hr

/-- Case 2: the predecessor alone. -/
theorem adjusts_prev (hmm : mm.mmap = L ++ p :: R) (hp : mergesAfter r p)
    (hR : ∀ v ∈ R, r.endAddr ≤ v.vmStart) :
    Adjusts (vmaAdjust fails mm L.length p.vmStart r.endAddr p.vmPgoff none (some L.length)) mm
      (Sets mm r L.length) := by
  obtain ⟨hok, hL, -⟩ := h.around hmm
  obtain ⟨hend, hpage⟩ := mergesAfter_page hp hok
  have haddr := hr.addr_lt
  have hlt := hok.start_lt
  refine .inr ⟨_, vmaAdjust_alone h hmm hR (by omega), ?_⟩
  have hw := hok.imported.resized hok (by omega) hr.end_lt hr.end_dvd
  refine Sets.one [p] h hmm (by omega) hL hR hr hw le_rfl rfl (fun a ha _ => hpage a ha) fun a ha => ?_
  rw [cleanOf, valueAt_cons, valueAt_nil, hend]
  split_ifs <;> first | rfl | omega

/-- Case 3: the successor alone. -/
theorem adjusts_next (hmm : mm.mmap = L ++ n :: R) (hn : mergesBefore r n)
    (hL : ∀ v ∈ L, v.vmEnd ≤ r.addr) (expand : Option ℕ) :
    Adjusts (vmaAdjust fails mm L.length r.addr n.vmEnd (n.vmPgoff - r.pglen) none expand) mm
      (Sets mm r L.length) := by
  obtain ⟨hok, -, hR⟩ := h.around hmm
  obtain ⟨hend, hpage, -⟩ := mergesBefore_page hn hr
  have haddr := hr.addr_lt
  have hlt := hok.start_lt
  refine .inr ⟨_, vmaAdjust_alone h hmm hR le_rfl, ?_⟩
  have hw := hok.imported.lowered hok hr hn
  refine Sets.one [n] h hmm le_rfl hL hR hr hw (by omega) rfl (fun a _ _ => rfl) fun a ha => ?_
  rw [cleanOf, valueAt_cons, valueAt_nil, ← hend]
  split_ifs <;> first | rfl | omega | rw [hpage a (by omega)]

/-- Case 1: the hole between the two is filled. -/
theorem adjusts_both (hmm : mm.mmap = L ++ p :: n :: R) (hp : mergesAfter r p) (hn : mergesBefore r n) :
    Adjusts (vmaAdjust fails mm L.length p.vmStart n.vmEnd p.vmPgoff none (some L.length)) mm
    (Sets mm r L.length) := by
  obtain ⟨hpok, hL, hnok, hR⟩ := h.around_next hmm
  obtain ⟨hpend, hppage⟩ := mergesAfter_page hp hpok
  obtain ⟨hend, hpage, -⟩ := mergesBefore_page hn hr
  have haddr := hr.addr_lt
  have hplt := hpok.start_lt
  have hnlt := hnok.start_lt
  rw [vmaAdjust_next hmm, adjustWithNext, if_pos le_rfl, if_neg (by simp), if_neg (by omega)]
  refine importing_adjusts hpok.chain hmm fun v hv => ⟨_, rfl, ?_⟩
  have hw := hv.resized hpok (by omega) hnok.end_lt hnok.end_dvd
  refine Sets.one [p, n] h hmm (by omega) hL hR hr hw (by omega) rfl (fun a ha _ => hppage a ha)
    fun a ha => ?_
  rw [cleanOf, valueAt_cons, valueAt_cons, valueAt_nil, hpend, ← hend]
  split_ifs <;> first | rfl | omega | rw [hpage a (by omega), hppage a (by omega)]

/-- Case 7: the predecessor takes the place of the next VMA. -/
theorem adjusts_prev_over (hmm : mm.mmap = L ++ p :: n :: R) (hp : mergesAfter r p)
    (hstart : n.vmStart = r.addr) (hend : n.vmEnd = r.endAddr) :
    Adjusts (vmaAdjust fails mm L.length p.vmStart r.endAddr p.vmPgoff none (some L.length)) mm
      (Sets mm r L.length) := by
  obtain ⟨hpok, hL, hnok, hR⟩ := h.around_next hmm
  obtain ⟨hpend, hppage⟩ := mergesAfter_page hp hpok
  have haddr := hr.addr_lt
  have hplt := hpok.start_lt
  rw [vmaAdjust_next hmm, adjustWithNext, if_pos hend.le, if_neg (by simp), if_neg (by omega)]
  refine importing_adjusts hpok.chain hmm fun v hv => ⟨_, rfl, ?_⟩
  have hw := hv.resized hpok (by omega) hnok.end_lt hnok.end_dvd
  refine Sets.one [p, n] h hmm (by omega) hL hR hr hw (by omega) rfl (fun a ha _ => hppage a ha)
    fun a ha => ?_
  rw [cleanOf, valueAt_cons, valueAt_cons, valueAt_nil, hpend, hstart, hend]
  split_ifs <;> first | rfl | omega

/-- Case 6: the predecessor takes the place of the next two VMAs. -/
theorem adjusts_prev_over_both (hmm : mm.mmap = L ++ p :: n :: x :: R)
    (hp : mergesAfter r p) (hx : mergesBefore r x) (hstart : n.vmStart = r.addr)
    (hend : n.vmEnd = r.endAddr) :
    Adjusts (vmaAdjust fails mm L.length p.vmStart x.vmEnd p.vmPgoff none (some L.length)) mm
    (Sets mm r L.length) := by
  obtain ⟨hpok, hL, -⟩ := h.around hmm
  obtain ⟨hxok, -, hR⟩ := h.around (L := L ++ [p, n]) (R := R) (v := x) (by rw [hmm]; simp)
  obtain ⟨hpend, hppage⟩ := mergesAfter_page hp hpok
  obtain ⟨hxend, hpage, -⟩ := mergesBefore_page hx hr
  have haddr := hr.addr_lt
  have hplt := hpok.start_lt
  have hxlt := hxok.start_lt
  rw [vmaAdjust_next hmm, adjustWithNext, if_pos (by omega), if_neg (by simp), if_pos (by omega)]
  refine importing_adjusts hpok.chain hmm fun v hv => ⟨_, rfl, ?_⟩
  have hw := hv.resized hpok (by omega) hxok.end_lt hxok.end_dvd
  refine Sets.one [p, n, x] h hmm (by omega) hL hR hr hw (by omega) rfl (fun a ha _ => hppage a ha)
    fun a ha => ?_
  rw [cleanOf, valueAt_cons, valueAt_cons, valueAt_cons, valueAt_nil, hpend, hstart, hend, ← hxend]
  split_ifs <;> first | rfl | omega | rw [hpage a (by omega), hppage a (by omega)]

/-- Case 8: the successor takes the place of the VMA before it. -/
theorem adjusts_next_over (hmm : mm.mmap = L ++ n :: x :: R)
    (hx : mergesBefore r x) (hstart : n.vmStart = r.addr) (hend : n.vmEnd = r.endAddr) :
    Adjusts (vmaAdjust fails mm L.length r.addr x.vmEnd (x.vmPgoff - r.pglen) none (some (L.length + 1)))
    mm (Sets mm r L.length) := by
  obtain ⟨hnok, hL, hxok, hR⟩ := h.around_next hmm
  obtain ⟨hxend, hpage, -⟩ := mergesBefore_page hx hr
  have haddr := hr.addr_lt
  have hxlt := hxok.start_lt
  rw [vmaAdjust_next hmm, adjustWithNext, if_pos le_rfl, if_pos (by simp)]
  refine importing_adjusts hxok.chain hmm fun v hv => ⟨_, rfl, ?_⟩
  have hw := hv.lowered hxok hr hx
  refine Sets.one [n, x] h hmm le_rfl (hstart ▸ hL) hR hr hw (by omega) rfl (fun a _ _ => rfl)
    fun a ha => ?_
  rw [cleanOf, valueAt_cons, valueAt_cons, valueAt_nil, hstart, hend, ← hxend]
  split_ifs <;> first | rfl | omega | rw [hpage a (by omega)]

/-- Case 5: the boundary to the next VMA moves up. -/
theorem adjusts_up (hmm : mm.mmap = L ++ p :: n :: R) (hp : mergesAfter r p)
    (hstart : n.vmStart = r.addr) (hend : r.endAddr < n.vmEnd) :
    Adjusts (vmaAdjust fails mm L.length p.vmStart r.endAddr p.vmPgoff none (some L.length)) mm
      (Sets mm r L.length) := by
  obtain ⟨hpok, hL, hnok, hR⟩ := h.around_next hmm
  obtain ⟨hpend, hppage⟩ := mergesAfter_page hp hpok
  have haddr := hr.addr_lt
  have hplt := hpok.start_lt
  rw [vmaAdjust_next hmm, adjustWithNext, if_neg (by omega), if_pos (by omega),
    Vma.shift_eq (pages_mul hnok.start_dvd hr.end_dvd (by omega)) hr.end_lt, BitVec.ofInt_natCast]
  refine importing_adjusts hpok.chain hmm fun v hv => ⟨_, rfl, ?_⟩
  have hw := hv.resized hpok (by omega) hr.end_lt hr.end_dvd
  have hw' : (n.put r.endAddr n.vmEnd (n.vmPgoff + BitVec.ofNat 64 (pages (r.endAddr - n.vmStart)))).Over
      r.endAddr n.vmEnd n.page := by
    refine ⟨⟨hend, hnok.end_lt, hr.end_dvd, hnok.end_dvd, hnok.chain⟩, rfl, rfl, fun a ha => ?_⟩
    exact congrArg Page.clean
      (Vma.page_up (v := n) hnok.start_dvd hr.end_dvd (by omega) ha rfl rfl rfl rfl rfl)
  refine Sets.two [p, n] h hmm (by omega) hL hR 0 hw hw' rfl (fun a => ?_) ⟨_, rfl, ?_, ?_⟩
  · rw [setOn, cleanOf, valueAt_cons, valueAt_cons, valueAt_nil, hpend, hstart]
    split_ifs <;> first | rfl | omega | rw [hppage a (by omega)]
  · show p.vmStart ≤ r.addr
    omega
  · exact le_rfl

/-- Case 4: the boundary to the next VMA moves down. -/
theorem adjusts_down (hmm : mm.mmap = L ++ p :: n :: R) (hn : mergesBefore r n)
    (hstart : p.vmStart < r.addr) (hend : r.endAddr ≤ p.vmEnd) (expand : Option ℕ) :
    Adjusts (vmaAdjust fails mm L.length p.vmStart r.addr p.vmPgoff none expand) mm
    (Sets mm r (L.length + 1)) := by
  obtain ⟨hpok, hL, hnok, hR⟩ := h.around_next hmm
  obtain ⟨hnend, hpage, -⟩ := mergesBefore_page hn hr
  have hpn := (h.around hmm).2.2 n mem_cons_self
  have hpend : p.vmEnd = r.endAddr := by omega
  have haddr := hr.addr_lt
  have hnlt := hnok.start_lt
  rw [vmaAdjust_next hmm, adjustWithNext, if_neg (by omega), if_neg (by omega), if_pos (by omega), hpend]
  refine importing_adjusts hnok.chain hmm fun v hv => ⟨_, rfl, ?_⟩
  have hw := hpok.imported.resized hpok hstart (by have := hr.end_lt; omega) hr.addr_dvd
  have hw' : (v.shift (-(pages (r.endAddr - r.addr) : ℤ))).Over r.addr n.vmEnd r.page := by
    have hlow := hv.lowered hnok hr hn
    have hv' : v.vmStart = r.endAddr := by
      obtain ⟨_, _, rfl, -⟩ := hv
      exact hnend.symm
    rw [Vma.shift_eq (by rw [neg_mul, pages_mul hr.addr_dvd hr.end_dvd haddr.le, neg_sub, hv'])
      (haddr.trans hr.end_lt), BitVec.ofInt_neg, BitVec.ofInt_natCast, ← BitVec.sub_eq_add_neg]
    obtain ⟨_, _, rfl, -⟩ := hv
    exact hlow
  refine Sets.two [p, n] h hmm hstart.le hL hR 1 hw hw' rfl (fun a => ?_) ⟨_, rfl, ?_, ?_⟩
  · rw [setOn, cleanOf, valueAt_cons, valueAt_cons, valueAt_nil, hpend, ← hnend]
    split_ifs <;> first | rfl | omega | rw [hpage a (by omega)]
  · exact hw'.start_eq.le
  rw [hw'.end_eq]
  omega

end

end

end

/-! ### `vma_merge` -/

/-- Where the callers of `vma_merge` may have the range: in a hole behind `prev`, inside of `prev`, or at
    the start of the VMA behind it. -/
inductive Place (mm : Mm) (prev : Option ℕ) (r : Request) : Prop
  | unmapped (hbefore : ∀ v ∈ mm.mmap.take (behind prev), v.vmEnd ≤ r.addr)
      (hbehind : ∀ v ∈ mm.mmap.drop (behind prev), r.endAddr ≤ v.vmStart)
  | inPrev (i : ℕ) (p : Vma) (hprev : prev = some i) (hp : mm.mmap[i]? = some p)
      (hstart : p.vmStart < r.addr) (hend : r.endAddr ≤ p.vmEnd)
  | atNext (n : Vma) (hn : mm.mmap[behind prev]? = some n) (hstart : n.vmStart = r.addr)
      (hend : r.endAddr ≤ n.vmEnd)

/-- What the callers of `vma_merge` promise. -/
structure Called (mm : Mm) (prev : Option ℕ) (r : Request) : Prop where
  ok : r.Ok
  prev_lt : ∀ i ∈ prev, i < mm.mmap.length
  place : Place mm prev r

section
variable {prev : Option ℕ} {i : ℕ} {p : Vma} {A B L : List Vma}

/-- Either `NULL` and no change, or the range is set. -/
def Merges (mm : Mm) (r : Request) (res : Except Bug (Option ℕ × Mm)) : Prop :=
  res = .ok (none, mm) ∨ ∃ i mm', res = .ok (some i, mm') ∧ Sets mm r i mm'

theorem Adjusts.merges {res : Except Bug (Option Errno × Mm)} (h : Adjusts res mm (Sets mm r i)) :
    Merges mm r (merged i res) := by
  rcases h with ⟨err, rfl⟩ | ⟨mm', rfl, hsets⟩
  · exact .inl rfl
  · exact .inr ⟨i, mm', rfl, hsets⟩

/-- The list at `prev`. -/
theorem Called.split (h : Called mm prev r) : prev = none ∨ ∃ L p A, prev = some L.length ∧
    mm.mmap = L ++ p :: A := by
  rcases hprev : prev with _ | i
  · exact .inl rfl
  have hi := h.prev_lt i hprev
  refine .inr ⟨mm.mmap.take i, mm.mmap[i], mm.mmap.drop (i + 1), ?_, ?_⟩
  · rw [length_take, min_eq_left hi.le]
  · rw [← drop_eq_getElem_cons hi, take_append_drop]

omit [Config] in
theorem prevIf_at (hmm : mm.mmap = L ++ p :: A) (cond : Vma → Bool) :
    prevIf mm (some L.length) cond = if cond p then some (L.length, p) else none := by
  rw [prevIf, hmm, getElem?_cursor, filter_some]
  split <;> rfl

/-- The VMA behind the range, in a hole or inside of `prev`, at the start of a VMA that is longer, and in
    the place of a VMA. -/
theorem Called.next_cases (hc : Called mm prev r) (h : WellFormed mm) (hmm : mm.mmap = B ++ A)
    (hB : behind prev = B.length) :
    ((∀ v ∈ A, r.endAddr ≤ v.vmStart) ∧ nextOf mm (behind prev) r = B.length ∧
      mm.mmap[B.length]? = A.head?) ∨ ∃ n A', A = n :: A' ∧ n.vmStart = r.addr ∧
    ((r.endAddr < n.vmEnd ∧ nextOf mm (behind prev) r = B.length ∧ mm.mmap[B.length]? = some n) ∨
      (n.vmEnd = r.endAddr ∧ nextOf mm (behind prev) r = B.length + 1 ∧
        mm.mmap[B.length + 1]? = A'.head?)) := by
  have hget : mm.mmap[B.length]? = A.head? := by rw [hmm, getElem?_cursor_head]
  rw [hB, nextOf, hget]
  obtain hA | ⟨n, A', rfl, hstart, hend⟩ :
      (∀ v ∈ A, r.endAddr ≤ v.vmStart) ∨ ∃ n A', A = n :: A' ∧ n.vmStart = r.addr ∧
      r.endAddr ≤ n.vmEnd := by
    cases hc.place with
    | unmapped _ hbehind =>
      rw [hmm, hB, drop_left] at hbehind
      exact .inl hbehind
    | inPrev i p hprev hp _ hend =>
      rw [hprev, behind] at hB
      rw [hmm, getElem?_append_left (by omega)] at hp
      have hord := h.ordered
      rw [hmm] at hord
      exact .inl fun v hv => hend.trans ((ordered_append.mp hord).2.2 p (mem_of_getElem? hp) v hv)
    | atNext n hn hstart hend =>
      rw [hmm, hB, getElem?_cursor_head] at hn
      obtain ⟨A', rfl⟩ := head?_eq_some_iff.mp hn
      exact .inr ⟨n, A', rfl, hstart, hend⟩
  · refine .inl ⟨hA, if_neg ?_, rfl⟩
    rcases A with _ | ⟨n, A'⟩
    · simp
    have hn : n ∈ mm.mmap := by rw [hmm]; simp
    have hlt := (h.ok n hn).start_lt
    have hle := hA n mem_cons_self
    simp only [head?_cons, any_some, decide_eq_true_eq]
    omega
  refine .inr ⟨n, A', rfl, hstart, ?_⟩
  simp only [head?_cons, any_some, decide_eq_true_eq]
  rcases hend.lt_or_eq with hend | hend
  · exact .inl ⟨hend, if_neg (by omega), trivial⟩
  refine .inr ⟨hend.symm, if_pos hend.symm, ?_⟩
  rw [hmm, getElem?_append_right (by omega), Nat.add_sub_cancel_left, getElem?_cons_succ,
    head?_eq_getElem?]

omit [Config] in
theorem head_filter {cond : Vma → Bool} {n : Vma} (h : A.head?.filter cond = some n) :
    (∃ A', A = n :: A') ∧ cond n := by
  obtain ⟨hhead, hn⟩ := filter_eq_some_iff.mp h
  exact ⟨head?_eq_some_iff.mp hhead, hn⟩

/-- Cases 3 and 8, where `prev` is before the range. -/
theorem mergeNext_merges (h : WellFormed mm) (hc : Called mm prev r) (hmm : mm.mmap = B ++ A)
    (hB : behind prev = B.length) (hprev : prevIf mm prev (fun p => r.addr < p.vmEnd) = none)
    (hbefore : ∀ v ∈ B, v.vmEnd ≤ r.addr) :
    Merges mm r (mergeNext fails mm prev (behind prev) (nextOf mm (behind prev) r) r) := by
  have haddr := hc.ok.addr_lt
  rw [mergeNext, hprev]
  rcases hc.next_cases h hmm hB with
    ⟨hA, hnext, hget⟩ | ⟨n, A', rfl, hstart, ⟨hend, hnext, hget⟩ | ⟨hend, hnext, hget⟩⟩ <;>
      rw [hnext, hget, hB]
  · split
    · exact .inl rfl
    rename_i n hn
    obtain ⟨⟨A', rfl⟩, hnb⟩ := head_filter hn
    exact (adjusts_next h hc.ok hmm hnb hbefore _).merges
  · split
    · exact .inl rfl
    rename_i n' hn
    obtain ⟨⟨⟩, hn⟩ := filter_eq_some_iff.mp hn
    obtain ⟨hend', -⟩ := mergesBefore_page hn hc.ok
    omega
  split
  · exact .inl rfl
  rename_i x hx
  obtain ⟨⟨A'', rfl⟩, hxb⟩ := head_filter hx
  exact (adjusts_next_over h hc.ok hmm hxb hstart hend).merges

section
variable (h : WellFormed mm) (hc : Called mm (some L.length) r) (hmm : mm.mmap = L ++ p :: A)
include h hc hmm

/-- Cases 1, 2, 5, 6 and 7. -/
theorem mergePrev_merges (hp : mergesAfter r p) :
    Merges mm r (mergePrev fails mm (nextOf mm (behind (some L.length)) r) L.length p r) := by
  have hmm' : mm.mmap = (L ++ [p]) ++ A := by rw [hmm, append_assoc]; rfl
  have haddr := hc.ok.addr_lt
  rw [mergePrev]
  rcases hc.next_cases h hmm' (by simp [behind]) with
    ⟨hA, hnext, hget⟩ | ⟨n, A', rfl, hstart, ⟨hend, hnext, hget⟩ | ⟨hend, hnext, hget⟩⟩ <;>
      rw [hnext, hget]
  · split
    · rename_i n hn
      obtain ⟨⟨A', rfl⟩, hnb⟩ := head_filter hn
      exact (adjusts_both h hc.ok hmm hp (and_eq_true_iff.mp hnb).1).merges
    · exact (adjusts_prev h hc.ok hmm hp hA).merges
  · -- the range is not behind itself
    split
    · rename_i n' hn
      obtain ⟨⟨⟩, hn⟩ := filter_eq_some_iff.mp hn
      obtain ⟨hend', -⟩ := mergesBefore_page (and_eq_true_iff.mp hn).1 hc.ok
      omega
    · exact (adjusts_up h hc.ok hmm hp hstart hend).merges
  split
  · rename_i x hx
    obtain ⟨⟨A'', rfl⟩, hxb⟩ := head_filter hx
    exact (adjusts_prev_over_both h hc.ok hmm hp (and_eq_true_iff.mp hxb).1 hstart hend).merges
  · exact (adjusts_prev_over h hc.ok hmm hp hstart hend).merges

variable (hin : r.addr < p.vmEnd)
include hin

/-- A `prev` that reaches into the range has the whole range in it. -/
theorem Called.inside : p.vmStart < r.addr ∧ r.endAddr ≤ p.vmEnd := by
  have hget : mm.mmap[L.length]? = some p := by rw [hmm]; exact getElem?_cursor ..
  cases hc.place with
  | unmapped hbefore _ =>
    have hle := hbefore p (mem_of_getElem? (i := L.length) (by
      rw [behind, getElem?_take_of_lt (Nat.lt_succ_self _), hget]))
    omega
  | inPrev i q hprev hq hstart hend =>
    cases hprev
    cases hget.symm.trans hq
    exact ⟨hstart, hend⟩
  | atNext n hn hstart _ =>
    rw [hmm, behind, getElem?_append_right (by omega), Nat.add_sub_cancel_left] at hn
    have hle := (h.around hmm).2.2 n (mem_of_getElem? (i := 0) hn)
    omega

/-- Case 4, where the range is inside of `prev`. -/
theorem mergeNext_inside : Merges mm r (mergeNext fails mm (some L.length) (behind (some L.length))
      (nextOf mm (behind (some L.length)) r) r) := by
  have hmm' : mm.mmap = (L ++ [p]) ++ A := by rw [hmm, append_assoc]; rfl
  have hB : behind (some L.length) = (L ++ [p]).length := by simp [behind]
  obtain ⟨hstart, hend⟩ := hc.inside h hmm hin
  rcases hc.next_cases h hmm' hB with ⟨hA, hnext, hget⟩ | ⟨n, A', rfl, hstart', -⟩
  · rw [mergeNext, hnext, hget, prevIf_at hmm, if_pos (decide_eq_true hin), hB]
    split
    · exact .inl rfl
    rename_i n hn
    obtain ⟨⟨A', rfl⟩, hnb⟩ := head_filter hn
    rw [← hB]
    exact (adjusts_down h hc.ok hmm hnb hstart hend _).merges
  · have hle := (h.around hmm).2.2 n mem_cons_self
    omega

end

/-- `vma_merge` returns `NULL` and changes nothing, or it sets exactly the range of the request. -/
theorem vmaMerge_merges (h : WellFormed mm) (hc : Called mm prev r) :
    Merges mm r (vmaMerge fails mm prev r) := by
  rw [vmaMerge]
  split
  · exact .inl rfl
  dsimp only
  rcases hc.split with rfl | ⟨L, p, A, rfl, hmm⟩
  · exact mergeNext_merges (B := []) h hc rfl rfl rfl (by simp)
  rw [prevIf_at hmm]
  by_cases hp : mergesAfter r p
  · rw [if_pos hp]
    exact mergePrev_merges h hc hmm hp
  rw [if_neg hp]
  by_cases hin : r.addr < p.vmEnd
  · exact mergeNext_inside h hc hmm hin
  obtain ⟨hpok, hL, -⟩ := h.around hmm
  have hlt := hpok.start_lt
  refine mergeNext_merges (B := L ++ [p]) h hc (by rw [hmm, List.append_assoc]; rfl)
    (by simp [behind]) ?_ ?_
  · rw [prevIf_at hmm, if_neg (by simpa using hin)]
  intro v hv
  rcases List.mem_append.mp hv with hv | hv
  · have := hL v hv
    omega
  obtain rfl := List.mem_singleton.mp hv
  omega

end

end

section
local instance x86Merge : Config := x86

/-- A page of file 7. -/
def filePage (start : ℕ) (pgoff flags : BitVec 64) : Vma :=
  ⟨start, start + 0x1000, pgoff, flags, some 7, none, none, 0, none, none⟩

/-- The page in the middle is protected like the other two, and the three become one. -/
theorem vmaMerge_merges_three :
    let mm : Mm := ⟨[filePage 0x1000 0 1, filePage 0x2000 1 3, filePage 0x3000 2 1], 3, 0⟩
    let r : Request := ⟨0x2000, 0x3000, 1, none, some 7, 1, none, none⟩
    vmaMerge false mm (some 0) r = .ok (some 0, ⟨[(filePage 0x1000 0 1).put 0x1000 0x4000 0], 1, 0⟩) ∧
      Merges mm r (vmaMerge false mm (some 0) r) :=
  ⟨rfl, vmaMerge_merges (by decide +kernel) ⟨⟨by decide, by decide, by decide, by decide⟩, by decide,
      .atNext (filePage 0x2000 1 3) rfl rfl (by decide)⟩⟩

end

end LinuxNote.Mmap
