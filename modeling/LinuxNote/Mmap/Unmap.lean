import LinuxNote.Lib.Cursor
import LinuxNote.Mmap.AddressSpace

/-! `do_munmap` takes exactly the pages of its range out. The VMAs at both ends of the range are split
    first, which does not change what is mapped, so an error on the way is one without an effect. -/

namespace LinuxNote.Mmap
open List Nat

open Intervals Cursor

section
variable [Config] {mm : Mm} {L R A : List Vma} {v w : Vma} {addr start endAddr : ℕ} {env : UnmapEnv}

/-! ### Searching -/

omit [Config] in
theorem findVma_append (hmm : mm.mmap = L ++ R) (hL : ∀ v ∈ L, v.vmEnd ≤ addr)
    (hR : ∀ v ∈ R.head?, addr < v.vmEnd) : findVma mm addr = L.length := by
  rw [findVma, hmm]
  clear hmm
  induction L with
  | nil =>
    rcases R with _ | ⟨v, R⟩
    · rfl
    have hv := hR v rfl
    simp [findIdx_cons, hv]
  | cons u L ih =>
    have hu := hL u mem_cons_self
    have hfalse : decide (addr < u.vmEnd) = false := decide_eq_false (by omega)
    rw [cons_append, findIdx_cons, hfalse, ih fun v hv => hL v (mem_cons_of_mem _ hv)]
    rfl

omit [Config] in
/-- A list cut where the VMAs begin to end above `addr`. -/
theorem exists_cut {l : List Vma} (hord : Ordered Vma.vmStart Vma.vmEnd l)
    (hok : ∀ v ∈ l, v.vmStart < v.vmEnd) (addr : ℕ) : ∃ L R, l = L ++ R ∧ (∀ v ∈ L, v.vmEnd ≤ addr) ∧
    ∀ v ∈ R, addr < v.vmEnd := by
  induction l with
  | nil => exact ⟨[], [], rfl, by simp, by simp⟩
  | cons u l ih =>
    obtain ⟨hu, hl⟩ := ordered_cons.mp hord
    by_cases hle : u.vmEnd ≤ addr
    · obtain ⟨L, R, rfl, hL, hR⟩ := ih hl fun v hv => hok v (mem_cons_of_mem _ hv)
      refine ⟨u :: L, R, rfl, ?_, hR⟩
      intro v hv
      rcases mem_cons.mp hv with rfl | hv
      · exact hle
      · exact hL v hv
    refine ⟨[], u :: l, rfl, by simp, ?_⟩
    intro v hv
    rcases mem_cons.mp hv with rfl | hv
    · omega
    have hstart := hu v hv
    have hlt := hok v (mem_cons_of_mem _ hv)
    omega

/-! ### Splitting -/

/-- The part `[s, e)` of `v`. -/
structure Vma.Part (w v : Vma) (s e : ℕ) : Prop where
  ok : w.Ok
  start_eq : w.vmStart = s
  end_eq : w.vmEnd = e
  page : ∀ a, s ≤ a → w.page a = v.page a

/-- `v`, which is between `L` and `R`, has become two. -/
structure Halved (mm : Mm) (L : List Vma) (v : Vma) (R : List Vma) (addr : ℕ) (low high : Vma)
    (mm' : Mm) : Prop where
  mmap_eq : mm'.mmap = L ++ low :: high :: R
  low_part : low.Part v v.vmStart addr
  high_part : high.Part v addr v.vmEnd
  wellFormed : WellFormed mm'
  count : mm'.mapCount = mm.mapCount + 1
  map : ∀ a, pageAt mm' a = pageAt mm a

theorem Halved.of_parts {low high : Vma} (h : WellFormed mm) (hmm : mm.mmap = L ++ v :: R)
    (hlow : low.Part v v.vmStart addr) (hhigh : high.Part v addr v.vmEnd) :
    Halved mm L v R addr low high { mm with
      mmap := L ++ low :: high :: R, mapCount := mm.mapCount + 1 } := by
  obtain ⟨hok, hL, hR⟩ := h.around hmm
  have hlt := hlow.ok.start_lt
  have hlt' := hhigh.ok.start_lt
  have hs := hlow.start_eq
  have he := hlow.end_eq
  have hs' := hhigh.start_eq
  have he' := hhigh.end_eq
  refine ⟨rfl, hlow, hhigh, ?_, rfl, fun a => ?_⟩
  · refine h.replace [v] [low, high] hmm hok.start_lt.le hL hR ?_ ?_ rfl
    · refine ordered_cons.mpr ⟨fun u hu => ?_, ordered_singleton _⟩
      obtain rfl := mem_singleton.mp hu
      omega
    intro u hu
    rcases mem_cons.mp hu with rfl | hu
    · exact ⟨hlow.ok, by omega, by omega⟩
    obtain rfl := mem_singleton.mp hu
    exact ⟨hhigh.ok, by omega, by omega⟩
  rw [pageAt, pageAt, hmm, valueAt_append, valueAt_append, valueAt_cons, valueAt_cons, valueAt_cons, hs,
    he, hs', he']
  congr 1
  split
  · rename_i ha
    rw [if_pos (by omega), hlow.page a ha.1]
  split
  · rename_i ha
    rw [if_pos (by omega), hhigh.page a ha.1]
  · rw [if_neg (by omega)]

omit [Config] in
/-- An inserted VMA comes between those before it and those behind it. -/
theorem insertVmStruct_append (hmm : mm.mmap = L ++ R) (hL : ∀ u ∈ L, u.vmEnd ≤ w.vmStart)
    (hR : ∀ u ∈ R.head?, w.vmStart < u.vmEnd ∧ w.vmEnd ≤ u.vmStart) :
    insertVmStruct mm w = .ok { mm with mmap := L ++ w :: R, mapCount := mm.mapCount + 1 } := by
  have hfind : findVma mm w.vmStart = L.length := findVma_append hmm hL fun u hu => (hR u hu).1
  have hfree : ¬(mm.mmap[L.length]?).any fun u => u.vmStart < w.vmEnd := by
    rw [hmm, getElem?_cursor_head]
    rcases hhead : R.head? with _ | u
    · simp
    have hu := (hR u hhead).2
    simp only [Option.any_some, decide_eq_true_eq]
    omega
  have hlinks : findVmaLinks mm w.vmStart w.vmEnd = some L.length := by
    rw [findVmaLinks, hfind]
    exact if_neg hfree
  rw [insertVmStruct, hlinks]
  dsimp only
  rw [hmm, insertIdx_cursor]

variable {mm' : Mm} {bound len : ℕ} {uf downgrade : Bool}

theorem vmaAdjust_insert {fails : Bool} {s e : ℕ} {pgoff : BitVec 64} {new : Vma}
    (hmm : mm.mmap = L ++ v :: R)
    (hins : insertVmStruct { mm with mmap := L ++ v.put s e pgoff :: R } new = .ok mm') :
    vmaAdjust fails mm L.length s e pgoff (some new) none = .ok (none, mm') := by
  simp only [vmaAdjust, hmm, drop_left, take_left, hins]

section
variable (h : WellFormed mm) (hmm : mm.mmap = L ++ v :: R) (hlo : v.vmStart < addr)
  (hhi : addr < v.vmEnd) (hdvd : pageSize ∣ addr)
include h hmm hlo hhi hdvd

/-- The new VMA becomes the lower part. -/
theorem insert_below (new : Vma) (hnew : new.Part v v.vmStart addr) :
    ∃ mm' low high, vmaAdjust false mm L.length addr v.vmEnd
      (v.vmPgoff + BitVec.ofNat 64 (pages (addr - new.vmStart))) (some new) none = .ok (none, mm') ∧
        Halved mm L v R addr low high mm' := by
  obtain ⟨hok, hL, -⟩ := h.around hmm
  rw [hnew.start_eq]
  refine ⟨_, new, _, vmaAdjust_insert hmm (insertVmStruct_append (L := L) rfl ?_ ?_),
    Halved.of_parts h hmm hnew ?_⟩
  · rw [hnew.start_eq]
    exact hL
  · rintro u ⟨⟩
    rw [hnew.start_eq, hnew.end_eq]
    exact ⟨hok.start_lt, le_rfl⟩
  · refine ⟨⟨hhi, hok.end_lt, hdvd, hok.end_dvd, hok.chain⟩, rfl, rfl, fun a ha => ?_⟩
    exact Vma.page_up (v := v) hok.start_dvd hdvd hlo.le ha rfl rfl rfl rfl rfl

/-- The new VMA becomes the upper part. -/
theorem insert_above (new : Vma) (hnew : new.Part v addr v.vmEnd) :
    ∃ mm' low high, vmaAdjust false mm L.length v.vmStart addr v.vmPgoff (some new) none =
      .ok (none, mm') ∧ Halved mm L v R addr low high mm' := by
  obtain ⟨hok, hL, hR⟩ := h.around hmm
  have hlow : (v.put v.vmStart addr v.vmPgoff).Part v v.vmStart addr :=
    ⟨⟨hlo, hhi.trans hok.end_lt, hok.start_dvd, hdvd, hok.chain⟩, rfl, rfl, fun _ _ => rfl⟩
  have hmm' : L ++ v.put v.vmStart addr v.vmPgoff :: R = (L ++ [v.put v.vmStart addr v.vmPgoff]) ++
    R := by simp
  have hins : insertVmStruct { mm with mmap := L ++ v.put v.vmStart addr v.vmPgoff :: R } new = .ok _ :=
    insertVmStruct_append hmm' ?_ ?_
  · rw [append_assoc] at hins
    exact ⟨_, _, new, vmaAdjust_insert hmm hins, Halved.of_parts h hmm hlow hnew⟩
  · intro u hu
    rw [hnew.start_eq]
    rcases mem_append.mp hu with hu | hu
    · exact (hL u hu).trans hlo.le
    obtain rfl := mem_singleton.mp hu
    exact le_rfl
  intro u hu
  have hmem := mem_of_mem_head? hu
  have hstart := hR u hmem
  have hlt := (h.ok u (by rw [hmm]; simp [hmem])).start_lt
  rw [hnew.start_eq, hnew.end_eq]
  omega

/-- `__split_vma` fails without a change, or makes two parts of the VMA. -/
theorem splitVma_halves {env : SplitEnv} (newBelow : Bool) :
    Adjusts (splitVma env mm L.length addr newBelow) mm fun mm' => ∃ low high,
    Halved mm L v R addr low high mm' := by
  obtain ⟨hok, hL, hR⟩ := h.around hmm
  rw [splitVma, hmm, getElem?_cursor]
  dsimp only
  split
  · exact .inl ⟨_, rfl⟩
  split
  · exact .inl ⟨_, rfl⟩
  split
  · exact .inl ⟨_, rfl⟩
  cases env.cloneFails with
  | true => exact .inl ⟨_, rfl⟩
  | false =>
    cases newBelow with
    | true =>
      obtain ⟨mm', low, high, hadj, hhalf⟩ := insert_below h hmm hlo hhi hdvd
        { splitNew v addr true with anonVmaChain := 0 + v.anonVmaChain }
        ⟨⟨hlo, hhi.trans hok.end_lt, hok.start_dvd, hdvd, fun he => by rw [hok.chain he]⟩, rfl, rfl,
          fun _ _ => rfl⟩
      exact .inr ⟨mm', hadj, low, high, hhalf⟩
    | false =>
      obtain ⟨mm', low, high, hadj, hhalf⟩ := insert_above h hmm hlo hhi hdvd
        { splitNew v addr false with anonVmaChain := 0 + v.anonVmaChain }
        ⟨⟨hhi, hok.end_lt, hdvd, hok.end_dvd, fun he => by rw [hok.chain he]⟩, rfl, rfl, fun a ha =>
          Vma.page_up (v := v) hok.start_dvd hdvd hlo.le ha rfl rfl rfl rfl rfl⟩
      exact .inr ⟨mm', hadj, low, high, hhalf⟩

end

/-! ### Detaching -/

omit [Config] in
/-- The loop takes out the VMAs that start below `end`. -/
theorem detachVmas_append (c : ℕ) (hL : ∀ u ∈ L, u.vmStart < endAddr)
    (hR : ∀ u ∈ R, endAddr ≤ u.vmStart) : detachVmas endAddr (L ++ R) c = (R, c - L.length) := by
  induction L generalizing c with
  | nil =>
    rcases R with _ | ⟨u, R⟩
    · rfl
    have hu := hR u mem_cons_self
    rw [nil_append, detachVmas, if_neg (by omega)]
    rfl
  | cons u L ih =>
    rw [cons_append, detachVmas, if_pos (hL u mem_cons_self),
      ih _ fun w hw => hL w (mem_cons_of_mem _ hw), length_cons, Nat.sub_sub, Nat.add_comm]

/-- What a call leaves: without success what is mapped is as before, and with success the range is not
    mapped, nothing else is different, and there are not more VMAs than `bound`. -/
def Unmaps (mm : Mm) (start endAddr bound : ℕ) (res : Except Bug (Except Errno ℕ × Mm)) : Prop :=
  ∃ ret mm', res = .ok (ret, mm') ∧ WellFormed mm' ∧ match ret with
    | .error _ => ∀ a, pageAt mm' a = pageAt mm a
    | .ok _ => (∀ a, pageAt mm' a = eraseOn start endAddr (pageAt mm) a) ∧ mm'.mapCount ≤ bound

/-- A change of the VMAs that does not change what is mapped comes before. -/
theorem Unmaps.after {bound' : ℕ} {res : Except Bug (Except Errno ℕ × Mm)}
    (h : Unmaps mm' start endAddr bound res) (hmap : ∀ a, pageAt mm' a = pageAt mm a)
    (hle : bound ≤ bound') : Unmaps mm start endAddr bound' res := by
  obtain ⟨ret, mm'', rfl, hwf, hret⟩ := h
  refine ⟨ret, mm'', rfl, hwf, ?_⟩
  rcases ret with err | n
  · exact fun a => (hret a).trans (hmap a)
  refine ⟨fun a => ?_, hret.2.trans hle⟩
  rw [hret.1 a, eraseOn, eraseOn, hmap]

/-- The VMAs of the middle part are those of the range. -/
theorem unmapVmas_unmaps {M : List Vma} (h : WellFormed mm) (hmm : mm.mmap = L ++ (M ++ R))
    (hlt : start ≤ endAddr) (hne : M ≠ []) (hL : ∀ u ∈ L, u.vmEnd ≤ start)
    (hM : ∀ u ∈ M, start ≤ u.vmStart ∧ u.vmEnd ≤ endAddr) (hR : ∀ u ∈ R, endAddr ≤ u.vmStart) :
    Unmaps mm start endAddr (mm.mapCount - M.length)
    (unmapVmas env mm L.length endAddr uf downgrade) := by
  rw [unmapVmas]
  split
  · exact ⟨_, _, rfl, h, fun _ => rfl⟩
  rcases M with _ | ⟨u, M⟩
  · exact absurd rfl hne
  have hbelow : ∀ w ∈ M, w.vmStart < endAddr := by
    intro w hw
    have hle := (hM w (mem_cons_of_mem _ hw)).2
    have hlt := (h.ok w (by rw [hmm]; simp [hw])).start_lt
    omega
  have hcount : mm.mapCount - 1 - M.length = mm.mapCount - (u :: M).length := by
    rw [length_cons, Nat.sub_sub, Nat.add_comm]
  rw [hmm, drop_left, take_left]
  dsimp only [cons_append]
  rw [detachVmas_append _ hbelow hR, hcount]
  refine ⟨_, _, rfl, ?_, fun a => ?_, le_rfl⟩
  · refine h.replace (u :: M) [] hmm hlt hL hR ordered_nil (by simp) ?_
    have := h.count
    rw [hmm, length_append, length_append] at this
    simp only [length_nil]
    omega
  · rw [pageAt, pageAt, hmm, ← append_assoc]
    exact valueAt_erase_middle hL hM hR a

/-! ### `do_munmap` -/

/-- The rest of the call once nothing before `start` reaches into the range. There is one VMA less,
    unless the first one reaches beyond the range. -/
theorem splitLast_unmaps (h : WellFormed mm) (hmm : mm.mmap = L ++ v :: A)
    (hdvd : pageSize ∣ endAddr) (hlt : start < endAddr) (hL : ∀ u ∈ L, u.vmEnd ≤ start)
    (hstart : start ≤ v.vmStart) (hv : v.vmStart < endAddr) (hbound : mm.mapCount ≤ bound + 1)
    (hbound' : endAddr < v.vmEnd → mm.mapCount ≤ bound) :
    Unmaps mm start endAddr bound (splitLast env mm L.length endAddr uf downgrade) := by
  -- every VMA from `v` on starts in or behind the range
  obtain ⟨hvok, -, hA⟩ := h.around hmm
  have hvlt := hvok.start_lt
  have hfrom : ∀ u ∈ v :: A, start ≤ u.vmStart := by
    intro u hu
    rcases mem_cons.mp hu with rfl | hu
    · exact hstart
    have := hA u hu
    omega
  have hord : Ordered Vma.vmStart Vma.vmEnd (v :: A) := by
    have := h.ordered
    rw [hmm] at this
    exact (ordered_append.mp this).2.1
  have hok : ∀ u ∈ v :: A, u.vmStart < u.vmEnd := fun u hu =>
    (h.ok u (by rw [hmm]; exact mem_append_right _ hu)).start_lt
  obtain ⟨M, R, hMR, hM, hR⟩ := exists_cut hord hok endAddr
  have hMin : ∀ u ∈ M, start ≤ u.vmStart ∧ u.vmEnd ≤ endAddr := fun u hu =>
    ⟨hfrom u (by rw [hMR]; exact mem_append_left _ hu), hM u hu⟩
  rw [hMR] at hmm hord
  have hmm' : mm.mmap = (L ++ M) ++ R := by rw [hmm, append_assoc]
  have hfind : findVma mm endAddr = (L ++ M).length := by
    refine findVma_append hmm' ?_ fun u hu => hR u (mem_of_mem_head? hu)
    intro u hu
    rcases mem_append.mp hu with hu | hu
    · exact (hL u hu).trans hlt.le
    · exact hM u hu
  rw [splitLast, hfind, hmm', getElem?_cursor_head]
  rcases R with _ | ⟨w, R⟩
  · rw [if_neg (by simp)]
    have hne : M ≠ [] := by rintro rfl; cases hMR
    have hpos := length_pos_iff.mpr hne
    exact (unmapVmas_unmaps h hmm hlt.le hne hL hMin (by simp)).after (fun _ => rfl) (by omega)
  have hRw := (ordered_cons.mp (ordered_append.mp hord).2.1).1
  by_cases hw : w.vmStart < endAddr
  · rw [if_pos (by simpa using hw)]
    rcases splitVma_halves h hmm' hw (hR w mem_cons_self) hdvd true with ⟨err, he⟩ | ⟨mm', he,
      low, high, hh⟩
    · rw [he]
      exact ⟨_, _, rfl, h, fun _ => rfl⟩
    rw [he]
    have hlow := hh.low_part
    have hmm'' : mm'.mmap = L ++ ((M ++ [low]) ++ (high :: R)) := by
      rw [hh.mmap_eq]
      simp
    refine (unmapVmas_unmaps hh.wellFormed hmm'' hlt.le (by simp) hL ?_ ?_).after hh.map ?_
    · intro u hu
      rcases mem_append.mp hu with hu | hu
      · exact hMin u hu
      obtain rfl := mem_singleton.mp hu
      rw [hlow.start_eq, hlow.end_eq]
      exact ⟨hfrom w (by rw [hMR]; simp), le_rfl⟩
    · intro u hu
      rcases mem_cons.mp hu with rfl | hu
      · exact hh.high_part.start_eq.ge
      have h1 := hR w mem_cons_self
      have h2 := hRw u hu
      omega
    -- only a middle part that is `low` alone comes from a `v` that reaches beyond the range
    rw [hh.count, length_append, length_singleton]
    rcases M with _ | ⟨u, M⟩
    · cases hMR
      exact hbound' (hR v mem_cons_self)
    rw [length_cons]
    omega
  rw [if_neg (by simpa using hw)]
  have hne : M ≠ [] := by
    rintro rfl
    cases hMR
    exact hw hv
  have hpos := length_pos_iff.mpr hne
  refine (unmapVmas_unmaps h hmm hlt.le hne hL hMin ?_).after (fun _ => rfl) (by omega)
  intro u hu
  have hwlt := hok w (by rw [hMR]; simp)
  rcases mem_cons.mp hu with rfl | hu
  · omega
  have := hRw u hu
  omega

theorem pageAlign_eq (hlen : len ≤ taskSize) :
    pageSize ∣ pageAlign len ∧ pageAlign len < len + pageSize := by
  have htask := taskSize_le
  have hpos := pageSize_pos
  have hsize : (pageSize : ℕ) = 2 ^ pageShift := rfl
  have hmod : (len + (pageSize - 1)) % 2 ^ 64 = len + (pageSize - 1) := mod_eq_of_lt (by omega)
  have hdiv := div_add_mod (len + (pageSize - 1)) pageSize
  rw [pageAlign, hmod, mul_comm]
  exact ⟨dvd_mul_right _ _, by omega⟩

/-- A range that meets no VMA. -/
theorem unmaps_nothing {ret : ℕ} (h : WellFormed mm) (hmm : mm.mmap = L ++ R)
    (hL : ∀ u ∈ L, u.vmEnd ≤ start) (hR : ∀ u ∈ R, endAddr ≤ u.vmStart) (hbound : mm.mapCount ≤ bound) :
    Unmaps mm start endAddr bound (.ok (.ok ret, mm)) := by
  refine ⟨_, _, rfl, h, fun a => ?_, hbound⟩
  have herase : valueAt Vma.vmStart Vma.vmEnd Vma.page (L ++ R) a = _ :=
    valueAt_erase_middle (M := []) hL (by simp) hR a
  rw [append_nil] at herase
  rw [pageAt, hmm]
  exact herase

theorem unmapAligned_unmaps (h : WellFormed mm) (hstart : pageSize ∣ start)
    (hlen : pageSize ∣ len) (hpos : 0 < len) (hlt : start + len < 2 ^ 64) :
    Unmaps mm start (start + len) (max mm.mapCount sysctlMaxMapCount)
    (unmapAligned env mm start len uf downgrade) := by
  obtain ⟨L, R, hmm, hL, hR⟩ := exists_cut h.ordered (fun v hv => (h.ok v hv).start_lt) start
  have hfind : findVma mm start = L.length :=
    findVma_append hmm hL fun u hu => hR u (mem_of_mem_head? hu)
  have hmod : (start + len) % 2 ^ 64 = start + len := mod_eq_of_lt hlt
  rw [unmapAligned, hfind, hmm, getElem?_cursor_head, hmod]
  rcases R with _ | ⟨v, R⟩
  · exact unmaps_nothing h hmm hL (by simp) (le_max_left ..)
  dsimp only [head?_cons]
  have hv := hR v mem_cons_self
  have hRv := (h.around hmm).2.2
  have hvlt := (h.around hmm).1.start_lt
  split_ifs with hfree hlow hlimit
  · refine unmaps_nothing h hmm hL ?_ (le_max_left ..)
    intro u hu
    rcases mem_cons.mp hu with rfl | hu
    · exact hfree
    have := hRv u hu
    omega
  · exact ⟨_, _, rfl, h, fun _ => rfl⟩
  · rcases splitVma_halves h hmm hlow hv hstart false with ⟨err, he⟩ | ⟨mm', he, low, high, hh⟩
    · rw [he]
      exact ⟨_, _, rfl, h, fun _ => rfl⟩
    rw [he]
    have hs := hh.high_part.start_eq
    have hmm' : mm'.mmap = (L ++ [low]) ++ high :: R := by rw [hh.mmap_eq, append_assoc]; rfl
    have hlen' : (L ++ [low]).length = L.length + 1 := by simp
    have hL' : ∀ u ∈ L ++ [low], u.vmEnd ≤ start := by
      intro u hu
      rcases mem_append.mp hu with hu | hu
      · exact hL u hu
      obtain rfl := mem_singleton.mp hu
      exact hh.low_part.end_eq.le
    have hcount := hh.count
    have he := hh.high_part.end_eq
    rw [← hlen']
    exact (splitLast_unmaps hh.wellFormed hmm' (Nat.dvd_add hstart hlen) (by omega) hL'
      (by omega) (by omega) (by omega) (by omega)).after hh.map le_rfl
  · exact splitLast_unmaps h hmm (Nat.dvd_add hstart hlen) (by omega) hL (by omega) (by omega)
      (by omega) (by omega)

/-- `do_munmap` unmaps exactly its range, or fails and leaves what is mapped as it was. -/
theorem doMunmap_unmaps {len : ℕ} {uf : Bool} (h : WellFormed mm) :
    Unmaps mm start (start + pageAlign len) (max mm.mapCount sysctlMaxMapCount)
    (doMunmap env mm start len uf) := by
  rw [doMunmap, doMunmapDowngrade]
  split
  · exact ⟨_, _, rfl, h, fun _ => rfl⟩
  rename_i hargs
  split
  · exact ⟨_, _, rfl, h, fun _ => rfl⟩
  rename_i hne
  simp only [not_or, not_lt, ne_eq, not_not] at hargs
  obtain ⟨hstart, htask, hlen⟩ := hargs
  obtain ⟨hdvd, hlt⟩ := pageAlign_eq (show len ≤ taskSize by omega)
  have hsize : (pageSize : ℕ) = 2 ^ pageShift := rfl
  have := taskSize_le
  exact unmapAligned_unmaps h (dvd_of_mod_eq_zero hstart) hdvd (by omega) (by omega)

end

section
local instance x86Unmap : Config := x86

/-- The second of three pages is unmapped, and the third keeps its offset in the file. -/
theorem doMunmap_unmaps_middle :
    let area : Vma := ⟨0x1000, 0x4000, 5, 1, some 7, none, none, 0, none, none⟩
    let env : UnmapEnv := ⟨⟨none, false, none, false⟩, ⟨none, false, none, false⟩, none⟩
    doMunmap env ⟨[area], 1, 0⟩ 0x2000 0x800 false =
    .ok (.ok 0, ⟨[area.put 0x1000 0x2000 5, area.put 0x3000 0x4000 7], 2, 0⟩) ∧
    Unmaps ⟨[area], 1, 0⟩ 0x2000 (0x2000 + pageAlign 0x800) (max 1 sysctlMaxMapCount)
    (doMunmap env ⟨[area], 1, 0⟩ 0x2000 0x800 false) :=
  ⟨rfl, doMunmap_unmaps (by decide +kernel)⟩

end

end LinuxNote.Mmap
