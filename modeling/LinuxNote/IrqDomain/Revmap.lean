import LinuxNote.IrqDomain.Basic

/-! The reverse maps fit with the descriptors: what each of the functions does to them. -/

namespace LinuxNote.IrqDomain
open Function Option

namespace Tables

variable {δ α : Type} {cfg : Config δ} {m m' : Tables δ α}

/-- `virq` is associated with the interrupt `hwirq` of the domain `d`. -/
def Associated (m : Tables δ α) (d : δ) (hwirq virq : ℕ) : Prop :=
  ∃ p, m.desc virq = some p ∧ (m.data p).domain = some d ∧ (m.data p).hwirq = hwirq

/-- `virq` has a descriptor that is not associated with anything. -/
def Spare (m : Tables δ α) (virq : ℕ) : Prop := virq ≠ 0 ∧ ∃ p, m.desc virq = some p ∧
    (m.data p).domain = none

variable (cfg) in
structure Good (m : Tables δ α) : Prop where
  nrIrqs : m.nrIrqs ≤ cfg.irqBitmapBits
  irq : ∀ virq p, m.desc virq = some p → virq < cfg.irqBitmapBits ∧ (m.data p).irq = virq
  mapped : ∀ d hwirq virq, m.Associated d hwirq virq → virq ≠ 0 ∧ m.irqFindMapping cfg d hwirq = virq
  tree : ∀ d hwirq p, m.revmapTree d hwirq = some p →
    cfg.revmapSize d ≤ hwirq ∧ m.Associated d hwirq (m.data p).irq ∧ m.desc (m.data p).irq = some p

/-! ### New descriptors -/

variable (cfg) in
/-- Some descriptors have been added. -/
structure Extends (m m' : Tables δ α) : Prop where
  nrIrqs : m.nrIrqs ≤ cfg.irqBitmapBits → m'.nrIrqs ≤ cfg.irqBitmapBits
  old : ∀ virq p, m.desc virq = some p → m'.desc virq = some p ∧ m'.data p = m.data p
  new : ∀ virq p, m.desc virq = none → m'.desc virq = some p → virq < cfg.irqBitmapBits ∧
    m'.data p = ⟨virq, none, 0⟩
  linearRevmap : m'.linearRevmap = m.linearRevmap
  revmapTree : m'.revmapTree = m.revmapTree

theorem Extends.trans {m'' : Tables δ α} (h : Extends cfg m m') (h' : Extends cfg m' m'') :
    Extends cfg m m'' := by
  refine ⟨fun hle => h'.nrIrqs (h.nrIrqs hle), fun virq p hp => ?_, fun virq p hp hp' => ?_,
    h'.linearRevmap.trans h.linearRevmap, h'.revmapTree.trans h.revmapTree⟩
  · obtain ⟨hdesc, hdata⟩ := h.old virq p hp
    obtain ⟨hdesc', hdata'⟩ := h'.old virq p hdesc
    exact ⟨hdesc', hdata'.trans hdata⟩
  rcases hmid : m'.desc virq with _ | q
  · exact h'.new virq p hmid hp'
  obtain ⟨hdesc, hdata⟩ := h'.old virq q hmid
  obtain rfl : q = p := mem_unique hdesc hp'
  rw [hdata]
  exact h.new virq q hp hmid

variable {d : δ} {hwirq virq virq' : ℕ} {p : α}

section
variable (h : Extends cfg m m')
include h

theorem Extends.associated : m'.Associated d hwirq virq ↔ m.Associated d hwirq virq := by
  constructor
  · rintro ⟨p, hp, hd, hh⟩
    rcases hold : m.desc virq with _ | q
    · rw [(h.new virq p hold hp).2] at hd
      exact absurd hd (by simp)
    obtain ⟨hdesc, hdata⟩ := h.old virq q hold
    obtain rfl : q = p := mem_unique hdesc hp
    exact ⟨q, hold, hdata ▸ hd, hdata ▸ hh⟩
  rintro ⟨p, hp, hd, hh⟩
  obtain ⟨hdesc, hdata⟩ := h.old virq p hp
  exact ⟨p, hdesc, hdata ▸ hd, hdata ▸ hh⟩

theorem Extends.irqFindMapping (hgood : m.Good cfg) (d : δ) (hwirq : ℕ) :
    m'.irqFindMapping cfg d hwirq = m.irqFindMapping cfg d hwirq := by
  unfold Tables.irqFindMapping
  rw [h.linearRevmap, h.revmapTree]
  rcases htree : m.revmapTree d hwirq with _ | p
  · rfl
  have hdata := (h.old _ p (hgood.tree d hwirq p htree).2.2).2
  simp only [hdata]

theorem Extends.good (hgood : m.Good cfg) : m'.Good cfg := by
  refine ⟨h.nrIrqs hgood.nrIrqs, fun virq p hp => ?_, fun d hwirq virq ha => ?_, fun d hwirq p hp => ?_⟩
  · rcases hold : m.desc virq with _ | q
    · obtain ⟨hlt, hdata⟩ := h.new virq p hold hp
      exact ⟨hlt, by rw [hdata]⟩
    obtain ⟨hdesc, hdata⟩ := h.old virq q hold
    obtain rfl : q = p := mem_unique hdesc hp
    rw [hdata]
    exact hgood.irq virq q hold
  · rw [h.irqFindMapping hgood]
    exact hgood.mapped d hwirq virq (h.associated.mp ha)
  rw [h.revmapTree] at hp
  obtain ⟨hle, ha, hdesc⟩ := hgood.tree d hwirq p hp
  obtain ⟨hdesc', hdata⟩ := h.old _ p hdesc
  rw [hdata, h.associated]
  exact ⟨hle, ha, hdesc'⟩

theorem Extends.spare (hspare : m.Spare virq) : m'.Spare virq ∧ m'.desc virq = m.desc virq := by
  obtain ⟨hne, p, hp, hd⟩ := hspare
  obtain ⟨hdesc, hdata⟩ := h.old virq p hp
  exact ⟨⟨hne, p, hdesc, hdata ▸ hd⟩, hdesc.trans hp.symm⟩

end

variable [DecidableEq α]

/-- What `__irq_alloc_descs` does with memory that is not in use. -/
theorem irqAllocDescs_spec (hle : m.nrIrqs ≤ cfg.irqBitmapBits) (start : ℕ) {memory : Option α}
    (hfresh : ∀ virq p, m.desc virq = some p → memory ≠ some p) :
    Extends cfg m (m.irqAllocDescs cfg start memory).1 ∧
    (∀ virq p, (m.irqAllocDescs cfg start memory).1.desc virq = some p → m.desc virq = some p ∨
      memory = some p) ∧ ∀ virq, (m.irqAllocDescs cfg start memory).2 = some virq →
    m.desc virq = none ∧ ∃ p, (m.irqAllocDescs cfg start memory).1.desc virq = some p := by
  unfold irqAllocDescs
  extract_lets irq m1
  split
  case isTrue =>
    exact ⟨⟨fun h => h, fun _ _ h => ⟨h, rfl⟩, fun _ _ h h' => (nomatch h ▸ h'), rfl, rfl⟩,
      fun _ _ h => .inl h, fun _ h => nomatch h⟩
  case isFalse hroom =>
    have hlt : irq < cfg.irqBitmapBits := by omega
    have hnr : max m.nrIrqs (irq + 1) ≤ cfg.irqBitmapBits := max_le hle hlt
    have hstart := (le_total ..).resolve_right fun h => hlt.ne (Bitmap.findNext_of_le h)
    have hfree : m.desc irq = none := isNone_iff_eq_none.mp ((Bitmap.isNext_findNext _ hstart).hit hlt)
    rcases memory with _ | q
    · exact ⟨⟨fun _ => hnr, fun _ _ h => ⟨h, rfl⟩, fun _ _ h h' => (nomatch h ▸ h'), rfl, rfl⟩,
        fun _ _ h => .inl h, fun _ h => nomatch h⟩
    refine ⟨⟨fun _ => hnr, fun virq p hp => ⟨?_, ?_⟩, fun virq p hp hp' => ?_, rfl, rfl⟩,
      fun virq p hp => ?_, fun virq heq => ?_⟩
    · show update m.desc irq (some q) virq = some p
      rw [update_of_ne (by rintro rfl; exact nomatch hfree ▸ hp), hp]
    · exact update_of_ne (fun heq : p = q => hfresh virq p hp (congrArg some heq.symm)) ..
    · change update m.desc irq (some q) virq = some p at hp'
      rcases eq_or_ne virq irq with rfl | hne
      · rw [update_self] at hp'
        cases hp'
        exact ⟨hlt, update_self ..⟩
      · rw [update_of_ne hne, hp] at hp'
        exact nomatch hp'
    · change update m.desc irq (some q) virq = some p at hp
      rcases eq_or_ne virq irq with rfl | hne
      · rw [update_self] at hp
        exact .inr hp
      rw [update_of_ne hne] at hp
      exact .inl hp
    · cases heq
      exact ⟨hfree, q, update_self ..⟩

/-- The same for `irq_domain_alloc_descs`. A descriptor that is not used for the answer stays. -/
theorem irqDomainAllocDescs_spec (hgood : m.Good cfg) (hwirq : ℕ) {env : Env α}
    (hfresh : m.Fresh cfg env) : Extends cfg m (m.irqDomainAllocDescs cfg hwirq env).1 ∧
    ∀ virq, (m.irqDomainAllocDescs cfg hwirq env).2 = some virq → m.desc virq = none ∧
    ∃ p, (m.irqDomainAllocDescs cfg hwirq env).1.desc virq = some p := by
  have hused : ∀ virq p, m.desc virq = some p → env.memory ≠ some p ∧ env.memoryAgain ≠ some p := by
    intro virq p hp
    have hne := hfresh.1 virq (hgood.irq virq p hp).1 (by simp [hp])
    rwa [hp] at hne
  unfold irqDomainAllocDescs
  extract_lets hint r
  obtain ⟨hext, hdesc, hret⟩ := irqAllocDescs_spec hgood.nrIrqs hint fun virq p hp => (hused virq p hp).1
  split
  · obtain ⟨hext', -, hret'⟩ := irqAllocDescs_spec (hext.nrIrqs hgood.nrIrqs) 1 fun virq p hp heq => by
      rcases hdesc virq p hp with hp | hp
      · exact (hused virq p hp).2 heq
      rcases hfresh.2 with hnone | hne
      · exact nomatch hnone ▸ hp
      · exact hne (hp.trans heq.symm)
    refine ⟨hext.trans hext', fun virq hr => ⟨?_, (hret' virq hr).2⟩⟩
    rw [eq_none_iff_forall_ne_some]
    intro p hp
    exact nomatch (hret' virq hr).1 ▸ (hext.old virq p hp).1
  · exact ⟨hext, hret⟩

/-! ### The reverse map -/

section

variable [DecidableEq δ]

variable {d d' : δ} {hwirq hwirq' : ℕ} {p q : α} {nodes : Bool}

section
omit [DecidableEq α]

variable (cfg m) in
theorem irqDomainSetMapping_frame (d : δ) (hwirq : ℕ) (p : α) (nodes : Bool) :
    let m' := m.irqDomainSetMapping cfg d hwirq p nodes
    m'.nrIrqs = m.nrIrqs ∧ m'.desc = m.desc ∧ m'.data = m.data := by
  unfold irqDomainSetMapping
  split_ifs <;> exact ⟨rfl, rfl, rfl⟩

variable (cfg m) in
theorem irqDomainClearMapping_frame (d : δ) (hwirq : ℕ) : let m' := m.irqDomainClearMapping cfg d hwirq
    m'.nrIrqs = m.nrIrqs ∧ m'.desc = m.desc ∧ m'.data = m.data := by
  unfold irqDomainClearMapping
  split_ifs <;> exact ⟨rfl, rfl, rfl⟩

theorem update_entry {β : Type} (f : δ → ℕ → β) (x : β) (d' : δ) (hwirq' : ℕ) :
    update f d (update (f d) hwirq x) d' hwirq' = if d' = d ∧
    hwirq' = hwirq then x else f d' hwirq' := by
  by_cases hd : d' = d
  · simp [hd, update_apply]
  · simp [hd]

theorem irqFindMapping_linear (hlt : hwirq < cfg.revmapSize d) (x : ℕ) (d' : δ) (hwirq' : ℕ) :
    { m with linearRevmap := update m.linearRevmap d (update (m.linearRevmap d) hwirq x) }.irqFindMapping
        cfg d' hwirq' = if d' = d ∧ hwirq' = hwirq then x else m.irqFindMapping cfg d' hwirq' := by
  simp only [irqFindMapping, update_entry]
  by_cases heq : d' = d ∧ hwirq' = hwirq
  · simp [heq, hlt]
  · simp [heq]

theorem irqFindMapping_tree (hge : ¬hwirq < cfg.revmapSize d) (p : Option α) (d' : δ) (hwirq' : ℕ) :
    { m with revmapTree := update m.revmapTree d (update (m.revmapTree d) hwirq p) }.irqFindMapping
    cfg d' hwirq' = if d' = d ∧ hwirq' = hwirq then p.elim 0 fun p =>
    (m.data p).irq else m.irqFindMapping cfg d' hwirq' := by
  simp only [irqFindMapping, update_entry]
  by_cases heq : d' = d ∧ hwirq' = hwirq
  · cases p <;> simp [heq, hge]
  · simp [heq]

theorem irqFindMapping_set
    (hset : hwirq < cfg.revmapSize d ∨ m.revmapTree d hwirq = none ∧ nodes = true) (d' : δ)
    (hwirq' : ℕ) : (m.irqDomainSetMapping cfg d hwirq p nodes).irqFindMapping cfg d' hwirq' =
      if d' = d ∧ hwirq' = hwirq then (m.data p).irq else m.irqFindMapping cfg d' hwirq' := by
  rw [irqDomainSetMapping]
  by_cases hlt : hwirq < cfg.revmapSize d
  · rw [if_pos hlt, irqFindMapping_linear hlt]
  obtain ⟨hnone, hnodes⟩ := hset.resolve_left hlt
  have hroom : ¬((m.revmapTree d hwirq).isSome ∨ ¬nodes) := by simp [hnone, hnodes]
  rw [if_neg hlt, if_neg hroom, irqFindMapping_tree hlt]
  rfl

theorem irqFindMapping_clear (d : δ) (hwirq : ℕ) (d' : δ) (hwirq' : ℕ) :
    (m.irqDomainClearMapping cfg d hwirq).irqFindMapping cfg d' hwirq' =
      if d' = d ∧ hwirq' = hwirq then 0 else m.irqFindMapping cfg d' hwirq' := by
  rw [irqDomainClearMapping]
  split
  case isTrue hlt => rw [irqFindMapping_linear hlt]
  case isFalse hlt =>
    rw [irqFindMapping_tree hlt]
    rfl

/-- An entry of the tree after `irq_domain_set_mapping` is an old one or the new one. -/
theorem revmapTree_set (h : (m.irqDomainSetMapping cfg d hwirq p nodes).revmapTree d' hwirq' = some q) :
    m.revmapTree d' hwirq' = some q ∨ d' = d ∧ hwirq' = hwirq ∧ q = p ∧ cfg.revmapSize d ≤ hwirq := by
  unfold irqDomainSetMapping at h
  split_ifs at h with hlt hroom
  · exact .inl h
  · exact .inl h
  simp only [update_entry] at h
  split_ifs at h with heq
  · exact .inr ⟨heq.1, heq.2, (some.inj h).symm, not_lt.mp hlt⟩
  · exact .inl h

theorem revmapTree_clear (h : (m.irqDomainClearMapping cfg d hwirq).revmapTree d' hwirq' = some q) :
    m.revmapTree d' hwirq' = some q ∧ (cfg.revmapSize d ≤ hwirq → ¬(d' = d ∧ hwirq' = hwirq)) := by
  unfold irqDomainClearMapping at h
  split_ifs at h with hlt
  · exact ⟨h, fun hle => absurd hlt (not_lt.mpr hle)⟩
  simp only [update_entry] at h
  split_ifs at h with heq
  exact ⟨h, fun _ => heq⟩

end

end

/-! ### What happens to one descriptor -/

omit [DecidableEq α] in
theorem Spare.not_associated (h : m.Spare virq) (d : δ) (hwirq : ℕ) : ¬m.Associated d hwirq virq := by
  rintro ⟨p, hp, hd, -⟩
  obtain ⟨-, q, hq, hnone⟩ := h
  obtain rfl : q = p := mem_unique hq hp
  exact nomatch hnone ▸ hd

omit [DecidableEq α] in
theorem Good.desc_inj (h : m.Good cfg) (hp : m.desc virq = some p) (hp' : m.desc virq' = some p) :
    virq = virq' :=
  (h.irq virq p hp).2.symm.trans (h.irq virq' p hp').2

theorem Good.spare_update (h : m.Good cfg) (hp : m.desc virq = some p) (hne : virq' ≠ virq)
    (x : IrqData δ) (hspare : m.Spare virq') : (m.setData p x).Spare virq' := by
  obtain ⟨hzero, q, hq, hd⟩ := hspare
  refine ⟨hzero, q, hq, ?_⟩
  have hqp : q ≠ p := fun heq => hne (h.desc_inj (heq ▸ hq) hp)
  show (update m.data p x q).domain = none
  rwa [update_of_ne hqp]

theorem irqFindMapping_setData (p : α) (domain : Option δ) (n : ℕ) (d : δ) (hwirq : ℕ) :
    (m.setData p ⟨(m.data p).irq, domain, n⟩).irqFindMapping cfg d hwirq =
      m.irqFindMapping cfg d hwirq := by
  have hirq : ∀ q, (update m.data p ⟨(m.data p).irq, domain, n⟩ q).irq = (m.data q).irq := by
    intro q
    rcases eq_or_ne q p with rfl | hne
    · rw [update_self]
    · rw [update_of_ne hne]
  simp only [irqFindMapping, setData]
  cases m.revmapTree d hwirq with
  | none => rfl
  | some q => simp only [hirq]

/-- The `irq_data` of `virq` is written, and the reverse map is made to fit. -/
theorem Good.write (h : m.Good cfg) (hp : m.desc virq = some p) (x : IrqData δ)
    (hx : x.irq = (m.data p).irq) (hnr : m'.nrIrqs = m.nrIrqs) (hdesc : m'.desc = m.desc)
    (hdata : m'.data = update m.data p x)
    (hold : ∀ d hwirq virq', virq' ≠ virq → m.Associated d hwirq virq' →
      m'.irqFindMapping cfg d hwirq = m.irqFindMapping cfg d hwirq)
    (hnew : ∀ d, x.domain = some d → virq ≠ 0 ∧ m'.irqFindMapping cfg d x.hwirq = virq)
    (htree : ∀ d hwirq q, m'.revmapTree d hwirq = some q →
      m.revmapTree d hwirq = some q ∧ q ≠ p ∨ q = p ∧ cfg.revmapSize d ≤ hwirq ∧ x.domain = some d ∧
      x.hwirq = hwirq) : m'.Good cfg := by
  have hassoc : ∀ d hwirq virq', m'.Associated d hwirq virq' ↔
      (virq' = virq ∧ x.domain = some d ∧ x.hwirq = hwirq) ∨
      (virq' ≠ virq ∧ m.Associated d hwirq virq') := by
    intro d hwirq virq'
    rw [Associated, hdesc, hdata]
    rcases eq_or_ne virq' virq with rfl | hne
    · simp [hp]
    have hother : ∀ q, m.desc virq' = some q → update m.data p x q = m.data q := by
      intro q hq
      refine update_of_ne (fun heq : q = p => hne (h.desc_inj (heq ▸ hq) hp)) ..
    simp only [hne, false_and, false_or, ne_eq, not_false_iff, true_and, Associated]
    exact exists_congr fun q => and_congr_right fun hq => by rw [hother q hq]
  have hirq : ∀ q, (m'.data q).irq = (m.data q).irq := by
    intro q
    rw [hdata]
    rcases eq_or_ne q p with rfl | hne
    · rw [update_self, hx]
    · rw [update_of_ne hne]
  refine ⟨hnr ▸ h.nrIrqs, fun virq' q hq => ?_, fun d hwirq virq' ha => ?_, fun d hwirq q hq => ?_⟩
  · rw [hirq]
    exact h.irq virq' q (hdesc ▸ hq)
  · rcases (hassoc d hwirq virq').mp ha with ⟨rfl, hd, rfl⟩ | ⟨hne, ha⟩
    · exact hnew d hd
    rw [hold d hwirq virq' hne ha]
    exact h.mapped d hwirq virq' ha
  rw [hirq, hassoc, hdesc]
  rcases htree d hwirq q hq with ⟨hq, hqp⟩ | ⟨rfl, hle, hd, hh⟩
  · obtain ⟨hle, ha, hq'⟩ := h.tree d hwirq q hq
    refine ⟨hle, .inr ⟨fun heq => hqp ?_, ha⟩, hq'⟩
    rw [heq] at hq'
    exact mem_unique hq' hp
  · rw [(h.irq virq q hp).2]
    exact ⟨hle, .inl ⟨rfl, hd, hh⟩, hp⟩

omit [DecidableEq α] in
/-- The reverse map does not lead to a descriptor that is not associated. -/
theorem Good.tree_ne (h : m.Good cfg) {q : α} (hd : (m.data p).domain = none)
    (hq : m.revmapTree d hwirq = some q) : q ≠ p := by
  rintro rfl
  obtain ⟨-, ⟨q', hq', hd', -⟩, hdesc⟩ := h.tree d hwirq q hq
  obtain rfl := mem_unique hq' hdesc
  exact nomatch hd ▸ hd'

/-- `ops->map` has refused. -/
theorem Good.refuse (h : m.Good cfg) (hp : m.desc virq = some p) (hd : (m.data p).domain = none) :
    (m.setData p ⟨(m.data p).irq, none, 0⟩).Good cfg := by
  refine h.write hp ⟨(m.data p).irq, none, 0⟩ rfl rfl rfl rfl (fun d hwirq _ _ _ => ?_)
    (fun d hd => nomatch hd) fun d hwirq q hq => .inl ⟨hq, h.tree_ne hd hq⟩
  exact irqFindMapping_setData p none 0 d hwirq

omit [DecidableEq α] in
theorem Good.free (h : m.Good cfg) (hspare : m.Spare virq) :
    { m with desc := update m.desc virq none }.Good cfg := by
  have hdesc : ∀ virq' q, update m.desc virq none virq' = some q → m.desc virq' = some q := by
    intro virq' q hq
    rcases eq_or_ne virq' virq with rfl | hne
    · rw [update_self] at hq
      exact nomatch hq
    · rwa [update_of_ne hne] at hq
  have hkeep : ∀ d hwirq virq', m.Associated d hwirq virq' →
    update m.desc virq none virq' = m.desc virq' := by
    intro d hwirq virq' ha
    have hne : virq' ≠ virq := by
      rintro rfl
      exact hspare.not_associated d hwirq ha
    exact update_of_ne hne none m.desc
  refine ⟨h.nrIrqs, fun virq' q hq => h.irq virq' q (hdesc virq' q hq),
    fun d hwirq virq' ⟨q, hq, ha⟩ => ?_, fun d hwirq q hq => ?_⟩
  · exact h.mapped d hwirq virq' ⟨q, hdesc virq' q hq, ha⟩
  obtain ⟨hle, ha, hq'⟩ := h.tree d hwirq q hq
  have hsame := hkeep d hwirq _ ha
  obtain ⟨q', hq'', ha⟩ := ha
  exact ⟨hle, ⟨q', hsame.trans hq'', ha⟩, hsame.trans hq'⟩

variable [DecidableEq δ]

/-- No number was associated with the interrupt. -/
theorem Good.associate (h : m.Good cfg) (hp : m.desc virq = some p) (hd : (m.data p).domain = none)
    (hzero : virq ≠ 0) (hfind : m.irqFindMapping cfg d hwirq = 0) {nodes : Bool}
    (hnodes : cfg.revmapSize d ≤ hwirq → nodes = true) :
    ((m.setData p ⟨(m.data p).irq, some d, hwirq⟩).irqDomainSetMapping cfg d hwirq p nodes).Good cfg ∧
    ∀ d' hwirq', ((m.setData p ⟨(m.data p).irq, some d, hwirq⟩).irqDomainSetMapping cfg d hwirq p
      nodes).irqFindMapping cfg d' hwirq' = if d' = d ∧
    hwirq' = hwirq then virq else m.irqFindMapping cfg d' hwirq' := by
  have hset : hwirq < cfg.revmapSize d ∨ m.revmapTree d hwirq = none ∧ nodes = true := by
    rcases lt_or_ge hwirq (cfg.revmapSize d) with hlt | hge
    · exact .inl hlt
    refine .inr ⟨eq_none_iff_forall_ne_some.mpr fun q hq => ?_, hnodes hge⟩
    obtain ⟨hne, heq⟩ := h.mapped d hwirq _ (h.tree d hwirq q hq).2.1
    exact hne (heq.symm.trans hfind)
  have hirq : ((m.setData p ⟨(m.data p).irq, some d, hwirq⟩).data p).irq = virq := by
    show (update m.data p _ p).irq = virq
    rw [update_self]
    exact (h.irq virq p hp).2
  refine (and_iff_right_of_imp fun hfind' => ?_).mpr fun d' hwirq' => ?_
  rotate_left
  · rw [irqFindMapping_set (by exact hset), hirq, irqFindMapping_setData]
  obtain ⟨hnr, hdesc, hdata⟩ :=
    irqDomainSetMapping_frame cfg (m.setData p ⟨(m.data p).irq, some d, hwirq⟩) d hwirq p nodes
  refine h.write hp ⟨(m.data p).irq, some d, hwirq⟩ rfl hnr hdesc hdata (fun d' hwirq' virq' _ ha => ?_)
    (fun d' hd' => ?_) fun d' hwirq' q hq => ?_
  · rw [hfind', if_neg]
    rintro ⟨rfl, rfl⟩
    obtain ⟨hne, heq⟩ := h.mapped d' hwirq' virq' ha
    exact hne (heq.symm.trans hfind)
  · cases hd'
    exact ⟨hzero, by rw [hfind', if_pos ⟨rfl, rfl⟩]⟩
  rcases revmapTree_set hq with hq | ⟨rfl, rfl, rfl, hle⟩
  · exact .inl ⟨hq, h.tree_ne hd hq⟩
  · exact .inr ⟨rfl, hle, rfl, rfl⟩

theorem Good.disassociate (h : m.Good cfg) (hp : m.desc virq = some p)
    (hd : (m.data p).domain = some d) :
    ((m.setData p ⟨(m.data p).irq, none, 0⟩).irqDomainClearMapping cfg d (m.data p).hwirq).Good cfg ∧
    ∀ d' hwirq', ((m.setData p ⟨(m.data p).irq, none, 0⟩).irqDomainClearMapping cfg d
      (m.data p).hwirq).irqFindMapping cfg d' hwirq' = if d' = d ∧
    hwirq' = (m.data p).hwirq then 0 else m.irqFindMapping cfg d' hwirq' := by
  have hassoc : m.Associated d (m.data p).hwirq virq := ⟨p, hp, hd, rfl⟩
  refine (and_iff_right_of_imp fun hfind' => ?_).mpr fun d' hwirq' => ?_
  rotate_left
  · rw [irqFindMapping_clear, irqFindMapping_setData]
  obtain ⟨hnr, hdesc, hdata⟩ :=
    irqDomainClearMapping_frame cfg (m.setData p ⟨(m.data p).irq, none, 0⟩) d (m.data p).hwirq
  refine h.write hp ⟨(m.data p).irq, none, 0⟩ rfl hnr hdesc hdata (fun d' hwirq' virq' hne ha => ?_)
    (fun d' hd' => nomatch hd') fun d' hwirq' q hq => ?_
  · rw [hfind', if_neg]
    rintro ⟨rfl, rfl⟩
    exact hne ((h.mapped _ _ virq' ha).2.symm.trans (h.mapped _ _ virq hassoc).2)
  obtain ⟨hq, hnot⟩ := revmapTree_clear hq
  refine .inl ⟨hq, ?_⟩
  rintro rfl
  obtain ⟨hle, ⟨q', hq', hd', rfl⟩, hq''⟩ := h.tree d' hwirq' q hq
  obtain rfl := mem_unique hq' hq''
  obtain rfl := mem_unique hd' hd
  exact hnot hle ⟨rfl, rfl⟩

end Tables

end LinuxNote.IrqDomain
