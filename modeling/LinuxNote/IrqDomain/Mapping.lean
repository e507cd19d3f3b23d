import LinuxNote.IrqDomain.Revmap

/-! Only one number for each hardware interrupt, while any number of threads create and dispose of
mappings. -/

namespace LinuxNote.IrqDomain
open Function Option Tables

/-- The descriptor that a call has to itself: a new one, or one that it is about to free. -/
def Pc.owns {δ α : Type} : Pc δ α → Option ℕ
  | .check _ _ virq | .associate _ _ virq _ | .giveUp _ _ virq | .freeDesc virq => some virq
  | _ => none

namespace State

variable {τ δ α : Type} [DecidableEq τ] [DecidableEq δ] [DecidableEq α] {cfg : Config δ}

variable (cfg) in
/-- No mapping has been made; there may be descriptors already. -/
structure Start (s : State τ δ α) : Prop where
  nrIrqs : s.tables.nrIrqs ≤ cfg.irqBitmapBits
  irq : ∀ virq p, s.tables.desc virq = some p → virq < cfg.irqBitmapBits ∧ (s.tables.data p).irq = virq
  domain : ∀ virq p, s.tables.desc virq = some p → (s.tables.data p).domain = none
  linearRevmap : ∀ d hwirq, s.tables.linearRevmap d hwirq = 0
  revmapTree : ∀ d hwirq, s.tables.revmapTree d hwirq = none
  pc : ∀ t, s.pc t = .idle

variable (cfg) in
/-- `irq_domain_associate` finds the interrupt mapped in the meantime or no memory for the radix tree, or
    `irq_domain_disassociate` finds that somebody else has disposed of the mapping in the meantime. -/
def Missed (s : State τ δ α) : Event τ δ α → Prop
  | .next t env => (∃ d hwirq virq p, s.pc t = .associate d hwirq virq p ∧ env.map = true ∧
        (s.tables.irqFindMapping cfg d hwirq ≠ 0 ∨ cfg.revmapSize d ≤ hwirq ∧ env.nodes = false)) ∨
      ∃ d virq, s.pc t = .disassociate d virq ∧ ∀ hwirq, ¬s.tables.Associated d hwirq virq
  | _ => False

variable (cfg) in
/-- The states of the runs without such steps. -/
inductive Reached : State τ δ α → Prop
  | start {s : State τ δ α} : s.Start cfg → Reached s
  | step {s s' : State τ δ α} {e : Event τ δ α} : Reached s → s.step cfg e = some s' →
      ¬s.Missed cfg e → Reached s'

/-- The step removes the mapping of `hwirq`. -/
def Disposes (s : State τ δ α) (d : δ) (hwirq : ℕ) : Event τ δ α → Prop
  | .next t _ => ∃ virq, s.pc t = .disassociate d virq ∧ s.tables.Associated d hwirq virq
  | _ => False

/-- The step to `s'` is the last one of an `irq_create_mapping` that returns `virq`. -/
def Returns (s' : State τ δ α) (d : δ) (hwirq virq : ℕ) : Event τ δ α → Prop
  | .next t _ => s'.pc t = .returned d hwirq virq
  | _ => False

variable (cfg) in
/-- `irq_create_mapping` has returned `virq` for `hwirq`, and since then the mapping has not been
    disposed of. -/
inductive Given (d : δ) (hwirq virq : ℕ) : State τ δ α → Prop
  | returned {s s' : State τ δ α} {e : Event τ δ α} : Reached cfg s → s.step cfg e = some s' →
  ¬s.Missed cfg e → s'.Returns d hwirq virq e → virq ≠ 0 → Given d hwirq virq s'
  | step {s s' : State τ δ α} {e : Event τ δ α} : Given d hwirq virq s → s.step cfg e = some s' →
  ¬s.Missed cfg e → ¬s.Disposes d hwirq e → Given d hwirq virq s'

/-! ### The invariant -/

variable (cfg) in
structure Inv (s : State τ δ α) : Prop where
  good : s.tables.Good cfg
  owned : ∀ t virq, (s.pc t).owns = some virq → s.tables.Spare virq
  pointer : ∀ t d hwirq virq p, s.pc t = .associate d hwirq virq p → s.tables.desc virq = some p
  exclusive : ∀ t t' virq, (s.pc t).owns = some virq → (s.pc t').owns = some virq → t = t'

variable {s s' : State τ δ α} {t : τ} {m : Tables δ α} {pc : Pc δ α} {env : Env α} {d : δ}
  {hwirq virq : ℕ} {p : α} {e : Event τ δ α}

omit [DecidableEq τ] [DecidableEq δ] [DecidableEq α] in
theorem Start.inv (h : s.Start cfg) : s.Inv cfg where
  good := by
    refine ⟨h.nrIrqs, h.irq, fun d hwirq virq ⟨p, hp, hd, _⟩ => ?_, fun d hwirq p hp => ?_⟩
    · exact nomatch (h.domain virq p hp).symm.trans hd
    · exact nomatch (h.revmapTree d hwirq).symm.trans hp
  owned t virq ht := by
    rw [h.pc t] at ht
    exact nomatch ht
  pointer t d hwirq virq p ht := by
    rw [h.pc t] at ht
    exact nomatch ht
  exclusive t t' virq ht := by
    rw [h.pc t] at ht
    exact nomatch ht

omit [DecidableEq δ] [DecidableEq α] in
/-- A step of `t`: nobody else loses a descriptor, and one that `t` has from now on was nobody else's. -/
theorem Inv.move (h : s.Inv cfg) (hgood : m.Good cfg)
    (hkeep : ∀ virq, s.tables.Spare virq → (s.pc t).owns ≠ some virq → m.Spare virq ∧
      m.desc virq = s.tables.desc virq) (hown : ∀ virq, pc.owns = some virq → m.Spare virq ∧
      ((s.pc t).owns = some virq ∨ ¬s.tables.Spare virq))
    (hpointer : ∀ d hwirq virq p, pc = .associate d hwirq virq p → m.desc virq = some p) :
    ({ s with tables := m }.goto t pc).Inv cfg := by
  have hother : ∀ t' virq, t' ≠ t → (s.pc t').owns = some virq → (s.pc t).owns ≠ some virq :=
    fun t' virq hne ht' ht =>
    hne (h.exclusive t' t virq ht' ht)
  have hnew : ∀ t' virq, t' ≠ t → (s.pc t').owns = some virq → pc.owns ≠ some virq := by
    intro t' virq hne ht' ht
    rcases (hown virq ht).2 with hold | hnot
    · exact hother t' virq hne ht' hold
    · exact hnot (h.owned t' virq ht')
  refine ⟨hgood, fun t' virq ht' => ?_, fun t' d hwirq virq p ht' => ?_, fun t1 t2 virq h1 h2 => ?_⟩
  all_goals dsimp only [goto] at *
  · rcases eq_or_ne t' t with rfl | hne
    · rw [update_self] at ht'
      exact (hown virq ht').1
    rw [update_of_ne hne] at ht'
    exact (hkeep virq (h.owned t' virq ht') (hother t' virq hne ht')).1
  · rcases eq_or_ne t' t with rfl | hne
    · rw [update_self] at ht'
      exact hpointer d hwirq virq p ht'
    rw [update_of_ne hne] at ht'
    have howns : (s.pc t').owns = some virq := by rw [ht']; rfl
    rw [(hkeep virq (h.owned t' virq howns) (hother t' virq hne howns)).2]
    exact h.pointer t' d hwirq virq p ht'
  rcases eq_or_ne t1 t with heq1 | hne1 <;> rcases eq_or_ne t2 t with heq2 | hne2
  · exact heq1.trans heq2.symm
  · rw [heq1, update_self] at h1
    rw [update_of_ne hne2] at h2
    exact absurd h1 (hnew t2 virq hne2 h2)
  · rw [update_of_ne hne1] at h1
    rw [heq2, update_self] at h2
    exact absurd h2 (hnew t1 virq hne1 h1)
  rw [update_of_ne hne1] at h1
  rw [update_of_ne hne2] at h2
  exact h.exclusive t1 t2 virq h1 h2

/-! ### One step -/

variable (cfg) in
/-- What a step of `t` does. -/
structure Steps (s : State τ δ α) (e : Event τ δ α) (s' : State τ δ α) : Prop where
  inv : s'.Inv cfg
  steady : ∀ d hwirq, s.tables.irqFindMapping cfg d hwirq ≠ 0 → ¬s.Disposes d hwirq e →
    s'.tables.irqFindMapping cfg d hwirq = s.tables.irqFindMapping cfg d hwirq
  returned : ∀ d hwirq virq, s'.Returns d hwirq virq e → virq ≠ 0 →
    s'.tables.irqFindMapping cfg d hwirq = virq

section
omit [DecidableEq δ] [DecidableEq α]

theorem Returns.eq (h : (s.goto t pc).Returns d hwirq virq (.next t env)) :
    pc = .returned d hwirq virq := by
  simpa only [Returns, State.goto, update_self] using h

section
variable (h : s.Inv cfg) (hown : ∀ virq, pc.owns = some virq → (s.pc t).owns = some virq)
  (hpointer : ∀ d hwirq virq p, pc = .associate d hwirq virq p → s.tables.desc virq = some p)
include h hown hpointer

/-- A step that leaves the tables alone. -/
theorem Inv.goto : (s.goto t pc).Inv cfg :=
  h.move h.good (fun _ hspare _ => ⟨hspare, rfl⟩)
    (fun virq hv => ⟨h.owned t virq (hown virq hv), .inl (hown virq hv)⟩) hpointer

theorem Inv.steps (hreturned : ∀ d hwirq virq, pc ≠ .returned d hwirq virq) :
    s.Steps cfg (.next t env) (s.goto t pc) :=
  ⟨h.goto hown hpointer, fun _ _ _ _ => rfl,
    fun d hwirq virq hr => absurd hr.eq (hreturned d hwirq virq)⟩

end

end

omit [DecidableEq δ] in
theorem Inv.alloc (h : s.Inv cfg)
    (hfresh : s.tables.Fresh cfg env) {r : Option ℕ}
    (halloc : s.tables.irqDomainAllocDescs cfg hwirq env = (m, r))
    (hpc : (∃ virq, r = some virq ∧ virq ≠ 0 ∧ pc = .check d hwirq virq) ∨ pc = .returned d hwirq 0) :
    s.Steps cfg (.next t env) ({ s with tables := m }.goto t pc) := by
  obtain ⟨hext, hret⟩ := irqDomainAllocDescs_spec h.good hwirq hfresh
  rw [halloc] at hext hret
  refine ⟨h.move (hext.good h.good) (fun virq hspare _ => hext.spare hspare) (fun virq hv => ?_)
    (fun d hwirq virq p hp => ?_), fun d hwirq _ _ => hext.irqFindMapping h.good d hwirq,
    fun d' hwirq' virq hr => ?_⟩
  · rcases hpc with ⟨virq', rfl, hzero, rfl⟩ | rfl
    · obtain rfl := some.inj hv
      obtain ⟨hnone, p, hp⟩ := hret virq' rfl
      refine ⟨⟨hzero, p, hp, by rw [(hext.new virq' p hnone hp).2]⟩, .inr ?_⟩
      rintro ⟨-, q, hq, -⟩
      exact nomatch hnone.symm.trans hq
    · exact nomatch hv
  · rcases hpc with ⟨virq', -, -, rfl⟩ | rfl <;> exact nomatch hp
  replace hr := hr.eq
  rcases hpc with ⟨virq', -, -, rfl⟩ | rfl
  · exact nomatch hr
  cases hr
  exact fun hzero => absurd rfl hzero

omit [DecidableEq τ] [DecidableEq δ] [DecidableEq α] in
theorem Inv.associate_spare (h : s.Inv cfg)
    (hpc : s.pc t = .associate d hwirq virq p) :
    virq ≠ 0 ∧ s.tables.desc virq = some p ∧ (s.tables.data p).domain = none := by
  have hp := h.pointer t d hwirq virq p hpc
  obtain ⟨hzero, q, hq, hd⟩ := h.owned t virq (by rw [hpc]; rfl)
  obtain rfl := mem_unique hp hq
  exact ⟨hzero, hp, hd⟩

/-- The section under `irq_domain_mutex`, when the interrupt is still free. -/
theorem Inv.associate (h : s.Inv cfg)
    (hpc : s.pc t = .associate d hwirq virq p) (hmap : env.map = true)
    (hnot : ¬s.Missed cfg (.next t env)) :
    s.Steps cfg (.next t env) ({ s with
      tables := (s.tables.setData p ⟨(s.tables.data p).irq, some d, hwirq⟩).irqDomainSetMapping cfg d
        hwirq p env.nodes }.goto t (.returned d hwirq virq)) := by
  obtain ⟨hzero, hp, hd⟩ := h.associate_spare hpc
  have hfree : s.tables.irqFindMapping cfg d hwirq = 0 := by
    by_contra hne
    exact hnot (.inl ⟨d, hwirq, virq, p, hpc, hmap, .inl hne⟩)
  have hnodes : cfg.revmapSize d ≤ hwirq → env.nodes = true := by
    intro hle
    by_contra hno
    exact hnot (.inl ⟨d, hwirq, virq, p, hpc, hmap, .inr ⟨hle, Bool.eq_false_iff.mpr hno⟩⟩)
  obtain ⟨hgood, hfind⟩ := h.good.associate hp hd hzero hfree hnodes
  refine ⟨h.move hgood (fun virq' hspare hother => ?_) (fun _ hv => nomatch hv)
    (fun _ _ _ _ hv => nomatch hv), fun d' hwirq' hne _ => ?_, fun d' hwirq' virq' hr _ => ?_⟩
  · have hne : virq' ≠ virq := by
      rintro rfl
      exact hother (by rw [hpc]; rfl)
    rw [Spare, (irqDomainSetMapping_frame ..).2.1, (irqDomainSetMapping_frame ..).2.2]
    exact ⟨h.good.spare_update hp hne _ hspare, rfl⟩
  · refine (hfind d' hwirq').trans (if_neg ?_)
    rintro ⟨rfl, rfl⟩
    exact hne hfree
  · cases hr.eq
    exact (hfind d hwirq).trans (if_pos ⟨rfl, rfl⟩)

omit [DecidableEq δ] in
/-- The same, when `ops->map` refuses. -/
theorem Inv.refuse (h : s.Inv cfg)
    (hpc : s.pc t = .associate d hwirq virq p) :
    s.Steps cfg (.next t env)
    ({ s with tables := s.tables.setData p ⟨(s.tables.data p).irq, none, 0⟩ }.goto t
      (.giveUp d hwirq virq)) := by
  obtain ⟨hzero, hp, hd⟩ := h.associate_spare hpc
  refine ⟨h.move (h.good.refuse hp hd) (fun virq' hspare hother => ?_) (fun virq' hv => ?_)
    (fun _ _ _ _ hv => nomatch hv), fun d' hwirq' _ _ => irqFindMapping_setData p none 0 d' hwirq',
    fun d' hwirq' virq' hr => nomatch hr.eq⟩
  · have hne : virq' ≠ virq := by
      rintro rfl
      exact hother (by rw [hpc]; rfl)
    exact ⟨h.good.spare_update hp hne _ hspare, rfl⟩
  cases hv
  refine ⟨⟨hzero, p, hp, ?_⟩, .inl (by rw [hpc]; rfl)⟩
  exact congrArg IrqData.domain (update_self p _ s.tables.data)

theorem Inv.disassociate (h : s.Inv cfg)
    (hpc : s.pc t = .disassociate d virq) (hnot : ¬s.Missed cfg (.next t env)) :
    s.Steps cfg (.next t env)
    ({ s with tables := s.tables.irqDomainDisassociate cfg d virq }.goto t (.freeDesc virq)) := by
  obtain ⟨hwirq, p, hp, hd, rfl⟩ : ∃ hwirq, s.tables.Associated d hwirq virq := by
    by_contra hno
    exact hnot (.inr ⟨d, virq, hpc, not_exists.mp hno⟩)
  have hassoc : s.tables.Associated d (s.tables.data p).hwirq virq := ⟨p, hp, hd, rfl⟩
  obtain ⟨hgood, hfind⟩ := h.good.disassociate hp hd
  have htables : s.tables.irqDomainDisassociate cfg d virq =
      (s.tables.setData p ⟨(s.tables.data p).irq, none, 0⟩).irqDomainClearMapping cfg d
      (s.tables.data p).hwirq := by
    simp only [irqDomainDisassociate, hp, hd, ne_eq, not_true_eq_false, if_false]
  rw [htables]
  refine ⟨h.move hgood (fun virq' hspare _ => ?_) (fun virq' hv => ?_) (fun _ _ _ _ hv => nomatch hv),
    fun d' hwirq' _ hnot => ?_, fun d' hwirq' virq' hr => nomatch hr.eq⟩
  · have hne : virq' ≠ virq := by
      rintro rfl
      exact hspare.not_associated d _ hassoc
    rw [Spare, (irqDomainClearMapping_frame ..).2.1, (irqDomainClearMapping_frame ..).2.2]
    exact ⟨h.good.spare_update hp hne _ hspare, rfl⟩
  · cases hv
    rw [Spare, (irqDomainClearMapping_frame ..).2.1, (irqDomainClearMapping_frame ..).2.2]
    refine ⟨⟨(h.good.mapped d _ virq hassoc).1, p, hp, ?_⟩,
      .inr fun hspare => hspare.not_associated d _ hassoc⟩
    exact congrArg IrqData.domain (update_self p _ s.tables.data)
  refine (hfind d' hwirq').trans (if_neg ?_)
  rintro ⟨rfl, rfl⟩
  exact hnot ⟨virq, hpc, hassoc⟩

omit [DecidableEq δ] [DecidableEq α] in
theorem Inv.free (h : s.Inv cfg) (howns : (s.pc t).owns = some virq)
    (hfree : s.tables.irqFreeDesc virq = some m)
    (hpc : pc = .idle ∨ ∃ d hwirq, pc = .returned d hwirq 0) :
    s.Steps cfg (.next t env) ({ s with tables := m }.goto t pc) := by
  have hspare := h.owned t virq howns
  have hnone : pc.owns = none := by rcases hpc with rfl | ⟨d, hwirq, rfl⟩ <;> rfl
  have hm : m = s.tables ∨ m = { s.tables with desc := update s.tables.desc virq none } := by
    unfold irqFreeDesc at hfree
    split_ifs at hfree
    · exact .inl (some.inj hfree).symm
    · exact .inr (some.inj hfree).symm
  have hgood : m.Good cfg := by
    rcases hm with rfl | rfl
    · exact h.good
    · exact h.good.free hspare
  refine ⟨h.move hgood (fun virq' hspare' hother => ?_) (fun virq' hv => nomatch hnone ▸ hv)
    (fun d hwirq virq' p hv => ?_), fun d hwirq _ _ => ?_, fun d' hwirq' virq' hr hzero => ?_⟩
  · have hne : virq' ≠ virq := fun heq => hother (heq ▸ howns)
    rcases hm with rfl | rfl
    · exact ⟨hspare', rfl⟩
    have hdesc : update s.tables.desc virq none virq' = s.tables.desc virq' := update_of_ne hne ..
    obtain ⟨hzero, q, hq, hd⟩ := hspare'
    exact ⟨⟨hzero, q, hdesc.trans hq, hd⟩, hdesc⟩
  · rw [hv] at hnone
    exact nomatch hnone
  · rcases hm with rfl | rfl <;> rfl
  rcases hpc with rfl | ⟨d, hwirq, rfl⟩
  · exact nomatch hr.eq
  cases hr.eq
  exact absurd rfl hzero

theorem Inv.step (h : s.Inv cfg) (hstep : s.step cfg e = some s') (hnot : ¬s.Missed cfg e) :
    s.Steps cfg e s' := by
  cases e with
  | createMapping t d hwirq | disposeMapping t virq =>
    simp only [State.step] at hstep
    split at hstep <;> cases hstep
    all_goals
      exact ⟨h.goto (fun _ hv => nomatch hv) (fun _ _ _ _ hv => nomatch hv), fun _ _ _ _ => rfl,
        fun _ _ _ hr => hr.elim⟩
  | next t env =>
    simp only [State.step] at hstep
    split at hstep
    case h_1 | h_2 => cases hstep
    case h_3 d hwirq hpc =>
      cases hstep
      split
      case isTrue =>
        refine ⟨h.goto (fun _ hv => nomatch hv) (fun _ _ _ _ hv => nomatch hv), fun _ _ _ _ => rfl,
          fun d' hwirq' virq hr _ => ?_⟩
        cases hr.eq
        rfl
      case isFalse =>
        exact h.steps (fun _ hv => nomatch hv) (fun _ _ _ _ hv => nomatch hv) fun _ _ _ hv => nomatch hv
    case h_4 d hwirq hpc =>
      split at hstep
      case isFalse => cases hstep
      case isTrue hfresh =>
        split at hstep <;> cases hstep
        case h_1 halloc | h_2 halloc => exact h.alloc hfresh halloc (.inr rfl)
        case h_3 m virq hzero halloc => exact h.alloc hfresh halloc (.inl ⟨virq, rfl, hzero, rfl⟩)
    case h_5 d hwirq virq hpc =>
      have howns : (s.pc t).owns = some virq := by rw [hpc]; rfl
      split at hstep
      case h_1 =>
        cases hstep
        exact h.steps (fun _ hv => howns.trans hv) (fun _ _ _ _ hv => nomatch hv)
          fun _ _ _ hv => nomatch hv
      case h_2 p hp =>
        split at hstep <;> cases hstep
        · exact h.steps (fun _ hv => howns.trans hv) (fun _ _ _ _ hv => nomatch hv)
            fun _ _ _ hv => nomatch hv
        refine h.steps (fun _ hv => howns.trans hv) (fun d' hwirq' virq' q hv => ?_)
          fun _ _ _ hv => nomatch hv
        cases hv
        exact hp
    case h_6 d hwirq virq p hpc =>
      unfold irqDomainAssociate at hstep
      split_ifs at hstep with hmap <;> cases hstep
      · exact h.associate hpc hmap hnot
      · exact h.refuse hpc
    case h_7 d hwirq virq hpc =>
      obtain ⟨m, hfree, rfl⟩ := map_eq_some_iff.mp hstep
      exact h.free (by rw [hpc]; rfl) hfree (.inr ⟨d, hwirq, rfl⟩)
    case h_8 virq hpc =>
      split at hstep
      case h_1 =>
        cases hstep
        exact h.steps (fun _ hv => nomatch hv) (fun _ _ _ _ hv => nomatch hv) fun _ _ _ hv => nomatch hv
      case h_2 =>
        split at hstep <;> cases hstep
        · exact h.steps (fun _ hv => nomatch hv) (fun _ _ _ _ hv => nomatch hv)
            fun _ _ _ hv => nomatch hv
        · split <;> exact h.steps (fun _ hv => nomatch hv) (fun _ _ _ _ hv => nomatch hv)
            fun _ _ _ hv => nomatch hv
    case h_9 d virq hpc =>
      cases hstep
      exact h.disassociate hpc hnot
    case h_10 virq hpc =>
      obtain ⟨m, hfree, rfl⟩ := map_eq_some_iff.mp hstep
      exact h.free (by rw [hpc]; rfl) hfree (.inl rfl)

theorem Reached.inv (hs : Reached cfg s) : s.Inv cfg := by
  induction hs with
  | start h => exact h.inv
  | step _ hstep hnot ih => exact (ih.step hstep hnot).inv

/-! ### One number for each interrupt -/

theorem Given.reached (h : Given cfg d hwirq virq s) : Reached cfg s := by
  induction h with
  | returned hs hstep hnot _ _ => exact hs.step hstep hnot
  | step _ hstep hnot _ ih => exact ih.step hstep hnot

theorem Given.irqFindMapping (h : Given cfg d hwirq virq s) :
    virq ≠ 0 ∧ s.tables.irqFindMapping cfg d hwirq = virq := by
  induction h with
  | returned hs hstep hnot hret hzero =>
    exact ⟨hzero, (hs.inv.step hstep hnot).returned d hwirq virq hret hzero⟩
  | step hs hstep hnot hkept ih =>
    obtain ⟨hzero, hfind⟩ := ih
    exact ⟨hzero, ((hs.reached.inv.step hstep hnot).steady d hwirq (hfind ▸ hzero) hkept).trans hfind⟩

/-- The last step of `irq_create_mapping` does not dispose of anything. -/
theorem Returns.not_disposes (hstep : s.step cfg e = some s') (h : s'.Returns d hwirq virq e) :
    ¬s.Disposes d hwirq e := by
  cases e with
  | createMapping | disposeMapping => exact h.elim
  | next t env =>
    rintro ⟨virq', hpc, -⟩
    simp only [State.step, hpc] at hstep
    cases hstep
    exact nomatch h.eq

/-- At most one number is associated with a hardware interrupt, `irq_find_mapping` returns it, and the
    calls of `irq_create_mapping` for the interrupt return the same number as long as nobody disposes of
    the mapping. -/
theorem one_virq_per_hwirq {s : State τ δ α} (hs : Reached cfg s) (d : δ) (hwirq : ℕ) :
    (∀ virq virq', s.tables.Associated d hwirq virq → s.tables.Associated d hwirq virq' → virq = virq') ∧
      (∀ virq, s.tables.Associated d hwirq virq → s.tables.irqFindMapping cfg d hwirq = virq) ∧
      ∀ virq, Given cfg d hwirq virq s → ∀ e s' virq', s.step cfg e = some s' → ¬s.Missed cfg e →
        s'.Returns d hwirq virq' e → virq' ≠ 0 → virq' = virq := by
  have h := hs.inv
  refine ⟨fun virq virq' ha ha' => ?_, fun virq ha => (h.good.mapped d hwirq virq ha).2,
    fun virq hgiven e s' virq' hstep hnot hret hzero => ?_⟩
  · exact (h.good.mapped d hwirq virq ha).2.symm.trans (h.good.mapped d hwirq virq' ha').2
  obtain ⟨hzero', hfind⟩ := hgiven.irqFindMapping
  have hsteps := h.step hstep hnot
  have hsteady := hsteps.steady d hwirq (hfind ▸ hzero') (hret.not_disposes hstep)
  exact (hsteps.returned d hwirq virq' hret hzero).symm.trans (hsteady.trans hfind)

/-! ### Two callers at once -/

/-- A domain whose array has room for 8 interrupts. -/
def smallConfig : Config Unit := ⟨fun _ => 8, fun _ => 16, 64, fun n => n⟩

def empty : State Bool Unit ℕ :=
    ⟨⟨16, fun _ => none, fun _ => ⟨0, none, 0⟩, fun _ _ => 0, fun _ _ => none⟩, fun _ => .idle⟩

theorem empty_start : empty.Start smallConfig := by
  constructor <;> simp [empty, smallConfig]

/-- A call goes on, with memory at the given place. -/
def go (t : Bool) (memory : ℕ) : Event Bool Unit ℕ := .next t ⟨some memory, none, true, true⟩

/-- A second call has begun when the first one makes the mapping, looks for it afterwards, and returns
    the same number. -/
theorem one_virq_per_hwirq_second : ∃ s s' : State Bool Unit ℕ, Given smallConfig () 5 5 s ∧
    s.tables.Associated () 5 5 ∧ s.tables.irqFindMapping smallConfig () 5 = 5 ∧
    s.step smallConfig (go true 200) = some s' ∧ s'.Returns () 5 5 (go true 200) ∧
    ∀ virq', s'.Returns () 5 virq' (go true 200) → virq' ≠ 0 → virq' = 5 := by
  have h0 : Reached smallConfig empty := .start empty_start
  have h1 := h0.step (e := .createMapping false () 5) rfl fun h => h
  have h2 := h1.step (e := .createMapping true () 5) rfl fun h => h
  have h3 := h2.step (e := go false 100) rfl (by rintro (⟨_, _, _, _, h, -⟩ | ⟨_, _, h, -⟩) <;> cases h)
  have h4 := h3.step (e := go false 100) rfl (by rintro (⟨_, _, _, _, h, -⟩ | ⟨_, _, h, -⟩) <;> cases h)
  have h5 := h4.step (e := go false 100) rfl (by rintro (⟨_, _, _, _, h, -⟩ | ⟨_, _, h, -⟩) <;> cases h)
  have hgiven : Given smallConfig () 5 5 _ := .returned h5 (e := go false 100) rfl (by
    rintro (⟨_, _, _, _, h, -, hfind | ⟨-, hnodes⟩⟩ | ⟨_, _, h, -⟩) <;> cases h
    · exact hfind rfl
    · exact nomatch hnodes) rfl (by decide)
  obtain ⟨-, hfind, hsame⟩ := one_virq_per_hwirq hgiven.reached () 5
  refine ⟨_, _, hgiven, ⟨100, rfl, rfl, rfl⟩, hfind 5 ⟨100, rfl, rfl, rfl⟩, rfl, rfl, fun virq' => ?_⟩
  exact hsame 5 hgiven (go true 200) _ virq' rfl
    (by rintro (⟨_, _, _, _, h, -⟩ | ⟨_, _, h, -⟩) <;> cases h)

/-- Both calls look for a mapping before either of them makes one. -/
def race : List (Event Bool Unit ℕ) :=
  [.createMapping false () 5, .createMapping true () 5, go false 100, go true 200, go false 100,
    go true 200, go false 100, go true 200, go false 100, go true 200]

/-- Two calls for the same interrupt return different numbers. Both are associated with it, and the first
    one is not found. -/
theorem two_virqs_for_one_hwirq : ∃ s : State Bool Unit ℕ, empty.Start smallConfig ∧
    race.foldlM (step smallConfig) empty = some s ∧ s.pc false = .returned () 5 5 ∧
    s.pc true = .returned () 5 6 ∧ s.tables.Associated () 5 5 ∧ s.tables.Associated () 5 6 ∧
    s.tables.irqFindMapping smallConfig () 5 = 6 :=
  ⟨_, empty_start, rfl, rfl, rfl, ⟨100, rfl, rfl, rfl⟩, ⟨200, rfl, rfl, rfl⟩, rfl⟩

end State

end LinuxNote.IrqDomain
