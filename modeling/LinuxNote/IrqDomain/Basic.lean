import LinuxNote.Lib.Bitmap

/-! Interrupt domains, `kernel/irq/irqdomain.c`. A hardware interrupt of a domain is given a number
    `virq` with a descriptor; the `irq_data` in the descriptor says which interrupt it is for, and the
    reverse map of the domain leads back: an array for the lowest `revmap_size` hardware interrupts, a
    radix tree of pointers to `irq_data` for the others. Domains are named by `δ` and addresses of
    descriptors by `α`. -/

namespace LinuxNote.IrqDomain
open Function

/-- What the boot leaves behind; `lowerBound` is `arch_dynirq_lower_bound`. -/
structure Config (δ : Type) where
  revmapSize : δ → ℕ
  hwirqMax : δ → ℕ
  irqBitmapBits : ℕ
  lowerBound : ℕ → ℕ

structure IrqData (δ : Type) where
  irq : ℕ
  domain : Option δ
  hwirq : ℕ

structure Tables (δ α : Type) where
  nrIrqs : ℕ
  desc : ℕ → Option α
  data : α → IrqData δ
  linearRevmap : δ → ℕ → ℕ
  revmapTree : δ → ℕ → Option α

namespace Tables

variable {δ α : Type} (cfg : Config δ) (m : Tables δ α)

/-- `irq_find_mapping` -/
def irqFindMapping (d : δ) (hwirq : ℕ) : ℕ :=
  if hwirq < cfg.revmapSize d then m.linearRevmap d hwirq
  else
    match m.revmapTree d hwirq with
    | some data => (m.data data).irq
    | none => 0

/-- What a call gets from its surroundings: the memory for a descriptor at the first and at the second
    attempt, whether `ops->map` agrees, and whether `radix_tree_insert` finds memory. -/
structure Env (α : Type) where
  memory : Option α
  memoryAgain : Option α
  map : Bool
  nodes : Bool

/-- The memory for a new descriptor is not in use. -/
def Fresh (env : Env α) : Prop :=
  (∀ irq < cfg.irqBitmapBits, m.desc irq ≠ none → env.memory ≠ m.desc irq ∧
    env.memoryAgain ≠ m.desc irq) ∧ (env.memory = none ∨ env.memory ≠ env.memoryAgain)

instance [DecidableEq α] (m : Tables δ α) (env : Env α) : Decidable (m.Fresh cfg env) :=
  inferInstanceAs (Decidable (_ ∧ _))

/-- `__irq_alloc_descs(-1, from, 1, ..)` -/
def irqAllocDescs [DecidableEq α] (start : ℕ) (memory : Option α) : Tables δ α × Option ℕ :=
  let irq := Bitmap.findNext (fun i => (m.desc i).isNone) cfg.irqBitmapBits (cfg.lowerBound start)
  if m.nrIrqs < irq + 1 ∧ cfg.irqBitmapBits < irq + 1 then (m, none)
  else
    let m := { m with nrIrqs := max m.nrIrqs (irq + 1) }
    match memory with
    | none => (m, none)
    | some p =>
      ({ m with desc := update m.desc irq (some p), data := update m.data p ⟨irq, none, 0⟩ }, some irq)

/-- `irq_domain_alloc_descs(-1, 1, hwirq, ..)` -/
def irqDomainAllocDescs [DecidableEq α] (hwirq : ℕ) (env : Env α) : Tables δ α × Option ℕ :=
  let hint := if hwirq % m.nrIrqs = 0 then 1 else hwirq % m.nrIrqs
  let r := m.irqAllocDescs cfg hint env.memory
  if (r.2 = none ∨ r.2 = some 0) ∧ 1 < hint then r.1.irqAllocDescs cfg 1 env.memoryAgain else r

/-- `irq_free_desc`, which fails for a descriptor that is gone -/
def irqFreeDesc (irq : ℕ) : Option (Tables δ α) :=
  if m.nrIrqs ≤ irq then some m
  else if (m.desc irq).isNone then none
  else some { m with desc := update m.desc irq none }

variable [DecidableEq δ]

/-- `irq_domain_clear_mapping` -/
def irqDomainClearMapping (d : δ) (hwirq : ℕ) : Tables δ α :=
  if hwirq < cfg.revmapSize d then
    { m with linearRevmap := update m.linearRevmap d (update (m.linearRevmap d) hwirq 0) }
  else { m with revmapTree := update m.revmapTree d (update (m.revmapTree d) hwirq none) }

/-- `irq_domain_set_mapping`; `radix_tree_insert` leaves an entry that is there. -/
def irqDomainSetMapping (d : δ) (hwirq : ℕ) (data : α) (nodes : Bool) : Tables δ α :=
  if hwirq < cfg.revmapSize d then
    { m with
      linearRevmap := update m.linearRevmap d (update (m.linearRevmap d) hwirq (m.data data).irq) }
  else if (m.revmapTree d hwirq).isSome ∨ ¬nodes then m
  else { m with revmapTree := update m.revmapTree d (update (m.revmapTree d) hwirq (some data)) }

variable [DecidableEq α]

omit [DecidableEq δ] in
def setData (data : α) (x : IrqData δ) : Tables δ α := { m with data := update m.data data x }

/-- The section of `irq_domain_associate` under `irq_domain_mutex`; false if `ops->map` fails. -/
def irqDomainAssociate (d : δ) (hwirq : ℕ) (data : α) (env : Env α) : Tables δ α × Bool :=
  let irq := (m.data data).irq
  if env.map then
    ((m.setData data ⟨irq, some d, hwirq⟩).irqDomainSetMapping cfg d hwirq data env.nodes, true)
  else (m.setData data ⟨irq, none, 0⟩, false)

/-- `irq_domain_disassociate` -/
def irqDomainDisassociate (d : δ) (irq : ℕ) : Tables δ α :=
  match m.desc irq with
  | none => m
  | some p =>
    if (m.data p).domain ≠ some d then m
    else (m.setData p ⟨(m.data p).irq, none, 0⟩).irqDomainClearMapping cfg d (m.data p).hwirq

end Tables

/-! ### Calls at the same time -/

inductive Pc (δ α : Type)
  | idle
  | find (d : δ) (hwirq : ℕ)
  | alloc (d : δ) (hwirq : ℕ)
  | check (d : δ) (hwirq virq : ℕ)
  | associate (d : δ) (hwirq virq : ℕ) (data : α)
  | giveUp (d : δ) (hwirq virq : ℕ)
  | returned (d : δ) (hwirq virq : ℕ)
  | dispose (virq : ℕ)
  | disassociate (d : δ) (virq : ℕ)
  | freeDesc (virq : ℕ)

inductive Event (τ δ α : Type)
  | createMapping (t : τ) (d : δ) (hwirq : ℕ)
  | disposeMapping (t : τ) (virq : ℕ)
  | next (t : τ) (env : Tables.Env α)

structure State (τ δ α : Type) where
  tables : Tables δ α
  pc : τ → Pc δ α

namespace State

variable {τ δ α : Type} [DecidableEq τ] [DecidableEq δ] [DecidableEq α] (cfg : Config δ)

def goto (s : State τ δ α) (t : τ) (pc : Pc δ α) : State τ δ α := { s with pc := update s.pc t pc }

/-- `irq_create_mapping` and `irq_dispose_mapping`, one step after the other. -/
def step (s : State τ δ α) : Event τ δ α → Option (State τ δ α)
  | .createMapping t d hwirq =>
    match s.pc t with
    | .idle | .returned .. => some (s.goto t (.find d hwirq))
    | _ => none
  | .disposeMapping t virq =>
    match s.pc t with
    | .idle | .returned .. => some (s.goto t (.dispose virq))
    | _ => none
  | .next t env =>
    match s.pc t with
    | .idle | .returned .. => none
    | .find d hwirq =>
      let virq := s.tables.irqFindMapping cfg d hwirq
      some (s.goto t (if virq ≠ 0 then .returned d hwirq virq else .alloc d hwirq))
    | .alloc d hwirq =>
      if s.tables.Fresh cfg env then
        match s.tables.irqDomainAllocDescs cfg hwirq env with
        | (m, none) | (m, some 0) => some ({ s with tables := m }.goto t (.returned d hwirq 0))
        | (m, some virq) => some ({ s with tables := m }.goto t (.check d hwirq virq))
      else none
    | .check d hwirq virq =>
      match s.tables.desc virq with
      | none => some (s.goto t (.giveUp d hwirq virq))
      | some p =>
        if cfg.hwirqMax d ≤ hwirq ∨
          (s.tables.data p).domain.isSome then some (s.goto t (.giveUp d hwirq virq))
        else some (s.goto t (.associate d hwirq virq p))
    | .associate d hwirq virq p =>
      match s.tables.irqDomainAssociate cfg d hwirq p env with
      | (m, true) => some ({ s with tables := m }.goto t (.returned d hwirq virq))
      | (m, false) => some ({ s with tables := m }.goto t (.giveUp d hwirq virq))
    | .giveUp d hwirq virq => (s.tables.irqFreeDesc virq).map fun m =>
      { s with tables := m }.goto t (.returned d hwirq 0)
    | .dispose virq =>
      match s.tables.desc virq with
      | none => some (s.goto t .idle)
      | some p =>
        match (s.tables.data p).domain with
        | none => some (s.goto t .idle)
        | some d => some (s.goto t (if virq = 0 then .idle else .disassociate d virq))
    | .disassociate d virq =>
      some ({ s with tables := s.tables.irqDomainDisassociate cfg d virq }.goto t (.freeDesc virq))
    | .freeDesc virq => (s.tables.irqFreeDesc virq).map fun m => { s with tables := m }.goto t .idle

end State

end LinuxNote.IrqDomain
