import LinuxNote.Lib.Bitmap
import Mathlib.Algebra.Group.Nat.Defs
import Mathlib.Data.Fintype.Defs

/-! The allocator of address space identifiers, `arch/arm/mm/context.c`. The hardware tags TLB entries
    with the lowest `ASID_BITS` bits of `mm->context.id`; the bits above are the generation in which the
    identifier was given out. When no identifier is left, a new generation begins, and only what the CPUs
    are running keeps its identifier. Address spaces are named by `μ` and CPUs by `γ`. -/

namespace LinuxNote.Asid
open Bitmap Function

def asidBits : ℕ := 8

/-- `NUM_USER_ASIDS`, which is also `ASID_FIRST_VERSION` -/
def numUserAsids : ℕ := 2 ^ asidBits

structure State (γ μ : Type) where
  generation : ℕ
  map : ℕ → Bool
  curIdx : ℕ
  active : γ → ℕ
  reserved : γ → ℕ
  pending : γ → Bool
  id : μ → ℕ

namespace State

variable {γ μ : Type}

/-- No address space has an identifier yet. -/
def init : State γ μ where
  generation := numUserAsids
  map _ := false
  curIdx := 1
  active _ := 0
  reserved _ := 0
  pending _ := false
  id _ := 0

def findNextZeroBit (map : ℕ → Bool) (start : ℕ) : ℕ := findNext (fun i => !map i) numUserAsids start

variable (s : State γ μ)

/-- `!((asid ^ asid_generation) >> ASID_BITS)` -/
def isCurrent (asid : ℕ) : Bool := (asid ^^^ s.generation) >>> asidBits = 0

/-- What `flush_context` reserves for a CPU. -/
def kept (c : γ) : ℕ := if s.active c = 0 then s.reserved c else s.active c

/-- `flush_context`; the bitmap is cleared and then marked for each CPU. -/
def flushContext [Fintype γ] (s : State γ μ) : State γ μ :=
  { s with
    map := fun i => decide (∃ c, s.kept c % numUserAsids = i)
    active := fun _ => 0
    reserved := s.kept
    pending := fun _ => true }

/-- `__set_bit(asid, asid_map)` and what follows at the end of `new_context`. -/
def take (asid : ℕ) : State γ μ × ℕ :=
  ({ s with map := update s.map asid true, curIdx := asid }, asid ||| s.generation)

/-- `atomic64_add_return` of `ASID_FIRST_VERSION` and `flush_context`. -/
def rollover [Fintype γ] (s : State γ μ) : State γ μ :=
  { s with generation := (s.generation + numUserAsids) % 2 ^ 64 }.flushContext

/-- The part of `new_context` that looks for a free identifier. -/
def allocate [Fintype γ] (s : State γ μ) : State γ μ × ℕ :=
  let asid := findNextZeroBit s.map s.curIdx
  if asid = numUserAsids then
    let s := s.rollover
    s.take (findNextZeroBit s.map 1)
  else s.take asid

/-- `check_update_reserved_asid` on a hit. -/
def updateReserved (asid newasid : ℕ) : State γ μ :=
  { s with reserved := fun c => if s.reserved c = asid then newasid else s.reserved c }

/-- `new_context` -/
def newContext [Fintype γ] (s : State γ μ) (mm : μ) : State γ μ × ℕ :=
  let asid := s.id mm
  let newasid := s.generation ||| asid % numUserAsids
  if asid ≠ 0 then
    if ∃ c, s.reserved c = asid then (s.updateReserved asid newasid, newasid)
    else if ¬s.map (asid % numUserAsids) then
      ({ s with map := update s.map (asid % numUserAsids) true }, newasid)
    else s.allocate
  else s.allocate

variable [DecidableEq γ] [DecidableEq μ]

/-- `mm->context.id`, brought up to date under the lock. -/
def renew [Fintype γ] (s : State γ μ) (mm : μ) : State γ μ :=
  if s.isCurrent (s.id mm) then s
  else { (s.newContext mm).1 with id := update (s.newContext mm).1.id mm (s.newContext mm).2 }

/-- The section of `check_and_switch_context` under `cpu_asid_lock`; the TLB of `c` is flushed if
    `(s.renew mm).pending c`. -/
def lockSection [Fintype γ] (s : State γ μ) (c : γ) (mm : μ) : State γ μ :=
  let s := s.renew mm
  { s with pending := update s.pending c false, active := update s.active c (s.id mm) }

/-- `atomic64_xchg(&per_cpu(active_asids, cpu), asid)` -/
def xchgActive (c : γ) (asid : ℕ) : State γ μ := { s with active := update s.active c asid }

end State

end LinuxNote.Asid
