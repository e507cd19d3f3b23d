import Mathlib.Algebra.Order.Ring.Nat

/-! The global limit of the deadline class, `kernel/sched/deadline.c`. Every CPU belongs to a root
    domain, whose `dl_bw` has the limit for one CPU and the bandwidth of the tasks admitted to all of
    them. -/

namespace LinuxNote.Deadline
open Function List

/-- `dl_bw` -/
structure DlBw where
  bw : ℕ
  totalBw : ℕ
deriving DecidableEq

/-- `-1` as a `u64`: there is no limit. -/
def unlimited : ℕ := 2 ^ 64 - 1

/-- `__dl_overflow` -/
def DlBw.overflow (b : DlBw) (cpus oldBw newBw : ℕ) : Bool :=
  b.bw ≠ unlimited ∧ b.bw * cpus % 2 ^ 64 < (b.totalBw + 2 ^ 64 - oldBw + newBw) % 2 ^ 64

/-- `to_ratio`; no runtime is `RUNTIME_INF`. -/
def toRatio (period : ℕ) : Option ℕ → ℕ
  | none => 2 ^ 20
  | some runtime => if period = 0 then 0 else runtime * 2 ^ 20 % 2 ^ 64 / period

theorem toRatio_le {period : ℕ} {runtime : Option ℕ} (h : ∀ r ∈ runtime, r ≤ period) :
    toRatio period runtime ≤ 2 ^ 20 := by
  rcases runtime with _ | r
  · exact le_rfl
  rw [toRatio]
  split
  · exact Nat.zero_le _
  · exact Nat.div_le_of_le_mul ((Nat.mod_le ..).trans (Nat.mul_le_mul_right _ (h r rfl)))

/-- The possible CPUs, their root domains and `cpu_active_mask`. -/
structure Topology (C D : Type) where
  possible : List C
  rd : C → D
  active : C → Bool

namespace Topology

variable {C D : Type} [DecidableEq D] (t : Topology C D) (period : ℕ) (runtime : Option ℕ)
  (dlB : D → DlBw)

/-- `dl_bw_cpus` -/
def dlBwCpus (d : D) : ℕ := t.possible.countP fun cpu => t.rd cpu = d ∧ t.active cpu

/-- `sched_dl_global_validate`; false is `-EBUSY`. -/
def globalValidate : Bool := t.possible.all fun cpu => ¬toRatio period runtime < (dlB (t.rd cpu)).totalBw

/-- `sched_dl_do_global` -/
def doGlobal : D → DlBw :=
  let newBw := if runtime = none then unlimited else toRatio period runtime
  t.possible.foldl (fun dlB cpu => update dlB (t.rd cpu) { dlB (t.rd cpu) with bw := newBw }) dlB

/-- Every domain has no more than `newBw` for each of its CPUs. -/
def Fits (newBw : ℕ) : Prop :=
  ∀ cpu ∈ t.possible, (dlB (t.rd cpu)).totalBw ≤ newBw * t.dlBwCpus (t.rd cpu)

instance (newBw : ℕ) : Decidable (t.Fits dlB newBw) :=
    inferInstanceAs (Decidable (∀ cpu ∈ t.possible, _))

theorem foldl_update (rd : C → D) (newBw : ℕ) : ∀ (cpus : List C) (dlB : D → DlBw) (d : D),
    cpus.foldl (fun dlB cpu => update dlB (rd cpu) { dlB (rd cpu) with bw := newBw }) dlB d =
      if d ∈ cpus.map rd then { dlB d with bw := newBw } else dlB d
  | [], dlB, d => by simp
  | cpu :: cpus, dlB, d => by
    rw [foldl_cons, foldl_update rd newBw cpus]
    by_cases hd : d = rd cpu
    · simp [hd]
    · simp [hd]

variable {t period runtime dlB}

/-- A new limit is accepted just where it fits, unless it fits and some domain has more than `newBw` in
    all. A limit that is accepted holds. -/
theorem globalValidate_exact_iff (hcpus : t.possible.length < 2 ^ 31)
    (hruntime : ∀ r ∈ runtime, r ≤ period) (htotal : ∀ d, (dlB d).totalBw < 2 ^ 64)
    (hadmitted : ∀ cpu ∈ t.possible,
      (dlB (t.rd cpu)).totalBw ≤ (dlB (t.rd cpu)).bw * t.dlBwCpus (t.rd cpu)) :
    ((t.globalValidate period runtime dlB ↔ t.Fits dlB (toRatio period runtime)) ↔
      (t.Fits dlB (toRatio period runtime) →
        ∀ cpu ∈ t.possible, (dlB (t.rd cpu)).totalBw ≤ toRatio period runtime)) ∧
    (t.globalValidate period runtime dlB → ∀ cpu ∈ t.possible,
      ¬(t.doGlobal period runtime dlB (t.rd cpu)).overflow (t.dlBwCpus (t.rd cpu)) 0 0) := by
  have hvalid : t.globalValidate period runtime dlB ↔ ∀ cpu ∈ t.possible, (dlB (t.rd cpu)).totalBw ≤
    toRatio period runtime := by
    simp [globalValidate]
  have hfits : t.globalValidate period runtime dlB → t.Fits dlB (toRatio period runtime) := by
    intro h cpu hcpu
    obtain hzero | hpos := Nat.eq_zero_or_pos (t.dlBwCpus (t.rd cpu))
    · simpa [hzero] using hadmitted cpu hcpu
    · exact (hvalid.mp h cpu hcpu).trans (Nat.le_mul_of_pos_right _ hpos)
  refine ⟨⟨fun h hf => hvalid.mp (h.mpr hf), fun h => ⟨hfits, fun hf => hvalid.mpr (h hf)⟩⟩,
    fun h cpu hcpu hover => ?_⟩
  rw [doGlobal, foldl_update, if_pos (mem_map_of_mem hcpu)] at hover
  obtain ⟨hlimit, hlt⟩ := of_decide_eq_true hover
  dsimp only at hlimit hlt
  rw [if_neg fun hnone => hlimit (if_pos hnone)] at hlt
  have hle : toRatio period runtime * t.dlBwCpus (t.rd cpu) ≤ 2 ^ 20 * 2 ^ 31 :=
    Nat.mul_le_mul (toRatio_le hruntime) (countP_le_length.trans hcpus.le)
  have := hfits h cpu hcpu
  have := htotal (t.rd cpu)
  omega

/-- Two CPUs in one domain. -/
abbrev pair : Topology Bool Unit := ⟨[false, true], fun _ => (), fun _ => true⟩

theorem globalValidate_refuses : ¬pair.globalValidate 100 (some 95) (fun _ => ⟨2 ^ 20, 1000000⟩) ∧
    pair.Fits (fun _ => ⟨2 ^ 20, 1000000⟩) (toRatio 100 (some 95)) := by
  decide

theorem globalValidate_exact_pair : pair.globalValidate 100 (some 95) (fun _ => ⟨2 ^ 20, 900000⟩) ↔
    pair.Fits (fun _ => ⟨2 ^ 20, 900000⟩) (toRatio 100 (some 95)) :=
  (globalValidate_exact_iff (by decide) (by decide) (fun _ => by decide) (by decide)).1.mpr (by decide)

end Topology

end LinuxNote.Deadline
