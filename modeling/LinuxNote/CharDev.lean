import Mathlib.Algebra.Group.Int.Defs
import Mathlib.Algebra.Group.Nat.Defs
import Mathlib.Data.List.Pairwise
import Mathlib.Order.Lattice

/-! The table of character device numbers (`fs/char_dev.c`). -/

namespace LinuxNote.CharDev
open Function List Nat

structure CharDeviceStruct where
  major : ℕ
  baseminor : ℕ
  minorct : ℤ
  deriving DecidableEq

/-- `chrdevs`: a chain for each index. -/
abbrev Table := ℕ → List CharDeviceStruct

inductive Errno where
  | enomem | ebusy | einval
  deriving DecidableEq

def majorToIndex (major : ℕ) : ℕ := major % 255

def Registered (t : Table) (cd : CharDeviceStruct) : Prop := cd ∈ t (majorToIndex cd.major)

variable (cd : CharDeviceStruct)

def CharDeviceStruct.stop : ℤ := cd.baseminor + cd.minorct

/-- The value as an `int`. -/
def int (x : ℤ) : ℤ := if x % 2 ^ 32 < 2 ^ 31 then x % 2 ^ 32 else x % 2 ^ 32 - 2 ^ 32

/-- `find_dynamic_major`. -/
def findDynamicMajor (t : Table) : Option ℕ :=
  match ((List.range 21).map (254 - ·)).find? fun i => (t i).isEmpty with
  | some i => some i
  | none => ((List.range 128).map (511 - ·)).find? fun i => (t (majorToIndex i)).all fun cd =>
    cd.major ≠ i

/-- The condition the scan stops with; the sum is unsigned. -/
def CharDeviceStruct.Stops (old cd : CharDeviceStruct) : Prop :=
  cd.major < old.major ∨ old.major = cd.major ∧
    (cd.baseminor ≤ old.baseminor ∨ cd.baseminor < old.stop % 2 ^ 32)

/-- The two tests against the entry the scan stopped at. -/
def CharDeviceStruct.Clashes (old cd : CharDeviceStruct) : Prop :=
  int (cd.stop - 1) ≥ int old.baseminor ∧ int (cd.stop - 1) ≤ int (old.stop - 1) ∨
    int cd.baseminor ≤ int (old.stop - 1) ∧ int cd.baseminor ≥ int old.baseminor

instance (old cd : CharDeviceStruct) : Decidable (old.Stops cd) := inferInstanceAs (Decidable (_ ∨ _))

instance (old cd : CharDeviceStruct) : Decidable (old.Clashes cd) := inferInstanceAs (Decidable (_ ∨ _))

/-- The scan of a chain and the insertion; `none` for `-EBUSY`. -/
def insert : List CharDeviceStruct → Option (List CharDeviceStruct)
  | [] => some [cd]
  | old :: rest =>
    if old.Stops cd then
      if old.major = cd.major ∧ old.Clashes cd then none else some (cd :: old :: rest)
    else (insert rest).map (old :: ·)

/-- `__register_chrdev_region`, with what `kzalloc` does; `alloc_chrdev_region` calls it with the major
    0. -/
def registerRegion (ok : Bool) (major baseminor : ℕ) (minorct : ℤ) (t : Table) :
    Except Errno (Table × CharDeviceStruct) :=
  if !ok then .error .enomem
  else match if major = 0 then findDynamicMajor t else some major with
    | none => .error .ebusy
    | some major =>
      if major ≥ 512 then .error .einval
      else match insert ⟨major, baseminor, minorct⟩ (t (majorToIndex major)) with
        | none => .error .ebusy
        | some l => .ok (update t (majorToIndex major) l, ⟨major, baseminor, minorct⟩)

/-- `__unregister_chrdev_region`. -/
def unregisterRegion (t : Table) : Table :=
  update t (majorToIndex cd.major) ((t (majorToIndex cd.major)).erase cd)

/-- `MKDEV(MAJOR(n) + 1, 0)`. -/
def nextMajor (n : ℕ) : ℕ := (n / 2 ^ 20 + 1) * 2 ^ 20 % 2 ^ 32

/-- The loop of `register_chrdev_region`; an error comes with the `n` it happened at. -/
def registerLoop (ok : ℕ → Bool) (to' : ℕ) : ℕ → ℕ → Table → Option (Table × Option (ℕ × Errno))
  | 0, _, _ => none
  | fuel + 1, n, t =>
    if n < to' then
      let next := if nextMajor n > to' then to' else nextMajor n
      match registerRegion (ok n) (n / 2 ^ 20) (n % 2 ^ 20) (int (next - n)) t with
      | .error e => some (t, some (n, e))
      | .ok (t, _) => registerLoop ok to' fuel next t
    else some (t, none)

/-- The loop at `fail`. -/
def rollBack (to' : ℕ) : ℕ → ℕ → Table → Option Table
  | 0, _, _ => none
  | fuel + 1, n, t =>
    if n < to' then rollBack to' fuel (nextMajor n)
      (unregisterRegion ⟨n / 2 ^ 20, n % 2 ^ 20, int (nextMajor n - n)⟩ t)
    else some t

/-- `register_chrdev_region`. No major from 512 on is accepted, so the loops end before the fuel does. -/
def registerChrdevRegion (ok : ℕ → Bool) (start count : ℕ) (t : Table) : Option (Table × Option Errno) :=
  match registerLoop ok ((start + count) % 2 ^ 32) 514 start t with
  | none => none
  | some (t, none) => some (t, none)
  | some (t, some (n, e)) => (rollBack n 514 start t).map fun t => (t, some e)

/-- The range is not empty, its numbers are `int`s, and no registered one is inside of it with room on
    both sides. -/
structure Fits (t : Table) (major baseminor : ℕ) (minorct : ℤ) : Prop where
  pos : 0 < minorct
  le : baseminor + minorct ≤ 2 ^ 31
  around : ∀ old, Registered t old → old.major = major →
    ¬(baseminor < old.baseminor ∧ old.stop < baseminor + minorct)

/-- The same for the part of `[start, to)` in every major, of which 0 is none. -/
structure RangeFits (t : Table) (start to' : ℕ) : Prop where
  major : 1 ≤ start / 2 ^ 20
  around : ∀ old, Registered t old → start / 2 ^ 20 ≤ old.major →
    ¬(start - old.major * 2 ^ 20 < old.baseminor ∧
      old.stop < (min (to' - old.major * 2 ^ 20) (2 ^ 20) : ℕ))

inductive Reached : Table → Prop
  | init : Reached fun _ => []
  | register {t t' : Table} {ok : Bool} {major baseminor : ℕ} {minorct : ℤ} {cd : CharDeviceStruct} :
      Reached t → Fits t major baseminor minorct → registerRegion ok major baseminor minorct t =
      .ok (t', cd) → Reached t'
  | registerRange {t t' : Table} {ok : ℕ → Bool} {start count : ℕ} {e : Option Errno} : Reached t →
      RangeFits t start ((start + count) % 2 ^ 32) → registerChrdevRegion ok start count t =
      some (t', e) → Reached t'
  | unregister {t : Table} {cd : CharDeviceStruct} : Reached t → Registered t cd →
      Reached (unregisterRegion cd t)

/-! ### The chains -/

open CharDeviceStruct

theorem int_eq {x : ℤ} (h : 0 ≤ x) (h' : x < 2 ^ 31) : int x = x := by
  rw [int, Int.emod_eq_of_lt h (by omega), if_pos h']

/-- The order of a chain. -/
def Before (a b : CharDeviceStruct) : Prop := a.major < b.major ∨ a.major = b.major ∧
    a.stop ≤ b.baseminor

def Proper : Prop := 0 < cd.minorct ∧ cd.stop ≤ 2 ^ 31

variable {t t' : Table} {cd old x : CharDeviceStruct} {l l' : List CharDeviceStruct}
  {major baseminor n to' fuel : ℕ} {minorct : ℤ}

theorem stops_iff (h : Proper old) : old.Stops cd ↔ cd.major < old.major ∨ old.major = cd.major ∧
    (cd.baseminor ≤ old.baseminor ∨ cd.baseminor < old.stop) := by
  have := h.2
  have hpos := h.1
  rw [Stops, Int.emod_eq_of_lt (by rw [stop]; omega) (by omega)]

/-- The entry goes before those that start after its end, and after those that end before its start. -/
theorem insert_spec (hcd : Proper cd) (hl : l.Pairwise Before) (hproper : ∀ old ∈ l, Proper old)
    (haround : ∀ old ∈ l, old.major = cd.major → ¬(cd.baseminor < old.baseminor ∧ old.stop < cd.stop))
    (h : insert cd l = some l') : l'.Perm (cd :: l) ∧ l'.Pairwise Before := by
  induction l generalizing l' with
  | nil => exact Option.some.inj h ▸ ⟨.rfl, pairwise_singleton ..⟩
  | cons old rest ih =>
    obtain ⟨hfirst, hrest⟩ := pairwise_cons.mp hl
    obtain ⟨hold, hproper'⟩ := forall_mem_cons.mp hproper
    obtain ⟨hnot, haround'⟩ := forall_mem_cons.mp haround
    rw [insert] at h
    split at h
    · rename_i hstops
      rw [stops_iff hold] at hstops
      split at h
      · exact nomatch h
      rename_i hclash
      have hbefore : Before cd old := by
        obtain ⟨hpos, hle⟩ := hcd
        obtain ⟨hpos', hle'⟩ := hold
        rw [Clashes] at hclash
        rw [Before]
        simp only [stop] at *
        repeat rw [int_eq (by omega) (by omega)] at hclash
        omega
      refine Option.some.inj h ▸
        ⟨.rfl, pairwise_cons.mpr ⟨forall_mem_cons.mpr ⟨hbefore, fun y hy => ?_⟩, hl⟩⟩
      have hy := hfirst y hy
      have := hold.1
      rw [Before] at hbefore hy ⊢
      rw [stop] at *
      omega
    rename_i hstops
    rw [stops_iff hold] at hstops
    obtain ⟨r, hr, rfl⟩ := Option.map_eq_some_iff.mp h
    obtain ⟨hperm, hpairwise⟩ := ih hrest hproper' haround' hr
    have hbefore : Before old cd := by
      rw [Before]
      omega
    refine ⟨(hperm.cons old).trans (Perm.swap ..), pairwise_cons.mpr ⟨fun y hy => ?_, hpairwise⟩⟩
    rcases mem_cons.mp (hperm.mem_iff.mp hy) with rfl | hy
    · exact hbefore
    · exact hfirst y hy

structure Inv (t : Table) : Prop where
  chain : ∀ i, (t i).Pairwise Before
  entry : ∀ i, ∀ cd ∈ t i, majorToIndex cd.major = i ∧ Proper cd

theorem Inv.nodup (h : Inv t) (i : ℕ) : (t i).Nodup :=
  (h.chain i).imp_of_mem fun {a b} ha _ hbefore heq => by
    have hpos := (h.entry i a ha).2.1
    subst heq
    rw [Before, stop] at hbefore
    omega

/-- A chain is replaced. -/
theorem Inv.replace {i : ℕ} (h : Inv t) (hl : l.Pairwise Before)
    (hentry : ∀ cd ∈ l, majorToIndex cd.major = i ∧ Proper cd) : Inv (update t i l) :=
  ⟨(forall_update_iff t fun _ l => l.Pairwise Before).mpr ⟨hl, fun j _ => h.chain j⟩,
    (forall_update_iff t fun j l => ∀ cd ∈ l, majorToIndex cd.major = j ∧ Proper cd).mpr
    ⟨hentry, fun j _ => h.entry j⟩⟩

theorem registered_of_ne {i : ℕ} (hi : majorToIndex x.major ≠ i) :
    Registered (update t i l) x ↔ Registered t x := by
  rw [Registered, update_of_ne hi, Registered]

theorem findDynamicMajor_unused (h : findDynamicMajor t = some major) :
    ∀ old, Registered t old → old.major ≠ major := by
  rintro old hold rfl
  rw [Registered] at hold
  unfold findDynamicMajor at h
  split at h
  · rename_i i hfind
    cases h
    obtain ⟨j, -, hj⟩ := mem_map.mp (mem_of_find?_eq_some hfind)
    have hempty := find?_some hfind
    rw [List.isEmpty_iff] at hempty
    rw [majorToIndex, mod_eq_of_lt (by omega), hempty] at hold
    exact nomatch hold
  have hall := find?_some h
  rw [all_eq_true] at hall
  exact of_decide_eq_true (hall old hold) rfl

/-- What a successful registration adds. -/
structure Adds (t t' : Table) (cd : CharDeviceStruct) : Prop where
  inv : Inv t'
  unregistered : ¬Registered t cd
  registered : ∀ x, Registered t' x ↔ x = cd ∨ Registered t x

/-- What a successful registration registers, and where. -/
theorem registerRegion_ok {ok : Bool}
    (hreg : registerRegion ok major baseminor minorct t = .ok (t', cd)) :
    cd.baseminor = baseminor ∧ cd.minorct = minorct ∧ (major ≠ 0 → cd.major = major) ∧
    (major = 0 → ∀ old, Registered t old → old.major ≠ cd.major) ∧
    ∃ l, insert cd (t (majorToIndex cd.major)) = some l ∧ t' = update t (majorToIndex cd.major) l := by
  unfold registerRegion at hreg
  split at hreg
  · exact nomatch hreg
  split at hreg
  · exact nomatch hreg
  rename_i m hmajor
  split at hreg
  · exact nomatch hreg
  split at hreg
  · exact nomatch hreg
  rename_i l hinsert
  cases hreg
  exact ⟨rfl, rfl, fun hne => (Option.some.inj ((if_neg hne).symm.trans hmajor)).symm,
    fun heq => findDynamicMajor_unused ((if_pos heq).symm.trans hmajor), l, hinsert, rfl⟩

theorem Inv.registerRegion {ok : Bool} (h : Inv t) (hfits : Fits t major baseminor minorct)
    (hreg : registerRegion ok major baseminor minorct t = .ok (t', cd)) : Adds t t' cd := by
  obtain ⟨rfl, rfl, hchosen, hfree, l, hinsert, rfl⟩ := registerRegion_ok hreg
  have hproper : Proper cd := ⟨hfits.pos, hfits.le⟩
  have haround : ∀ old ∈ t (majorToIndex cd.major), old.major = cd.major →
      ¬(cd.baseminor < old.baseminor ∧ old.stop < cd.stop) := by
    intro old hold heq
    have hold : Registered t old := by rwa [Registered, heq]
    by_cases hzero : major = 0
    · exact absurd heq (hfree hzero old hold)
    · exact hfits.around old hold (heq.trans (hchosen hzero))
  obtain ⟨hperm, hpairwise⟩ :=
    insert_spec hproper (h.chain _) (fun old hold => (h.entry _ old hold).2) haround hinsert
  have hinv : Inv (update t (majorToIndex cd.major) l) := h.replace hpairwise fun x hx => by
    rcases mem_cons.mp (hperm.mem_iff.mp hx) with rfl | hx
    · exact ⟨rfl, hproper⟩
    · exact h.entry _ x hx
  have hnodup := hinv.nodup (majorToIndex cd.major)
  rw [update_self, hperm.nodup_iff, nodup_cons] at hnodup
  refine ⟨hinv, hnodup.1, fun x => ?_⟩
  by_cases hi : majorToIndex x.major = majorToIndex cd.major
  · rw [Registered, Registered, hi, update_self, hperm.mem_iff, mem_cons]
  rw [registered_of_ne hi]
  exact ⟨.inr, fun hx => hx.resolve_left fun heq => hi (heq ▸ rfl)⟩

theorem Inv.unregisterRegion (h : Inv t) (cd : CharDeviceStruct) : Inv (unregisterRegion cd t) ∧
    ∀ x, Registered (unregisterRegion cd t) x ↔ x ≠ cd ∧ Registered t x := by
  refine ⟨h.replace ((h.chain _).sublist erase_sublist) fun x hx => h.entry _ x (mem_of_mem_erase hx),
    fun x => ?_⟩
  rw [CharDev.unregisterRegion]
  by_cases hi : majorToIndex x.major = majorToIndex cd.major
  · rw [Registered, Registered, hi, update_self, (h.nodup _).mem_erase_iff]
  rw [registered_of_ne hi]
  exact ⟨fun hx => ⟨fun heq => hi (heq ▸ rfl), hx⟩, And.right⟩

/-! ### Ranges over several majors -/

/-- The parts of `[n, m)`, where all end with their major. -/
def Part (n m : ℕ) (x : CharDeviceStruct) : Prop :=
  (n / 2 ^ 20 ≤ x.major ∧ x.major < m / 2 ^ 20) ∧ x.baseminor = n - x.major * 2 ^ 20 ∧ x.stop = 2 ^ 20

theorem nextMajor_eq (h : n / 2 ^ 20 < 512) : nextMajor n = (n / 2 ^ 20 + 1) * 2 ^ 20 ∧
    int (nextMajor n - n) = 2 ^ 20 - (n % 2 ^ 20 : ℕ) := by
  have hnext : nextMajor n = (n / 2 ^ 20 + 1) * 2 ^ 20 := mod_eq_of_lt (by omega)
  exact ⟨hnext, by rw [int_eq] <;> omega⟩

theorem part_step {m : ℕ} (h : n / 2 ^ 20 < 512) (hm : nextMajor n ≤ m) :
    Part n m x ↔ x = ⟨n / 2 ^ 20, n % 2 ^ 20, int (nextMajor n - n)⟩ ∨ Part (nextMajor n) m x := by
  obtain ⟨a, b, c⟩ := x
  obtain ⟨hnext, hint⟩ := nextMajor_eq h
  simp only [Part, mk.injEq, stop]
  omega

/-- The part of a range in its first major, up to `next`. -/
theorem RangeFits.part {next : ℕ} (h : RangeFits t n to') (hn : n < to') (hlt : n / 2 ^ 20 < 512)
    (hnext : next = min to' (nextMajor n)) : Fits t (n / 2 ^ 20) (n % 2 ^ 20) (int (next - n)) := by
  rw [(nextMajor_eq hlt).1] at hnext
  rw [int_eq (by omega) (by omega)]
  refine ⟨by omega, by omega, fun old hold heq hin => h.around old hold heq.ge ?_⟩
  omega

theorem RangeFits.rest (h : RangeFits t n to') (hlt : n / 2 ^ 20 < 512)
    (hadds : ∀ x, Registered t' x ↔ x = cd ∨ Registered t x) (hcd : cd.major = n / 2 ^ 20) :
    RangeFits t' (nextMajor n) to' := by
  rw [(nextMajor_eq hlt).1]
  refine ⟨by omega, fun old hold hge hin => ?_⟩
  rcases (hadds old).mp hold with rfl | hold
  · omega
  · exact h.around old hold (by omega) (by omega)

theorem registerLoop_end {ok : ℕ → Bool} (hfuel : 0 < fuel) (h : to' ≤ n) :
    registerLoop ok to' fuel n t = some (t, none) := by
  obtain ⟨f, rfl⟩ := exists_eq_succ_of_ne_zero hfuel.ne'
  rw [registerLoop, if_neg (not_lt.mpr h)]

/-- The loop ends; up to an error it has registered whole parts, which were not registered before. -/
theorem registerLoop_spec (ok : ℕ → Bool) : ∀ {fuel n : ℕ} {t : Table}, Inv t → RangeFits t n to' →
    0 < fuel ∧ 512 < fuel + n / 2 ^ 20 → ∃ t' r, registerLoop ok to' fuel n t = some (t', r) ∧ Inv t' ∧
    ∀ m e, r = some (m, e) → (m = n ∨ n ≤ m ∧ m % 2 ^ 20 = 0 ∧ m / 2 ^ 20 ≤ 512) ∧
    (∀ x, Part n m x → ¬Registered t x) ∧ ∀ x, Registered t' x ↔ Registered t x ∨ Part n m x
  | 0, _, _, _, _, hfuel => absurd hfuel.1 (lt_irrefl 0)
  | fuel + 1, n, t, h, hfits, hfuel => by
    by_cases hn : to' ≤ n
    · exact ⟨t, none, registerLoop_end hfuel.1 hn, h, nofun⟩
    rw [registerLoop, if_pos (not_le.mp hn)]
    generalize hnext : (if nextMajor n > to' then to' else nextMajor n) = next
    dsimp only
    split
    · refine ⟨t, _, rfl, h, fun m e hr => ?_⟩
      cases hr
      have hpart : ∀ x, ¬Part n n x := fun x hx => by
        have := hx.1
        omega
      exact ⟨.inl rfl, fun x hx => absurd hx (hpart x),
        fun x => ⟨.inl, fun hx => hx.resolve_right (hpart x)⟩⟩
    rename_i t1 cd hreg
    have hlt : n / 2 ^ 20 < 512 := by
      by_contra hge
      unfold registerRegion at hreg
      split at hreg
      · cases hreg
      rw [if_neg (by omega)] at hreg
      exact nomatch (if_pos (not_lt.mp hge)).symm.trans hreg
    obtain ⟨hmajor, -⟩ := nextMajor_eq hlt
    have hmin : next = min to' (nextMajor n) := by
      rw [← hnext]
      split <;> omega
    obtain ⟨hbase, hminorct, hchosen, -⟩ := registerRegion_ok hreg
    obtain ⟨hinv, hnew, hadds⟩ := h.registerRegion (hfits.part (not_le.mp hn) hlt hmin) hreg
    have hcd := hchosen (one_le_iff_ne_zero.mp hfits.major)
    by_cases hlast : to' < nextMajor n
    · rw [registerLoop_end (by omega) (by omega)]
      exact ⟨t1, none, rfl, hinv, nofun⟩
    obtain rfl : next = nextMajor n := by omega
    have hrest := hfits.rest hlt hadds hcd
    obtain ⟨t', r, hrun, hinv', hr⟩ :=
      registerLoop_spec ok hinv hrest (by omega : 0 < fuel ∧ 512 < fuel + nextMajor n / 2 ^ 20)
    refine ⟨t', r, hrun, hinv', fun m e heq => ?_⟩
    obtain ⟨hm, hfresh, hall⟩ := hr m e heq
    have hstep : ∀ x, Part n m x ↔ x = cd ∨ Part (nextMajor n) m x := fun x => by
      obtain ⟨a, b, c⟩ := cd
      obtain rfl : a = n / 2 ^ 20 := hcd
      obtain rfl : b = n % 2 ^ 20 := hbase
      obtain rfl : c = int (nextMajor n - n) := hminorct
      exact part_step hlt (by omega)
    refine ⟨.inr (by omega), fun x hx => ?_, fun x => ?_⟩
    · rcases (hstep x).mp hx with rfl | hx
      · exact hnew
      · exact fun hold => hfresh x hx ((hadds x).mpr (.inr hold))
    · rw [hall, hadds, hstep]
      exact or_assoc.trans or_left_comm

theorem rollBack_spec {m : ℕ} : ∀ {fuel n : ℕ} {t : Table}, Inv t → 0 < fuel ∧ 512 < fuel + n / 2 ^ 20 →
    (m = n ∨ n ≤ m ∧ m % 2 ^ 20 = 0 ∧ m / 2 ^ 20 ≤ 512) →
    ∃ t', rollBack m fuel n t = some t' ∧ Inv t' ∧ ∀ x, Registered t' x ↔ Registered t x ∧ ¬Part n m x
  | 0, _, _, _, hfuel, _ => absurd hfuel.1 (lt_irrefl 0)
  | fuel + 1, n, t, h, hfuel, hm => by
    rw [rollBack]
    split
    · have hlt : n / 2 ^ 20 < 512 := by omega
      obtain ⟨hnext, -⟩ := nextMajor_eq hlt
      obtain ⟨hinv, hreg⟩ := h.unregisterRegion ⟨n / 2 ^ 20, n % 2 ^ 20, int (nextMajor n - n)⟩
      have hleft : 0 < fuel ∧ 512 < fuel + nextMajor n / 2 ^ 20 := by omega
      obtain ⟨t', hrun, hinv', hback⟩ := rollBack_spec (m := m) hinv hleft (by omega)
      refine ⟨t', hrun, hinv', fun x => ?_⟩
      rw [hback, hreg, part_step hlt (by omega), not_or]
      exact and_assoc.trans and_left_comm
    refine ⟨t, rfl, h, fun x => ⟨fun hx => ⟨hx, fun hpart => ?_⟩, And.left⟩⟩
    have := hpart.1
    omega

theorem Inv.registerChrdevRegion {ok : ℕ → Bool} {start count : ℕ} (h : Inv t)
    (hfits : RangeFits t start ((start + count) % 2 ^ 32)) :
    ∃ t' e, registerChrdevRegion ok start count t = some (t', e) ∧ Inv t' ∧
    (e ≠ none → ∀ x, Registered t' x ↔ Registered t x) := by
  have hfuel : 0 < 514 ∧ 512 < 514 + start / 2 ^ 20 := by omega
  obtain ⟨t1, r, hrun, hinv, hr⟩ := registerLoop_spec ok h hfits hfuel
  rw [CharDev.registerChrdevRegion, hrun]
  rcases r with _ | ⟨m, e⟩
  · exact ⟨t1, none, rfl, hinv, fun hne => absurd rfl hne⟩
  obtain ⟨hm, hnew, hadds⟩ := hr m e rfl
  obtain ⟨t', hback, hinv', hall⟩ := rollBack_spec hinv hfuel hm
  refine ⟨t', some e, congrArg (Option.map fun t => (t, some e)) hback, hinv', fun _ x => ?_⟩
  rw [hall, hadds]
  exact ⟨fun hx => hx.1.resolve_right hx.2, fun hx => ⟨.inl hx, fun hpart => hnew x hpart hx⟩⟩

theorem Reached.inv (h : Reached t) : Inv t := by
  induction h with
  | init => exact ⟨fun _ => .nil, nofun⟩
  | register _ hfits hreg ih => exact (ih.registerRegion hfits hreg).inv
  | registerRange _ hfits hreg ih =>
    obtain ⟨_, _, hreg', hinv, -⟩ := ih.registerChrdevRegion hfits
    cases hreg.symm.trans hreg'
    exact hinv
  | unregister _ _ ih => exact (ih.unregisterRegion _).1

/-- In every state of a run whose registrations fit, the chains are sorted and no two ranges of a major
    have a minor in common; a major that is chosen by the table had no range; a range that is taken out
    is the only one to go; and `register_chrdev_region` ends, and leaves the ranges as they were when it
    fails. -/
theorem Reached.regions_disjoint (h : Reached t) :
    (∀ i, (t i).Pairwise fun a b => a.major < b.major ∨ a.major = b.major ∧ a.baseminor ≤ b.baseminor) ∧
    (∀ i, (t i).Pairwise fun a b => a.major = b.major → a.stop ≤ b.baseminor ∨ b.stop ≤ a.baseminor) ∧
    (∀ ok baseminor minorct t' cd, registerRegion ok 0 baseminor minorct t = .ok (t', cd) →
      ∀ old, Registered t old → old.major ≠ cd.major) ∧
    (∀ cd x, Registered (unregisterRegion cd t) x ↔ x ≠ cd ∧ Registered t x) ∧
    ∀ ok start count, RangeFits t start ((start + count) % 2 ^ 32) →
      ∃ t' e, registerChrdevRegion ok start count t = some (t', e) ∧
        (e ≠ none → ∀ x, Registered t' x ↔ Registered t x) := by
  have hinv := h.inv
  refine ⟨fun i => ?_, fun i => (hinv.chain i).imp fun hbefore heq => ?_,
    fun ok b c t' cd hreg => (registerRegion_ok hreg).2.2.2.1 rfl,
    fun cd x => (hinv.unregisterRegion cd).2 x, fun ok start count hfits => ?_⟩
  · refine (hinv.chain i).imp_of_mem fun {a b} ha _ hbefore => ?_
    have hpos := (hinv.entry i a ha).2.1
    rw [Before, CharDeviceStruct.stop] at hbefore
    omega
  · rw [Before] at hbefore
    omega
  · obtain ⟨t', e, hreg, -, hall⟩ := hinv.registerChrdevRegion hfits
    exact ⟨t', e, hreg, hall⟩

/-- A registration in a run, with what is registered then. -/
theorem Reached.adds {ok : Bool} (h : Reached t) (hfits : Fits t major baseminor minorct)
    (hreg : registerRegion ok major baseminor minorct t = .ok (t', cd)) :
    Reached t' ∧ ∀ x, Registered t' x ↔ x = cd ∨ Registered t x :=
  ⟨h.register hfits hreg, (h.inv.registerRegion hfits hreg).registered⟩

/-- Three ranges of major 10 and one of major 12. A range from the last two minors of major 11 to the
    first five of major 12 is refused when the first part of it is registered, and that is undone. -/
theorem regions_disjoint_rollBack : ∃ t t', Reached t' ∧
    t 10 = [⟨10, 2, 3⟩, ⟨10, 5, 1⟩, ⟨10, 20, 5⟩] ∧ t 12 = [⟨12, 3, 2⟩] ∧
    registerChrdevRegion (fun _ => true) (12 * 2 ^ 20 - 2) 7 t = some (t', some .ebusy) ∧
    ∀ x, Registered t' x ↔ Registered t x := by
  have hfits : ∀ {t : Table} {major baseminor : ℕ} {minorct : ℤ}, 0 < minorct ∧
    baseminor + minorct ≤ 2 ^ 31 ∧
    (∀ old ∈ t (majorToIndex major), ¬(baseminor < old.baseminor ∧ old.stop < baseminor + minorct)) →
    Fits t major baseminor minorct := fun ⟨hpos, hle, h⟩ =>
    ⟨hpos, hle, fun old hold heq => h old (by rwa [Registered, heq] at hold)⟩
  obtain ⟨h1, hr1⟩ := Reached.init.adds (hfits (by decide))
    (rfl : registerRegion true 10 5 1 _ = .ok (_, ⟨10, 5, 1⟩))
  obtain ⟨h2, hr2⟩ := h1.adds (hfits (by decide))
    (rfl : registerRegion true 10 20 5 _ = .ok (_, ⟨10, 20, 5⟩))
  obtain ⟨h3, hr3⟩ := h2.adds (hfits (by decide))
    (rfl : registerRegion true 10 2 3 _ = .ok (_, ⟨10, 2, 3⟩))
  obtain ⟨h4, hr4⟩ := h3.adds (hfits (by decide))
    (rfl : registerRegion true 12 3 2 _ = .ok (_, ⟨12, 3, 2⟩))
  obtain ⟨t, ht, hold, h10, h12, hbusy⟩ : ∃ t, Reached t ∧
      (∀ x, Registered t x → x.major = 10 ∨ x = ⟨12, 3, 2⟩) ∧
      t 10 = [⟨10, 2, 3⟩, ⟨10, 5, 1⟩, ⟨10, 20, 5⟩] ∧ t 12 = [⟨12, 3, 2⟩] ∧
      (registerChrdevRegion (fun _ => true) (12 * 2 ^ 20 - 2) 7 t).map Prod.snd =
      some (some .ebusy) := by
    refine ⟨_, h4, fun x hx => ?_, rfl, rfl, by decide +kernel⟩
    rw [hr4, hr3, hr2, hr1] at hx
    rcases hx with rfl | rfl | rfl | rfl | hx
    · exact .inr rfl
    · exact .inl rfl
    · exact .inl rfl
    · exact .inl rfl
    · exact nomatch hx
  have hrange : RangeFits t (12 * 2 ^ 20 - 2) ((12 * 2 ^ 20 - 2 + 7) % 2 ^ 32) := by
    refine ⟨by decide, fun x hx hge hin => ?_⟩
    rcases hold x hx with heq | rfl
    · omega
    · simp [stop] at hin
  obtain ⟨t', e, hreg, hall⟩ := ht.regions_disjoint.2.2.2.2 (fun _ => true) _ _ hrange
  rw [hreg] at hbusy
  obtain rfl : e = some .ebusy := Option.some.inj hbusy
  exact ⟨t, t', ht.registerRange hrange hreg, h10, h12, hreg, hall (by simp)⟩

/-- Minor 5 of major 10 is registered, and then the minors 0 to 9. -/
theorem register_contains : ∃ t t' a b, registerRegion true 10 5 1 (fun _ => []) = .ok (t, a) ∧
    registerRegion true 10 0 10 t = .ok (t', b) ∧ Registered t' a ∧ Registered t' b ∧ a.major = b.major ∧
    b.baseminor < a.stop ∧ a.baseminor < b.stop :=
  ⟨_, _, _, _, rfl, rfl, mem_cons_of_mem _ mem_cons_self, mem_cons_self, rfl, by decide, by decide⟩

end LinuxNote.CharDev
