import LinuxNote.SwapCount.Basic
import Mathlib.Logic.Function.Iterate

/-! The slots of a swap area, `mm/swapfile.c`. `scan_swap_map_slots` hands out single slots and
    `swap_alloc_cluster` whole clusters. On a rotating disk the search goes on from the last slot. On a
    solid state disk each CPU fills a cluster of its own, and the clusters without a used slot are on a
    list that is linked through `cluster_info`. -/

namespace LinuxNote.SwapSlots
open Function

open SwapCount (Byte swapHasCache swapMapBad)

class Config where
  /-- `SWAPFILE_CLUSTER` -/
  swapfileCluster : ℕ
  /-- `SWAP_BATCH` -/
  swapBatch : ℤ
  /-- `CONFIG_THP_SWAP` -/
  thpSwap : Bool
  cluster_pos : 0 < swapfileCluster

/-- `LATENCY_LIMIT` -/
def latencyLimit : ℕ := 256

/-- The `VM_BUG_ON`s, and a loop that takes more rounds than it ever should. -/
inductive Bug
  | allocCluster
  | freeCluster
  | incCluster
  | decCluster
  | entryFree
  | rounds
deriving DecidableEq

/-! ### Clusters -/

/-- `flags` of a cluster; the code never sets two of them. -/
inductive ClusterFlag
  | clear
  | free
  | nextNull
  | huge
deriving DecidableEq

/-- `swap_cluster_info`. The `data` of a free cluster is the next one of the list, of another cluster its
    count. -/
structure SwapClusterInfo where
  data : ℕ
  flags : ClusterFlag
deriving DecidableEq

def clusterNull : SwapClusterInfo := ⟨0, .nextNull⟩

structure SwapClusterList where
  head : SwapClusterInfo
  tail : SwapClusterInfo
deriving DecidableEq

namespace SwapClusterList

variable (list : SwapClusterList)

/-- `cluster_list_empty` -/
def isEmpty : Bool := list.head.flags = .nextNull

/-- `cluster_list_first` -/
def first : ℕ := list.head.data

/-- `cluster_list_add_tail` -/
def addTail (ci : ℕ → SwapClusterInfo) (idx : ℕ) : SwapClusterList × (ℕ → SwapClusterInfo) :=
  if list.isEmpty then (⟨⟨idx, .clear⟩, ⟨idx, .clear⟩⟩, ci)
  else
    let tail := list.tail.data
    (⟨list.head, ⟨idx, .clear⟩⟩, update ci tail { ci tail with data := idx })

/-- `cluster_list_del_first`; the index that it returns is `first`. -/
def delFirst (ci : ℕ → SwapClusterInfo) : SwapClusterList :=
  if list.tail.data = list.head.data then ⟨clusterNull, clusterNull⟩
  else ⟨⟨(ci list.head.data).data, .clear⟩, list.tail⟩

end SwapClusterList

/-- `cluster_info` and `free_clusters`. -/
structure Clusters where
  info : ℕ → SwapClusterInfo
  free : SwapClusterList

namespace Clusters

/-- `alloc_cluster` -/
def allocCluster (cs : Clusters) (idx : ℕ) : Except Bug Clusters :=
  if cs.free.first ≠ idx then .error .allocCluster
  else .ok ⟨update cs.info idx ⟨0, .clear⟩, cs.free.delFirst cs.info⟩

/-- `free_cluster` without discard, with `__free_cluster`. -/
def freeCluster (cs : Clusters) (idx : ℕ) : Except Bug Clusters :=
  if (cs.info idx).data ≠ 0 then .error .freeCluster
  else
    let (list, ci) := cs.free.addTail (update cs.info idx { cs.info idx with flags := .free }) idx
    .ok ⟨ci, list⟩

variable [Config]

/-- `inc_cluster_info_page` -/
def incClusterInfoPage (cs : Clusters) (pageNr : ℕ) : Except Bug Clusters :=
  let idx := pageNr / Config.swapfileCluster
  match if (cs.info idx).flags = .free then cs.allocCluster idx else .ok cs with
  | .error b => .error b
  | .ok cs =>
    if Config.swapfileCluster ≤ (cs.info idx).data then .error .incCluster
    else .ok { cs with info := update cs.info idx { cs.info idx with data := (cs.info idx).data + 1 } }

/-- `dec_cluster_info_page` -/
def decClusterInfoPage (cs : Clusters) (pageNr : ℕ) : Except Bug Clusters :=
  let idx := pageNr / Config.swapfileCluster
  if (cs.info idx).data = 0 then .error .decCluster
  else
    let cs := { cs with info := update cs.info idx { cs.info idx with data := (cs.info idx).data - 1 } }
    if (cs.info idx).data = 0 then cs.freeCluster idx else .ok cs

end Clusters

/-! ### The map of the slots -/

/-- What `swap_range_alloc` and `swap_range_free` work on. -/
structure SlotMap where
  swapMap : ℕ → Byte
  max : ℕ
  pages : ℕ
  inusePages : ℕ
  lowestBit : ℕ
  highestBit : ℕ

namespace SlotMap

/-- `b` in the bytes of `n` slots. -/
def fill (m : SlotMap) (offset n : ℕ) (b : Byte) : SlotMap :=
  { m with swapMap := fun s => if offset ≤ s ∧ s < offset + n then b else m.swapMap s }

/-- The first slot without a use in a loop from `start` up to `stop`. -/
def firstFree (m : SlotMap) (start stop : ℕ) : Option ℕ :=
  (List.range' start (stop - start)).find? fun s => m.swapMap s = 0#8

/-- `swap_range_alloc` -/
def swapRangeAlloc (m : SlotMap) (offset nrEntries : ℕ) : SlotMap :=
  let stop := offset + nrEntries - 1
  let lowestBit := if offset = m.lowestBit then m.lowestBit + nrEntries else m.lowestBit
  let highestBit := if stop = m.highestBit then m.highestBit - nrEntries else m.highestBit
  let inusePages := m.inusePages + nrEntries
  if inusePages = m.pages then { m with inusePages, lowestBit := m.max, highestBit := 0 }
  else { m with inusePages, lowestBit, highestBit }

/-- `swap_range_free` -/
def swapRangeFree (m : SlotMap) (offset nrEntries : ℕ) : SlotMap :=
  let stop := offset + nrEntries - 1
  { m with
    lowestBit := if offset < m.lowestBit then offset else m.lowestBit
    highestBit := if m.highestBit < stop then stop else m.highestBit
    inusePages := m.inusePages - nrEntries }

end SlotMap

/-! ### The area -/

structure PercpuCluster where
  index : SwapClusterInfo
  next : ℕ
deriving DecidableEq

/-- `swap_info_struct`. Without `solidState` the area has no `cluster_info`. -/
structure SwapInfo extends SlotMap where
  clusterNext : ℕ
  clusterNr : ℕ
  solidState : Bool
  clusters : Clusters
  percpuCluster : ℕ → PercpuCluster

namespace SwapInfo

variable [Config] (si : SwapInfo)

/-- The test of `scan_swap_map_ssd_cluster_conflict`. -/
def conflict (offset : ℕ) : Bool :=
  let idx := offset / Config.swapfileCluster
  !si.clusters.free.isEmpty && idx != si.clusters.free.first && (si.clusters.info idx).flags == .free

omit [Config] in
def setPercpu (cpu : ℕ) (cluster : PercpuCluster) : SwapInfo :=
  { si with percpuCluster := update si.percpuCluster cpu cluster }

omit [Config] in
/-- `cluster_set_null(&cluster->index)` -/
def dropCluster (cpu : ℕ) : SwapInfo :=
  si.setPercpu cpu { si.percpuCluster cpu with index := clusterNull }

/-- The cluster of the CPU at `new_cluster`, none if there is no free cluster for it either. -/
def cpuCluster (cpu : ℕ) : Option PercpuCluster :=
  let cluster := si.percpuCluster cpu
  if cluster.index.flags = .nextNull then
    if si.clusters.free.isEmpty then none
    else some ⟨si.clusters.free.head, si.clusters.free.first * Config.swapfileCluster⟩
  else some cluster

/-- The rounds of `scan_swap_map_try_ssd_cluster` from `new_cluster`. -/
def tryCluster (cpu : ℕ) : ℕ → SwapInfo → Except Bug (Option ℕ × SwapInfo)
  | 0, _ => .error .rounds
  | rounds + 1, si =>
    match si.cpuCluster cpu with
    | none => .ok (none, si)
    | some cluster =>
      let stop := min si.max ((cluster.index.data + 1) * Config.swapfileCluster)
      match si.firstFree cluster.next stop with
      | none => tryCluster cpu rounds ((si.setPercpu cpu cluster).dropCluster cpu)
      | some tmp => .ok (some tmp, si.setPercpu cpu { cluster with next := tmp + 1 })

/-- `scan_swap_map_try_ssd_cluster` -/
def scanSwapMapTrySsdCluster (cpu : ℕ) : Except Bug (Option ℕ × SwapInfo) := si.tryCluster cpu 2

/-! ### `scan_swap_map_slots` -/

/-- `if (--latency_ration < 0)` of the searches. -/
def tick (latencyRation : ℕ) : ℕ := if latencyRation = 0 then latencyLimit else latencyRation - 1

/-- The variables of `scan_swap_map_slots`, with the slots found so far. -/
structure Scan where
  offset : ℕ
  scanBase : ℕ
  latencyRation : ℕ
  slots : List ℕ

/-- The search for the first empty cluster. -/
def findCluster (si : SwapInfo) : ℕ → ℕ → ℕ → ℕ → Except Bug (Option ℕ × ℕ)
  | 0, _, _, _ => .error .rounds
  | rounds + 1, offset, lastInCluster, latencyRation =>
    if lastInCluster ≤ si.highestBit then
      if si.swapMap offset ≠ 0#8 then
        si.findCluster rounds (offset + 1) (offset + Config.swapfileCluster) (tick latencyRation)
      else if offset =
        lastInCluster then .ok (some (offset - (Config.swapfileCluster - 1)), latencyRation)
      else si.findCluster rounds (offset + 1) lastInCluster (tick latencyRation)
    else .ok (none, latencyRation)

omit [Config] in
/-- The two loops at `scan`: up to `highest_bit`, then from `lowest_bit` up to `scan_base`. -/
def scanOn (st : Scan) : Option Scan :=
  match si.firstFree (st.offset + 1) (si.highestBit + 1) with
  | some offset =>
    some { st with offset := offset, latencyRation := tick^[offset - (st.offset + 1)] st.latencyRation }
  | none =>
    let latencyRation := tick^[si.highestBit - st.offset] st.latencyRation
    match si.firstFree si.lowestBit st.scanBase with
    | some offset =>
      some { st with offset := offset, latencyRation := tick^[offset - si.lowestBit] latencyRation }
    | none => none

/-- `swap_map[offset] = usage`, with `inc_cluster_info_page` and `swap_range_alloc`. -/
def takeSlot (usage : Byte) (offset : ℕ) : Except Bug SwapInfo :=
  let m := (si.toSlotMap.fill offset 1 usage).swapRangeAlloc offset 1
  if si.solidState then
    match si.clusters.incClusterInfoPage offset with
    | .error b => .error b
    | .ok clusters => .ok { si with toSlotMap := m, clusters, clusterNext := offset + 1 }
  else .ok { si with toSlotMap := m, clusterNext := offset + 1 }

/-- The search for the next available slot, none if the call ends here. -/
def nextSlot (cpu : ℕ) (nr : ℤ) (st : Scan) : Except Bug (Option Scan × SwapInfo) :=
  -- with a slot in hand, the last of the latency ration ends the call
  if (st.slots.length : ℤ) = nr ∨ si.highestBit ≤ st.offset ∨ st.latencyRation = 0 then .ok (none, si)
  else
    let latencyRation := st.latencyRation - 1
    if si.solidState then
      match si.scanSwapMapTrySsdCluster cpu with
      | .error b => .error b
      | .ok (none, si) => .ok (none, si)
      | .ok (some offset, si) => .ok (some ⟨offset, offset, latencyRation, st.slots⟩, si)
    else if si.clusterNr ≠ 0 ∧ si.swapMap (st.offset + 1) = 0#8 then
      .ok (some ⟨st.offset + 1, st.scanBase, latencyRation, st.slots⟩,
        { si with clusterNr := si.clusterNr - 1 })
    else .ok (none, si)

/-- Where `scan_swap_map_slots` goes on. -/
inductive Label
  | checks
  | scan
deriving DecidableEq

/-- `scan_swap_map_slots` from a label. At `no_page` and `done` it returns what it has. -/
def scanFrom (cpu : ℕ) (usage : Byte) (nr : ℤ) :
    ℕ → Label → Scan → SwapInfo → Except Bug (List ℕ × SwapInfo)
  | 0, _, _, _ => .error .rounds
  | rounds + 1, .scan, st, si =>
    match si.scanOn st with
    | none => .ok (st.slots, si)
    | some st => scanFrom cpu usage nr rounds .checks st si
  | rounds + 1, .checks, st, si =>
    if si.solidState ∧ si.conflict st.offset then
      let si := si.dropCluster cpu
      if st.slots ≠ [] then .ok (st.slots, si)
      else
        match si.scanSwapMapTrySsdCluster cpu with
        | .error b => .error b
        | .ok (none, si) => scanFrom cpu usage nr rounds .scan st si
        | .ok (some offset, si) =>
          scanFrom cpu usage nr rounds .checks { st with offset, scanBase := offset } si
    else if si.highestBit = 0 then .ok (st.slots, si)
    else
      let st := if si.highestBit <
        st.offset then { st with offset := si.lowestBit, scanBase := si.lowestBit } else st
      if si.swapMap st.offset ≠ 0#8 then
        if st.slots = [] then scanFrom cpu usage nr rounds .scan st si else .ok (st.slots, si)
      else
        match si.takeSlot usage st.offset with
        | .error b => .error b
        | .ok si =>
          let st := { st with slots := st.slots ++ [st.offset] }
          match si.nextSlot cpu nr st with
          | .error b => .error b
          | .ok (none, si) => .ok (st.slots, si)
          | .ok (some st, si) => scanFrom cpu usage nr rounds .checks st si

/-- `scan_swap_map_slots`. Each slot takes one of the latency ration, so that the rounds are bounded. -/
def scanSwapMapSlots (cpu : ℕ) (usage : Byte) (nr : ℤ) : Except Bug (List ℕ × SwapInfo) :=
  let nr := if Config.swapBatch < nr then Config.swapBatch else nr
  let go := scanFrom cpu usage nr (latencyLimit + 4)
  let st : Scan := ⟨si.clusterNext, si.clusterNext, latencyLimit, []⟩
  if si.solidState then
    match si.scanSwapMapTrySsdCluster cpu with
    | .error b => .error b
    | .ok (none, si) => go .scan st si
    | .ok (some offset, si) => go .checks { st with offset, scanBase := offset } si
  else if si.clusterNr = 0 then
    if si.pages - si.inusePages < Config.swapfileCluster then
      go .checks st { si with clusterNr := Config.swapfileCluster - 1 }
    else
      match si.findCluster (si.highestBit + 2) si.lowestBit (si.lowestBit + Config.swapfileCluster - 1)
          latencyLimit with
      | .error b => .error b
      | .ok (some offset, latencyRation) =>
        go .checks ⟨offset, si.lowestBit, latencyRation, []⟩
          { si with clusterNext := offset, clusterNr := Config.swapfileCluster - 1 }
      | .ok (none, latencyRation) =>
        go .checks ⟨si.lowestBit, si.lowestBit, latencyRation, []⟩
          { si with clusterNr := Config.swapfileCluster - 1 }
  else go .checks st { si with clusterNr := si.clusterNr - 1 }

/-! ### Clusters, and back -/

/-- `swap_alloc_cluster` -/
def swapAllocCluster : Except Bug (Option ℕ × SwapInfo) :=
  if Config.thpSwap = false ∨ si.clusters.free.isEmpty then .ok (none, si)
  else
    let idx := si.clusters.free.first
    let offset := idx * Config.swapfileCluster
    match si.clusters.allocCluster idx with
    | .error b => .error b
    | .ok cs =>
      .ok (some offset, { si with
        toSlotMap := (si.toSlotMap.fill offset Config.swapfileCluster swapHasCache).swapRangeAlloc offset
          Config.swapfileCluster
        clusters := { cs with info := update cs.info idx ⟨Config.swapfileCluster, .huge⟩ } })

/-- `swap_free_cluster` -/
def swapFreeCluster (idx : ℕ) : Except Bug SwapInfo :=
  let offset := idx * Config.swapfileCluster
  match { si.clusters with
    info := update si.clusters.info idx ⟨0, .clear⟩ : Clusters }.freeCluster idx with
  | .error b => .error b
  | .ok clusters =>
    .ok { si with
      toSlotMap :=
        (si.toSlotMap.fill offset Config.swapfileCluster 0#8).swapRangeFree offset Config.swapfileCluster
      clusters }

/-- `swap_entry_free` -/
def swapEntryFree (offset : ℕ) : Except Bug SwapInfo :=
  if si.swapMap offset ≠ swapHasCache then .error .entryFree
  else
    let m := (si.toSlotMap.fill offset 1 0#8).swapRangeFree offset 1
    if si.solidState then
      match si.clusters.decClusterInfoPage offset with
      | .error b => .error b
      | .ok clusters => .ok { si with toSlotMap := m, clusters }
    else .ok { si with toSlotMap := m }

end SwapInfo

end LinuxNote.SwapSlots
