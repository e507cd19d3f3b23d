import LinuxNote.Lib.ThreadedQueue
import LinuxNote.SwapSlots.Basic

/-! `cluster_info` and `free_clusters` keep the count of each cluster, and the clusters without a used
slot. -/

namespace LinuxNote.SwapSlots
open List Config Function

open ThreadedQueue

/-- What an end of a list points at. -/
def SwapClusterInfo.next? (c : SwapClusterInfo) : Option ℕ :=
  if c.flags = .nextNull then none else some c.data

theorem SwapClusterInfo.data_eq {c : SwapClusterInfo} {i : ℕ} (h : c.next? = some i) : c.data = i := by
  rw [next?] at h
  split at h
  · cases h
  · exact Option.some.inj h

namespace Clusters

variable {cs cs' : Clusters} {n idx c : ℕ} {count : ℕ → ℕ} {l : List ℕ}

/-- The `n` clusters have `count` used slots, and `free_clusters` holds `l`. -/
structure Tracks (cs : Clusters) (n : ℕ) (count : ℕ → ℕ) (l : List ℕ) : Prop where
  queue : Queued (fun i => (cs.info i).data) cs.free.head.next? cs.free.tail.next? l
  mem_iff : ∀ i, i ∈ l ↔ i < n ∧ (cs.info i).flags = .free
  free_iff : ∀ i < n, (cs.info i).flags = .free ↔ count i = 0
  count_eq : ∀ i < n, (cs.info i).flags ≠ .free → (cs.info i).data = count i

theorem isEmpty_iff {next : ℕ → ℕ} (h : Queued next cs.free.head.next? cs.free.tail.next? l) :
    cs.free.isEmpty = true ↔ l = [] := by
  rw [← head?_eq_none_iff, ← h.head_eq, SwapClusterInfo.next?, SwapClusterList.isEmpty]
  simp

theorem Tracks.isEmpty_iff (h : cs.Tracks n count l) : cs.free.isEmpty = true ↔ l = [] :=
    Clusters.isEmpty_iff h.queue

theorem Tracks.first_eq (h : cs.Tracks n count (idx :: l)) :
    cs.free.head.next? = some idx ∧ cs.free.first = idx :=
  ⟨h.queue.head_eq, SwapClusterInfo.data_eq h.queue.head_eq⟩

section
variable (h : cs.Tracks n count l) (hidx : idx < n)
include h hidx

/-- One cluster has changed. The links of free clusters may have too. -/
theorem Tracks.update {l' : List ℕ} (hflags : ∀ i ≠ idx, (cs'.info i).flags = (cs.info i).flags)
    (hdata : ∀ i ≠ idx, (cs.info i).flags ≠ .free → (cs'.info i).data = (cs.info i).data)
    (hfree : (cs'.info idx).flags = .free ↔ c = 0)
    (hcount : (cs'.info idx).flags ≠ .free → (cs'.info idx).data = c)
    (hqueue : Queued (fun i => (cs'.info i).data) cs'.free.head.next? cs'.free.tail.next? l')
    (hmem : ∀ i ≠ idx, i ∈ l' ↔ i ∈ l) (hself : idx ∈ l' ↔ (cs'.info idx).flags = .free) :
    cs'.Tracks n (update count idx c) l' := by
  refine ⟨hqueue, fun i => ?_, fun i hi => ?_, fun i hi hne => ?_⟩ <;> by_cases heq : i = idx
  · rw [heq, hself, and_iff_right hidx]
  · rw [hmem i heq, h.mem_iff, hflags i heq]
  · rw [heq, update_self, hfree]
  · rw [hflags i heq, update_of_ne heq, h.free_iff i hi]
  · rw [heq] at hne ⊢
    rw [update_self, hcount hne]
  rw [hflags i heq] at hne
  rw [update_of_ne heq, hdata i heq hne, h.count_eq i hi hne]

/-- A cluster with used slots is not on the list. -/
theorem Tracks.put {l' : List ℕ} {list : SwapClusterList} {f : ClusterFlag}
    (hqueue : Queued (fun i => (cs.info i).data) list.head.next? list.tail.next? l') (hnotin : idx ∉ l')
    (hmem : ∀ i ≠ idx, i ∈ l' ↔ i ∈ l) (hf : f ≠ .free) (hc : c ≠ 0) :
    Tracks ⟨Function.update cs.info idx ⟨c, f⟩, list⟩ n (Function.update count idx c) l' := by
  refine h.update hidx (fun i hi => ?_) (fun i hi _ => ?_) ?_ (fun _ => ?_)
    (hqueue.congr fun i hi => ?_) hmem ?_
  · simp only [Function.update_of_ne hi]
  · simp only [Function.update_of_ne hi]
  · simp only [update_self]
    exact iff_of_false hf hc
  · simp only [update_self]
  · have hne : i ≠ idx := by
      rintro rfl
      exact hnotin hi
    simp only [update_of_ne hne]
  · simp only [update_self]
    exact iff_of_false hnotin hf

/-- A cluster gets another count, neither before nor after none. -/
theorem Tracks.set (hfree : (cs.info idx).flags ≠ .free) (hc : c ≠ 0) :
    Tracks { cs with info := Function.update cs.info idx { cs.info idx with data := c } } n
      (Function.update count idx c) l :=
  h.put hidx h.queue (fun hmem => hfree ((h.mem_iff idx).mp hmem).2) (fun _ _ => .rfl) hfree hc

end

/-- `cluster_list_del_first` -/
theorem Tracks.delFirst (h : cs.Tracks n count (idx :: l)) :
    Queued (fun i => (cs.info i).data) (cs.free.delFirst cs.info).head.next?
      (cs.free.delFirst cs.info).tail.next? l := by
  obtain ⟨hhead, hfirst⟩ := h.first_eq
  have hdata : cs.free.head.data = idx := hfirst
  obtain ⟨t, ht⟩ : ∃ t, cs.free.tail.next? = some t := ⟨_, h.queue.tail_eq.trans getLast?_cons⟩
  have hq := h.queue
  rw [hhead, ht] at hq
  rw [SwapClusterList.delFirst, SwapClusterInfo.data_eq ht, hdata]
  split
  · next heq =>
    rw [heq] at hq
    obtain rfl : l = [] := (cons.inj hq.pop_last).2
    exact queued_nil
  next hne =>
  obtain ⟨l', heq, hq'⟩ := hq.pop (by simpa using hne)
  obtain rfl : l = l' := (cons.inj heq).2
  rw [← ht] at hq'
  exact hq'

/-- The first free cluster is taken off the list. -/
theorem Tracks.take (h : cs.Tracks n count (idx :: l)) (hc : c ≠ 0) {f : ClusterFlag} (hf : f ≠ .free) :
    cs.allocCluster idx = .ok ⟨Function.update cs.info idx ⟨0, .clear⟩, cs.free.delFirst cs.info⟩ ∧
    Tracks ⟨Function.update cs.info idx ⟨c, f⟩, cs.free.delFirst cs.info⟩ n
    (Function.update count idx c) l := by
  have hnotin : idx ∉ l := (nodup_cons.mp h.queue.nodup).1
  have hidx : idx < n := ((h.mem_iff idx).mp mem_cons_self).1
  refine ⟨by rw [allocCluster, if_neg (not_not.mpr h.first_eq.2)],
    h.put hidx h.delFirst hnotin (fun i hi => ?_) hf hc⟩
  rw [mem_cons, or_iff_right hi]

/-- `cluster_list_add_tail` -/
theorem addTail_queued (h : Queued (fun i => (cs.info i).data) cs.free.head.next? cs.free.tail.next? l)
    (hnotin : idx ∉ l) (ci : ℕ → SwapClusterInfo) (hci : ∀ i ∈ l, ci i = cs.info i) :
    Queued (fun i => ((cs.free.addTail ci idx).2 i).data) (cs.free.addTail ci idx).1.head.next?
    (cs.free.addTail ci idx).1.tail.next? (l ++ [idx]) ∧
    (∀ i, ((cs.free.addTail ci idx).2 i).flags = (ci i).flags) ∧ ∀ i ∉ l,
    (cs.free.addTail ci idx).2 i = ci i := by
  rw [SwapClusterList.addTail]
  split
  · next hempty =>
    obtain rfl := (isEmpty_iff h).mp hempty
    exact ⟨⟨nodup_singleton _, rfl, rfl, isChain_singleton _⟩, fun _ => rfl, fun _ _ => rfl⟩
  next hne =>
  have hl : l ≠ [] := mt (isEmpty_iff h).mpr hne
  -- the link of the last one
  obtain ⟨t, ht, htmem⟩ : ∃ t, cs.free.tail.next? = some t ∧ t ∈ l :=
    ⟨_, h.tail_eq.trans (getLast?_eq_some_getLast hl), getLast_mem hl⟩
  have htdata := SwapClusterInfo.data_eq ht
  have hq : Queued (fun i => (ci i).data) cs.free.head.next? (some t) l := by
    rw [← ht]
    exact h.congr fun i hi => by rw [hci i hi]
  refine ⟨?_, fun i => ?_, fun i hi => ?_⟩
  · refine (hq.push hnotin).congr fun i _ => ?_
    by_cases hi : i = t
    · simp only [hi, htdata, update_self]
    · simp only [htdata, update_of_ne hi]
  · by_cases hi : i = t
    · simp only [hi, htdata, update_self]
    · simp only [htdata, update_of_ne hi]
  have hne : i ≠ t := by
    rintro rfl
    exact hi htmem
  simp only [htdata, update_of_ne hne]

/-- A cluster that has lost its last used slot goes to the end of the list. -/
theorem Tracks.give (h : cs.Tracks n count l) (hidx : idx < n) (hfree : (cs.info idx).flags ≠ .free)
    {f : ClusterFlag} : ∃ cs', Clusters.freeCluster ⟨Function.update cs.info idx ⟨0, f⟩, cs.free⟩ idx =
      .ok cs' ∧ cs'.Tracks n (Function.update count idx 0) (l ++ [idx]) := by
  have hnotin : idx ∉ l := fun hmem => hfree ((h.mem_iff idx).mp hmem).2
  simp only [freeCluster, Function.update_self, Function.update_idem]
  rw [if_neg (by simp)]
  refine ⟨_, rfl, ?_⟩
  obtain ⟨hqueue, hflags, hout⟩ :=
    addTail_queued h.queue hnotin (Function.update cs.info idx ⟨0, .free⟩) fun i hi =>
    Function.update_of_ne (by rintro rfl; exact hnotin hi) _ _
  refine h.update hidx (fun i hi => ?_) (fun i hi hne => ?_) ?_ (fun hne => ?_) hqueue
    (fun i hi => ?_) ?_
  · rw [hflags, update_of_ne hi]
  · simp only [hout i fun hmem => hne ((h.mem_iff i).mp hmem).2, update_of_ne hi]
  · rw [hflags, update_self]
    exact iff_of_true rfl rfl
  · rw [hflags, update_self] at hne
    exact absurd rfl hne
  · rw [mem_append, mem_singleton, or_iff_left hi]
  rw [hflags, update_self]
  exact iff_of_true (by simp) rfl

/-! ### The list at the start -/

/-- A cluster without a used slot is put on the list. -/
def setupCluster (count : ℕ → ℕ) (cs : Clusters) (idx : ℕ) : Clusters :=
  if count idx ≠ 0 then cs
  else
    let (list, ci) := cs.free.addTail (update cs.info idx { cs.info idx with flags := .free }) idx
    ⟨ci, list⟩

/-- The end of `setup_swap_map_and_extents`, which looks at the clusters in some order. -/
def setup (count : ℕ → ℕ) (order : List ℕ) : Clusters :=
  order.foldl (setupCluster count) ⟨fun idx => ⟨count idx, .clear⟩, ⟨clusterNull, clusterNull⟩⟩

/-- The list is `l` so far; all other clusters have their counts. -/
structure Listed (cs : Clusters) (count : ℕ → ℕ) (l : List ℕ) : Prop where
  queue : Queued (fun i => (cs.info i).data) cs.free.head.next? cs.free.tail.next? l
  free_iff : ∀ i, (cs.info i).flags = .free ↔ i ∈ l
  data_eq : ∀ i ∉ l, (cs.info i).data = count i

theorem Listed.setupCluster (h : cs.Listed count l) (hidx : idx ∉ l) :
    (cs.setupCluster count idx).Listed count (l ++ [idx].filter fun i => count i = 0) := by
  rw [Clusters.setupCluster]
  by_cases hcount : count idx = 0
  · obtain ⟨hqueue, hflags, hout⟩ := addTail_queued h.queue hidx
      (update cs.info idx { cs.info idx with flags := .free }) fun i hi =>
        update_of_ne (by rintro rfl; exact hidx hi) _ _
    rw [if_neg (not_not.mpr hcount), filter_cons_of_pos (by simpa using hcount), filter_nil]
    refine ⟨hqueue, fun i => ?_, fun i hi => ?_⟩
    · rw [mem_append, mem_singleton, hflags]
      by_cases heq : i = idx
      · rw [heq, update_self]
        exact iff_of_true rfl (.inr rfl)
      · rw [update_of_ne heq, h.free_iff, or_iff_left heq]
    · rw [mem_append, mem_singleton, not_or] at hi
      simp only [hout i hi.1, update_of_ne hi.2, h.data_eq i hi.1]
  · rw [if_pos hcount, filter_cons_of_neg (by simpa using hcount), filter_nil, append_nil]
    exact h

theorem Listed.foldl {order : List ℕ} (h : cs.Listed count l) (hnodup : order.Nodup)
    (hnotin : ∀ i ∈ order, i ∉ l) : (order.foldl (Clusters.setupCluster count) cs).Listed count
    (l ++ order.filter fun i => count i = 0) := by
  induction order generalizing cs l with
  | nil =>
    rw [filter_nil, append_nil]
    exact h
  | cons idx order ih =>
    obtain ⟨hidx, hnodup⟩ := nodup_cons.mp hnodup
    have hstep := ih (h.setupCluster (hnotin idx mem_cons_self)) hnodup fun i hi hmem => by
      rcases mem_append.mp hmem with hmem | hmem
      · exact hnotin i (mem_cons_of_mem idx hi) hmem
      rw [mem_singleton.mp (mem_of_mem_filter hmem)] at hi
      exact hidx hi
    rw [append_assoc, ← filter_append] at hstep
    exact hstep

theorem setup_tracks {order : List ℕ} (hnodup : order.Nodup) (horder : ∀ i, i ∈ order ↔ i < n) :
    (setup count order).Tracks n count (order.filter fun i => count i = 0) := by
  have hstart : Listed ⟨fun idx => ⟨count idx, .clear⟩, ⟨clusterNull, clusterNull⟩⟩ count [] :=
    ⟨queued_nil, by simp, by simp⟩
  have h := hstart.foldl hnodup (by simp)
  rw [nil_append] at h
  have hmem : ∀ i, i ∈ (order.filter fun i => count i = 0) ↔ i < n ∧ count i = 0 := by
    intro i
    rw [mem_filter, horder, decide_eq_true_eq]
  refine ⟨h.queue, fun i => ?_, fun i hi => ?_, fun i _ hne => h.data_eq i (mt (h.free_iff i).mpr hne)⟩
  · rw [setup, h.free_iff, hmem]
    tauto
  · rw [setup, h.free_iff, hmem, and_iff_right hi]

variable [Config]

/-- `inc_cluster_info_page` -/
theorem Tracks.inc {offset : ℕ} (h : cs.Tracks n count l) (hidx : offset / swapfileCluster < n)
    (hlt : count (offset / swapfileCluster) < swapfileCluster)
    (hfirst : (cs.info (offset / swapfileCluster)).flags = .free →
      l.head? = some (offset / swapfileCluster)) :
    ∃ cs' l', cs.incClusterInfoPage offset = .ok cs' ∧ cs'.Tracks n (Function.update count
      (offset / swapfileCluster) (count (offset / swapfileCluster) + 1)) l' := by
  generalize hi : offset / swapfileCluster = idx at hidx hlt hfirst
  rw [incClusterInfoPage, hi]
  by_cases hfree : (cs.info idx).flags = .free
  · obtain ⟨l, rfl⟩ := head?_eq_some_iff.mp (hfirst hfree)
    obtain ⟨halloc, htracks⟩ := h.take Nat.one_ne_zero (f := .clear) (by decide)
    rw [if_pos hfree, halloc, (h.free_iff idx hidx).mp hfree]
    refine ⟨_, l, ?_, htracks⟩
    simp only [update_self, update_idem]
    rw [if_neg (by omega)]
  rw [if_neg hfree]
  have hdata := h.count_eq idx hidx hfree
  refine ⟨_, l, ?_, h.set hidx hfree (Nat.succ_ne_zero _)⟩
  simp only [hdata]
  rw [if_neg (by omega)]

/-- `dec_cluster_info_page` -/
theorem Tracks.dec {offset : ℕ} (h : cs.Tracks n count l) (hidx : offset / swapfileCluster < n)
    (hused : count (offset / swapfileCluster) ≠ 0) :
    ∃ cs' l', cs.decClusterInfoPage offset = .ok cs' ∧ cs'.Tracks n (Function.update count
      (offset / swapfileCluster) (count (offset / swapfileCluster) - 1)) l' := by
  generalize hi : offset / swapfileCluster = idx at hidx hused
  have hfree : (cs.info idx).flags ≠ .free := mt (h.free_iff idx hidx).mp hused
  have hdata := h.count_eq idx hidx hfree
  rw [decClusterInfoPage, hi]
  simp only [hdata, if_neg hused, update_self]
  split
  case isTrue hlast =>
    rw [hlast]
    obtain ⟨cs', hrun, htracks⟩ := h.give hidx hfree (f := (cs.info idx).flags)
    exact ⟨cs', _, hrun, htracks⟩
  case isFalse hlast => exact ⟨_, l, rfl, h.set hidx hfree hlast⟩

end Clusters

end LinuxNote.SwapSlots
