import GraphZeppelin.MC.FilterThread

namespace GraphZeppelin.MC.Filter
open Boruvka CC LockedUpdates SortedRuns

variable {n T : ℕ} {edges : List (Edge n)} {v : Fin n} {j t : ℕ}

def boundary (edges : List (Edge n)) (T j : ℕ) : ℕ := cuts .exact edges.length T j

def crossings (edges : List (Edge n)) (T : ℕ) (v : Fin n) : ℕ :=
  ((Finset.range T).filter fun j => Crosses edges (boundary edges T j) v).card

theorem boundary_eq (edges : List (Edge n)) (T j : ℕ) :
    boundary edges T j = Partition.cut edges.length T j := rfl

theorem partition_eq (edges : List (Edge n)) (T j : ℕ) :
    getIthPartition .exact edges.length j T = (boundary edges T j,boundary edges T (j + 1)) := rfl

theorem not_crosses_zero (edges : List (Edge n)) (T : ℕ) : ¬ Crosses edges (boundary edges T 0) v := by
  rw [boundary_eq,Partition.cut_zero]
  exact fun h => absurd h.pos (lt_irrefl 0)

theorem Crosses.lt_length (h : Crosses edges j v) : j < edges.length := by
  obtain ⟨_,hget,_⟩ := Option.map_eq_some_iff.mp h.2
  exact (List.getElem?_eq_some_iff.mp hget).1

theorem not_crosses_last (hT : 0 < T) : ¬ Crosses edges (boundary edges T T) v := by
  rw [boundary_eq,Partition.cut_last hT]
  exact fun h => absurd h.lt_length (lt_irrefl _)

structure Bounded (edges : List (Edge n)) (T : ℕ) : Prop where
  filled : edges.length = 0 ∨ T ≤ edges.length
  inner : ∀ j v, j < T → Crosses edges (boundary edges T j) v →
    0 < runLo edges v ∧ runHi edges v < edges.length

def threadShare (edges : List (Edge n)) (T t : ℕ) (v : Fin n) : Multiset (Edge n) :=
  (if Crosses edges (boundary edges T t) v then
      ∑ k ∈ Finset.Ico (boundary edges T t) (runHi edges v), entry edges v k else 0) +
    ((if Crosses edges (boundary edges T (t + 1)) v then
        ∑ k ∈ Finset.Ico (runLo edges v) (boundary edges T (t + 1)), entry edges v k else 0) +
      if Inside edges (boundary edges T t) (boundary edges T (t + 1)) v then run edges v else 0)

section Ok

variable (hs : Sorted Edge.src edges) (hT : 0 < T)
include hs hT

theorem Bounded.previous (h : Bounded edges T) (ht : t < T) :
    ∃ start, Moved edges (boundary edges T t) (fun _ => boundary edges T t) (runHi edges)
      (runHi edges) (collidePrevious edges (boundary edges T t)) start := by
  refine collidePrevious_moved hs ?_ fun v hv => (h.inner t v ht hv).2
  rw [boundary_eq]
  rcases h.filled with hzero | hle
  · rw [hzero]
    exact .inr (Nat.le_zero.mp (Partition.cut_le hT (le_of_lt ht)))
  · exact .inl ((Partition.cut_lt_succ hT hle t).trans_le (Partition.cut_le hT ht))

theorem Bounded.next (h : Bounded edges T) (ht : t < T) :
    ∃ stop, Moved edges (boundary edges T (t + 1)) (runLo edges) (fun _ => boundary edges T (t + 1))
      (runLo edges) (collideNext edges (boundary edges T (t + 1))) stop := by
  refine collideNext_moved hs ?_ fun v hv => ?_
  · rcases Nat.eq_zero_or_pos edges.length with hzero | hpos
    · exact .inr (by omega)
    · exact .inl (Partition.cut_pos hT hpos t)
  · rcases Nat.lt_or_eq_of_le (Nat.succ_le_of_lt ht) with hlt | rfl
    · exact (h.inner (t + 1) v hlt hv).1
    · exact absurd hv (not_crosses_last hT)

theorem Bounded.threadActions (h : Bounded edges T) (ht : t < T) :
    Bracketed (·.src) (Inside edges (boundary edges T t) (boundary edges T (t + 1))) none
      (threadActions edges T t) none ∧
    ∀ v, Multiset.filter (·.src = v) (stores (threadActions edges T t) : Multiset (Edge n)) =
      threadShare edges T t v := by
  obtain ⟨start,hprev⟩ := h.previous hs hT ht
  obtain ⟨stop,hnext⟩ := h.next hs hT ht
  have hacts : Filter.threadActions edges T t = (collidePrevious edges (boundary edges T t)).1 ++
      ((collideNext edges (boundary edges T (t + 1))).1 ++ mainLoop edges start stop) := by
    rw [Filter.threadActions,partition_eq]
    simp only [hprev.result,hnext.result]
  have hlen : boundary edges T (t + 1) ≤ edges.length := Partition.cut_le hT ht
  rw [hacts]
  refine ⟨(hprev.bracketed _).append ((hnext.bracketed _).append
    (mainLoop_bracketed hs hprev hnext hlen)),fun v => ?_⟩
  rw [stores_append,stores_append,← Multiset.coe_add,← Multiset.coe_add,Multiset.filter_add,
    Multiset.filter_add,hprev.stores,hnext.stores,mainLoop_stores hs hprev hnext]
  rfl

end Ok

section Total

variable (hs : Sorted Edge.src edges) (hT : 0 < T)
include hs hT

theorem inside_zero_of_crosses (hv : Crosses edges (boundary edges T j) v) (t : ℕ) :
    ¬ Inside edges (boundary edges T t) (boundary edges T (t + 1)) v := by
  obtain ⟨hlo,hhi⟩ := (crosses_iff hs).mp hv
  rintro ⟨hstart,hstop⟩
  rcases Nat.lt_or_ge t j with hlt | hge
  · have hmono : boundary edges T (t + 1) ≤ boundary edges T j := Partition.cut_mono hT hlt
    omega
  · have hmono : boundary edges T j ≤ boundary edges T t := Partition.cut_mono hT hge
    omega

theorem inside_iff (hno : ∀ j < T, ¬ Crosses edges (boundary edges T j) v)
    (hne : runLo edges v < runHi edges v) (ht : t < T) :
    Inside edges (boundary edges T t) (boundary edges T (t + 1)) v ↔
      Partition.part edges.length T (runLo edges v) = t := by
  have hlen : runLo edges v < edges.length := hne.trans_le (runHi_le edges v)
  rw [Partition.part_eq_iff hT hlen,← boundary_eq,← boundary_eq,Inside]
  have hnext : ¬ Crosses edges (boundary edges T (t + 1)) v := by
    rcases Nat.lt_or_eq_of_le (Nat.succ_le_of_lt ht) with hlt | rfl
    · exact hno (t + 1) hlt
    · exact not_crosses_last hT
  rw [crosses_iff hs] at hnext
  omega

theorem sum_inside (v : Fin n) :
    ∑ t ∈ Finset.range T,
      (if Inside edges (boundary edges T t) (boundary edges T (t + 1)) v then run edges v else 0) =
      if crossings edges T v = 0 then run edges v else 0 := by
  split
  · next hzero =>
    have hno (j : ℕ) (hj : j < T) : ¬ Crosses edges (boundary edges T j) v := fun hv =>
      Finset.notMem_empty j (Finset.card_eq_zero.mp hzero ▸
        Finset.mem_filter.mpr ⟨Finset.mem_range.mpr hj,hv⟩)
    rcases Nat.lt_or_ge (runLo edges v) (runHi edges v) with hne | hempty
    · have hlen : runLo edges v < edges.length := hne.trans_le (runHi_le edges v)
      rw [Finset.sum_congr rfl fun t ht => if_congr
        (inside_iff hs hT hno hne (Finset.mem_range.mp ht)) rfl rfl,Finset.sum_ite_eq]
      exact if_pos (Finset.mem_range.mpr (Partition.part_lt hT hlen))
    · rw [run_eq_zero hs hempty]
      exact Finset.sum_eq_zero fun t _ => ite_self 0
  · next hpos =>
    obtain ⟨j,hj⟩ := Finset.card_pos.mp (Nat.pos_of_ne_zero hpos)
    exact Finset.sum_eq_zero fun t _ =>
      if_neg (inside_zero_of_crosses hs hT (Finset.mem_filter.mp hj).2 t)

-- each boundary inside the entries of v makes the two threads at it apply all of them
theorem sum_crossed (v : Fin n) :
    ∑ t ∈ Finset.range T,
      ((if Crosses edges (boundary edges T t) v then
          ∑ k ∈ Finset.Ico (boundary edges T t) (runHi edges v), entry edges v k else 0) +
        if Crosses edges (boundary edges T (t + 1)) v then
          ∑ k ∈ Finset.Ico (runLo edges v) (boundary edges T (t + 1)), entry edges v k else 0) =
      crossings edges T v • run edges v := by
  let below (j : ℕ) : Multiset (Edge n) := if Crosses edges (boundary edges T j) v then
    ∑ k ∈ Finset.Ico (runLo edges v) (boundary edges T j), entry edges v k else 0
  have hshift : ∑ t ∈ Finset.range T, below (t + 1) = ∑ t ∈ Finset.range T, below t := by
    have hfirst : below 0 = 0 := if_neg (not_crosses_zero edges T)
    have hlast : below T = 0 := if_neg (not_crosses_last hT)
    have hsum := (Finset.sum_range_succ' below T).symm.trans (Finset.sum_range_succ below T)
    rw [hfirst,hlast,add_zero,add_zero] at hsum
    exact hsum
  rw [Finset.sum_add_distrib,hshift,← Finset.sum_add_distrib,crossings,← Finset.sum_const,
    Finset.sum_filter]
  refine Finset.sum_congr rfl fun t _ => ?_
  simp only [below]
  split
  · next hv =>
    obtain ⟨hlo,hhi⟩ := (crosses_iff hs).mp hv
    rw [add_comm,Finset.sum_Ico_consecutive _ (le_of_lt hlo) (le_of_lt hhi),sum_run hs]
  · exact add_zero 0

theorem sum_threadShare (v : Fin n) :
    ∑ t ∈ Finset.range T, threadShare edges T t v =
      (if crossings edges T v = 0 then 1 else crossings edges T v) • run edges v := by
  simp only [threadShare,← add_assoc]
  rw [Finset.sum_add_distrib,sum_crossed hs hT,sum_inside hs hT]
  split
  · next hzero => rw [hzero,zero_nsmul,zero_add,one_nsmul]
  · exact add_zero _

theorem Bounded.pending (h : Bounded edges T) (v : Fin n) :
    Multiset.filter (·.src = v) (pending fun t : Fin T => Filter.threadActions edges T t) =
      (if crossings edges T v = 0 then 1 else crossings edges T v) • run edges v := by
  rw [← sum_threadShare hs hT,pending_filter,
    ← Fin.sum_univ_eq_sum_range fun t => threadShare edges T t v]
  exact Finset.sum_congr rfl fun t _ => (h.threadActions hs hT t.isLt).2 v

theorem threadShare_of_inside {t t' : ℕ} (ht : t < T) (ht' : t' < T) (hne : t' ≠ t)
    (hin : Inside edges (boundary edges T t) (boundary edges T (t + 1)) v) :
    threadShare edges T t' v = 0 := by
  have hno (j : ℕ) : ¬ Crosses edges (boundary edges T j) v := fun hv =>
    inside_zero_of_crosses hs hT hv t hin
  rw [threadShare,if_neg (hno _),if_neg (hno _),zero_add,zero_add]
  rcases Nat.lt_or_ge (runLo edges v) (runHi edges v) with hlt | hempty
  · have hpart := (inside_iff hs hT (fun j _ => hno j) hlt ht).mp hin
    refine if_neg fun hin' => hne ?_
    exact ((inside_iff hs hT (fun j _ => hno j) hlt ht').mp hin').symm.trans hpart
  · rw [run_eq_zero hs hempty,ite_self]

theorem Bounded.owned (h : Bounded edges T) :
    Owned (·.src) (fun t : Fin T => Inside edges (boundary edges T t) (boundary edges T (t + 1)))
      fun t : Fin T => Filter.threadActions edges T t := by
  intro t v hin t' hne e he hsrc
  have hzero := threadShare_of_inside hs hT t.isLt t'.isLt (fun h => hne (Fin.ext h)) hin
  rw [← (h.threadActions hs hT t'.isLt).2 v] at hzero
  exact Multiset.notMem_zero e (hzero ▸ Multiset.mem_filter.mpr ⟨he,hsrc⟩)

end Total

end GraphZeppelin.MC.Filter
