import GraphZeppelin.MC.FilterSfEdges

namespace GraphZeppelin.MC.Filter
open Boruvka CC LockedUpdates SortedRuns

variable {n T : ℕ} {edges : List (Edge n)} {v : Fin n} {b : ℕ}

abbrev runLo (edges : List (Edge n)) (v : Fin n) : ℕ := lo Edge.src edges v

abbrev runHi (edges : List (Edge n)) (v : Fin n) : ℕ := hi Edge.src edges v

theorem runHi_le (edges : List (Edge n)) (v : Fin n) : runHi edges v ≤ edges.length :=
  hi_le_length Edge.src edges v

theorem runHi_le_runLo (edges : List (Edge n)) {v w : Fin n} (h : v < w) :
    runHi edges v ≤ runLo edges w := hi_le_lo Edge.src edges h

theorem src_eq_iff (hs : Sorted Edge.src edges) {k : ℕ} (hk : k < edges.length) :
    edges[k].src = v ↔ runLo edges v ≤ k ∧ k < runHi edges v := key_eq_iff hs hk

def Crosses (edges : List (Edge n)) (b : ℕ) (v : Fin n) : Prop :=
  (entryBefore edges b).map Edge.src = some v ∧ (edges[b]?).map Edge.src = some v

instance : Decidable (Crosses edges b v) := inferInstanceAs (Decidable (_ ∧ _))

theorem getElem?_src (hs : Sorted Edge.src edges) {k : ℕ} :
    (edges[k]?).map Edge.src = some v ↔ runLo edges v ≤ k ∧ k < runHi edges v := by
  by_cases hk : k < edges.length
  · rw [List.getElem?_eq_getElem hk,Option.map_some,Option.some_inj,src_eq_iff hs hk]
  · have hle := runHi_le edges v
    rw [List.getElem?_eq_none (not_lt.mp hk)]
    exact iff_of_false (fun h => by cases h) (by omega)

theorem crosses_iff (hs : Sorted Edge.src edges) :
    Crosses edges b v ↔ runLo edges v < b ∧ b < runHi edges v := by
  cases b with
  | zero => exact iff_of_false (fun h => by cases h.1) fun h => Nat.not_lt_zero _ h.1
  | succ b =>
    rw [Crosses,entryBefore,getElem?_src hs,getElem?_src hs]
    omega

theorem Crosses.unique {w : Fin n} (h : Crosses edges b v) (h' : Crosses edges b w) : v = w :=
  Option.some.inj (h.2.symm.trans h'.2)

theorem getElem_src (hs : Sorted Edge.src edges) {k : ℕ} (hlo : runLo edges v ≤ k)
    (hhi : k < runHi edges v) : ∃ edge, edges[k]? = some edge ∧ edge.src = v := by
  have h := (getElem?_src hs).mpr ⟨hlo,hhi⟩
  exact Option.map_eq_some_iff.mp h

theorem moveStart_eq (hs : Sorted Edge.src edges) (m : ℕ) {start : ℕ}
    (hlo : runLo edges v ≤ start) (hm : start + m = runHi edges v) :
    moveStart v (edges.drop start) start = ((List.range' start m).flatMap (updateAt edges),
      if runHi edges v < edges.length then some (runHi edges v) else none) := by
  induction m generalizing start with
  | zero =>
    obtain rfl : start = runHi edges v := hm
    by_cases hlt : runHi edges v < edges.length
    · have hne : edges[runHi edges v].src ≠ v := fun h =>
        absurd ((src_eq_iff hs hlt).mp h).2 (lt_irrefl _)
      rw [List.drop_eq_getElem_cons hlt,moveStart,if_neg hne,if_pos hlt]
      rfl
    · rw [List.drop_of_length_le (not_lt.mp hlt),if_neg hlt]
      rfl
  | succ m ih =>
    obtain ⟨edge,hget,hsrc⟩ := getElem_src hs hlo (by omega)
    obtain ⟨hk,hedge⟩ := List.getElem?_eq_some_iff.mp hget
    rw [List.drop_eq_getElem_cons hk,hedge,moveStart,if_pos hsrc,
      ih (Nat.le_succ_of_le hlo) (by omega),List.range'_succ,List.flatMap_cons,updateAt,hget]

theorem moveStop_eq (hs : Sorted Edge.src edges) (m : ℕ) {stop : ℕ}
    (hm : runLo edges v + m = stop) (hhi : stop ≤ runHi edges v) :
    moveStop edges v stop = ((List.range' (runLo edges v) m).reverse.flatMap (updateAt edges),
      if 0 < runLo edges v then some (runLo edges v) else none) := by
  induction m generalizing stop with
  | zero =>
    obtain rfl : runLo edges v = stop := hm
    generalize hlo : runLo edges v = k at hhi
    cases k with
    | zero => rfl
    | succ k =>
      have hk : k < edges.length := by
        have hle := runHi_le edges v
        omega
      have hne : edges[k].src ≠ v := fun h => by
        have hk' := ((src_eq_iff hs hk).mp h).1
        omega
      rw [moveStop,List.getElem?_eq_getElem hk]
      simp only [if_neg hne]
      rfl
  | succ m ih =>
    obtain rfl : runLo edges v + m + 1 = stop := hm
    obtain ⟨edge,hget,hsrc⟩ := getElem_src hs (Nat.le_add_right (runLo edges v) m) (by omega)
    rw [moveStop,hget]
    simp only [if_pos hsrc]
    rw [ih rfl (by omega),List.range'_concat,List.reverse_append,List.reverse_singleton,
      List.singleton_append,List.flatMap_cons,Nat.one_mul,updateAt,hget]

def entry (edges : List (Edge n)) (v : Fin n) (k : ℕ) : Multiset (Edge n) :=
  Multiset.filter (·.src = v) (edges[k]?).toList

def run (edges : List (Edge n)) (v : Fin n) : Multiset (Edge n) :=
  Multiset.filter (·.src = v) edges

theorem sum_entry (hs : Sorted Edge.src edges) (v : Fin n) (a b : ℕ) :
    ∑ k ∈ Finset.Ico a b, entry edges v k =
      ∑ k ∈ Finset.Ico (max a (runLo edges v)) (min b (runHi edges v)), entry edges v k := by
  refine (Finset.sum_subset (Finset.Ico_subset_Ico (le_max_left _ _) (min_le_left _ _)) ?_).symm
  intro k hk hno
  rw [Finset.mem_Ico] at hk
  refine Multiset.filter_eq_nil.mpr fun edge hedge hsrc => hno ?_
  have hget : edges[k]? = some edge := Option.mem_toList.mp hedge
  obtain ⟨hlo,hhi⟩ := (getElem?_src hs).mp (by rw [hget,Option.map_some,hsrc])
  exact Finset.mem_Ico.mpr ⟨max_le hk.1 hlo,lt_min hk.2 hhi⟩

theorem sum_entry_length (edges : List (Edge n)) (v : Fin n) :
    ∑ k ∈ Finset.range edges.length, entry edges v k = run edges v := by
  induction edges with
  | nil => rfl
  | cons edge edges ih =>
    rw [List.length_cons,Finset.sum_range_succ']
    have hshift : ∑ k ∈ Finset.range edges.length, entry (edge :: edges) v (k + 1) =
        run edges v := ih
    rw [hshift,run,run,← Multiset.cons_coe,Multiset.filter_cons,add_comm]
    congr 1
    simp [entry,Multiset.filter_singleton]

theorem sum_run (hs : Sorted Edge.src edges) (v : Fin n) :
    ∑ k ∈ Finset.Ico (runLo edges v) (runHi edges v), entry edges v k = run edges v := by
  rw [← sum_entry_length,Finset.range_eq_Ico,sum_entry hs v 0,Nat.zero_max,
    min_eq_right (runHi_le edges v)]

theorem sum_range' (edges : List (Edge n)) (v : Fin n) (a m : ℕ) :
    ((List.range' a m).map (entry edges v)).sum = ∑ k ∈ Finset.Ico a (a + m), entry edges v k := by
  induction m with
  | zero => simp
  | succ m ih =>
    rw [List.range'_concat,List.map_append,List.sum_append,ih,← Nat.add_assoc,
      Finset.sum_Ico_succ_top (Nat.le_add_right a m),Nat.one_mul,List.map_singleton,
      List.sum_singleton]

theorem stores_updateAt (edges : List (Edge n)) (v : Fin n) (k : ℕ) :
    Multiset.filter (·.src = v) (stores (updateAt edges k) : Multiset (Edge n)) =
      entry edges v k := by
  rw [updateAt,entry]
  cases edges[k]? <;> rfl

theorem stores_flatMap (edges : List (Edge n)) (v : Fin n) (ks : List ℕ) :
    Multiset.filter (·.src = v) (stores (ks.flatMap (updateAt edges)) : Multiset (Edge n)) =
      (ks.map (entry edges v)).sum := by
  induction ks with
  | nil => rfl
  | cons k ks ih =>
    rw [List.flatMap_cons,stores_append,← Multiset.coe_add,Multiset.filter_add,ih,
      stores_updateAt,List.map_cons,List.sum_cons]

theorem bracketed_flatMap {own : Fin n → Prop} {held : Option (Fin n)} {ks : List ℕ}
    (h : ∀ k ∈ ks, ∃ edge, edges[k]? = some edge ∧ (held = some edge.src ∨ own edge.src)) :
    Bracketed (·.src) own held (ks.flatMap (updateAt edges)) held := by
  induction ks with
  | nil => exact .nil held
  | cons k ks ih =>
    obtain ⟨edge,hget,hown⟩ := h k List.mem_cons_self
    rw [List.flatMap_cons,updateAt,hget]
    exact .update hown (ih fun k' hk' => h k' (List.mem_cons_of_mem _ hk'))

end GraphZeppelin.MC.Filter
