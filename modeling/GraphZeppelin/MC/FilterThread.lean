import GraphZeppelin.MC.FilterProgram

namespace GraphZeppelin.MC.Filter
open Boruvka CC LockedUpdates SortedRuns

variable {n T : ℕ} {edges : List (Edge n)} {v : Fin n} {b : ℕ}

theorem Crosses.pos (h : Crosses edges b v) : 0 < b := by
  cases b with
  | zero => cases h.1
  | succ b => exact Nat.succ_pos b

theorem collidePrevious_crosses (hs : Sorted Edge.src edges) (h : Crosses edges b v) :
    collidePrevious edges b =
      locked v ((List.range' b (runHi edges v - b)).flatMap (updateAt edges),
        if runHi edges v < edges.length then some (runHi edges v) else none) := by
  obtain ⟨hlo,hhi⟩ := (crosses_iff hs).mp h
  obtain ⟨previous,hprev,hsrc'⟩ := Option.map_eq_some_iff.mp h.1
  obtain ⟨edge,hget,hsrc⟩ := Option.map_eq_some_iff.mp h.2
  rw [collidePrevious,if_pos h.pos,hprev,hget]
  simp only [hsrc,hsrc',if_true]
  rw [moveStart_eq hs (runHi edges v - b) (le_of_lt hlo) (by omega)]

theorem collideNext_crosses (hs : Sorted Edge.src edges) (h : Crosses edges b v) :
    collideNext edges b =
      locked v ((List.range' (runLo edges v) (b - runLo edges v)).reverse.flatMap (updateAt edges),
        if 0 < runLo edges v then some (runLo edges v) else none) := by
  obtain ⟨hlo,hhi⟩ := (crosses_iff hs).mp h
  obtain ⟨previous,hprev,hsrc'⟩ := Option.map_eq_some_iff.mp h.1
  obtain ⟨edge,hget,hsrc⟩ := Option.map_eq_some_iff.mp h.2
  have hlen := (List.getElem?_eq_some_iff.mp hget).1
  rw [collideNext,if_pos hlen,hprev,hget]
  simp only [hsrc,hsrc',if_true]
  rw [moveStop_eq hs (b - runLo edges v) (by omega) (le_of_lt hhi)]

theorem entries_apart (hno : ∀ v, ¬ Crosses edges b v) (hpos : 0 < b) (hlen : b < edges.length) :
    ∃ previous edge, entryBefore edges b = some previous ∧ edges[b]? = some edge ∧
      previous.src ≠ edge.src := by
  obtain ⟨k,rfl⟩ := Nat.exists_eq_succ_of_ne_zero (Nat.ne_of_gt hpos)
  have hget := List.getElem?_eq_getElem hlen
  have hprev := List.getElem?_eq_getElem (Nat.lt_of_succ_lt hlen)
  refine ⟨_,_,hprev,hget,fun hsrc => hno edges[k].src ⟨?_,?_⟩⟩
  · rw [entryBefore,hprev,Option.map_some]
  · rw [hget,Option.map_some,hsrc]

theorem collidePrevious_apart (hno : ∀ v, ¬ Crosses edges b v) (hb : b < edges.length ∨ b = 0) :
    collidePrevious edges b = ([],some b) := by
  rw [collidePrevious]
  split
  · next hpos =>
    obtain ⟨previous,edge,hprev,hget,hne⟩ :=
      entries_apart hno hpos (hb.resolve_right (Nat.ne_of_gt hpos))
    rw [hprev,hget]
    exact if_neg hne.symm
  · rfl

theorem collideNext_apart (hno : ∀ v, ¬ Crosses edges b v) (hb : 0 < b ∨ edges.length ≤ b) :
    collideNext edges b = ([],some b) := by
  rw [collideNext]
  split
  · next hlen =>
    obtain ⟨previous,edge,hprev,hget,hne⟩ :=
      entries_apart hno (hb.resolve_right (not_le.mpr hlen)) hlen
    rw [hprev,hget]
    exact if_neg hne
  · rfl

theorem collidePrevious_past (hpos : 0 < b) (hb : edges.length ≤ b) :
    collidePrevious edges b = ([],none) := by
  rw [collidePrevious,if_pos hpos,List.getElem?_eq_none hb]

structure Moved (edges : List (Edge n)) (b : ℕ) (lo hi dest : Fin n → ℕ)
    (r : List (FilterAction n) × Option ℕ) (i : ℕ) : Prop where
  result : r.2 = some i
  crossed : ∀ v, Crosses edges b v → i = dest v
  apart : (∀ v, ¬ Crosses edges b v) → i = b
  bracketed : ∀ own, Bracketed (·.src) own none r.1 none
  stores : ∀ v, Multiset.filter (·.src = v) (LockedUpdates.stores r.1 : Multiset (Edge n)) =
    if Crosses edges b v then ∑ k ∈ Finset.Ico (lo v) (hi v), entry edges v k else 0

theorem moved_apart (hno : ∀ v, ¬ Crosses edges b v) (lo hi dest : Fin n → ℕ) :
    Moved edges b lo hi dest ([],some b) b :=
  ⟨rfl,fun v h => absurd h (hno v),fun _ => rfl,fun _ => .nil none,fun v => (if_neg (hno v)).symm⟩

theorem moved_locked {lo hi dest : Fin n → ℕ} (hv : Crosses edges b v) {ks : List ℕ}
    (hperm : ks.Perm (List.range' (lo v) (hi v - lo v))) (hle : lo v ≤ hi v)
    (hrun : ∀ k ∈ ks, ∃ edge, edges[k]? = some edge ∧ edge.src = v) :
    Moved edges b lo hi dest (locked v (ks.flatMap (updateAt edges),some (dest v))) (dest v) := by
  have hstores : LockedUpdates.stores (locked v (ks.flatMap (updateAt edges),some (dest v))).1 =
      LockedUpdates.stores (ks.flatMap (updateAt edges)) := by
    rw [locked]
    simp only [LockedUpdates.stores,stores_append,List.append_nil]
  refine ⟨rfl,fun w hw => by rw [hv.unique hw],fun hno => absurd hv (hno v),fun own => ?_,
    fun w => ?_⟩
  · refine .lock ((bracketed_flatMap fun k hk => ?_).append (.unlock (.nil none)))
    obtain ⟨edge,hget,hsrc⟩ := hrun k hk
    exact ⟨edge,hget,.inl (congrArg some hsrc.symm)⟩
  · rw [hstores,stores_flatMap]
    split
    · next hw =>
      obtain rfl := hv.unique hw
      rw [(hperm.map _).sum_eq,sum_range',Nat.add_sub_cancel' hle]
    · next hw =>
      refine List.sum_eq_zero fun m hm => ?_
      obtain ⟨k,hk,rfl⟩ := List.mem_map.mp hm
      obtain ⟨edge,hget,hsrc⟩ := hrun k hk
      rw [entry,hget]
      refine Multiset.filter_eq_nil.mpr fun e he hew => hw ?_
      obtain rfl : edge = e := (List.mem_singleton.mp he).symm
      exact (hsrc.symm.trans hew) ▸ hv

theorem mem_run (hs : Sorted Edge.src edges) {ks : List ℕ} {a m : ℕ}
    (hperm : ks.Perm (List.range' a m)) (hlo : runLo edges v ≤ a) (hhi : a + m ≤ runHi edges v) :
    ∀ k ∈ ks, ∃ edge, edges[k]? = some edge ∧ edge.src = v := by
  intro k hk
  obtain ⟨hak,hkm⟩ := List.mem_range'_1.mp (hperm.mem_iff.mp hk)
  exact getElem_src hs (hlo.trans hak) (by omega)

theorem collidePrevious_moved (hs : Sorted Edge.src edges) (hb : b < edges.length ∨ b = 0)
    (hend : ∀ v, Crosses edges b v → runHi edges v < edges.length) :
    ∃ start, Moved edges b (fun _ => b) (runHi edges) (runHi edges) (collidePrevious edges b)
      start := by
  by_cases hv : ∃ v, Crosses edges b v
  · obtain ⟨v,hv⟩ := hv
    obtain ⟨hlo,hhi⟩ := (crosses_iff hs).mp hv
    refine ⟨runHi edges v,?_⟩
    rw [collidePrevious_crosses hs hv,if_pos (hend v hv)]
    exact moved_locked hv (.refl _) (le_of_lt hhi) (mem_run hs (.refl _) (le_of_lt hlo) (by omega))
  · have hno : ∀ v, ¬ Crosses edges b v := fun v h => hv ⟨v,h⟩
    rw [collidePrevious_apart hno hb]
    exact ⟨b,moved_apart hno _ _ _⟩

theorem collideNext_moved (hs : Sorted Edge.src edges) (hb : 0 < b ∨ edges.length ≤ b)
    (hstart : ∀ v, Crosses edges b v → 0 < runLo edges v) :
    ∃ stop, Moved edges b (runLo edges) (fun _ => b) (runLo edges) (collideNext edges b) stop := by
  by_cases hv : ∃ v, Crosses edges b v
  · obtain ⟨v,hv⟩ := hv
    obtain ⟨hlo,hhi⟩ := (crosses_iff hs).mp hv
    refine ⟨runLo edges v,?_⟩
    rw [collideNext_crosses hs hv,if_pos (hstart v hv)]
    exact moved_locked hv (List.reverse_perm _) (le_of_lt hlo)
      (mem_run hs (List.reverse_perm _) le_rfl (by omega))
  · have hno : ∀ v, ¬ Crosses edges b v := fun v h => hv ⟨v,h⟩
    rw [collideNext_apart hno hb]
    exact ⟨b,moved_apart hno _ _ _⟩

def Inside (edges : List (Edge n)) (start stop : ℕ) (v : Fin n) : Prop :=
  start ≤ runLo edges v ∧ runHi edges v ≤ stop

instance (start stop : ℕ) : Decidable (Inside edges start stop v) :=
  inferInstanceAs (Decidable (_ ∧ _))

section Thread

variable {start stop start' stop' : ℕ} {lo hi lo' hi' : Fin n → ℕ}
  {r r' : List (FilterAction n) × Option ℕ}

theorem Moved.outside (hs : Sorted Edge.src edges) {dest : Fin n → ℕ}
    (hdest : ∀ w, Crosses edges b w → runLo edges w ≤ dest w ∧ dest w ≤ runHi edges w)
    (h : Moved edges b lo hi dest r start') (hne : runLo edges v < runHi edges v)
    (hv : ¬ Crosses edges b v) :
    (b ≤ runLo edges v → start' ≤ runLo edges v) ∧ (runHi edges v ≤ b → runHi edges v ≤ start') := by
  by_cases hw : ∃ w, Crosses edges b w
  · obtain ⟨w,hw⟩ := hw
    have hcross := (crosses_iff hs).mp hw
    have hbounds := hdest w hw
    rw [h.crossed w hw]
    rcases lt_trichotomy v w with hlt | rfl | hlt
    · have hvw := runHi_le_runLo edges hlt
      omega
    · exact absurd hw hv
    · have hwv := runHi_le_runLo edges hlt
      omega
  · rw [h.apart fun w h => hw ⟨w,h⟩]
    exact ⟨id,id⟩

theorem Moved.start_bounds (hs : Sorted Edge.src edges)
    (h : Moved edges start lo hi (runHi edges) r start') (hne : runLo edges v < runHi edges v) :
    (start ≤ runLo edges v → start' ≤ runLo edges v) ∧
      (runLo edges v < start → runHi edges v ≤ start') := by
  have hdest (w : Fin n) (hw : Crosses edges start w) :
      runLo edges w ≤ runHi edges w ∧ runHi edges w ≤ runHi edges w := by
    have hcross := (crosses_iff hs).mp hw
    omega
  have hout := h.outside hs hdest hne
  by_cases hv : Crosses edges start v
  · have hcross := (crosses_iff hs).mp hv
    rw [h.crossed v hv]
    omega
  · have hcross := (crosses_iff hs).not.mp hv
    have hbounds := hout hv
    omega

theorem Moved.stop_bounds (hs : Sorted Edge.src edges)
    (h : Moved edges stop lo hi (runLo edges) r stop') (hne : runLo edges v < runHi edges v) :
    (runHi edges v ≤ stop → runHi edges v ≤ stop') ∧
      (stop < runHi edges v → stop' ≤ runLo edges v) := by
  have hdest (w : Fin n) (hw : Crosses edges stop w) :
      runLo edges w ≤ runLo edges w ∧ runLo edges w ≤ runHi edges w := by
    have hcross := (crosses_iff hs).mp hw
    omega
  have hout := h.outside hs hdest hne
  by_cases hv : Crosses edges stop v
  · have hcross := (crosses_iff hs).mp hv
    rw [h.crossed v hv]
    omega
  · have hcross := (crosses_iff hs).not.mp hv
    have hbounds := hout hv
    omega

theorem Moved.stop_le (hs : Sorted Edge.src edges)
    (h : Moved edges stop lo hi (runLo edges) r stop') : stop' ≤ stop := by
  by_cases hw : ∃ w, Crosses edges stop w
  · obtain ⟨w,hw⟩ := hw
    rw [h.crossed w hw]
    exact le_of_lt ((crosses_iff hs).mp hw).1
  · exact (h.apart fun w h => hw ⟨w,h⟩).le

theorem run_eq_zero (hs : Sorted Edge.src edges) (h : runHi edges v ≤ runLo edges v) :
    run edges v = 0 := by
  rw [← sum_run hs,Finset.Ico_eq_empty (not_lt.mpr h),Finset.sum_empty]

theorem mainLoop_stores (hs : Sorted Edge.src edges)
    (h : Moved edges start lo hi (runHi edges) r start')
    (h' : Moved edges stop lo' hi' (runLo edges) r' stop') (v : Fin n) :
    Multiset.filter (·.src = v) (stores (mainLoop edges start' stop') : Multiset (Edge n)) =
      if Inside edges start stop v then run edges v else 0 := by
  have hIco : start' + (stop' - start') = max start' stop' := by omega
  rw [mainLoop,stores_flatMap,sum_range',sum_entry hs,hIco]
  rcases Nat.lt_or_ge (runLo edges v) (runHi edges v) with hne | hempty
  · have hstart := h.start_bounds hs hne
    have hstop := h'.stop_bounds hs hne
    split
    · next hin =>
      have hlo := hstart.1 hin.1
      have hhi := hstop.1 hin.2
      rw [max_eq_right hlo,min_eq_right (hhi.trans (le_max_right _ _)),sum_run hs]
    · next hout =>
      refine (Finset.sum_congr (Finset.Ico_eq_empty ?_) fun _ _ => rfl).trans Finset.sum_empty
      unfold Inside at hout
      omega
  · rw [run_eq_zero hs hempty,ite_self,Finset.Ico_eq_empty (by omega),Finset.sum_empty]

theorem mainLoop_bracketed (hs : Sorted Edge.src edges)
    (h : Moved edges start lo hi (runHi edges) r start')
    (h' : Moved edges stop lo' hi' (runLo edges) r' stop') (hstop : stop ≤ edges.length) :
    Bracketed (·.src) (Inside edges start stop) none (mainLoop edges start' stop') none := by
  refine bracketed_flatMap fun k hk => ?_
  obtain ⟨hak,hkb⟩ := List.mem_range'_1.mp hk
  have hle := h'.stop_le hs
  have hlen : k < edges.length := by omega
  refine ⟨edges[k],List.getElem?_eq_getElem hlen,.inr ?_⟩
  obtain ⟨hlo,hhi⟩ := (src_eq_iff hs hlen).mp rfl
  have hstart := h.start_bounds hs (Nat.lt_of_le_of_lt hlo hhi)
  have hstop := h'.stop_bounds hs (Nat.lt_of_le_of_lt hlo hhi)
  unfold Inside
  omega

end Thread

end GraphZeppelin.MC.Filter
