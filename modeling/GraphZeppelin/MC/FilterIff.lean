import GraphZeppelin.MC.FilterExact

namespace GraphZeppelin.MC.Filter
open Boruvka CC Sketch LockedUpdates SortedRuns

variable {n T : ℕ} {p : SketchParams} {edges : List (Edge n)} {v : Fin n} {b t : ℕ}

def Faults (acts : List (FilterAction n)) : Prop :=
  ∃ before held, acts = before ++ [.fault] ∧ Bracketed (·.src) (fun _ => True) none before held

theorem locked_none {ks : List ℕ} (hrun : ∀ k ∈ ks, ∃ edge, edges[k]? = some edge ∧ edge.src = v) :
    (locked v (ks.flatMap (updateAt edges),none)).2 = none ∧
      Bracketed (·.src) (fun _ => True) none (locked v (ks.flatMap (updateAt edges),none)).1
        (some v) := by
  refine ⟨rfl,.lock (bracketed_flatMap fun k hk => ?_)⟩
  obtain ⟨edge,hget,_⟩ := hrun k hk
  exact ⟨edge,hget,.inr trivial⟩

theorem faults_of_previous (hs : Sorted Edge.src edges)
    (hv : Crosses edges (boundary edges T t) v) (hend : runHi edges v = edges.length) :
    Faults (threadActions edges T t) := by
  obtain ⟨hlo,hhi⟩ := (crosses_iff hs).mp hv
  have hprev := collidePrevious_crosses hs hv
  rw [if_neg (by omega)] at hprev
  obtain ⟨hnone,hb⟩ := locked_none (mem_run hs (.refl (List.range' (boundary edges T t)
    (runHi edges v - boundary edges T t))) (le_of_lt hlo) (by omega))
  rw [← hprev] at hnone hb
  refine ⟨_,_,?_,hb⟩
  rw [threadActions,partition_eq]
  simp only [hnone]

theorem faults_of_past (hpos : 0 < boundary edges T t) (hlen : edges.length ≤ boundary edges T t) :
    Faults (threadActions edges T t) := by
  refine ⟨[],none,?_,.nil none⟩
  rw [threadActions,partition_eq]
  simp only [collidePrevious_past hpos hlen]

theorem faults_of_next (hs : Sorted Edge.src edges) (hT : 0 < T)
    (hv : Crosses edges (boundary edges T (t + 1)) v) (hzero : runLo edges v = 0) :
    Faults (threadActions edges T t) := by
  obtain ⟨hlo,hhi⟩ := (crosses_iff hs).mp hv
  have hstart : boundary edges T t < edges.length :=
    (show boundary edges T t ≤ boundary edges T (t + 1) from
      Partition.cut_mono hT (Nat.le_succ t)).trans_lt hv.lt_length
  by_cases hend : ∀ w, Crosses edges (boundary edges T t) w → runHi edges w < edges.length
  · obtain ⟨start,hprev⟩ := collidePrevious_moved hs (.inl hstart) hend
    have hnext := collideNext_crosses hs hv
    rw [if_neg (by omega)] at hnext
    have hperm := List.reverse_perm (List.range' (runLo edges v)
      (boundary edges T (t + 1) - runLo edges v))
    obtain ⟨hnone,hb⟩ := locked_none (mem_run (v := v) hs hperm le_rfl (by omega))
    rw [← hnext] at hnone hb
    refine ⟨_,_,?_,(hprev.bracketed _).append hb⟩
    rw [threadActions,partition_eq,List.append_assoc]
    simp only [hprev.result,hnone]
  · obtain ⟨w,hw⟩ := not_forall.mp hend
    obtain ⟨hw,hge⟩ := Classical.not_imp.mp hw
    exact faults_of_previous hs hw (le_antisymm (runHi_le edges w) (not_lt.mp hge))

theorem faults_of_not_bounded (hs : Sorted Edge.src edges) (hT : 0 < T) (h : ¬ Bounded edges T) :
    ∃ t < T, Faults (threadActions edges T t) := by
  by_cases hfilled : edges.length = 0 ∨ T ≤ edges.length
  · have hinner : ¬ ∀ j v, j < T → Crosses edges (boundary edges T j) v →
        0 < runLo edges v ∧ runHi edges v < edges.length := fun hin => h ⟨hfilled,hin⟩
    simp only [not_forall] at hinner
    obtain ⟨j,v,hj,hv,hno⟩ := hinner
    rcases Nat.eq_zero_or_pos (runLo edges v) with hzero | hpos
    · cases j with
      | zero => exact absurd hv (not_crosses_zero edges T)
      | succ j => exact ⟨j,Nat.lt_of_succ_lt hj,faults_of_next hs hT hv hzero⟩
    · have hle := runHi_le edges v
      exact ⟨j,hj,faults_of_previous hs hv (by omega)⟩
  · cases T with
    | zero => exact absurd hT (lt_irrefl 0)
    | succ T =>
      have hlast : edges.length ≤ boundary edges (T + 1) T := Partition.le_cut_of_le (by omega)
      exact ⟨T,Nat.lt_succ_self T,faults_of_past (by omega) hlast⟩

theorem Faults.reached {sf : SpanningForest n} (ht : t < T)
    (h : Faults (threadActions (sortedAdjacency sf) T t)) (xxh : XxHash)
    (sketches : Fin n → Sketch p) :
    ∃ ls s, Trace.run (step xxh) (enter T sf sketches) ls = some s ∧
      s.rest ⟨t,ht⟩ = [.fault] := by
  obtain ⟨before,held,hacts,hb⟩ := h
  exact solo hb (s := enter T sf sketches) (t := ⟨t,ht⟩) hacts fun _ _ => rfl

def Cancels (xxh : XxHash) (p : SketchParams) (edges : List (Edge n)) (v : Fin n) : Prop :=
  (edges.filter (·.src = v)).foldl (updateSketch xxh) (Sketch.empty p) = Sketch.empty p

structure Fits (xxh : XxHash) (p : SketchParams) (edges : List (Edge n)) (T : ℕ) : Prop where
  filled : edges = [] ∨ T ≤ edges.length
  inner : ∀ v, crossings edges T v ≠ 0 →
    (edges.head?).map Edge.src ≠ some v ∧ (edges.getLast?).map Edge.src ≠ some v
  odd : ∀ v, crossings edges T v ≠ 0 → Odd (crossings edges T v) ∨ Cancels xxh p edges v

theorem cancels_iff (xxh : XxHash) : Cancels xxh p edges v ↔ delta xxh p edges v = 0 := by
  have hfold := foldl_updateSketch xxh (run edges v) (Sketch.empty p)
  have hrun : (run edges v).foldl (updateSketch xxh) (Sketch.empty p) =
      (edges.filter (·.src = v)).foldl (updateSketch xxh) (Sketch.empty p) := by
    rw [run,Multiset.filter_coe,Multiset.coe_foldl]
  have hempty : (Sketch.empty p).buckets = 0 := rfl
  rw [hrun,hempty,zero_add] at hfold
  constructor
  · intro h
    rw [h] at hfold
    exact hfold.1.symm
  · exact fun h => sketch_ext (hfold.1.trans h) hfold.2

theorem inner_iff (hs : Sorted Edge.src edges) (hv : Crosses edges b v) :
    (edges.head?.map Edge.src ≠ some v ∧ edges.getLast?.map Edge.src ≠ some v) ↔
      0 < runLo edges v ∧ runHi edges v < edges.length := by
  obtain ⟨hlo,hhi⟩ := (crosses_iff hs).mp hv
  have hle := runHi_le edges v
  rw [List.head?_eq_getElem?,List.getLast?_eq_getElem?,ne_eq,getElem?_src hs,ne_eq,getElem?_src hs]
  omega

theorem crossings_ne_zero : crossings edges T v ≠ 0 ↔
    ∃ j < T, Crosses edges (boundary edges T j) v := by
  rw [crossings,← Nat.pos_iff_ne_zero,Finset.card_pos]
  constructor
  · rintro ⟨j,hj⟩
    obtain ⟨hjT,hv⟩ := Finset.mem_filter.mp hj
    exact ⟨j,Finset.mem_range.mp hjT,hv⟩
  · rintro ⟨j,hj,hv⟩
    exact ⟨j,Finset.mem_filter.mpr ⟨Finset.mem_range.mpr hj,hv⟩⟩

theorem fits_iff (hs : Sorted Edge.src edges) (xxh : XxHash) :
    Fits xxh p edges T ↔ Bounded edges T ∧
      ∀ v, Odd (applied edges T v) ∨ delta xxh p edges v = 0 := by
  have happlied (v : Fin n) : (Odd (applied edges T v) ∨ delta xxh p edges v = 0) ↔
      (crossings edges T v ≠ 0 → Odd (crossings edges T v) ∨ Cancels xxh p edges v) := by
    rw [applied,cancels_iff]
    split
    · next hzero => exact iff_of_true (.inl odd_one) fun h => absurd hzero h
    · next hne => exact ⟨fun h _ => h,fun h => h hne⟩
  constructor
  · rintro ⟨hfilled,hinner,hodd⟩
    refine ⟨⟨hfilled.imp_left List.length_eq_zero_iff.mpr,fun j v hj hv => ?_⟩,
      fun v => (happlied v).mpr (hodd v)⟩
    exact (inner_iff hs hv).mp (hinner v (crossings_ne_zero.mpr ⟨j,hj,hv⟩))
  · rintro ⟨⟨hfilled,hinner⟩,hodd⟩
    refine ⟨hfilled.imp_left List.length_eq_zero_iff.mp,fun v hv => ?_,
      fun v => (happlied v).mp (hodd v)⟩
    obtain ⟨j,hj,hv⟩ := crossings_ne_zero.mp hv
    exact (inner_iff hs hv).mpr (hinner j v hj hv)

theorem filter_sf_edges_exact_iff (xxh : XxHash) (hT : 0 < T) (sf : SpanningForest n)
    (sketches : Fin n → Sketch p) :
    (∀ (ls : List (Fin T)) (s : FilterState n T p),
      Trace.run (step xxh) (enter T sf sketches) ls = some s → Exact xxh T sf sketches s) ↔
    Fits xxh p (sortedAdjacency sf) T := by
  rw [fits_iff (sorted_sortedAdjacency sf)]
  constructor
  · intro hall
    have hbounded : Bounded (sortedAdjacency sf) T := by
      by_contra hno
      obtain ⟨t,ht,hfault⟩ := faults_of_not_bounded (sorted_sortedAdjacency sf) hT hno
      obtain ⟨ls,s,hrun,hrest⟩ := hfault.reached ht xxh sketches
      exact (hall ls s hrun).inBounds ⟨t,ht⟩ [] hrest
    exact ⟨hbounded,hbounded.odd hT hall⟩
  · rintro ⟨hbounded,hodd⟩ ls s hrun
    exact hbounded.exact hT hrun hodd

def edgeLe (e f : Edge n) : Prop := e.src < f.src ∨ (e.src = f.src ∧ e.dst ≤ f.dst)

instance (e f : Edge n) : Decidable (edgeLe e f) := inferInstanceAs (Decidable (_ ∨ _))

theorem sortedAdjacency_eq {sf : SpanningForest n}
    (hperm : edges.Perm (sf.edges ++ sf.edges.map fun e => ⟨e.dst,e.src⟩))
    (hs : edges.Pairwise edgeLe) : sortedAdjacency sf = edges := by
  have hle : edges.Pairwise fun e f =>
      decide (e.src < f.src ∨ (e.src = f.src ∧ e.dst ≤ f.dst)) = true :=
    hs.imp fun h => decide_eq_true h
  refine List.Perm.eq_of_pairwise (fun e f _ _ hef hfe => ?_) ?_ hle
    ((List.mergeSort_perm _ _).trans hperm.symm)
  · have hef := of_decide_eq_true hef
    have hfe := of_decide_eq_true hfe
    obtain ⟨src,dst⟩ := e
    obtain ⟨src',dst'⟩ := f
    simp only [Fin.lt_def,Fin.le_def,Fin.ext_iff] at hef hfe
    rw [Edge.mk.injEq,Fin.ext_iff,Fin.ext_iff]
    omega
  · exact sorted_by_ends sf

theorem star_reads_before_edges :
    (¬ ∀ (ls : List (Fin 4)) (s : FilterState 4 4 pairParams),
      Trace.run (step fun x _ => x + 1) (enter 4 ⟨[⟨0,1⟩,⟨0,2⟩,⟨0,3⟩]⟩ fun _ => Sketch.empty _) ls =
          some s →
        Exact (fun x _ => x + 1) 4 ⟨[⟨0,1⟩,⟨0,2⟩,⟨0,3⟩]⟩ (fun _ => Sketch.empty _) s) ∧
    ¬ ∀ (ls : List (Fin 6)) (s : FilterState 5 6 pairParams),
      Trace.run (step fun x _ => x + 1)
          (enter 6 ⟨[⟨0,2⟩,⟨1,2⟩,⟨2,3⟩,⟨2,4⟩]⟩ fun _ => Sketch.empty _) ls = some s →
        Exact (fun x _ => x + 1) 6 ⟨[⟨0,2⟩,⟨1,2⟩,⟨2,3⟩,⟨2,4⟩]⟩ (fun _ => Sketch.empty _) s := by
  constructor
  · intro hall
    have hsort : sortedAdjacency ⟨[⟨0,1⟩,⟨0,2⟩,⟨0,3⟩]⟩ =
        ([⟨0,1⟩,⟨0,2⟩,⟨0,3⟩,⟨1,0⟩,⟨2,0⟩,⟨3,0⟩] : List (Edge 4)) :=
      sortedAdjacency_eq (by decide) (by decide)
    have hfault : Faults (threadActions
        ([⟨0,1⟩,⟨0,2⟩,⟨0,3⟩,⟨1,0⟩,⟨2,0⟩,⟨3,0⟩] : List (Edge 4)) 4 0) :=
      faults_of_next (v := 0) (hsort ▸ sorted_sortedAdjacency _) (by decide) (by decide +kernel)
        (by decide)
    rw [← hsort] at hfault
    obtain ⟨ls,s,hrun,hrest⟩ := hfault.reached (Nat.zero_lt_succ 3) (fun x _ => x + 1)
      fun _ => Sketch.empty pairParams
    exact (hall ls s hrun).inBounds _ [] hrest
  · intro hall
    have hsort : sortedAdjacency ⟨[⟨0,2⟩,⟨1,2⟩,⟨2,3⟩,⟨2,4⟩]⟩ =
        ([⟨0,2⟩,⟨1,2⟩,⟨2,0⟩,⟨2,1⟩,⟨2,3⟩,⟨2,4⟩,⟨3,2⟩,⟨4,2⟩] : List (Edge 5)) :=
      sortedAdjacency_eq (by decide) (by decide)
    let edges : List (Edge 5) := [⟨0,2⟩,⟨1,2⟩,⟨2,0⟩,⟨2,1⟩,⟨2,3⟩,⟨2,4⟩,⟨3,2⟩,⟨4,2⟩]
    have hinner : ∀ v, ∀ j < 6, Crosses edges (boundary edges 6 j) v →
        0 < runLo edges v ∧ runHi edges v < edges.length := by decide +kernel
    have hbounded : Bounded (sortedAdjacency (n := 5) ⟨[⟨0,2⟩,⟨1,2⟩,⟨2,3⟩,⟨2,4⟩]⟩) 6 := by
      rw [hsort]
      exact ⟨.inr (by decide),fun j v hj => hinner v j hj⟩
    have hodd := hbounded.odd (by decide) hall 2
    rw [hsort] at hodd
    exact absurd hodd (by decide +kernel)

theorem filter_sf_edges_exact_path :
    ∃ (sf : SpanningForest 3) (ls : List (Fin 2)) (s : FilterState 3 2 pairParams),
      crossings (sortedAdjacency sf) 2 1 = 1 ∧
      Trace.run (step fun x _ => x + 1) (enter 2 sf fun _ => Sketch.empty pairParams) ls = some s ∧
      (∀ t, s.rest t = []) ∧
      s.cells = deleteEdges (fun x _ => x + 1) (fun _ => Sketch.empty pairParams) sf := by
  let sf : SpanningForest 3 := ⟨[⟨0,1⟩,⟨1,2⟩]⟩
  -- the cut between the two threads falls between the entries of vertex 1
  let edges : List (Edge 3) := [⟨0,1⟩,⟨1,0⟩,⟨1,2⟩,⟨2,1⟩]
  have hsort : sortedAdjacency sf = edges := sortedAdjacency_eq (by decide) (by decide)
  have hcross : ∀ v, crossings edges 2 v ≠ 0 → v = 1 := by decide +kernel
  have hone : crossings edges 2 1 = 1 := by decide +kernel
  have hfits : Fits (fun x _ => x + 1) pairParams (sortedAdjacency sf) 2 := by
    rw [hsort]
    refine ⟨.inr (by decide),fun v hv => ?_,fun v hv => .inl ?_⟩
    · rw [hcross v hv]
      decide
    · rw [hcross v hv,hone]
      exact odd_one
  have hrun : (Trace.run (step fun x _ => x + 1) (enter 2 sf fun _ => Sketch.empty pairParams)
      (List.replicate 6 0 ++ List.replicate 6 1)).any fun s => decide (∀ t, s.rest t = []) := by
    rw [enter,hsort]
    decide +kernel
  obtain ⟨s,hs,hdone⟩ := (Option.any_eq_true _ _).mp hrun
  have hdone := of_decide_eq_true hdone
  have hexact := (filter_sf_edges_exact_iff _ Nat.zero_lt_two sf _).mpr hfits _ s hs
  exact ⟨sf,_,s,hsort.symm ▸ hone,hs,hdone,hexact.deleted hdone⟩

end GraphZeppelin.MC.Filter
