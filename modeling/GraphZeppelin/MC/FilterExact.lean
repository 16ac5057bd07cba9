import GraphZeppelin.MC.FilterCover

namespace GraphZeppelin.MC.Filter
open Boruvka CC Sketch LockedUpdates SortedRuns

variable {n T : ℕ} {p : SketchParams} {edges : List (Edge n)} {v : Fin n}

theorem sorted_by_ends (sf : SpanningForest n) :
    (sortedAdjacency sf).Pairwise fun e f =>
      decide (e.src < f.src ∨ (e.src = f.src ∧ e.dst ≤ f.dst)) = true := by
  refine List.pairwise_mergeSort (fun a b c hab hbc => ?_) (fun a b => ?_) _
  · rw [decide_eq_true_eq] at hab hbc ⊢
    simp only [Fin.lt_def,Fin.le_def,Fin.ext_iff] at hab hbc ⊢
    omega
  · rw [Bool.or_eq_true,decide_eq_true_eq,decide_eq_true_eq]
    simp only [Fin.lt_def,Fin.le_def,Fin.ext_iff]
    omega

theorem sorted_sortedAdjacency (sf : SpanningForest n) :
    Sorted Edge.src (sortedAdjacency sf) := by
  refine (sorted_by_ends sf).imp fun hab => ?_
  rcases of_decide_eq_true hab with hlt | ⟨heq,_⟩
  · exact le_of_lt hlt
  · exact heq.le

theorem sketch_ext {s s' : Sketch p} (hb : s.buckets = s'.buckets)
    (hi : s.sampleIdx = s'.sampleIdx) : s = s' := by
  cases s
  cases s'
  cases hb
  cases hi
  rfl

instance (xxh : XxHash) : RightCommutative (updateSketch (n := n) (p := p) xxh) where
  right_comm s e e' := by
    apply sketch_ext
    · simp only [updateSketch,update_buckets,add_right_comm]
    · simp only [updateSketch,update_sampleIdx]

def delta (xxh : XxHash) (p : SketchParams) (edges : List (Edge n)) (v : Fin n) :
    Fin p.numBuckets → Bucket :=
  ((run edges v).map fun e => contribution xxh p (edgeIdx e.src e.dst)).sum

theorem foldl_updateSketch (xxh : XxHash) (m : Multiset (Edge n)) (s : Sketch p) :
    (m.foldl (updateSketch xxh) s).buckets =
      s.buckets + (m.map fun e => contribution xxh p (edgeIdx e.src e.dst)).sum ∧
    (m.foldl (updateSketch xxh) s).sampleIdx = s.sampleIdx := by
  induction m using Multiset.induction generalizing s with
  | empty => exact ⟨(add_zero _).symm,rfl⟩
  | cons e m ih =>
    obtain ⟨hb,hi⟩ := ih (updateSketch xxh s e)
    rw [Multiset.foldl_cons,hb,hi,Multiset.map_cons,Multiset.sum_cons,updateSketch,update_buckets,
      update_sampleIdx,add_assoc]
    exact ⟨rfl,rfl⟩

theorem foldl_deleteEdge (xxh : XxHash) (es : List (Edge n)) (sketches : Fin n → Sketch p)
    (v : Fin n) :
    (es.foldl (deleteEdge xxh) sketches v).buckets = (sketches v).buckets +
      received xxh p v (es.flatMap fun e => halfUpdates ⟨e,.delete⟩) ∧
    (es.foldl (deleteEdge xxh) sketches v).sampleIdx = (sketches v).sampleIdx := by
  induction es generalizing sketches with
  | nil => exact ⟨(add_zero _).symm,rfl⟩
  | cons e es ih =>
    obtain ⟨hb,hi⟩ := ih (deleteEdge xxh sketches e)
    rw [List.foldl_cons,hb,hi,List.flatMap_cons,received_append,deleteEdge,
      MCSketchAlg.updateHalf_buckets,MCSketchAlg.updateHalf_buckets,
      MCSketchAlg.updateHalf_sampleIdx,MCSketchAlg.updateHalf_sampleIdx]
    refine ⟨?_,rfl⟩
    simp [halfUpdates,received,add_assoc]

theorem received_run (xxh : XxHash) (edges : List (Edge n)) (v : Fin n) :
    received xxh p v (edges.map fun e => (e.src,e.dst)) = delta xxh p edges v := by
  induction edges with
  | nil => rfl
  | cons e edges ih =>
    rw [List.map_cons,received,List.map_cons,List.sum_cons,delta,run,← Multiset.cons_coe,
      Multiset.filter_cons,Multiset.map_add,Multiset.sum_add]
    refine congrArg₂ _ ?_ ih
    rw [half]
    split
    · simp
    · rfl

theorem deleteEdges_buckets (xxh : XxHash) (sketches : Fin n → Sketch p) (sf : SpanningForest n)
    (v : Fin n) :
    (deleteEdges xxh sketches sf v).buckets =
      (sketches v).buckets + delta xxh p (sortedAdjacency sf) v := by
  rw [deleteEdges,(foldl_deleteEdge xxh _ _ v).1,← received_run,
    received_perm xxh v (sortedAdjacency_perm sf .delete)]

theorem deleteEdges_sampleIdx (xxh : XxHash) (sketches : Fin n → Sketch p)
    (sf : SpanningForest n) (v : Fin n) :
    (deleteEdges xxh sketches sf v).sampleIdx = (sketches v).sampleIdx :=
  (foldl_deleteEdge xxh _ _ v).2

def applied (edges : List (Edge n)) (T : ℕ) (v : Fin n) : ℕ :=
  if crossings edges T v = 0 then 1 else crossings edges T v

def outcome (xxh : XxHash) (edges : List (Edge n)) (T : ℕ) (sketches : Fin n → Sketch p)
    (v : Fin n) : Sketch p :=
  (applied edges T v • run edges v).foldl (updateSketch xxh) (sketches v)

theorem outcome_eq_iff (xxh : XxHash) (sf : SpanningForest n) (T : ℕ)
    (sketches : Fin n → Sketch p) (v : Fin n) :
    outcome xxh (sortedAdjacency sf) T sketches v = deleteEdges xxh sketches sf v ↔
      Odd (applied (sortedAdjacency sf) T v) ∨ delta xxh p (sortedAdjacency sf) v = 0 := by
  have hfold := foldl_updateSketch xxh
    (applied (sortedAdjacency sf) T v • run (sortedAdjacency sf) v) (sketches v)
  rw [Multiset.map_nsmul,Multiset.sum_nsmul] at hfold
  have hbuckets : (outcome xxh (sortedAdjacency sf) T sketches v).buckets = (sketches v).buckets +
      applied (sortedAdjacency sf) T v • delta xxh p (sortedAdjacency sf) v := hfold.1
  have hiff : outcome xxh (sortedAdjacency sf) T sketches v = deleteEdges xxh sketches sf v ↔
      applied (sortedAdjacency sf) T v • delta xxh p (sortedAdjacency sf) v =
        delta xxh p (sortedAdjacency sf) v := by
    constructor
    · intro h
      have hb := congrArg Sketch.buckets h
      rw [hbuckets,deleteEdges_buckets] at hb
      exact add_left_cancel hb
    · intro h
      refine sketch_ext ?_ (hfold.2.trans (deleteEdges_sampleIdx xxh sketches sf v).symm)
      rw [hbuckets,deleteEdges_buckets,h]
  rw [hiff,XorGroup.nsmul_eq]
  split
  · next hodd => exact iff_of_true rfl (.inl hodd)
  · next heven =>
    rw [eq_comm]
    exact (or_iff_right heven).symm

theorem Bounded.inv (hT : 0 < T) {sf : SpanningForest n} (h : Bounded (sortedAdjacency sf) T)
    (xxh : XxHash) (sketches : Fin n → Sketch p) :
    Inv (·.src) (updateSketch xxh)
      (fun t : Fin T => Inside (sortedAdjacency sf) (boundary (sortedAdjacency sf) T t)
        (boundary (sortedAdjacency sf) T (t + 1)))
      (outcome xxh (sortedAdjacency sf) T sketches) (fun _ => none) (enter T sf sketches) := by
  have hs := sorted_sortedAdjacency sf
  refine ⟨fun t => .between (h.threadActions hs hT t.isLt).1,fun t v => ?_,h.owned hs hT,
    fun v => ?_⟩
  · exact iff_of_false (fun hf => by cases hf) fun hf => by cases hf
  · exact congrArg (Multiset.foldl (updateSketch xxh) (sketches v)) (h.pending hs hT v)

theorem Bounded.exact (hT : 0 < T) {sf : SpanningForest n} (h : Bounded (sortedAdjacency sf) T)
    {xxh : XxHash} {sketches : Fin n → Sketch p} {ls : List (Fin T)} {s : FilterState n T p}
    (hrun : Trace.run (step xxh) (enter T sf sketches) ls = some s)
    (hodd : ∀ v, Odd (applied (sortedAdjacency sf) T v) ∨
      delta xxh p (sortedAdjacency sf) v = 0) : Exact xxh T sf sketches s := by
  obtain ⟨held,hinv⟩ := inv_run (h.inv hT xxh sketches) hrun
  refine ⟨fun t r => hinv.no_fault t,fun hne => hinv.progress hne,fun hdone => ?_⟩
  rw [hinv.done hdone]
  funext v
  exact (outcome_eq_iff xxh sf T sketches v).mpr (hodd v)

theorem Bounded.odd (hT : 0 < T) {sf : SpanningForest n} (h : Bounded (sortedAdjacency sf) T)
    {xxh : XxHash} {sketches : Fin n → Sketch p}
    (hall : ∀ (ls : List (Fin T)) (s : FilterState n T p),
      Trace.run (step xxh) (enter T sf sketches) ls = some s → Exact xxh T sf sketches s)
    (v : Fin n) : Odd (applied (sortedAdjacency sf) T v) ∨
      delta xxh p (sortedAdjacency sf) v = 0 := by
  obtain ⟨ls,s,hrun,hdone⟩ := (h.inv hT xxh sketches).completes
  obtain ⟨held,hinv⟩ := inv_run (h.inv hT xxh sketches) hrun
  have hcells := (hall ls s hrun).deleted hdone
  rw [hinv.done hdone] at hcells
  exact (outcome_eq_iff xxh sf T sketches v).mp (congrFun hcells v)

end GraphZeppelin.MC.Filter
