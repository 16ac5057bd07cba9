import GraphZeppelin.CC.Alg
import GraphZeppelin.Sketch.Linear

namespace GraphZeppelin.CC
open Sketch

variable {n w : ℕ} {p : SketchParams} (xxh : XxHash)

structure Batch (n w : ℕ) where
  thrId : Fin w
  srcVertex : Fin n
  dstVertices : List (Fin n)
deriving DecidableEq, Repr

def Batch.halves (b : Batch n w) : List (Fin n × Fin n) :=
  b.dstVertices.map fun dst => (b.srcVertex,dst)

def halfUpdates (upd : GraphUpdate n) : List (Fin n × Fin n) :=
  [(upd.edge.src,upd.edge.dst),(upd.edge.dst,upd.edge.src)]

def applyBatches (a : CCSketchAlg n w p) (batches : List (Batch n w)) :
    Except UpdateLockedException (CCSketchAlg n w p) :=
  batches.foldlM (fun a b => a.applyUpdateBatch xxh b.thrId b.srcVertex b.dstVertices) a

def rawDelta (zeroed : Sketch p) (b : Batch n w) : Fin p.numBuckets → Bucket :=
  (b.dstVertices.foldl (fun s dst => s.update xxh (edgeIdx b.srcVertex dst))
    zeroed.zeroContents).buckets

def applyRawBatches (scratch : Batch n w → Sketch p) (a : CCSketchAlg n w p)
    (batches : List (Batch n w)) : CCSketchAlg n w p :=
  batches.foldl (fun a b => a.applyRawBucketsUpdate b.srcVertex (rawDelta xxh (scratch b) b)) a

def applyUpdates (a : CCSketchAlg n w p) (us : List (GraphUpdate n)) : CCSketchAlg n w p :=
  us.foldl (·.update xxh) a

def half (p : SketchParams) (v : Fin n) (h : Fin n × Fin n) : Fin p.numBuckets → Bucket :=
  if h.1 = v then contribution xxh p (edgeIdx h.1 h.2) else 0

def received (p : SketchParams) (v : Fin n) (hs : List (Fin n × Fin n)) :
    Fin p.numBuckets → Bucket :=
  (hs.map (half xxh p v)).sum

theorem received_nil (v : Fin n) : received xxh p v [] = 0 := rfl

theorem received_append (v : Fin n) (hs hs' : List (Fin n × Fin n)) :
    received xxh p v (hs ++ hs') = received xxh p v hs + received xxh p v hs' := by
  simp [received]

theorem received_perm (v : Fin n) {hs hs' : List (Fin n × Fin n)} (h : hs.Perm hs') :
    received xxh p v hs = received xxh p v hs' := (h.map _).sum_eq

theorem foldl_edge_buckets (src : Fin n) (dsts : List (Fin n)) (s : Sketch p) :
    (dsts.foldl (fun s dst => s.update xxh (edgeIdx src dst)) s).buckets =
      s.buckets + (dsts.map fun dst => contribution xxh p (edgeIdx src dst)).sum := by
  have h := foldl_update_buckets xxh (dsts.map (edgeIdx src)) s
  rwa [List.foldl_map,List.map_map] at h

theorem received_halves (v : Fin n) (b : Batch n w) : received xxh p v b.halves =
    if b.srcVertex = v
      then (b.dstVertices.map fun dst => contribution xxh p (edgeIdx b.srcVertex dst)).sum
      else 0 := by
  simp only [received,Batch.halves,List.map_map]
  split
  · next h =>
    refine congrArg List.sum (List.map_congr_left fun dst _ => ?_)
    simp [half,h]
  · next h =>
    refine List.sum_eq_zero fun x hx => ?_
    obtain ⟨dst,_,rfl⟩ := List.mem_map.mp hx
    simp [half,h]

variable {xxh}

namespace CCSketchAlg

theorem preInsert_sketches (a : CCSketchAlg n w p) (upd : GraphUpdate n) :
    (a.preInsert upd).sketches = a.sketches := by
  unfold preInsert
  split
  · simp only
    split
    · rfl
    · split <;> rfl
  · rfl

theorem updateSketch_buckets (a : CCSketchAlg n w p) (u v : Fin n) (idx : VecT) :
    ((a.updateSketch xxh u idx).sketches v).buckets =
      (a.sketches v).buckets + if u = v then contribution xxh p idx else 0 := by
  unfold updateSketch
  by_cases h : u = v
  · subst h
    simp [update_buckets]
  · simp [h,Ne.symm h]

theorem update_buckets (a : CCSketchAlg n w p) (upd : GraphUpdate n) (v : Fin n) :
    ((a.update xxh upd).sketches v).buckets =
      (a.sketches v).buckets + received xxh p v (halfUpdates upd) := by
  rw [update,updateSketch_buckets,updateSketch_buckets,preInsert_sketches,add_assoc]
  simp [received,halfUpdates,half,edgeIdx_comm upd.edge.dst upd.edge.src]

theorem applyUpdates_buckets (xxh : XxHash) (us : List (GraphUpdate n)) (a : CCSketchAlg n w p) (v : Fin n) :
    ((applyUpdates xxh a us).sketches v).buckets =
      (a.sketches v).buckets + received xxh p v (us.flatMap halfUpdates) := by
  induction us generalizing a with
  | nil => simp [applyUpdates,received]
  | cons u us ih =>
    have h := ih (a.update xxh u)
    rw [update_buckets,add_assoc,← received_append] at h
    exact h

theorem applyUpdateBatch_ok (xxh : XxHash) {a : CCSketchAlg n w p} (hl : a.updateLocked = false)
    (b : Batch n w) :
    ∃ a', a.applyUpdateBatch xxh b.thrId b.srcVertex b.dstVertices = .ok a' ∧
      a'.updateLocked = false ∧
      ∀ v, (a'.sketches v).buckets = (a.sketches v).buckets + received xxh p v b.halves := by
  have hl' : ¬ a.updateLocked = true := by simp [hl]
  rw [applyUpdateBatch,if_neg hl']
  refine ⟨_,rfl,hl,fun v => ?_⟩
  rw [received_halves]
  by_cases h : b.srcVertex = v
  · subst h
    simp [foldl_edge_buckets]
  · simp [h,Ne.symm h]

theorem applyBatches_ok (xxh : XxHash) (batches : List (Batch n w)) {a : CCSketchAlg n w p}
    (hl : a.updateLocked = false) :
    ∃ a', applyBatches xxh a batches = .ok a' ∧ a'.updateLocked = false ∧
      ∀ v, (a'.sketches v).buckets =
        (a.sketches v).buckets + received xxh p v (batches.flatMap Batch.halves) := by
  induction batches generalizing a with
  | nil => exact ⟨a,rfl,hl,fun v => by simp [received]⟩
  | cons b batches ih =>
    obtain ⟨a₁,h₁,hl₁,hb₁⟩ := applyUpdateBatch_ok xxh hl b
    obtain ⟨a₂,h₂,hl₂,hb₂⟩ := ih hl₁
    refine ⟨a₂,?_,hl₂,fun v => ?_⟩
    · rw [applyBatches,List.foldlM_cons,h₁]
      exact h₂
    · rw [hb₂,hb₁,add_assoc,List.flatMap_cons,received_append]

theorem applyRawBatches_buckets (scratch : Batch n w → Sketch p) (batches : List (Batch n w))
    (a : CCSketchAlg n w p) (v : Fin n) :
    ((applyRawBatches xxh scratch a batches).sketches v).buckets =
      (a.sketches v).buckets + received xxh p v (batches.flatMap Batch.halves) := by
  induction batches generalizing a with
  | nil => simp [applyRawBatches,received]
  | cons b batches ih =>
    have h := ih (a.applyRawBucketsUpdate b.srcVertex (rawDelta xxh (scratch b) b))
    rw [List.flatMap_cons,received_append,← add_assoc]
    refine h.trans (congrArg (· + _) ?_)
    rw [received_halves]
    by_cases hv : b.srcVertex = v
    · subst hv
      simp [applyRawBucketsUpdate,rawDelta,foldl_edge_buckets]
    · simp [applyRawBucketsUpdate,hv,Ne.symm hv]

theorem batching_order_irrelevant (xxh : XxHash) (us : List (GraphUpdate n)) (batches : List (Batch n w))
    (hcut : (batches.flatMap Batch.halves).Perm (us.flatMap halfUpdates))
    (a : CCSketchAlg n w p) (hl : a.updateLocked = false) (scratch : Batch n w → Sketch p) :
    (∃ a', applyBatches xxh a batches = .ok a' ∧
      ∀ v, (a'.sketches v).buckets = ((applyUpdates xxh a us).sketches v).buckets) ∧
    ∀ v, ((applyRawBatches xxh scratch a batches).sketches v).buckets =
      ((applyUpdates xxh a us).sketches v).buckets := by
  refine ⟨?_,fun v => ?_⟩
  · obtain ⟨a',hrun,_,hb⟩ := applyBatches_ok xxh batches hl
    refine ⟨a',hrun,fun v => ?_⟩
    rw [hb,applyUpdates_buckets,received_perm xxh v hcut]
  · rw [applyRawBatches_buckets,applyUpdates_buckets,received_perm xxh v hcut]

theorem batching_order_irrelevant_pair :
    ((applyRawBatches (fun x _ => x + 1) (fun _ => Sketch.empty ⟨0,2,1,1⟩)
      (new 1 ⟨0,2,1,1⟩ fun _ : Fin 2 => 0) [⟨0,1,[0,0]⟩,⟨0,0,[1,1]⟩]).sketches 0).buckets =
    ((applyUpdates (fun x _ => x + 1) (new 1 ⟨0,2,1,1⟩ fun _ : Fin 2 => 0)
      [⟨⟨0,1⟩,.insert⟩,⟨⟨1,0⟩,.delete⟩]).sketches 0).buckets :=
  (batching_order_irrelevant (fun x _ => x + 1) [⟨⟨0,1⟩,.insert⟩,⟨⟨1,0⟩,.delete⟩]
    [⟨0,1,[0,0]⟩,⟨0,0,[1,1]⟩] (by decide) (new 1 ⟨0,2,1,1⟩ fun _ : Fin 2 => 0) rfl
    fun _ => Sketch.empty ⟨0,2,1,1⟩).2 0

end CCSketchAlg
end GraphZeppelin.CC
