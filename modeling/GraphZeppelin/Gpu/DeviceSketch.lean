import GraphZeppelin.Driver.SavedState
import GraphZeppelin.Gpu.StreamFlush

namespace GraphZeppelin.Gpu
open Boruvka Sketch CC

variable {n : ℕ} {sp : SketchParams} {xxh : XxHash}

def streamDelta (xxh : XxHash) (sp : SketchParams) (b : StreamBatch) : Fin sp.numBuckets → Bucket :=
  (b.dsts.foldl (fun s dst => s.update xxh (concatPairingFn b.src dst)) (Sketch.empty sp)).buckets

def nodeBatch (b : Fin n × List (Fin n)) : StreamBatch := ⟨nodeId b.1,b.2.map nodeId⟩

def handedPairs (work : List (Fin n × List (Fin n))) : List (Fin n × Fin n) :=
  work.flatMap fun b => b.2.map fun dst => (b.1,dst)

theorem streamDelta_nodeBatch (b : Fin n × List (Fin n)) :
    streamDelta xxh sp (nodeBatch b) =
      (b.2.map fun dst => contribution xxh sp (edgeIdx b.1 dst)).sum := by
  have h := foldl_edge_buckets xxh b.1 b.2 (Sketch.empty sp)
  rw [show (Sketch.empty sp).buckets = 0 from rfl,zero_add] at h
  rw [← h,streamDelta,nodeBatch,List.foldl_map]
  rfl

theorem received_map_pair (v src : Fin n) (dsts : List (Fin n)) :
    received xxh sp v (dsts.map fun dst => (src,dst)) =
      if src = v then (dsts.map fun dst => contribution xxh sp (edgeIdx src dst)).sum else 0 := by
  rw [received,List.map_map]
  split
  · next h => exact congrArg List.sum (List.map_congr_left fun dst _ => if_pos h)
  · next h =>
    refine List.sum_eq_zero fun x hx => ?_
    obtain ⟨dst,_,rfl⟩ := List.mem_map.mp hx
    exact if_neg h

theorem received_flatMap {α : Type*} (v : Fin n) (l : List α) (f : α → List (Fin n × Fin n)) :
    received xxh sp v (l.flatMap f) = (l.map fun a => received xxh sp v (f a)).sum := by
  induction l with
  | nil => rfl
  | cons a l ih => rw [List.flatMap_cons,received_append,ih,List.map_cons,List.sum_cons]

theorem sum_streamDelta (hn : n < 2 ^ 32) (work : List (Fin n × List (Fin n))) (v : Fin n) :
    (((work.map nodeBatch).filter (·.src = nodeId v)).map (streamDelta xxh sp)).sum =
      received xxh sp v (handedPairs work) := by
  induction work with
  | nil => rfl
  | cons b work ih =>
    rw [handedPairs,List.flatMap_cons,received_append,received_map_pair,List.map_cons,
      List.filter_cons,← handedPairs,← ih]
    by_cases h : b.1 = v
    · have hsrc : (nodeBatch b).src = nodeId v := congrArg nodeId h
      rw [if_pos h,if_pos (decide_eq_true hsrc),List.map_cons,List.sum_cons,streamDelta_nodeBatch]
    · have hsrc : (nodeBatch b).src ≠ nodeId v := fun heq => h (nodeId_injective hn heq)
      rw [if_neg h,if_neg (by simpa using hsrc),zero_add]

namespace CudaStream

variable {D : Type*} {p : StreamParams} {delta : StreamBatch → D} {m : Mem D}
  {batches : List StreamBatch}

def slot (p : StreamParams) (v : NodeId) : NodeId := if p.cudaUVMEnabled then v else sketchIndex p v

theorem slot_injective : Function.Injective (slot p) := by
  intro u v h
  unfold slot at h
  split at h
  · exact h
  · exact sketchIndex_injective h

theorem covered_flushed (hpos : 0 < p.numBatchPerBuffer) (hm : m.Created)
    (hlen : p.cudaUVMEnabled = false → p.numBatchPerBuffer ≤ batches.length)
    (hfits : ∀ b ∈ batches, b.dsts.length ≤ p.batchSize) :
    Covered p delta batches
      (eager p delta m (program p Control.created (batches.map .processBatch ++ [.flushBuffers]))) := by
  obtain ⟨d,i,cur,heq,hplaced,hpipe⟩ :=
    (pipe_created delta hm).batches batches hfits (placed_created hpos)
  rw [List.append_nil,List.append_nil,List.nil_append] at heq
  have hne : p.cudaUVMEnabled = false → i ≠ [] := by
    intro huvm hnil
    have hcount := hplaced.count
    rw [hpipe.stored.count] at hcount
    rw [hpipe.idle huvm hnil,hnil,List.append_nil,List.nil_append] at heq
    rw [heq] at hcount
    exact absurd (hlen huvm) (Nat.not_le_of_lt hcount)
  have hflush := hpipe.flushBuffers hne
  rw [heq] at hflush
  rw [program_append,eager_append,program,program,List.append_nil]
  exact hflush

theorem fits_calls (hfits : ∀ b ∈ batches, b.dsts.length ≤ p.batchSize) :
    ∀ call ∈ batches.map Call.processBatch ++ [.flushBuffers], Fits p call := by
  intro call hcall
  rcases List.mem_append.mp hcall with h | h
  · obtain ⟨b,hb,rfl⟩ := List.mem_map.mp h
    exact hfits b hb
  · cases List.mem_singleton.mp h
    trivial

structure Completed (p : StreamParams) (delta : StreamBatch → D) (batches : List StreamBatch)
    (s : AsyncStream.Sys (Mem D) HostAct Op) : Prop where
  run : ∃ m sides, m.Created ∧ Trace.run (step p delta)
    (started p m (batches.map .processBatch ++ [.flushBuffers])) sides = some s
  todo : s.todo = []
  pending : s.pending = []

theorem exists_completed (p : StreamParams) (delta : StreamBatch → D) (hm : m.Created)
    (batches : List StreamBatch) : ∃ s, Completed p delta batches s := by
  obtain ⟨sides,s,hrun,htodo,hpending⟩ := AsyncStream.exists_drained (perform p) (exec p delta)
    (started p m (batches.map .processBatch ++ [.flushBuffers]))
  exact ⟨s,⟨m,sides,hm,hrun⟩,htodo,hpending⟩

theorem Completed.sketch [AddCommMonoid D] {s : AsyncStream.Sys (Mem D) HostAct Op}
    (h : Completed p delta batches s) (hpos : 0 < p.numBatchPerBuffer)
    (hlen : p.cudaUVMEnabled = false → p.numBatchPerBuffer ≤ batches.length)
    (hfits : ∀ b ∈ batches, b.dsts.length ≤ p.batchSize) (v : NodeId) :
    s.mem.sketch (slot p v) = ((batches.filter (·.src = v)).map delta).sum := by
  obtain ⟨⟨m,sides,hm,hrun⟩,htodo,hpending⟩ := h
  have hsync := program_synced _ (fits_calls hfits) ⟨placed_created hpos,clear_nil⟩
  have hres := (AsyncStream.race_run (fun a o h => h.commutes) hsync hrun).result
  rw [htodo,hpending] at hres
  have hcov : Covered p delta batches _ := covered_flushed hpos hm hlen hfits
  rw [eager,← hres] at hcov
  have hslot : (fun b : StreamBatch => decide ((entry p delta b).1 = slot p v)) =
      fun b => decide (b.src = v) :=
    funext fun b => decide_eq_decide.mpr (slot_injective (p := p)).eq_iff
  exact (sketch_entries hcov.applied _).trans
    (congrArg (fun f => ((batches.filter f).map delta).sum) hslot)

end CudaStream

theorem oddHalves_eq_incident {G : SimpleGraph (Fin n)} [DecidableRel G.Adj]
    {hs : List (Fin n × Fin n)} {v : Fin n} (h : ∀ u, G.Adj v u ↔ Odd (hs.count (v,u))) :
    Driver.oddHalves hs v = incident G v := by
  refine congrArg (Finset.image (edgeIdx v)) (Finset.ext fun u => ?_)
  rw [Finset.mem_filter,Finset.mem_filter,h u]

structure ThreadWork (p : StreamParams) {W : ℕ} (work : Fin W → List (Fin n × List (Fin n))) :
    Prop where
  fits : ∀ t, ∀ b ∈ work t, b.2.length ≤ p.batchSize
  filled : p.cudaUVMEnabled = false → ∀ t, p.numBatchPerBuffer ≤ (work t).length

def deviceSketch {W : ℕ} (p : StreamParams)
    (s : Fin W → AsyncStream.Sys (CudaStream.Mem (Fin sp.numBuckets → Bucket)) CudaStream.HostAct
      CudaStream.Op) (v : Fin n) : Sketch sp :=
  ⟨0,∑ t, (s t).mem.sketch (CudaStream.slot p (nodeId v))⟩

theorem deviceSketch_eq_received {W : ℕ} {p : StreamParams} (hn : n < 2 ^ 32)
    (hpos : 1 ≤ p.numBatchPerBuffer) {work : Fin W → List (Fin n × List (Fin n))}
    (hwork : ThreadWork p work)
    {s : Fin W → AsyncStream.Sys (CudaStream.Mem (Fin sp.numBuckets → Bucket)) CudaStream.HostAct
      CudaStream.Op}
    (hs : ∀ t, CudaStream.Completed p (streamDelta xxh sp) ((work t).map nodeBatch) (s t))
    (v : Fin n) :
    (deviceSketch p s v).buckets =
      received xxh sp v ((List.finRange W).flatMap fun t => handedPairs (work t)) := by
  have hthread (t : Fin W) : (s t).mem.sketch (CudaStream.slot p (nodeId v)) =
      received xxh sp v (handedPairs (work t)) := by
    rw [← sum_streamDelta hn]
    refine (hs t).sketch hpos (fun huvm => ?_) (fun b hb => ?_) _
    · rw [List.length_map]
      exact hwork.filled huvm t
    · obtain ⟨b',hb',rfl⟩ := List.mem_map.mp hb
      rw [nodeBatch,List.length_map]
      exact hwork.fits t b' hb'
  rw [received_flatMap,← Fin.sum_univ_def]
  change (∑ t, (s t).mem.sketch (CudaStream.slot p (nodeId v))) = _
  exact Finset.sum_congr rfl fun t _ => hthread t

def pairStream : StreamParams := ⟨2,2,0,2,true,by decide⟩

def pairWork (t : Fin 2) : List (Fin 2 × List (Fin 2)) := [(t,[t.rev])]

end GraphZeppelin.Gpu
