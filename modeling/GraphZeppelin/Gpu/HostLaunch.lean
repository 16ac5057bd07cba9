import GraphZeppelin.Gpu.DeviceSketch
import GraphZeppelin.Gpu.KernelSpec
import GraphZeppelin.Gpu.UpdateBuffer

namespace GraphZeppelin.Gpu.SKGPUSketchAlg
open Boruvka Sketch CC
open StridedLoop (signed runAll)

variable {n w capacity : ℕ} {ι : Type} {sp : SketchParams} {xxh : XxHash}

def Call.pairs (c : Call n) : List (Fin n × Fin n) :=
  c.dstVertices.map fun dst => (c.srcVertex,dst)

-- std::map::operator[] yields 0 for a key that is not there
def mapReads (s : Buffers ι) : Kernel.Batches where
  updateSizes b := (s.maps .batchSizes b).getD 0
  updateSrc b := BitVec.ofNat 32 ((s.maps .batchSrc b).getD 0)
  updateStartIndex b := (s.maps .batchStartIndex b).getD 0
  edgeUpdates := s.hEdgeUpdates

-- the delta sketches are built with sketches_factor 1, the vertex sketches with the configured one
def deltaParams (sp : SketchParams) (samples : ℕ) : SketchParams := { sp with numSamples := samples }

def deltaUpdate (xxh : XxHash) (dp : SketchParams) (batches : Kernel.Batches) (b : ℕ) :
    Option (Sketch dp) :=
  (StridedLoop.run (signed 32 64) 1 (batches.updateSizes b) (batches.updateSizes b + 1) 0).map
    fun ids => ids.foldl (fun s u => s.update xxh (concatPairingFn (batches.updateSrc b)
      (batches.edgeUpdates (batches.updateStartIndex b + u)))) (Sketch.empty dp)

-- a merge reads as many buckets as the vertex sketch has
def rawBuckets {dp : SketchParams} (sp : SketchParams) (delta : Sketch dp) :
    Option (Fin sp.numBuckets → Bucket) :=
  if h : sp.numBuckets ≤ dp.numBuckets then some fun k => delta.buckets (k.castLE h) else none

def cpuUpdate (xxh : XxHash) (samples : ℕ) (batches : Kernel.Batches) (a : CCSketchAlg n w sp)
    (b : ℕ) : Option (CCSketchAlg n w sp) :=
  if h : (batches.updateSrc b).toNat < n then
    ((deltaUpdate xxh (deltaParams sp samples) batches b).bind (rawBuckets sp)).map
      (a.applyRawBucketsUpdate ⟨_,h⟩)
  else none

-- each thread strides over the batch ids, their locked merges come in any order
def LaunchCpuUpdate (xxh : XxHash) (samples numHostThreads : ℕ) (s : Buffers ι)
    (a a' : CCSketchAlg n w sp) : Prop :=
  ∃ ids order : List ℕ, runAll (signed 32 64) numHostThreads s.batchCount = some ids ∧
    order.Perm ids ∧ order.foldlM (cpuUpdate xxh samples (mapReads s)) a = some a'

def batchOf (batches : Kernel.Batches) (b : ℕ) : StreamBatch :=
  ⟨batches.updateSrc b,Kernel.dsts batches b⟩

def launchGpuUpdate (numHostThreads : ℕ) (s : Buffers ι) (thrId : ℕ) : Option (List StreamBatch) :=
  (StridedLoop.run (signed 32 64) numHostThreads s.batchCount (s.batchCount + 1)
    ((signed 32 64).wrap thrId)).map fun ids => ids.map (batchOf (mapReads s))

section Batches

variable {calls : ι → Call n} {off : ι → ℕ} {ids : List ι} {s : Buffers ι}

def callBatch (c : Call n) : StreamBatch := nodeBatch (c.srcVertex,c.dstVertices)

variable [Fintype ι]

theorem Filled.batchOf_eq (h : Filled calls off ids s) {b : ℕ} {i : ι} (hi : ids[b]? = some i) :
    batchOf (mapReads s) b = callBatch (calls i) := by
  have hmap (m : BatchMap) : s.maps m b = some ((calls i).entry (off i) m) := by
    rw [h.maps,hi]
    rfl
  have hdsts : Kernel.dsts (mapReads s) b = (calls i).dstVertices.map nodeId := by
    simp only [Kernel.dsts,mapReads,hmap,Option.getD_some,Call.entry]
    refine List.ext_getElem? fun j => ?_
    rw [List.getElem?_map,List.getElem?_map]
    cases hdst : (calls i).dstVertices[j]? with
    | none =>
      have hlen : (calls i).size ≤ j := List.getElem?_eq_none_iff.mp hdst
      rw [List.getElem?_eq_none (by rw [List.length_range]; exact hlen)]
      rfl
    | some dst =>
      have hlt : j < (calls i).size := (List.getElem?_eq_some_iff.mp hdst).1
      rw [List.getElem?_range hlt]
      exact congrArg some (h.content i j dst hdst)
  refine congrArg₂ StreamBatch.mk ?_ hdsts
  simp only [mapReads,hmap,Option.getD_some,Call.entry]
  rfl

theorem Filled.submitted (h : Filled calls off ids s) :
    (List.range s.batchCount).map (batchOf (mapReads s)) =
      ids.map fun i => callBatch (calls i) := by
  refine List.ext_getElem? fun b => ?_
  rw [List.getElem?_map,List.getElem?_map,h.count]
  cases hi : ids[b]? with
  | none =>
    rw [List.getElem?_eq_none (by rw [List.length_range]; exact List.getElem?_eq_none_iff.mp hi)]
    rfl
  | some i =>
    rw [List.getElem?_range (List.getElem?_eq_some_iff.mp hi).1]
    exact congrArg some (h.batchOf_eq hi)

theorem Filled.batchCount_eq (h : Filled calls off ids s) : s.batchCount = Fintype.card ι := by
  rw [h.count,h.perm.length_eq,Finset.length_toList]
  rfl

-- what vertex v is due from the batches of all calls
theorem Filled.received (h : Filled calls off ids s) (hn : n < 2 ^ 32) (v : Fin n)
    {order : List ℕ} (horder : order.Perm (List.range s.batchCount)) :
    (((order.map (batchOf (mapReads s))).filter (·.src = nodeId v)).map
        (streamDelta xxh sp)).sum =
      CC.received xxh sp v (Finset.univ.toList.flatMap fun i => (calls i).pairs) := by
  have hperm := ((horder.map (batchOf (mapReads s))).filter
    (·.src = nodeId v)).map (streamDelta xxh sp)
  have hlist : (ids.map fun i => callBatch (calls i)) =
      (ids.map fun i => ((calls i).srcVertex,(calls i).dstVertices)).map nodeBatch := by
    rw [List.map_map]
    rfl
  rw [hperm.sum_eq,h.submitted,hlist,sum_streamDelta hn,handedPairs,List.flatMap_map]
  exact received_perm xxh v (h.perm.flatMap_right _)

end Batches

section Launches

variable [Fintype ι] {calls : ι → Call n} {off : ι → ℕ} {ids : List ι} {s : Buffers ι}

theorem cpuUpdate_eq {batches : Kernel.Batches} {b : ℕ} (hsize : batches.updateSizes b ≤ 2 ^ 31)
    (h : (batches.updateSrc b).toNat < n) (a : CCSketchAlg n w sp) :
    cpuUpdate xxh sp.numSamples batches a b =
      some (a.applyRawBucketsUpdate ⟨_,h⟩ (Kernel.deltaSketch xxh sp batches b).buckets) := by
  have hexact : StridedLoop.Exact (signed 32 64) 1 (batches.updateSizes b) :=
    StridedLoop.exact_signed (by decide) (by decide) hsize (by decide)
  have hdelta : deltaUpdate xxh sp batches b = some (Kernel.deltaSketch xxh sp batches b) := by
    have hrun := StridedLoop.run_range hexact
    change StridedLoop.run (signed 32 64) 1 _ _ 0 = _ at hrun
    rw [deltaUpdate,hrun,Kernel.deltaSketch,Kernel.dsts,List.foldl_map]
    rfl
  have hparams : deltaParams sp sp.numSamples = sp := rfl
  rw [cpuUpdate,dif_pos h,hparams,hdelta,Option.bind_some,rawBuckets,dif_pos (le_refl _)]
  rfl

theorem cpuUpdate_buckets (xxh : XxHash) (hn : n < 2 ^ 32) (batches : Kernel.Batches) (order : List ℕ)
    (hbatches : ∀ b ∈ order, (batches.updateSrc b).toNat < n ∧ batches.updateSizes b ≤ 2 ^ 31)
    (a : CCSketchAlg n w sp) :
    ∃ a', order.foldlM (cpuUpdate xxh sp.numSamples batches) a = some a' ∧ ∀ v,
      (a'.sketches v).buckets = (a.sketches v).buckets +
        (((order.map (batchOf batches)).filter (·.src = nodeId v)).map
          (streamDelta xxh sp)).sum := by
  induction order generalizing a with
  | nil => exact ⟨a,rfl,fun v => (add_zero _).symm⟩
  | cons b order ih =>
    obtain ⟨hb,hsize⟩ := hbatches b List.mem_cons_self
    obtain ⟨a',ha',hbuckets⟩ := ih (fun b' hb' => hbatches b' (List.mem_cons_of_mem _ hb'))
      (a.applyRawBucketsUpdate ⟨_,hb⟩ (Kernel.deltaSketch xxh sp batches b).buckets)
    have hid : nodeId (⟨_,hb⟩ : Fin n) = (batchOf batches b).src :=
      BitVec.eq_of_toNat_eq (nodeId_toNat hn _)
    refine ⟨a',?_,fun v => ?_⟩
    · rw [List.foldlM_cons,cpuUpdate_eq hsize hb]
      exact ha'
    · rw [hbuckets,List.map_cons,List.filter_cons]
      by_cases hv : (⟨_,hb⟩ : Fin n) = v
      · subst hv
        rw [if_pos (decide_eq_true hid.symm),List.map_cons,List.sum_cons,← add_assoc]
        simp only [CCSketchAlg.applyRawBucketsUpdate,Function.update_self,
          mergeRawBucketBuffer_buckets]
        rfl
      · have hne : ¬ (batchOf batches b).src = nodeId v := fun he =>
          hv (nodeId_injective hn (hid.trans he))
        rw [if_neg (by simpa using hne)]
        simp only [CCSketchAlg.applyRawBucketsUpdate,Function.update_of_ne (Ne.symm hv)]

theorem strided_ids {threads c : ℕ} (hthreads : 1 ≤ threads) (hid : c ≤ 2 ^ 31)
    (hthr : threads ≤ 2 ^ 31) :
    ∃ l, runAll (signed 32 64) threads c = some l ∧ l.Perm (List.range c) := by
  have hexact : StridedLoop.Exact (signed 32 64) threads c :=
    StridedLoop.exact_signed (by decide) (by decide) hid hthr
  exact StridedLoop.runAll_perm hexact hthreads

theorem Filled.src_lt (h : Filled calls off ids s) (hn : n < 2 ^ 32) {b : ℕ}
    (hb : b < s.batchCount) : ((mapReads s).updateSrc b).toNat < n := by
  rw [h.count] at hb
  have hbatch := congrArg StreamBatch.src (h.batchOf_eq (List.getElem?_eq_getElem hb))
  change (mapReads s).updateSrc b = nodeId (calls ids[b]).srcVertex at hbatch
  rw [hbatch,nodeId_toNat hn]
  exact Fin.isLt _

theorem Filled.size_le (h : Filled calls off ids s) (hsize : ∀ i, (calls i).size ≤ 2 ^ 31) {b : ℕ}
    (hb : b < s.batchCount) : (mapReads s).updateSizes b ≤ 2 ^ 31 := by
  rw [h.count] at hb
  have hmap : s.maps .batchSizes b = some (calls ids[b]).size := by
    rw [h.maps,List.getElem?_eq_getElem hb]
    rfl
  simp only [mapReads,hmap,Option.getD_some]
  exact hsize _

theorem Filled.cpu (h : Filled calls off ids s) (xxh : XxHash) (hn : n < 2 ^ 32)
    (hsize : ∀ i, (calls i).size ≤ 2 ^ 31) {threads : ℕ} (hthreads : 1 ≤ threads)
    (hid : Fintype.card ι ≤ 2 ^ 31) (hthr : threads ≤ 2 ^ 31) (a : CCSketchAlg n w sp) :
    (∃ a', LaunchCpuUpdate xxh sp.numSamples threads s a a') ∧
    ∀ a', LaunchCpuUpdate xxh sp.numSamples threads s a a' → ∀ v,
      (a'.sketches v).buckets = (a.sketches v).buckets +
        CC.received xxh sp v (Finset.univ.toList.flatMap fun i => (calls i).pairs) := by
  rw [← h.batchCount_eq] at hid
  obtain ⟨l,hl,hperm⟩ := strided_ids hthreads hid hthr
  have hrun {order : List ℕ} (horder : order.Perm (List.range s.batchCount)) :=
    cpuUpdate_buckets xxh hn (mapReads s) order (fun b hb =>
      have hlt := List.mem_range.mp (horder.mem_iff.mp hb)
      ⟨h.src_lt hn hlt,h.size_le hsize hlt⟩) a
  refine ⟨?_,?_⟩
  · obtain ⟨a',ha',_⟩ := hrun hperm
    exact ⟨a',l,l,hl,.refl _,ha'⟩
  · rintro a' ⟨l',order,hl',horder,ha'⟩ v
    obtain rfl : l = l' := Option.some.inj (hl.symm.trans hl')
    have hrange := horder.trans hperm
    obtain ⟨a'',ha'',hbuckets⟩ := hrun hrange
    obtain rfl : a' = a'' := Option.some.inj (ha'.symm.trans ha'')
    rw [hbuckets v,h.received hn v hrange]

theorem sum_flatten (delta : StreamBatch → Fin sp.numBuckets → Bucket) (batches : Kernel.Batches)
    (v : NodeId) (ls : List (List ℕ)) :
    (((ls.flatten.map (batchOf batches)).filter (·.src = v)).map delta).sum =
      (ls.map fun ids => (((ids.map (batchOf batches)).filter (·.src = v)).map delta).sum).sum := by
  induction ls with
  | nil => rfl
  | cons ids ls ih =>
    rw [List.flatten_cons,List.map_append,List.filter_append,List.map_append,List.sum_append,ih,
      List.map_cons,List.sum_cons]

theorem Filled.streams (h : Filled calls off ids s) (hn : n < 2 ^ 32) {W : ℕ} (hW : 1 ≤ W)
    (hid : Fintype.card ι ≤ 2 ^ 31) (hthr : W ≤ 2 ^ 31) {p : StreamParams}
    (hpos : 1 ≤ p.numBatchPerBuffer) (hfits : ∀ i, (calls i).size ≤ p.batchSize)
    {work : Fin W → List StreamBatch} (hwork : ∀ t : Fin W, launchGpuUpdate W s t = some (work t))
    (hfilled : p.cudaUVMEnabled = false → ∀ t, p.numBatchPerBuffer ≤ (work t).length)
    {st : Fin W → AsyncStream.Sys (CudaStream.Mem (Fin sp.numBuckets → Bucket)) CudaStream.HostAct
      CudaStream.Op}
    (hst : ∀ t, CudaStream.Completed p (streamDelta xxh sp) (work t) (st t)) (v : Fin n) :
    (deviceSketch p st v).buckets =
      CC.received xxh sp v (Finset.univ.toList.flatMap fun i => (calls i).pairs) := by
  rw [← h.batchCount_eq] at hid
  obtain ⟨l,hl,hperm⟩ := strided_ids hW hid hthr
  let strided (t : ℕ) := StridedLoop.run (signed 32 64) W s.batchCount (s.batchCount + 1)
    ((signed 32 64).wrap t)
  have hsome (t : Fin W) : strided t = some ((strided t).getD []) ∧
      work t = ((strided t).getD []).map (batchOf (mapReads s)) := by
    obtain ⟨ids',hids,hmap⟩ := Option.map_eq_some_iff.mp (hwork t)
    change strided t = some ids' at hids
    rw [hids]
    exact ⟨rfl,hmap.symm⟩
  have hflat : l = ((List.range W).map fun t => (strided t).getD []).flatten := by
    have hmapM := Kernel.mapM_of_some (f := strided) (g := fun t => (strided t).getD [])
      fun t ht => (hsome ⟨t,List.mem_range.mp ht⟩).1
    have hl' : ((List.range W).mapM strided).map List.flatten = some l := hl
    rw [hmapM] at hl'
    exact (Option.some.inj hl').symm
  have hmem (t : Fin W) (b : ℕ) (hb : b ∈ (strided t).getD []) : b < s.batchCount := by
    refine List.mem_range.mp (hperm.mem_iff.mp ?_)
    rw [hflat,List.mem_flatten]
    exact ⟨_,List.mem_map.mpr ⟨t,List.mem_range.mpr t.isLt,rfl⟩,hb⟩
  have hthread (t : Fin W) : (st t).mem.sketch (CudaStream.slot p (nodeId v)) =
      (((((strided t).getD []).map (batchOf (mapReads s))).filter (·.src = nodeId v)).map
        (streamDelta xxh sp)).sum := by
    rw [← (hsome t).2]
    refine (hst t).sketch hpos (fun huvm => hfilled huvm t) (fun b hb => ?_) _
    rw [(hsome t).2] at hb
    obtain ⟨k,hk,rfl⟩ := List.mem_map.mp hb
    have hlt := hmem t k hk
    rw [h.count] at hlt
    rw [h.batchOf_eq (List.getElem?_eq_getElem hlt)]
    change ((calls ids[k]).dstVertices.map nodeId).length ≤ p.batchSize
    rw [List.length_map]
    exact hfits _
  rw [← h.received hn v hperm,hflat,sum_flatten,List.map_map,Kernel.sum_range,
    ← Fin.sum_univ_eq_sum_range]
  change (∑ t, (st t).mem.sketch (CudaStream.slot p (nodeId v))) = _
  exact Finset.sum_congr rfl fun t _ => hthread t

end Launches

theorem received_calls [Fintype ι] (hn : n < 2 ^ 32) (calls : ι → Call n) (G : SimpleGraph (Fin n))
    [DecidableRel G.Adj] (hG : ∀ v u, G.Adj v u ↔ Odd (∑ i, (calls i).pairs.count (v,u)))
    (v : Fin n) :
    CC.received xxh sp v (Finset.univ.toList.flatMap fun i => (calls i).pairs) =
      setBuckets xxh sp (incident G v) := by
  rw [Driver.received_eq_setBuckets hn]
  refine congrArg _ (oddHalves_eq_incident fun u => ?_)
  rw [hG,List.count_flatMap]
  exact iff_of_eq (congrArg Odd (Finset.sum_map_toList Finset.univ _).symm)

def pairCalls (i : Fin 2) : Call 2 := ⟨i,[i.rev]⟩

end GraphZeppelin.Gpu.SKGPUSketchAlg
