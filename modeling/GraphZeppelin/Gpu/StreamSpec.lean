import GraphZeppelin.Gpu.StreamRace

namespace GraphZeppelin.Gpu.CudaStream

variable {D : Type*} {p : StreamParams} {delta : StreamBatch → D} {c : Control} {b : StreamBatch}
variable {done inflight cur : List StreamBatch} {m : Mem D}

def overwrite {α : Type*} : (ℕ → α) → ℕ → List α → ℕ → α
  | f, _, [] => f
  | f, i, x :: xs => overwrite (Function.update f i x) (i + 1) xs

theorem overwrite_below {α : Type*} {f : ℕ → α} {i j : ℕ} (xs : List α) (h : j < i) :
    overwrite f i xs j = f j := by
  induction xs generalizing f i with
  | nil => rfl
  | cons x xs ih =>
    rw [overwrite,ih (Nat.lt_succ_of_lt h)]
    exact Function.update_of_ne h.ne _ _

theorem map_overwrite {α : Type*} (f : ℕ → α) (i : ℕ) (xs : List α) :
    (List.range xs.length).map (fun k => overwrite f i xs (i + k)) = xs := by
  induction xs generalizing f i with
  | nil => rfl
  | cons x xs ih =>
    have hhead : overwrite f i (x :: xs) (i + 0) = x :=
      (overwrite_below xs (Nat.lt_succ_self i)).trans (Function.update_self i x f)
    have htail := ih (Function.update f i x) (i + 1)
    rw [List.length_cons,List.range_succ_eq_map,List.map_cons,hhead,List.map_map]
    refine congrArg (x :: ·) (Eq.trans (List.map_congr_left fun k _ => ?_) htail)
    rw [Function.comp_apply,overwrite,Nat.succ_eq_add_one,Nat.add_assoc,Nat.add_comm 1 k]

def filled (p : StreamParams) (c : Control) (b : StreamBatch) (m : Mem D) : Mem D :=
  {m with
    hEdgeUpdates := overwrite m.hEdgeUpdates c.batchOffset b.dsts
    hUpdateSizes := Function.update m.hUpdateSizes (startBatchId p c.bufferId + c.batchCount)
      b.dsts.length
    hUpdateSrc := Function.update m.hUpdateSrc (startBatchId p c.bufferId + c.batchCount) b.src
    hUpdateStartIndex := Function.update m.hUpdateStartIndex
      (startBatchId p c.bufferId + c.batchCount) (c.batchOffset - startIndex p c.bufferId)}

theorem eager_append (m : Mem D) (xs ys : List Act) :
    eager p delta m (xs ++ ys) = eager p delta (eager p delta m xs) ys :=
  AsyncStream.eager_append m xs ys

theorem eager_edgeFill (m : Mem D) (i : ℕ) (dsts : List NodeId) :
    eager p delta m ((edgeFill i dsts).map .host) =
      {m with hEdgeUpdates := overwrite m.hEdgeUpdates i dsts} := by
  induction dsts generalizing m i with
  | nil => rfl
  | cons dst dsts ih => exact ih (perform p (.writeEdge i dst) m) (i + 1)

theorem eager_fillBatch (m : Mem D) (c : Control) (b : StreamBatch) :
    eager p delta m ((fillBatch p c b).map .host) = filled p c b m := by
  rw [fillBatch,List.map_append,eager_append,eager_edgeFill]
  rfl

theorem eager_applyDeltas (m : Mem D) (batchId count : ℕ) :
    eager p delta m ((applyDeltas batchId count).map .host) =
      {m with applied := m.applied ++ (List.range count).map fun k =>
        (sketchIndex p (m.hUpdateSrc (batchId + k)),m.hBuckets k)} := by
  induction count with
  | zero => simp [applyDeltas,AsyncStream.eager]
  | succ count ih =>
    rw [applyDeltas,List.range_succ,List.map_append,List.map_append,eager_append]
    rw [applyDeltas] at ih
    rw [ih,List.map_append,← List.append_assoc]
    rfl

def transferred (p : StreamParams) (c : Control) (m : Mem D) : Mem D :=
  {m with
    dEdgeUpdates := copied m.dEdgeUpdates m.hEdgeUpdates (startIndex p c.bufferId)
      (c.batchOffset - startIndex p c.bufferId)
    dUpdateSizes := copied m.dUpdateSizes m.hUpdateSizes (startBatchId p c.bufferId) c.batchCount
    dUpdateSrc := copied m.dUpdateSrc m.hUpdateSrc (startBatchId p c.bufferId) c.batchCount
    dUpdateStartIndex := copied m.dUpdateStartIndex m.hUpdateStartIndex
      (startBatchId p c.bufferId) c.batchCount}

theorem eager_transferAndLaunch (m : Mem D) (c : Control) :
    eager p delta m ((transferAndLaunch p c).map .enqueue) =
      exec p delta (.sketchUpdate c.batchCount) (transferred p c m) := rfl

def hostBatch (p : StreamParams) (m : Mem D) (bufferId : Bool) (j : ℕ) : StreamBatch :=
  readBatch (fun k => m.hEdgeUpdates (startIndex p bufferId + k))
    (fun j => m.hUpdateSizes (startBatchId p bufferId + j))
    (fun j => m.hUpdateSrc (startBatchId p bufferId + j))
    (fun j => m.hUpdateStartIndex (startBatchId p bufferId + j)) j

structure Stored (p : StreamParams) (cur : List StreamBatch) (m : Mem D) (c : Control) : Prop where
  count : c.batchCount = cur.length
  lo : startIndex p c.bufferId ≤ c.batchOffset
  batches : (List.range cur.length).map (hostBatch p m c.bufferId) = cur
  inside : ∀ j < cur.length,
    m.hUpdateStartIndex (startBatchId p c.bufferId + j) +
      m.hUpdateSizes (startBatchId p c.bufferId + j) ≤ c.batchOffset - startIndex p c.bufferId

theorem stored_empty (m : Mem D) (bufferId first : Bool) :
    Stored p [] m ⟨bufferId,startIndex p bufferId,0,first⟩ :=
  ⟨rfl,le_rfl,rfl,fun _ hj => absurd hj (Nat.not_lt_zero _)⟩

theorem hostBatch_filled_of_lt (h : Stored p cur m c) {j : ℕ} (hj : j < cur.length) :
    hostBatch p (filled p c b m) c.bufferId j = hostBatch p m c.bufferId j := by
  have hne : startBatchId p c.bufferId + j ≠ startBatchId p c.bufferId + c.batchCount := by
    have hcount := h.count
    omega
  have hin := h.inside j hj
  have hlo := h.lo
  unfold hostBatch readBatch filled
  simp only [Function.update_of_ne hne]
  congr 1
  refine List.map_congr_left fun k hk => ?_
  have hk := List.mem_range.mp hk
  exact overwrite_below _ (by omega)

theorem hostBatch_filled_self (h : Stored p cur m c) :
    hostBatch p (filled p c b m) c.bufferId cur.length = b := by
  have hoff : startIndex p c.bufferId + (c.batchOffset - startIndex p c.bufferId) =
      c.batchOffset := Nat.add_sub_cancel' h.lo
  have hdsts := map_overwrite m.hEdgeUpdates c.batchOffset b.dsts
  unfold hostBatch readBatch filled
  simp only [h.count,Function.update_self,← Nat.add_assoc,hoff,hdsts]

theorem Stored.fill (h : Stored p cur m c) (b : StreamBatch) :
    Stored p (cur ++ [b]) (filled p c b m) (counted c b) := by
  have hcount := h.count
  have hlo := h.lo
  refine ⟨?_,?_,?_,?_⟩
  · rw [List.length_append,List.length_singleton,← hcount]
    rfl
  · exact hlo.trans (Nat.le_add_right _ _)
  · rw [List.length_append,List.length_singleton,List.range_succ,List.map_append,List.map_singleton]
    refine congrArg₂ (· ++ ·) (Eq.trans (List.map_congr_left fun j hj => ?_) h.batches)
      (congrArg (fun x => [x]) (hostBatch_filled_self h))
    exact hostBatch_filled_of_lt h (List.mem_range.mp hj)
  · intro j hj
    rw [List.length_append,List.length_singleton] at hj
    rcases Nat.lt_succ_iff_lt_or_eq.mp hj with hj | rfl
    · have hne : startBatchId p c.bufferId + j ≠ startBatchId p c.bufferId + c.batchCount := by
        omega
      have hin := h.inside j hj
      simp only [filled,counted,Function.update_of_ne hne]
      omega
    · simp only [filled,counted,hcount,Function.update_self]
      omega

theorem deviceBatch_transferred (h : Stored p cur m c) {j : ℕ} (hj : j < cur.length) :
    deviceBatch (transferred p c m) j = hostBatch p m c.bufferId j := by
  have hin := h.inside j hj
  have hj' : j < c.batchCount := by
    rw [h.count]
    exact hj
  unfold deviceBatch hostBatch readBatch transferred copied
  simp only [if_pos hj']
  congr 1
  refine List.map_congr_left fun k hk => ?_
  have hk := List.mem_range.mp hk
  exact if_pos (by omega)

theorem map_deviceBatch_transferred (h : Stored p cur m c) :
    (List.range c.batchCount).map (deviceBatch (transferred p c m)) = cur := by
  rw [h.count]
  exact (List.map_congr_left fun j hj =>
    deviceBatch_transferred h (List.mem_range.mp hj)).trans h.batches

def entry (p : StreamParams) (delta : StreamBatch → D) (b : StreamBatch) : NodeId × D :=
  (if p.cudaUVMEnabled then b.src else sketchIndex p b.src,delta b)

def Returned (delta : StreamBatch → D) (batchId : ℕ) (batches : List StreamBatch) (m : Mem D) :
    Prop :=
  (List.range batches.length).map (fun k => (m.hUpdateSrc (batchId + k),m.hBuckets k)) =
    batches.map fun b => (b.src,delta b)

theorem Returned.entries {batchId : ℕ} {batches : List StreamBatch}
    (h : Returned delta batchId batches m) (huvm : p.cudaUVMEnabled = false) :
    (List.range batches.length).map (fun k =>
      (sketchIndex p (m.hUpdateSrc (batchId + k)),m.hBuckets k)) = batches.map (entry p delta) := by
  have hmap := congrArg (List.map (Prod.map (sketchIndex p) id)) h
  rw [List.map_map,List.map_map] at hmap
  refine Eq.trans hmap (List.map_congr_left fun b _ => ?_)
  simp [entry,huvm]

structure Collected (p : StreamParams) (delta : StreamBatch → D) (cur : List StreamBatch)
    (c : Control) (m m' : Mem D) : Prop where
  applied : m'.applied = m.applied
  launched : m'.launched = m.launched ++ cur
  returned : Returned delta (startBatchId p c.bufferId) cur m'

theorem collected (delta : StreamBatch → D) (huvm : p.cudaUVMEnabled = false) (h : Stored p cur m c) :
    Collected p delta cur c m
      (eager p delta m ((transferAndLaunch p c ++ [Op.copyBuckets c.batchCount]).map .enqueue)) := by
  have hbatches := map_deviceBatch_transferred h
  rw [List.map_append,eager_append,eager_transferAndLaunch]
  simp only [exec,huvm]
  refine ⟨rfl,congrArg (m.launched ++ ·) hbatches,?_⟩
  have hmap := congrArg (List.map fun b => (b.src,delta b)) hbatches
  rw [List.map_map,h.count] at hmap
  refine Eq.trans (List.map_congr_left fun k hk => ?_) hmap
  have hk' : k < c.batchCount := by
    rw [h.count]
    exact List.mem_range.mp hk
  have hsrc : (deviceBatch (transferred p c m) k).src =
      m.hUpdateSrc (startBatchId p c.bufferId + k) := if_pos hk'
  refine Prod.ext hsrc.symm ?_
  refine Eq.trans (if_pos hk') ?_
  rw [Nat.zero_add]
  exact if_pos hk'

structure Pipe (p : StreamParams) (delta : StreamBatch → D) (done inflight cur : List StreamBatch)
    (m : Mem D) (c : Control) : Prop where
  stored : Stored p cur m c
  applied : m.applied = done.map (entry p delta)
  launched : m.launched = done ++ inflight
  returned : Returned delta (startBatchId p (!c.bufferId)) inflight m
  first : c.firstBuffer = true ↔ inflight = []
  size : inflight ≠ [] → inflight.length = p.numBatchPerBuffer ∧ p.cudaUVMEnabled = false
  idle : p.cudaUVMEnabled = false → inflight = [] → done = []

theorem pipe_created (delta : StreamBatch → D) (hm : m.Created) : Pipe p delta [] [] [] m Control.created := by
  have hstart : startIndex p false = 0 := by simp [startIndex]
  have hstored := stored_empty (p := p) m false true
  rw [hstart] at hstored
  exact ⟨hstored,hm.applied,hm.launched,rfl,⟨fun _ => rfl,fun _ => rfl⟩,fun h => absurd rfl h,
    fun _ _ => rfl⟩

theorem startBatchId_ne (bufferId : Bool) {i j : ℕ} (hi : i < p.numBatchPerBuffer)
    (hj : j < p.numBatchPerBuffer) : startBatchId p (!bufferId) + i ≠ startBatchId p bufferId + j := by
  cases bufferId <;> simp only [startBatchId,Bool.not_true,Bool.not_false,Bool.toNat_true,
    Bool.toNat_false] <;> omega

theorem Pipe.fill (h : Pipe p delta done inflight cur m c) (hc : c.batchCount < p.numBatchPerBuffer)
    (b : StreamBatch) :
    Pipe p delta done inflight (cur ++ [b]) (filled p c b m) (counted c b) := by
  refine ⟨h.stored.fill b,h.applied,h.launched,?_,h.first,h.size,h.idle⟩
  refine Eq.trans (List.map_congr_left fun k hk => ?_) h.returned
  have hk := List.mem_range.mp hk
  have hsize := (h.size (List.ne_nil_of_length_pos (Nat.zero_lt_of_lt hk))).1
  have hne := startBatchId_ne (p := p) c.bufferId (hsize ▸ hk) hc
  exact congrArg (·,m.hBuckets k) (Function.update_of_ne hne _ _)

theorem Pipe.eager_deltas (h : Pipe p delta done inflight cur m c) (hne : inflight ≠ []) :
    eager p delta m ((applyDeltas (startBatchId p (!c.bufferId)) p.numBatchPerBuffer).map .host) =
      {m with applied := (done ++ inflight).map (entry p delta)} := by
  obtain ⟨hsize,huvm⟩ := h.size hne
  have hentries := h.returned.entries huvm
  rw [hsize] at hentries
  rw [eager_applyDeltas,hentries,h.applied,List.map_append]

theorem Pipe.eager_previousDeltas (huvm : p.cudaUVMEnabled = false)
    (h : Pipe p delta done inflight cur m c) :
    eager p delta m ((previousDeltas p c).map .host) =
      {m with applied := (done ++ inflight).map (entry p delta)} := by
  unfold previousDeltas
  split
  · rename_i hfirst
    have hnil := h.first.mp hfirst
    rw [h.idle huvm hnil,hnil]
    have happ := h.applied
    rw [h.idle huvm hnil] at happ
    exact congrArg (fun xs => {m with applied := xs}) happ
  · rename_i hfirst
    exact h.eager_deltas fun hnil => hfirst (h.first.mpr hnil)

theorem Stored.congr (h : Stored p cur m c) (applied : List (NodeId × D)) :
    Stored p cur {m with applied := applied} c := ⟨h.count,h.lo,h.batches,h.inside⟩

theorem Pipe.launchDefault (huvm : p.cudaUVMEnabled = false)
    (h : Pipe p delta done inflight cur m c) (hcount : c.batchCount = p.numBatchPerBuffer)
    (hpos : 0 < p.numBatchPerBuffer) :
    Pipe p delta (done ++ inflight) cur []
      (eager p delta m ((previousDeltas p c).map .host ++
        (transferAndLaunch p c ++ [Op.copyBuckets p.numBatchPerBuffer]).map .enqueue))
      ⟨!c.bufferId,startIndex p (!c.bufferId),0,false⟩ := by
  have hcur : cur ≠ [] := by
    rintro rfl
    have hzero := h.stored.count
    simp only [List.length_nil] at hzero
    omega
  have hcol := collected delta huvm
    (h.stored.congr ((done ++ inflight).map (entry p delta)))
  rw [hcount] at hcol
  rw [eager_append,h.eager_previousDeltas huvm]
  refine ⟨stored_empty _ _ _,hcol.applied,?_,?_,⟨(fun h => by cases h),fun h => absurd h hcur⟩,
    fun _ => ⟨h.stored.count.symm.trans hcount,huvm⟩,fun _ h => absurd h hcur⟩
  · rw [hcol.launched]
    exact congrArg (· ++ cur) h.launched
  · rw [Bool.not_not]
    exact hcol.returned

theorem launchedUVM (delta : StreamBatch → D) (huvm : p.cudaUVMEnabled = true) (h : Stored p cur m c) :
    (eager p delta m ((transferAndLaunch p c).map .enqueue)).applied =
        m.applied ++ cur.map (entry p delta) ∧
      (eager p delta m ((transferAndLaunch p c).map .enqueue)).launched = m.launched ++ cur := by
  have hbatches := map_deviceBatch_transferred h
  have hmap := congrArg (List.map (entry p delta)) hbatches
  rw [List.map_map] at hmap
  rw [eager_transferAndLaunch]
  simp only [exec,huvm]
  refine ⟨congrArg (m.applied ++ ·) (Eq.trans (List.map_congr_left fun k _ => ?_) hmap),
    congrArg (m.launched ++ ·) hbatches⟩
  simp [entry,huvm]

theorem Pipe.inflight_nil (huvm : p.cudaUVMEnabled = true)
    (h : Pipe p delta done inflight cur m c) : inflight = [] := by
  by_contra hne
  have hfalse := (h.size hne).2
  rw [huvm] at hfalse
  cases hfalse

theorem Pipe.launchUVM (huvm : p.cudaUVMEnabled = true)
    (h : Pipe p delta done inflight cur m c) :
    Pipe p delta (done ++ cur) [] []
      (eager p delta m ((transferAndLaunch p c).map .enqueue))
      ⟨!c.bufferId,startIndex p (!c.bufferId),0,c.firstBuffer⟩ := by
  obtain rfl := h.inflight_nil huvm
  obtain ⟨happ,hlaunch⟩ := launchedUVM delta huvm h.stored
  refine ⟨stored_empty _ _ _,?_,?_,rfl,h.first,fun h => absurd rfl h,fun hd => ?_⟩
  · rw [happ,h.applied,List.map_append]
  · rw [hlaunch,h.launched,List.append_nil,List.append_nil]
  · rw [huvm] at hd
    cases hd

theorem Pipe.processBatch (h : Pipe p delta done inflight cur m c)
    (hc : c.batchCount < p.numBatchPerBuffer) (b : StreamBatch) :
    ∃ done' inflight' cur', done' ++ inflight' ++ cur' = done ++ inflight ++ cur ++ [b] ∧
      Pipe p delta done' inflight' cur' (eager p delta m (processBatch p c b).1)
        (processBatch p c b).2 := by
  have hfill := h.fill hc b
  have hpos : 0 < p.numBatchPerBuffer := Nat.zero_lt_of_lt hc
  cases huvm : p.cudaUVMEnabled with
  | true =>
    simp only [CudaStream.processBatch,huvm,if_true]
    by_cases hfull : (counted c b).batchCount = p.numBatchPerBuffer
    · rw [processBatchUVM_full hfull,eager_append,eager_fillBatch]
      obtain rfl := h.inflight_nil huvm
      refine ⟨done ++ (cur ++ [b]),[],[],?_,hfill.launchUVM huvm⟩
      simp only [List.append_nil,List.append_assoc]
    · rw [processBatchUVM_room hfull,eager_fillBatch]
      exact ⟨done,inflight,cur ++ [b],(List.append_assoc _ _ _).symm,hfill⟩
  | false =>
    simp only [CudaStream.processBatch,huvm,Bool.false_eq_true,if_false]
    by_cases hfull : (counted c b).batchCount = p.numBatchPerBuffer
    · rw [processBatchDefault_full hfull,eager_append,eager_fillBatch]
      refine ⟨done ++ inflight,cur ++ [b],[],?_,hfill.launchDefault huvm hfull hpos⟩
      simp only [List.append_nil,List.append_assoc]
    · rw [processBatchDefault_room hfull,eager_fillBatch]
      exact ⟨done,inflight,cur ++ [b],(List.append_assoc _ _ _).symm,hfill⟩

structure Covered (p : StreamParams) (delta : StreamBatch → D) (batches : List StreamBatch)
    (m : Mem D) : Prop where
  applied : m.applied = batches.map (entry p delta)
  launched : m.launched = batches

theorem Pipe.flushBuffersUVM (huvm : p.cudaUVMEnabled = true)
    (h : Pipe p delta done inflight cur m c) :
    Covered p delta (done ++ inflight ++ cur) (eager p delta m (flushBuffersUVM p c)) := by
  obtain rfl := h.inflight_nil huvm
  rw [List.append_nil]
  unfold CudaStream.flushBuffersUVM
  split
  · rename_i hzero
    have hlen := h.stored.count
    rw [hzero] at hlen
    obtain rfl := List.eq_nil_of_length_eq_zero hlen.symm
    rw [List.append_nil]
    exact ⟨h.applied,h.launched.trans (List.append_nil done)⟩
  · obtain ⟨happ,hlaunch⟩ := launchedUVM delta huvm h.stored
    refine ⟨?_,?_⟩
    · rw [happ,h.applied,List.map_append]
    · rw [hlaunch,h.launched,List.append_nil]

theorem Pipe.flushBuffersDefault (huvm : p.cudaUVMEnabled = false)
    (h : Pipe p delta done inflight cur m c) (hne : inflight ≠ []) :
    Covered p delta (done ++ inflight ++ cur) (eager p delta m (flushBuffersDefault p c)) := by
  have hsplit : ∀ rest, eager p delta m (.sync ::
      ((applyDeltas (startBatchId p (!c.bufferId)) p.numBatchPerBuffer).map .host ++ rest)) =
      eager p delta {m with applied := (done ++ inflight).map (entry p delta)} rest := by
    intro rest
    rw [← h.eager_deltas hne]
    exact eager_append m _ rest
  unfold CudaStream.flushBuffersDefault
  rw [hsplit]
  split
  · rename_i hzero
    have hlen := h.stored.count
    rw [hzero] at hlen
    obtain rfl := List.eq_nil_of_length_eq_zero hlen.symm
    rw [List.append_nil]
    exact ⟨rfl,h.launched⟩
  · have hcol := collected delta huvm
      (h.stored.congr ((done ++ inflight).map (entry p delta)))
    have hentries := hcol.returned.entries huvm
    have hsync : ∀ m' : Mem D, eager p delta m'
        (.sync :: (applyDeltas (startBatchId p c.bufferId) c.batchCount).map .host) =
          eager p delta m' ((applyDeltas (startBatchId p c.bufferId) c.batchCount).map .host) :=
      fun _ => rfl
    rw [eager_append,hsync,eager_applyDeltas,h.stored.count]
    rw [h.stored.count] at hcol hentries
    refine ⟨?_,?_⟩
    · rw [hentries,hcol.applied]
      exact List.map_append.symm
    · rw [hcol.launched]
      exact congrArg (· ++ cur) h.launched

theorem Pipe.flushBuffers (h : Pipe p delta done inflight cur m c)
    (hne : p.cudaUVMEnabled = false → inflight ≠ []) :
    Covered p delta (done ++ inflight ++ cur) (eager p delta m (flushBuffers p c)) := by
  unfold CudaStream.flushBuffers
  split
  · rename_i huvm
    exact h.flushBuffersUVM huvm
  · rename_i huvm
    have huvm := eq_false_of_ne_true huvm
    exact h.flushBuffersDefault huvm (hne huvm)

theorem placed_processBatch (h : Placed p c) (hb : b.dsts.length ≤ p.batchSize) :
    Placed p (processBatch p c b).2 :=
  (processBatch_synced OtherHalf.apart ⟨h,clear_nil⟩ hb).2.placed

theorem Pipe.batches (batches : List StreamBatch)
    (hfits : ∀ b ∈ batches, b.dsts.length ≤ p.batchSize) (hc : Placed p c)
    (h : Pipe p delta done inflight cur m c) :
    ∃ done' inflight' cur', done' ++ inflight' ++ cur' = done ++ inflight ++ cur ++ batches ∧
      Placed p (controlAfter p c (batches.map .processBatch)) ∧
      Pipe p delta done' inflight' cur'
        (eager p delta m (program p c (batches.map .processBatch)))
        (controlAfter p c (batches.map .processBatch)) := by
  induction batches generalizing c m done inflight cur with
  | nil => exact ⟨done,inflight,cur,(List.append_nil _).symm,hc,h⟩
  | cons b batches ih =>
    obtain ⟨d₁,i₁,c₁,heq,hpipe⟩ := h.processBatch hc.count b
    have hplaced := placed_processBatch hc (hfits b List.mem_cons_self)
    obtain ⟨d₂,i₂,c₂,heq₂,hplaced₂,hpipe₂⟩ :=
      ih (fun x hx => hfits x (List.mem_cons_of_mem _ hx)) hplaced hpipe
    refine ⟨d₂,i₂,c₂,?_,hplaced₂,?_⟩
    · rw [heq₂,heq,List.append_assoc,List.singleton_append]
    · rw [List.map_cons,program,eager_append]
      exact hpipe₂

def InBounds (p : StreamParams) : HostAct → Prop
  | .writeEdge i _ => i < 2 * (p.numBatchPerBuffer * p.batchSize)
  | .writeSize i _ | .writeSrc i _ | .writeStart i _ => i < 2 * p.numBatchPerBuffer
  | .applyRawBuckets i slot => i < 2 * p.numBatchPerBuffer ∧ slot < p.numBatchPerBuffer

theorem startIndex_le (bufferId : Bool) :
    startIndex p bufferId ≤ p.numBatchPerBuffer * p.batchSize := by
  cases bufferId <;> simp [startIndex]

theorem startBatchId_le (bufferId : Bool) : startBatchId p bufferId ≤ p.numBatchPerBuffer := by
  cases bufferId <;> simp [startBatchId]

theorem InWindow.inBounds {a : HostAct} (h : InWindow p c a) : InBounds p a := by
  have hedge := startIndex_le (p := p) c.bufferId
  have hslot := startBatchId_le (p := p) c.bufferId
  cases a with
  | applyRawBuckets i slot => exact h.elim
  | writeEdge i dst => exact lt_of_lt_of_le h.2 (by omega)
  | _ => exact lt_of_lt_of_le h.2 (by omega)

theorem inBounds_applyDeltas {bufferId : Bool} {count : ℕ} (hcount : count ≤ p.numBatchPerBuffer)
    {a : HostAct} (ha : a ∈ applyDeltas (startBatchId p bufferId) count) : InBounds p a := by
  have hslot := startBatchId_le (p := p) bufferId
  obtain ⟨k,hk,rfl⟩ := List.mem_map.mp ha
  have hk := List.mem_range.mp hk
  exact ⟨by omega,by omega⟩

theorem inBounds_previousDeltas {a : HostAct} (ha : a ∈ previousDeltas p c) : InBounds p a := by
  unfold previousDeltas at ha
  split at ha
  · cases ha
  · exact inBounds_applyDeltas le_rfl ha

theorem inBounds_processBatch (h : Placed p c) (hb : b.dsts.length ≤ p.batchSize) {a : HostAct}
    (ha : .host a ∈ (processBatch p c b).1) : InBounds p a := by
  have hfill : .host a ∈ (fillBatch p c b).map (AsyncStream.Act.host (O := Op)) → InBounds p a := by
    intro hmem
    obtain ⟨a',ha',heq⟩ := List.mem_map.mp hmem
    cases heq
    exact (inWindow_of_mem_fillBatch h hb ha').inBounds
  unfold processBatch at ha
  split at ha
  · by_cases hfull : (counted c b).batchCount = p.numBatchPerBuffer
    · rw [processBatchUVM_full hfull] at ha
      simp only [List.mem_append,List.mem_cons,reduceCtorEq,List.mem_map,and_false,exists_false,
        or_false] at ha
      exact hfill (List.mem_map.mpr ha)
    · rw [processBatchUVM_room hfull] at ha
      exact hfill ha
  · by_cases hfull : (counted c b).batchCount = p.numBatchPerBuffer
    · rw [processBatchDefault_full hfull] at ha
      rcases List.mem_append.mp ha with ha | ha
      · exact hfill ha
      · simp only [List.mem_append,List.mem_cons,reduceCtorEq,List.mem_map,and_false,exists_false,
          or_false,false_or,AsyncStream.Act.host.injEq,exists_eq_right] at ha
        exact inBounds_previousDeltas ha
    · rw [processBatchDefault_room hfull] at ha
      exact hfill ha

theorem inBounds_flushBuffers (h : Placed p c) {a : HostAct} (ha : .host a ∈ flushBuffers p c) :
    InBounds p a := by
  unfold flushBuffers at ha
  split at ha
  · unfold flushBuffersUVM at ha
    split at ha <;> simp at ha
  · unfold flushBuffersDefault at ha
    simp only [List.mem_append,List.mem_cons,reduceCtorEq,false_or,List.mem_map,
      AsyncStream.Act.host.injEq,exists_eq_right] at ha
    rcases ha with ha | ha
    · exact inBounds_applyDeltas le_rfl ha
    · split at ha
      · cases ha
      · simp only [List.mem_append,List.mem_cons,reduceCtorEq,List.mem_map,and_false,exists_false,
          false_or,AsyncStream.Act.host.injEq,exists_eq_right] at ha
        exact inBounds_applyDeltas h.count.le ha

theorem inBounds_program (calls : List Call) (hfits : ∀ call ∈ calls, Fits p call)
    (h : Placed p c) {a : HostAct} (ha : .host a ∈ program p c calls) : InBounds p a := by
  induction calls generalizing c with
  | nil => cases ha
  | cons call calls ih =>
    have hrest : ∀ call ∈ calls, Fits p call := fun x hx => hfits x (List.mem_cons_of_mem _ hx)
    have hcall := hfits call List.mem_cons_self
    rcases List.mem_append.mp ha with ha | ha
    · cases call with
      | processBatch b => exact inBounds_processBatch h hcall ha
      | flushBuffers => exact inBounds_flushBuffers h ha
    · cases call with
      | processBatch b => exact ih hrest (placed_processBatch h hcall) ha
      | flushBuffers => exact ih hrest h ha

theorem sketchIndex_injective : Function.Injective (sketchIndex p) := fun _ _ h => add_left_cancel h

theorem sketch_of_applied [AddCommMonoid D] {batches : List StreamBatch}
    (h : m.applied = batches.map fun b => (sketchIndex p b.src,delta b)) (v : NodeId) :
    m.sketch (sketchIndex p v) = ((batches.filter (·.src = v)).map delta).sum := by
  have hsrc : (fun b : StreamBatch => decide (sketchIndex p b.src = sketchIndex p v)) =
      fun b => decide (b.src = v) :=
    funext fun b => decide_eq_decide.mpr sketchIndex_injective.eq_iff
  rw [Mem.sketch,h,List.filter_map,List.map_map]
  exact congrArg (fun f => ((batches.filter f).map delta).sum) hsrc

theorem applied_flushed (huvm : p.cudaUVMEnabled = false) (hpos : 0 < p.numBatchPerBuffer)
    (hm : m.Created) {batches : List StreamBatch} (hlen : p.numBatchPerBuffer ≤ batches.length)
    (hfits : ∀ b ∈ batches, b.dsts.length ≤ p.batchSize) :
    (eager p delta m (program p Control.created
      (batches.map .processBatch ++ [.flushBuffers]))).applied =
        batches.map fun b => (sketchIndex p b.src,delta b) := by
  obtain ⟨d,i,cur,heq,hplaced,hpipe⟩ :=
    (pipe_created delta hm).batches batches hfits (placed_created hpos)
  rw [List.append_nil,List.append_nil,List.nil_append] at heq
  have hne : i ≠ [] := by
    intro hnil
    have hcount := hplaced.count
    rw [hpipe.stored.count] at hcount
    rw [hpipe.idle huvm hnil,hnil,List.append_nil,List.nil_append] at heq
    rw [heq] at hcount
    exact absurd hlen (Nat.not_le_of_lt hcount)
  have hflush := (hpipe.flushBuffers fun _ => hne).applied
  rw [program_append,eager_append,program,program,List.append_nil]
  refine Eq.trans hflush ?_
  rw [heq]
  exact List.map_congr_left fun b _ => by simp [entry,huvm]

theorem pipeline_applies_each_batch_once [AddCommMonoid D] (delta : StreamBatch → D)
    (huvm : p.cudaUVMEnabled = false) (hpos : 1 ≤ p.numBatchPerBuffer) {m : Mem D} (hm : m.Created)
    {batches : List StreamBatch} (hlen : p.numBatchPerBuffer ≤ batches.length)
    (hfits : ∀ b ∈ batches, b.dsts.length ≤ p.batchSize) {sides : List AsyncStream.Side}
    {s : AsyncStream.Sys (Mem D) HostAct Op}
    (hrun : Trace.run (step p delta)
      (started p m (batches.map .processBatch ++ [.flushBuffers])) sides = some s) :
    (∀ a rest, s.todo = .host a :: rest →
      InBounds p a ∧ ∀ o ∈ s.pending, Free p OtherHalf a o) ∧
    (s.todo = [] → s.mem.applied = batches.map (fun b => (sketchIndex p b.src,delta b)) ∧
      ∀ v, s.mem.sketch (sketchIndex p v) = ((batches.filter (·.src = v)).map delta).sum) ∧
    (s.todo ≠ [] → ∃ side s', step p delta s side = some s') ∧
    sides.length ≤
      2 * (program p Control.created (batches.map .processBatch ++ [.flushBuffers])).length := by
  have hplaced := placed_created hpos
  obtain ⟨hsync,hout⟩ := batches_flush_synced huvm batches hfits ⟨hplaced,clear_nil⟩
  have hcalls : ∀ call ∈ batches.map Call.processBatch ++ [.flushBuffers], Fits p call := by
    intro call hcall
    rcases List.mem_append.mp hcall with hcall | hcall
    · obtain ⟨b,hb,rfl⟩ := List.mem_map.mp hcall
      exact hfits b hb
    · obtain rfl := List.mem_singleton.mp hcall
      trivial
  have hrace := AsyncStream.race_run (fun a o h => h.apart.commutes) hsync hrun
  have hsettle : AsyncStream.Settling s := AsyncStream.settling_run hout hrun
  have hwithin := AsyncStream.within_run hrun
  refine ⟨?_,?_,?_,?_⟩
  · intro a rest htodo
    have hmem : .host a ∈ program p Control.created
        (batches.map .processBatch ++ [.flushBuffers]) :=
      hwithin.subset (htodo ▸ List.mem_cons_self)
    refine ⟨inBounds_program _ hcalls hplaced hmem,?_⟩
    have hfree := hrace.synced
    rw [htodo] at hfree
    exact hfree.1
  · intro htodo
    have hpending : s.pending = [] := by
      have hnil := hsettle
      rw [AsyncStream.Settling,htodo] at hnil
      exact hnil
    have hmem := hrace.result
    rw [htodo,hpending] at hmem
    have happ : s.mem.applied = batches.map fun b => (sketchIndex p b.src,delta b) :=
      (congrArg Mem.applied hmem).trans (applied_flushed huvm hpos hm hlen hfits)
    exact ⟨happ,sketch_of_applied happ⟩
  · intro htodo
    refine AsyncStream.enabled fun hwork => htodo ?_
    rw [AsyncStream.work] at hwork
    exact List.eq_nil_of_length_eq_zero (by omega)
  · have hle := AsyncStream.length_le_work hrun
    simp only [AsyncStream.work,AsyncStream.start,List.length_nil] at hle
    omega

def blankMem (junk : D) : Mem D where
  hEdgeUpdates := fun _ => 0
  hUpdateSizes := fun _ => 0
  hUpdateSrc := fun _ => 0
  hUpdateStartIndex := fun _ => 0
  dEdgeUpdates := fun _ => 0
  dUpdateSizes := fun _ => 0
  dUpdateSrc := fun _ => 0
  dUpdateStartIndex := fun _ => 0
  dBuckets := fun _ => junk
  hBuckets := fun _ => junk
  applied := []
  launched := []

theorem blankMem_created (junk : D) : (blankMem junk).Created := ⟨rfl,rfl,rfl,rfl,rfl,rfl⟩

def sampleParams : StreamParams := ⟨1,1,1,4,false,by decide⟩

def sampleDelta (b : StreamBatch) : ℤ := b.src.toNat + 10 * b.dsts.length

def sampleSides : List AsyncStream.Side :=
  [List.replicate 11 .host,List.replicate 2 .device,List.replicate 3 .host,List.replicate 4 .device,
    List.replicate 8 .host,List.replicate 6 .device,List.replicate 2 .host].flatten

theorem pipeline_applies_two_batches :
    ∃ s, Trace.run (step sampleParams sampleDelta)
        (started sampleParams (blankMem 7)
          (List.map Call.processBatch [⟨2,[3]⟩,⟨3,[]⟩] ++ [.flushBuffers])) sampleSides = some s ∧
      s.todo = [] ∧ s.mem.sketch (sketchIndex sampleParams 2) = 12 := by
  have hsome : (Trace.run (step sampleParams sampleDelta)
      (started sampleParams (blankMem 7)
        (List.map Call.processBatch [⟨2,[3]⟩,⟨3,[]⟩] ++ [.flushBuffers])) sampleSides).any
          (·.todo.isEmpty) = true := by decide
  obtain ⟨s,hrun,htodo⟩ := (Option.any_eq_true _ _).mp hsome
  have htodo : s.todo = [] := List.isEmpty_iff.mp htodo
  have hall := pipeline_applies_each_batch_once sampleDelta rfl le_rfl (blankMem_created 7)
    (by decide) (by decide) hrun
  refine ⟨s,hrun,htodo,?_⟩
  rw [(hall.2.1 htodo).2 2]
  rfl

end GraphZeppelin.Gpu.CudaStream
