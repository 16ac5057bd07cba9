import GraphZeppelin.Gpu.Stream

namespace GraphZeppelin.Gpu.CudaStream
open AsyncStream (Synced outstanding synced_append synced_host synced_enqueue outstanding_append
  outstanding_host outstanding_enqueue)

variable {D : Type*} {p : StreamParams} {delta : StreamBatch → D} {c : Control} {b : StreamBatch}
variable {out : List Op} {R : ℕ → ℕ → ℕ → ℕ → Prop}

def OtherHalf (size i start len : ℕ) : Prop :=
  ∃ half : Bool, start = half.toNat * size ∧ len ≤ size ∧
    (!half).toNat * size ≤ i ∧ i < (!half).toNat * size + size

def Apart (_ i start len : ℕ) : Prop := i < start ∨ start + len ≤ i

theorem OtherHalf.apart {size i start len : ℕ} (h : OtherHalf size i start len) :
    Apart size i start len := by
  obtain ⟨half,rfl,hlen,hlo,hhi⟩ := h
  cases half with
  | false =>
    right
    simp only [Bool.not_false,Bool.toNat_true,Bool.toNat_false] at hlo ⊢
    omega
  | true =>
    left
    simp only [Bool.not_true,Bool.toNat_true,Bool.toNat_false] at hhi ⊢
    omega

def Free (p : StreamParams) (R : ℕ → ℕ → ℕ → ℕ → Prop) : HostAct → Op → Prop
  | .writeEdge i _, .copyEdges start len => R (p.numBatchPerBuffer * p.batchSize) i start len
  | .writeSize i _, .copySizes start len => R p.numBatchPerBuffer i start len
  | .writeSrc i _, .copySrc start len => R p.numBatchPerBuffer i start len
  | .writeStart i _, .copyStarts start len => R p.numBatchPerBuffer i start len
  | .applyRawBuckets _ _, .sketchUpdate _ => p.cudaUVMEnabled = false
  | .applyRawBuckets _ _, .copyBuckets _ => False
  | _, _ => True

theorem Free.apart {a : HostAct} {o : Op} (h : Free p OtherHalf a o) : Free p Apart a o := by
  cases a <;> cases o <;> first | exact h | exact OtherHalf.apart h

theorem copied_update {α : Type*} {dst src : ℕ → α} {i start len : ℕ} {x : α}
    (h : i < start ∨ start + len ≤ i) :
    copied dst src start len = copied dst (Function.update src i x) start len := by
  funext k
  unfold copied
  split
  · rename_i hk
    have hne : start + k ≠ i := by
      rcases h with h | h <;> omega
    exact (Function.update_of_ne hne _ _).symm
  · rfl

theorem Free.commutes {a : HostAct} {o : Op} (h : Free p Apart a o) (m : Mem D) :
    perform p a (exec p delta o m) = exec p delta o (perform p a m) := by
  cases o with
  | sketchUpdate k =>
    cases huvm : p.cudaUVMEnabled with
    | false => cases a <;> simp only [exec,huvm] <;> rfl
    | true =>
      cases a with
      | applyRawBuckets i slot => exact absurd (huvm.symm.trans h) Bool.noConfusion
      | _ =>
        simp only [exec,huvm]
        rfl
  | copyEdges start len =>
    cases a with
    | writeEdge i x =>
      exact congrArg (fun f => {perform p (.writeEdge i x) m with dEdgeUpdates := f}) (copied_update h)
    | _ => rfl
  | copySizes start len =>
    cases a with
    | writeSize i x =>
      exact congrArg (fun f => {perform p (.writeSize i x) m with dUpdateSizes := f}) (copied_update h)
    | _ => rfl
  | copySrc start len =>
    cases a with
    | writeSrc i x =>
      exact congrArg (fun f => {perform p (.writeSrc i x) m with dUpdateSrc := f}) (copied_update h)
    | _ => rfl
  | copyStarts start len =>
    cases a with
    | writeStart i x =>
      exact congrArg (fun f => {perform p (.writeStart i x) m with dUpdateStartIndex := f}) (copied_update h)
    | _ => rfl
  | copyBuckets len =>
    cases a with
    | applyRawBuckets i slot => exact absurd h id
    | _ => rfl

def InWindow (p : StreamParams) (c : Control) : HostAct → Prop
  | .writeEdge i _ => c.batchOffset ≤ i ∧
      i < startIndex p c.bufferId + p.numBatchPerBuffer * p.batchSize
  | .writeSize i _ | .writeSrc i _ | .writeStart i _ =>
      startBatchId p c.bufferId + c.batchCount ≤ i ∧
        i < startBatchId p c.bufferId + p.numBatchPerBuffer
  | .applyRawBuckets _ _ => False

def Clear (p : StreamParams) (R : ℕ → ℕ → ℕ → ℕ → Prop) (c : Control) (out : List Op) : Prop :=
  ∀ o ∈ out, ∀ a, InWindow p c a → Free p R a o

structure Placed (p : StreamParams) (c : Control) : Prop where
  count : c.batchCount < p.numBatchPerBuffer
  lo : startIndex p c.bufferId ≤ c.batchOffset
  hi : c.batchOffset ≤ startIndex p c.bufferId + c.batchCount * p.batchSize

theorem placed_start (h : 0 < p.numBatchPerBuffer) (bufferId first : Bool) :
    Placed p ⟨bufferId,startIndex p bufferId,0,first⟩ := ⟨h,le_rfl,Nat.le_add_right _ _⟩

theorem placed_created (h : 0 < p.numBatchPerBuffer) : Placed p Control.created := by
  have hstart : startIndex p false = 0 := by simp [startIndex]
  have hplaced := placed_start h false true
  rw [hstart] at hplaced
  exact hplaced

theorem Placed.offset_le (h : Placed p c) (hb : b.dsts.length ≤ p.batchSize) :
    (counted c b).batchOffset ≤
      startIndex p c.bufferId + (counted c b).batchCount * p.batchSize := by
  have hhi := h.hi
  simp only [counted,Nat.add_mul,one_mul]
  omega

theorem Placed.counted (h : Placed p c) (hb : b.dsts.length ≤ p.batchSize)
    (hne : (counted c b).batchCount ≠ p.numBatchPerBuffer) : Placed p (counted c b) :=
  ⟨lt_of_le_of_ne h.count hne,h.lo.trans (Nat.le_add_right _ _),h.offset_le hb⟩

theorem mem_edgeFill {dsts : List NodeId} {i : ℕ} {a : HostAct} (h : a ∈ edgeFill i dsts) :
    ∃ j dst, a = .writeEdge j dst ∧ i ≤ j ∧ j < i + dsts.length := by
  induction dsts generalizing i with
  | nil => cases h
  | cons dst dsts ih =>
    rw [List.length_cons]
    rcases List.mem_cons.mp h with rfl | h
    · exact ⟨i,dst,rfl,le_rfl,by omega⟩
    · obtain ⟨j,dst',ha,hlo,hhi⟩ := ih h
      exact ⟨j,dst',ha,by omega,by omega⟩

theorem inWindow_of_mem_fillBatch (h : Placed p c) (hb : b.dsts.length ≤ p.batchSize) {a : HostAct}
    (ha : a ∈ fillBatch p c b) : InWindow p c a := by
  have hslot : startBatchId p c.bufferId + c.batchCount <
      startBatchId p c.bufferId + p.numBatchPerBuffer := Nat.add_lt_add_left h.count _
  rcases List.mem_append.mp ha with ha | ha
  · obtain ⟨j,dst,rfl,hlo,hhi⟩ := mem_edgeFill ha
    have hoff := h.offset_le hb
    have hmul := Nat.mul_le_mul_right p.batchSize (Nat.succ_le_of_lt h.count)
    exact ⟨hlo,lt_of_lt_of_le hhi (hoff.trans (Nat.add_le_add_left hmul _))⟩
  · simp only [List.mem_cons,List.not_mem_nil,or_false] at ha
    rcases ha with rfl | rfl | rfl <;> exact ⟨le_rfl,hslot⟩

theorem InWindow.of_counted {a : HostAct} (h : InWindow p (counted c b) a) : InWindow p c a := by
  cases a with
  | applyRawBuckets i slot => exact h
  | writeEdge i dst => exact ⟨(Nat.le_add_right _ _).trans h.1,h.2⟩
  | _ => exact ⟨(Nat.le_succ _).trans h.1,h.2⟩

theorem Clear.counted (h : Clear p R c out) : Clear p R (counted c b) out :=
  fun o ho a ha => h o ho a ha.of_counted

theorem clear_nil : Clear p R c [] := fun _ ho => (List.not_mem_nil ho).elim

theorem otherHalf_edges (h : c.batchOffset ≤
    startIndex p c.bufferId + p.numBatchPerBuffer * p.batchSize) {i : ℕ}
    (hlo : startIndex p (!c.bufferId) ≤ i)
    (hhi : i < startIndex p (!c.bufferId) + p.numBatchPerBuffer * p.batchSize) :
    OtherHalf (p.numBatchPerBuffer * p.batchSize) i (startIndex p c.bufferId)
      (c.batchOffset - startIndex p c.bufferId) := by
  have hassoc : ∀ half : Bool, startIndex p half =
      half.toNat * (p.numBatchPerBuffer * p.batchSize) := fun half => Nat.mul_assoc _ _ _
  refine ⟨c.bufferId,hassoc _,by omega,?_,?_⟩
  · rw [← hassoc]
    exact hlo
  · rw [← hassoc]
    exact hhi

theorem clear_transferAndLaunch (hR : ∀ {size i start len}, OtherHalf size i start len →
    R size i start len) {c' : Control} (hcount : c.batchCount ≤ p.numBatchPerBuffer)
    (hoff : c.batchOffset ≤ startIndex p c.bufferId + p.numBatchPerBuffer * p.batchSize)
    (hid : c'.bufferId = !c.bufferId) (hstart : c'.batchOffset = startIndex p c'.bufferId)
    (hzero : c'.batchCount = 0) {len : ℕ} :
    Clear p R c' (transferAndLaunch p c ++ [.copyBuckets len]) := by
  intro o ho a ha
  simp only [transferAndLaunch,List.cons_append,List.nil_append,List.mem_cons,List.not_mem_nil,
    or_false] at ho
  cases a with
  | applyRawBuckets i slot => exact ha.elim
  | writeEdge i dst =>
    rcases ho with rfl | rfl | rfl | rfl | rfl | rfl
    · obtain ⟨hlo,hhi⟩ := ha
      rw [hstart,hid] at hlo
      rw [hid] at hhi
      exact hR (otherHalf_edges hoff hlo hhi)
    all_goals trivial
  | _ =>
    obtain ⟨hlo,hhi⟩ := ha
    rw [hzero,hid] at hlo
    rw [hid] at hhi
    have hhalf := hR ⟨c.bufferId,rfl,hcount,hlo,hhi⟩
    rcases ho with rfl | rfl | rfl | rfl | rfl | rfl <;> first | exact hhalf | trivial

theorem synced_fillBatch (h : Placed p c) (hclear : Clear p R c out)
    (hb : b.dsts.length ≤ p.batchSize) :
    Synced (Free p R) out ((fillBatch p c b).map .host) :=
  synced_host fun a ha o ho => hclear o ho a (inWindow_of_mem_fillBatch h hb ha)

theorem synced_host_nil (as : List HostAct) :
    Synced (Free p R) [] (as.map AsyncStream.Act.host) :=
  synced_host fun _ _ _ ho => (List.not_mem_nil ho).elim

structure Steady (p : StreamParams) (R : ℕ → ℕ → ℕ → ℕ → Prop) (c : Control) (out : List Op) :
    Prop where
  placed : Placed p c
  clear : Clear p R c out

theorem steady_launched (hR : ∀ {size i start len}, OtherHalf size i start len →
    R size i start len) (h : Placed p c) (hb : b.dsts.length ≤ p.batchSize)
    (hfull : (counted c b).batchCount = p.numBatchPerBuffer) (first : Bool) {ops : List Op}
    (hops : ops ⊆ transferAndLaunch p (counted c b) ++ [.copyBuckets p.numBatchPerBuffer]) :
    Steady p R ⟨!c.bufferId,startIndex p (!c.bufferId),0,first⟩ ops := by
  have hoff := h.offset_le hb
  rw [hfull] at hoff
  have hclear : Clear p R ⟨!c.bufferId,startIndex p (!c.bufferId),0,first⟩
      (transferAndLaunch p (counted c b) ++ [.copyBuckets p.numBatchPerBuffer]) :=
    clear_transferAndLaunch hR hfull.le hoff rfl rfl rfl
  exact ⟨placed_start (Nat.zero_lt_of_lt h.count) _ _,fun o ho => hclear o (hops ho)⟩

theorem processBatchUVM_synced (hR : ∀ {size i start len}, OtherHalf size i start len →
    R size i start len) (h : Steady p R c out) (hb : b.dsts.length ≤ p.batchSize) :
    Synced (Free p R) out (processBatchUVM p c b).1 ∧
      Steady p R (processBatchUVM p c b).2 (outstanding out (processBatchUVM p c b).1) := by
  have hfill := synced_fillBatch h.placed h.clear hb
  by_cases hfull : (counted c b).batchCount = p.numBatchPerBuffer
  · rw [processBatchUVM_full hfull]
    refine ⟨synced_append hfill (synced_enqueue _ _),?_⟩
    rw [outstanding_append,outstanding_host,outstanding,outstanding_enqueue]
    exact steady_launched hR h.placed hb hfull _ (List.subset_append_left _ _)
  · rw [processBatchUVM_room hfull]
    refine ⟨hfill,h.placed.counted hb hfull,?_⟩
    rw [outstanding_host]
    exact h.clear.counted

theorem processBatchDefault_synced (hR : ∀ {size i start len}, OtherHalf size i start len →
    R size i start len) (h : Steady p R c out) (hb : b.dsts.length ≤ p.batchSize) :
    Synced (Free p R) out (processBatchDefault p c b).1 ∧
      Steady p R (processBatchDefault p c b).2 (outstanding out (processBatchDefault p c b).1) := by
  have hfill := synced_fillBatch h.placed h.clear hb
  by_cases hfull : (counted c b).batchCount = p.numBatchPerBuffer
  · rw [processBatchDefault_full hfull]
    refine ⟨synced_append hfill (synced_append (synced_host_nil _) (synced_enqueue _ _)),?_⟩
    rw [outstanding_append,outstanding_host,outstanding,outstanding_append,outstanding_host,
      outstanding_enqueue]
    exact steady_launched hR h.placed hb hfull _ (List.Subset.refl _)
  · rw [processBatchDefault_room hfull]
    refine ⟨hfill,h.placed.counted hb hfull,?_⟩
    rw [outstanding_host]
    exact h.clear.counted

theorem processBatch_synced (hR : ∀ {size i start len}, OtherHalf size i start len →
    R size i start len) (h : Steady p R c out) (hb : b.dsts.length ≤ p.batchSize) :
    Synced (Free p R) out (processBatch p c b).1 ∧
      Steady p R (processBatch p c b).2 (outstanding out (processBatch p c b).1) := by
  unfold processBatch
  split
  · exact processBatchUVM_synced hR h hb
  · exact processBatchDefault_synced hR h hb

theorem flushBuffersDefault_synced (c : Control) (out : List Op) :
    Synced (Free p R) out (flushBuffersDefault p c) ∧
      outstanding out (flushBuffersDefault p c) = [] := by
  unfold flushBuffersDefault
  split
  · refine ⟨synced_append (synced_host_nil _) trivial,?_⟩
    rw [outstanding,outstanding_append,outstanding_host]
    rfl
  · refine ⟨synced_append (synced_host_nil _)
      (synced_append (synced_enqueue _ _) (synced_host_nil _)),?_⟩
    rw [outstanding,outstanding_append,outstanding_append,outstanding,outstanding_host]

theorem free_transferAndLaunch {a : HostAct} {o : Op} (h : Placed p c)
    (ho : o ∈ transferAndLaunch p c) (ha : InWindow p c a) : Free p Apart a o := by
  have hlo := h.lo
  simp only [transferAndLaunch,List.mem_cons,List.not_mem_nil,or_false] at ho
  cases a with
  | applyRawBuckets i slot => exact ha.elim
  | writeEdge i dst =>
    rcases ho with rfl | rfl | rfl | rfl | rfl
    · obtain ⟨hi,_⟩ := ha
      right
      omega
    all_goals trivial
  | _ =>
    rcases ho with rfl | rfl | rfl | rfl | rfl <;> first | exact Or.inr ha.1 | trivial

theorem flushBuffersUVM_synced (h : Steady p Apart c out) :
    Synced (Free p Apart) out (flushBuffersUVM p c) ∧
      Steady p Apart c (outstanding out (flushBuffersUVM p c)) := by
  unfold flushBuffersUVM
  split
  · exact ⟨trivial,h⟩
  · refine ⟨synced_enqueue _ _,h.placed,?_⟩
    rw [outstanding_enqueue]
    intro o ho a ha
    rcases List.mem_append.mp ho with ho | ho
    · exact h.clear o ho a ha
    · exact free_transferAndLaunch h.placed ho ha

theorem flushBuffers_synced (h : Steady p Apart c out) :
    Synced (Free p Apart) out (flushBuffers p c) ∧
      Steady p Apart c (outstanding out (flushBuffers p c)) := by
  unfold flushBuffers
  split
  · exact flushBuffersUVM_synced h
  · obtain ⟨hsync,hout⟩ := flushBuffersDefault_synced c out
    rw [hout]
    exact ⟨hsync,h.placed,clear_nil⟩

def Fits (p : StreamParams) : Call → Prop
  | .processBatch b => b.dsts.length ≤ p.batchSize
  | .flushBuffers => True

theorem program_synced (calls : List Call) (hfits : ∀ call ∈ calls, Fits p call)
    (h : Steady p Apart c out) : Synced (Free p Apart) out (program p c calls) := by
  induction calls generalizing c out with
  | nil => trivial
  | cons call calls ih =>
    have hrest : ∀ call ∈ calls, Fits p call := fun x hx => hfits x (List.mem_cons_of_mem _ hx)
    have hcall : Synced (Free p Apart) out (issue p c call).1 ∧
        Steady p Apart (issue p c call).2 (outstanding out (issue p c call).1) := by
      cases call with
      | processBatch b => exact processBatch_synced OtherHalf.apart h (hfits _ List.mem_cons_self)
      | flushBuffers => exact flushBuffers_synced h
    exact synced_append hcall.1 (ih hrest hcall.2)

theorem program_append (c : Control) (xs ys : List Call) :
    program p c (xs ++ ys) = program p c xs ++ program p (controlAfter p c xs) ys := by
  induction xs generalizing c with
  | nil => rfl
  | cons x xs ih =>
    rw [List.cons_append,program,ih,program,List.append_assoc]
    rfl

theorem batches_synced (batches : List StreamBatch)
    (hfits : ∀ b ∈ batches, b.dsts.length ≤ p.batchSize) (h : Steady p OtherHalf c out) :
    Synced (Free p OtherHalf) out (program p c (batches.map .processBatch)) := by
  induction batches generalizing c out with
  | nil => trivial
  | cons b batches ih =>
    obtain ⟨hsync,hsteady⟩ := processBatch_synced (fun h => h) h (hfits b List.mem_cons_self)
    exact synced_append hsync (ih (fun x hx => hfits x (List.mem_cons_of_mem _ hx)) hsteady)

theorem batches_flush_synced (huvm : p.cudaUVMEnabled = false) (batches : List StreamBatch)
    (hfits : ∀ b ∈ batches, b.dsts.length ≤ p.batchSize) (h : Steady p OtherHalf c out) :
    Synced (Free p OtherHalf) out (program p c (batches.map .processBatch ++ [.flushBuffers])) ∧
      outstanding out (program p c (batches.map .processBatch ++ [.flushBuffers])) = [] := by
  have hflush : ∀ c', program p c' [.flushBuffers] = flushBuffersDefault p c' := by
    intro c'
    simp only [program,issue,flushBuffers,huvm,List.append_nil]
    rfl
  rw [program_append,hflush,outstanding_append]
  obtain ⟨hsync,hout⟩ := flushBuffersDefault_synced (p := p) (R := OtherHalf)
    (controlAfter p c (batches.map .processBatch))
    (outstanding out (program p c (batches.map .processBatch)))
  exact ⟨synced_append (batches_synced batches hfits h) hsync,hout⟩

end GraphZeppelin.Gpu.CudaStream
