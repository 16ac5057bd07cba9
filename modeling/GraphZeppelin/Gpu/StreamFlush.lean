import GraphZeppelin.Gpu.StreamSpec

namespace GraphZeppelin.Gpu.CudaStream

variable {D : Type*} {p : StreamParams} {delta : StreamBatch → D} {c : Control}
variable {sub : List StreamBatch} {m m' : Mem D} {prev : Option Call}

def Call.batches : Call → List StreamBatch
  | .processBatch b => [b]
  | .flushBuffers => []

def submitted (calls : List Call) : List StreamBatch := calls.flatMap Call.batches

structure History where
  control : Control
  flushed : Bool

def History.created : History := ⟨Control.created,false⟩

def covers (p : StreamParams) (c : Control) : Call → Bool
  | .processBatch _ => false
  | .flushBuffers => !p.cudaUVMEnabled || decide (c.batchCount ≠ 0)

def History.next (p : StreamParams) (h : History) (call : Call) : History :=
  ⟨(issue p h.control call).2,h.flushed || covers p h.control call⟩

def Admits (p : StreamParams) (h : History) : Call → Prop
  | .processBatch b => b.dsts.length ≤ p.batchSize ∧
      (h.flushed = true → h.control.batchCount + 1 ≠ p.numBatchPerBuffer)
  | .flushBuffers => covers p h.control .flushBuffers = true →
      h.flushed = false ∧ (p.cudaUVMEnabled = false → h.control.firstBuffer = false)

instance (p : StreamParams) (h : History) (call : Call) : Decidable (Admits p h call) :=
  match call with
  | .processBatch _ => inferInstanceAs (Decidable (_ ∧ _))
  | .flushBuffers => inferInstanceAs (Decidable (_ → _))

def Disciplined (p : StreamParams) : List Call → Prop :=
  Trace.Along (fun h call => some (h.next p call)) (Admits p) History.created

structure Clean [AddCommMonoid D] (p : StreamParams) (delta : StreamBatch → D)
    (sub : List StreamBatch) (m m' : Mem D) (prev : Option Call) (call : Call) : Prop where
  fresh : call = .flushBuffers → m.launched = [] → ∀ v, m'.sketch v =
    m.sketch v + ((sub.filter fun b => (entry p delta b).1 = v).map delta).sum
  repeated : prev = some .flushBuffers → call = .flushBuffers → ∀ v, m'.sketch v = m.sketch v
  launched : m'.launched <+: sub ++ call.batches
  applied : m'.applied <+: (sub ++ call.batches).map (entry p delta)

def CleanRun [AddCommMonoid D] (p : StreamParams) (delta : StreamBatch → D) :
    List StreamBatch → Option Call → Mem D → Control → List Call → Prop
  | _, _, _, _, [] => True
  | sub, prev, m, c, call :: calls =>
    Clean p delta sub m (eager p delta m (issue p c call).1) prev call ∧
      CleanRun p delta (sub ++ call.batches) (some call) (eager p delta m (issue p c call).1)
        (issue p c call).2 calls

structure Sound (p : StreamParams) (delta : StreamBatch → D) (sub : List StreamBatch) (m : Mem D)
    (prev : Option Call) (h : History) : Prop where
  placed : Placed p h.control
  piped : h.flushed = false → ∃ done inflight cur, done ++ inflight ++ cur = sub ∧
    Pipe p delta done inflight cur m h.control
  covered : h.flushed = true → m.launched ≠ []
  launched : m.launched <+: sub
  applied : m.applied <+: sub.map (entry p delta)
  settled : prev = some .flushBuffers → covers p h.control .flushBuffers = true → h.flushed = true

theorem sound_created (hpos : 0 < p.numBatchPerBuffer) (delta : StreamBatch → D) (hm : m.Created) :
    Sound p delta [] m none History.created := by
  refine ⟨placed_created hpos,fun _ => ⟨[],[],[],rfl,pipe_created delta hm⟩,(fun h => by cases h),?_,
    ?_,(fun h => by cases h)⟩
  · rw [hm.launched]
  · rw [hm.applied]
    exact List.nil_prefix

theorem Pipe.launched_prefix {done inflight cur : List StreamBatch}
    (h : Pipe p delta done inflight cur m c) : m.launched <+: done ++ inflight ++ cur := by
  rw [h.launched]
  exact List.prefix_append _ _

theorem Pipe.applied_prefix {done inflight cur : List StreamBatch}
    (h : Pipe p delta done inflight cur m c) :
    m.applied <+: (done ++ inflight ++ cur).map (entry p delta) := by
  rw [h.applied,List.append_assoc,List.map_append]
  exact List.prefix_append _ _

theorem processBatch_room {b : StreamBatch}
    (h : (counted c b).batchCount ≠ p.numBatchPerBuffer) :
    processBatch p c b = ((fillBatch p c b).map .host,counted c b) := by
  unfold processBatch
  split
  · exact processBatchUVM_room h
  · exact processBatchDefault_room h

theorem Sound.processBatch {h : History} (hs : Sound p delta sub m prev h) {b : StreamBatch}
    (hadm : Admits p h (.processBatch b)) :
    Sound p delta (sub ++ [b]) (eager p delta m (processBatch p h.control b).1)
      (some (.processBatch b)) (h.next p (.processBatch b)) := by
  have hplaced := placed_processBatch hs.placed hadm.1
  have hnext : (h.next p (.processBatch b)).flushed = h.flushed := Bool.or_false _
  cases hflushed : h.flushed with
  | false =>
    obtain ⟨done,inflight,cur,heq,hpipe⟩ := hs.piped hflushed
    obtain ⟨d,i,c',heq',hpipe'⟩ := hpipe.processBatch hs.placed.count b
    rw [heq] at heq'
    refine ⟨hplaced,fun _ => ⟨d,i,c',heq',hpipe'⟩,?_,?_,?_,(fun h => by cases h)⟩
    · rw [hnext,hflushed]
      exact fun h => by cases h
    · rw [← heq']
      exact hpipe'.launched_prefix
    · rw [← heq']
      exact hpipe'.applied_prefix
  | true =>
    have hroom := processBatch_room (b := b) (hadm.2 hflushed)
    have hmem : eager p delta m (CudaStream.processBatch p h.control b).1 =
        filled p h.control b m := by
      rw [hroom,eager_fillBatch]
    rw [hmem]
    refine ⟨hplaced,?_,fun _ => hs.covered hflushed,?_,?_,(fun h => by cases h)⟩
    · rw [hnext,hflushed]
      exact fun h => by cases h
    · exact hs.launched.trans (List.prefix_append _ _)
    · rw [List.map_append]
      exact hs.applied.trans (List.prefix_append _ _)

theorem flushBuffers_idle (h : covers p c .flushBuffers = false) : flushBuffers p c = [] := by
  simp only [covers,Bool.or_eq_false_iff,Bool.not_eq_false',decide_eq_false_iff_not,not_not] at h
  rw [flushBuffers,if_pos h.1,flushBuffersUVM,if_pos h.2]

theorem Pipe.covers_ne_nil {done inflight cur : List StreamBatch}
    (h : Pipe p delta done inflight cur m c) (hcov : covers p c .flushBuffers = true)
    (hfirst : p.cudaUVMEnabled = false → c.firstBuffer = false) :
    (p.cudaUVMEnabled = false → inflight ≠ []) ∧ done ++ inflight ++ cur ≠ [] := by
  have hinflight : p.cudaUVMEnabled = false → inflight ≠ [] := by
    intro huvm hnil
    have htrue := h.first.mpr hnil
    rw [hfirst huvm] at htrue
    cases htrue
  refine ⟨hinflight,fun hnil => ?_⟩
  obtain ⟨hpre,hcur⟩ := List.append_eq_nil_iff.mp hnil
  obtain ⟨_,hfly⟩ := List.append_eq_nil_iff.mp hpre
  have hcount := h.stored.count
  rw [hcur,List.length_nil] at hcount
  cases huvm : p.cudaUVMEnabled with
  | false => exact hinflight huvm hfly
  | true => simp [covers,huvm,hcount] at hcov

theorem Sound.flush_covered {h : History} (hs : Sound p delta sub m prev h)
    (hadm : Admits p h .flushBuffers) (hcov : covers p h.control .flushBuffers = true) :
    Covered p delta sub (eager p delta m (flushBuffers p h.control)) ∧ sub ≠ [] := by
  obtain ⟨hflushed,hfirst⟩ := hadm hcov
  obtain ⟨done,inflight,cur,heq,hpipe⟩ := hs.piped hflushed
  obtain ⟨hne,hsub⟩ := hpipe.covers_ne_nil hcov hfirst
  rw [← heq]
  exact ⟨hpipe.flushBuffers hne,hsub⟩

theorem Sound.flushBuffers {h : History} (hs : Sound p delta sub m prev h)
    (hadm : Admits p h .flushBuffers) :
    Sound p delta sub (eager p delta m (flushBuffers p h.control)) (some .flushBuffers)
      (h.next p .flushBuffers) := by
  cases hcov : covers p h.control .flushBuffers with
  | false =>
    have hnext : h.next p .flushBuffers = h := by
      rw [History.next,hcov,Bool.or_false]
      rfl
    rw [hnext,flushBuffers_idle hcov]
    refine ⟨hs.placed,hs.piped,hs.covered,hs.launched,hs.applied,fun _ htrue => ?_⟩
    rw [hcov] at htrue
    cases htrue
  | true =>
    obtain ⟨hall,hne⟩ := hs.flush_covered hadm hcov
    have hnext : (h.next p .flushBuffers).flushed = true := by
      rw [History.next,hcov,Bool.or_true]
    refine ⟨hs.placed,?_,fun _ => ?_,?_,?_,fun _ _ => hnext⟩
    · rw [hnext]
      exact fun h => by cases h
    · rw [hall.launched]
      exact hne
    · rw [hall.launched]
    · rw [hall.applied]

theorem Sound.issue {h : History} (hs : Sound p delta sub m prev h) {call : Call}
    (hadm : Admits p h call) :
    Sound p delta (sub ++ call.batches) (eager p delta m (issue p h.control call).1) (some call)
      (h.next p call) := by
  cases call with
  | processBatch b => exact hs.processBatch hadm
  | flushBuffers =>
    rw [Call.batches,List.append_nil]
    exact hs.flushBuffers hadm

theorem sketch_entries [AddCommMonoid D] (h : m.applied = sub.map (entry p delta)) (v : NodeId) :
    m.sketch v = ((sub.filter fun b => (entry p delta b).1 = v).map delta).sum := by
  rw [Mem.sketch,h,List.filter_map,List.map_map]
  rfl

theorem Sound.flush_fresh [AddCommMonoid D] {h : History} (hs : Sound p delta sub m prev h)
    (hadm : Admits p h .flushBuffers) (hlaunch : m.launched = []) (v : NodeId) :
    (eager p delta m (CudaStream.flushBuffers p h.control)).sketch v =
      m.sketch v + ((sub.filter fun b => (entry p delta b).1 = v).map delta).sum := by
  have hflushed : h.flushed = false := by
    cases hf : h.flushed with
    | false => rfl
    | true => exact absurd hlaunch (hs.covered hf)
  obtain ⟨done,inflight,cur,heq,hpipe⟩ := hs.piped hflushed
  have hnil := hpipe.launched
  rw [hlaunch] at hnil
  obtain ⟨rfl,rfl⟩ := List.append_eq_nil_iff.mp hnil.symm
  have hempty : m.sketch v = 0 := by
    rw [Mem.sketch,hpipe.applied]
    rfl
  rw [hempty,zero_add]
  cases hcov : covers p h.control .flushBuffers with
  | true => exact sketch_entries (hs.flush_covered hadm hcov).1.applied v
  | false =>
    have hidle := flushBuffers_idle hcov
    have hcount := hpipe.stored.count
    simp only [covers,Bool.or_eq_false_iff,decide_eq_false_iff_not,not_not] at hcov
    rw [hcov.2] at hcount
    obtain rfl := List.eq_nil_of_length_eq_zero hcount.symm
    rw [hidle,← heq]
    exact hempty

theorem Sound.flush_repeated {h : History}
    (hs : Sound p delta sub m (some .flushBuffers) h) (hadm : Admits p h .flushBuffers) :
    eager p delta m (CudaStream.flushBuffers p h.control) = m := by
  cases hcov : covers p h.control .flushBuffers with
  | false =>
    rw [flushBuffers_idle hcov]
    rfl
  | true =>
    have hflushed := hs.settled rfl hcov
    rw [(hadm hcov).1] at hflushed
    cases hflushed

theorem Sound.clean [AddCommMonoid D] {h : History} (hs : Sound p delta sub m prev h) {call : Call}
    (hadm : Admits p h call) :
    Clean p delta sub m (eager p delta m (CudaStream.issue p h.control call).1) prev call := by
  have hnext := hs.issue hadm
  refine ⟨?_,?_,hnext.launched,hnext.applied⟩
  · rintro rfl hlaunch v
    exact hs.flush_fresh hadm hlaunch v
  · rintro rfl rfl v
    exact congrArg (fun m' => m'.sketch v) (hs.flush_repeated hadm)

theorem Sound.cleanRun [AddCommMonoid D] {h : History} (calls : List Call)
    (hs : Sound p delta sub m prev h)
    (hd : Trace.Along (fun h call => some (h.next p call)) (Admits p) h calls) :
    CleanRun p delta sub prev m h.control calls := by
  induction calls generalizing h sub m prev with
  | nil => trivial
  | cons call calls ih => exact ⟨hs.clean hd.1,ih (hs.issue hd.1) hd.2⟩

theorem Sound.run {h : History} (calls : List Call) (hs : Sound p delta sub m prev h)
    (hd : Trace.Along (fun h call => some (h.next p call)) (Admits p) h calls) :
    (eager p delta m (program p h.control calls)).launched <+: sub ++ submitted calls ∧
      (eager p delta m (program p h.control calls)).applied <+:
        (sub ++ submitted calls).map (entry p delta) := by
  induction calls generalizing h sub m prev with
  | nil =>
    rw [submitted,List.flatMap_nil,List.append_nil]
    exact ⟨hs.launched,hs.applied⟩
  | cons call calls ih =>
    have hrest := ih (hs.issue hd.1) hd.2
    rw [List.append_assoc] at hrest
    rw [program,eager_append,submitted,List.flatMap_cons]
    exact hrest

def Grows (m m' : Mem D) : Prop := m.launched <+: m'.launched ∧ m.applied <+: m'.applied

theorem Grows.refl (m : Mem D) : Grows m m := ⟨List.prefix_rfl,List.prefix_rfl⟩

theorem Grows.trans {m₁ m₂ m₃ : Mem D} (h : Grows m₁ m₂) (h' : Grows m₂ m₃) : Grows m₁ m₃ :=
  ⟨h.1.trans h'.1,h.2.trans h'.2⟩

theorem perform_grows (a : HostAct) (m : Mem D) : Grows m (perform p a m) := by
  cases a with
  | applyRawBuckets i slot => exact ⟨List.prefix_rfl,List.prefix_append _ _⟩
  | _ => exact Grows.refl m

theorem exec_grows (o : Op) (m : Mem D) : Grows m (exec p delta o m) := by
  cases o with
  | sketchUpdate k =>
    cases huvm : p.cudaUVMEnabled with
    | true =>
      simp only [exec,huvm]
      exact ⟨List.prefix_append _ _,List.prefix_append _ _⟩
    | false =>
      simp only [exec,huvm]
      exact ⟨List.prefix_append _ _,List.prefix_rfl⟩
  | _ => exact Grows.refl m

theorem Disciplined.fits {h : History} {calls : List Call}
    (hd : Trace.Along (fun h call => some (h.next p call)) (Admits p) h calls) :
    ∀ call ∈ calls, Fits p call := by
  induction calls generalizing h with
  | nil => exact fun _ hcall => (List.not_mem_nil hcall).elim
  | cons call calls ih =>
    intro x hx
    rcases List.mem_cons.mp hx with rfl | hx
    · cases x with
      | processBatch b => exact hd.1.1
      | flushBuffers => trivial
    · exact ih hd.2 x hx

theorem flush_clean_of_disciplined [AddCommMonoid D] (delta : StreamBatch → D)
    (hpos : 1 ≤ p.numBatchPerBuffer) {m : Mem D} (hm : m.Created) {calls : List Call}
    (hd : Disciplined p calls) :
    CleanRun p delta [] none m Control.created calls ∧
    ∀ sides s, Trace.run (step p delta) (started p m calls) sides = some s →
      s.mem.launched <+: submitted calls ∧
      s.mem.applied <+: (submitted calls).map (entry p delta) ∧
      (s.todo = [] → s.pending = [] →
        s.mem = eager p delta m (program p Control.created calls)) := by
  have hs := sound_created hpos delta hm
  refine ⟨hs.cleanRun calls hd,fun sides s hrun => ?_⟩
  have hsync := program_synced calls (Disciplined.fits hd) ⟨placed_created hpos,clear_nil⟩
  have hrace := AsyncStream.race_run (fun a o h => h.commutes) hsync hrun
  obtain ⟨hlaunched,happlied⟩ := hs.run calls hd
  have hdrain : Grows s.mem (AsyncStream.drain (exec p delta) s.mem s.pending) :=
    AsyncStream.drain_grows Grows.refl Grows.trans exec_grows _ _
  have heager : Grows (AsyncStream.drain (exec p delta) s.mem s.pending)
      (eager p delta (AsyncStream.drain (exec p delta) s.mem s.pending) s.todo) :=
    AsyncStream.eager_grows Grows.refl Grows.trans perform_grows exec_grows _ _
  have hgrow := hdrain.trans heager
  rw [eager,hrace.result] at hgrow
  refine ⟨hgrow.1.trans hlaunched,hgrow.2.trans happlied,fun htodo hpending => ?_⟩
  have hres := hrace.result
  rw [htodo,hpending] at hres
  exact hres

def sessionParams (cudaUVMEnabled : Bool) : StreamParams := ⟨2,1,0,4,cudaUVMEnabled,by decide⟩

def uvmSession : List Call :=
  [.flushBuffers,.processBatch ⟨0,[1]⟩,.processBatch ⟨1,[0]⟩,.flushBuffers,.flushBuffers]

-- two batches fill a buffer, the third is pending when the flush comes
def defaultSession : List Call :=
  [.processBatch ⟨0,[1]⟩,.processBatch ⟨1,[0]⟩,.processBatch ⟨2,[3]⟩,.flushBuffers]

def srcDelta (b : StreamBatch) : ℕ := b.src.toNat + 1

theorem flush_clean_sessions :
    (Disciplined (sessionParams true) uvmSession ∧ CleanRun (sessionParams true) srcDelta [] none
      (blankMem 9) Control.created uvmSession) ∧
    Disciplined (sessionParams false) defaultSession ∧
    CleanRun (sessionParams false) srcDelta [] none (blankMem 9) Control.created defaultSession ∧
    ∃ sides s, Trace.run (step (sessionParams false) srcDelta)
        (started (sessionParams false) (blankMem 9) defaultSession) sides = some s ∧
      s.todo = [] ∧ s.mem.applied = [(0,1),(1,2),(2,3)] := by
  have huvm : Disciplined (sessionParams true) uvmSession := by
    unfold Disciplined
    decide
  have hdefault : Disciplined (sessionParams false) defaultSession := by
    unfold Disciplined
    decide
  obtain ⟨hclean,hruns⟩ := flush_clean_of_disciplined srcDelta (by decide) (blankMem_created 9)
    hdefault
  obtain ⟨sides,s,hrun,htodo,hpending⟩ := AsyncStream.exists_drained (perform (sessionParams false))
    (exec (sessionParams false) srcDelta) (started (sessionParams false) (blankMem 9) defaultSession)
  refine ⟨⟨huvm,(flush_clean_of_disciplined _ (by decide) (blankMem_created 9) huvm).1⟩,hdefault,
    hclean,sides,s,hrun,htodo,?_⟩
  rw [(hruns sides s hrun).2.2 htodo hpending]
  rfl

theorem flush_not_clean :
    ¬ CleanRun ⟨1,1,0,4,false,by decide⟩ (fun _ => (1 : ZMod 2)) [] none (blankMem 0)
        Control.created [.processBatch ⟨0,[1]⟩,.flushBuffers,.flushBuffers] ∧
    ¬ CleanRun ⟨1,1,0,4,false,by decide⟩ (fun _ => (1 : ZMod 2)) [] none (blankMem 1)
        Control.created [.flushBuffers] ∧
    ¬ CleanRun (sessionParams true) (fun _ => (1 : ZMod 2)) [] none (blankMem 0) Control.created
        [.processBatch ⟨0,[1]⟩,.flushBuffers,.processBatch ⟨2,[3]⟩] := by
  refine ⟨fun h => ?_,fun h => ?_,fun h => ?_⟩
  · exact absurd (h.2.2.1.repeated rfl rfl 0) (by decide)
  · exact absurd (h.1.fresh rfl rfl 0) (by decide)
  · exact absurd h.2.2.1.launched (by decide)

end GraphZeppelin.Gpu.CudaStream
