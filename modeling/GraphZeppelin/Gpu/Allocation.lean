import GraphZeppelin.Lib.Trace
import GraphZeppelin.EdgeStore.Contraction
import GraphZeppelin.Gpu.Gutters

namespace GraphZeppelin.Gpu
open FoldExcept

variable {n : ℕ}

inductive Call (n : ℕ) where
  | applyUpdateBatch (src : Fin n) (dsts : List (Fin n))
  | applyFlushUpdates
deriving DecidableEq, Repr

namespace Call

def apply [NeZero n] (p : MCGPUParams) (a : MCGPUSketchAlg n) :
    Call n → Except GpuError (MCGPUSketchAlg n)
  | .applyUpdateBatch src dsts => a.applyUpdateBatch p src dsts
  | .applyFlushUpdates => a.applyFlushUpdates p

-- whether the call can hand a batch to complete_update_batch
def Completes (a : MCGPUSketchAlg n) : Call n → Prop
  | .applyUpdateBatch _ dsts => dsts ≠ []
  | .applyFlushUpdates =>
    a.edgeStore.contractInProgress ∧ ∃ v, a.edgeStore.needsContract v = true

instance (a : MCGPUSketchAlg n) (c : Call n) : Decidable (c.Completes a) :=
  match c with
  | .applyUpdateBatch _ dsts => inferInstanceAs (Decidable (dsts ≠ []))
  | .applyFlushUpdates => inferInstanceAs (Decidable (_ ∧ _))

def HasRoom (p : MCGPUParams) (a : MCGPUSketchAlg n) (c : Call n) : Prop :=
  c.Completes a →
    a.edgeStore.curSubgraph ≤ p.maxSketchGraphs ∧ a.edgeStore.curSubgraph ≤ 16

instance (p : MCGPUParams) (a : MCGPUSketchAlg n) (c : Call n) : Decidable (c.HasRoom p a) :=
  inferInstanceAs (Decidable (_ → _))

def step [NeZero n] (p : MCGPUParams) (a : MCGPUSketchAlg n) (c : Call n) :
    Option (MCGPUSketchAlg n) :=
  (c.apply p a).toOption

def runAll [NeZero n] (p : MCGPUParams) (a : MCGPUSketchAlg n) (calls : List (Call n)) :
    Except GpuError (MCGPUSketchAlg n) :=
  calls.foldlM (fun a c => c.apply p a) a

end Call

def GpuError.Capacity (e : GpuError) : Prop := e = .gutterOverflow ∨ e = .storeBuffers

-- no index of subgraphs or buffer_sizes is out of range and no uninitialised subgraph is used
def InBounds (r : Except GpuError (MCGPUSketchAlg n)) : Prop :=
  Ends GpuError.Capacity (fun _ => True) r

namespace MCGPUSketchAlg

variable {p : MCGPUParams} {a a' : MCGPUSketchAlg n} {g : ℕ} {src : Fin n}
  {dsts : List (Fin n)} {st : Buffered n} {b : TaggedUpdateBatch n}

structure Same (a a' : MCGPUSketchAlg n) : Prop extends SameStore a a' where
  cur : a'.curSubgraphs = a.curSubgraphs
  sketches : a'.numSketchGraphs = a.numSketchGraphs

theorem Same.refl (a : MCGPUSketchAlg n) : Same a a := ⟨.refl a,rfl,rfl⟩

theorem Same.trans {a'' : MCGPUSketchAlg n} (h : Same a a') (h' : Same a' a'') : Same a a'' :=
  ⟨h.toSameStore.trans h'.toSameStore,h'.cur.trans h.cur,h'.sketches.trans h.sketches⟩

theorem Same.created (h : Same a a') (hc : a.Created p) : a'.Created p :=
  ⟨by rw [h.sketches,h.cur,hc.sketches],h.cur ▸ hc.room⟩

theorem gutter_ends (batchSize : ℕ) (sub : SketchSubgraph n) (src : Fin n) (dsts : List (Fin n)) :
    Ends GpuError.Capacity (fun _ => True) (sub.batchInsert batchSize src dsts) := by
  unfold SketchSubgraph.batchInsert
  simp only
  split
  · split
    · exact .inl rfl
    · exact trivial
  · exact trivial

theorem batchInsert_ends (h : a.Created p) (hg : g < a.curSubgraphs) (src : Fin n)
    (dsts : List (Fin n)) : Ends GpuError.Capacity (Same a) (a.batchInsert p g src dsts) := by
  rw [h.batchInsert_eq hg]
  exact (gutter_ends p.batchSize (a.subgraphs g) src dsts).bind fun _ _ => ⟨⟨rfl,rfl⟩,rfl,rfl⟩

theorem placeDst_ends (h : a.Created p) (hst : Same a st.alg) (hg : g < a.curSubgraphs)
    (src dst : Fin n) :
    Ends GpuError.Capacity (fun st' => Same a st'.alg) (placeDst p src dst st g) := by
  unfold placeDst
  simp only
  split
  · exact (batchInsert_ends (hst.created h) (hst.cur ▸ hg) src _).bind fun a' ha' => hst.trans ha'
  · exact hst

theorem placeUpdate_ends (h : a.Created p) (hst : Same a st.alg)
    (hfirst : b.firstEsSubgraph ≤ a.curSubgraphs) (hpos : 0 < b.firstEsSubgraph)
    (e : SubgraphTaggedUpdate n) :
    Ends GpuError.Capacity (fun st' => Same a st'.alg) (placeUpdate p b st e) := by
  refine Ends.foldlM hst fun g hg st' hst' => placeDst_ends h hst' ?_ b.src e.dst
  have hmem := List.mem_range'_1.mp hg
  omega

theorem flushBuffer_ends (h : a.Created p) (hst : Same a st.alg) (hg : g < a.curSubgraphs)
    (src : Fin n) :
    Ends GpuError.Capacity (fun st' => Same a st'.alg) (flushBuffer p src st g) := by
  unfold flushBuffer
  split
  · exact hst
  · exact (batchInsert_ends (hst.created h) (hst.cur ▸ hg) src _).bind fun a' ha' => hst.trans ha'

structure Completed (p : MCGPUParams) (a : MCGPUSketchAlg n) (first : ℕ) (a' : MCGPUSketchAlg n) :
    Prop where
  same : SameStore a a'
  created : a'.Created p
  cur : a'.curSubgraphs = max a.curSubgraphs first

theorem allocated_ok (h : a.Created p) {f : ℕ} (hf : f ≤ a.curSubgraphs + 1)
    (hmax : f ≤ p.maxSketchGraphs) : ∃ a', a.allocated p f = .ok a' ∧ Completed p a f a' := by
  unfold allocated
  split
  · next hlt =>
    rw [h.allocate_eq (by omega)]
    refine ⟨_,rfl,⟨rfl,rfl⟩,⟨rfl,?_⟩,?_⟩
    · change a.curSubgraphs + 1 ≤ _
      omega
    · change a.curSubgraphs + 1 = _
      omega
  · next hge => exact ⟨a,rfl,.refl a,h,by omega⟩

theorem completeUpdateBatch_ends (h : a.Created p) (hpos : 0 < b.firstEsSubgraph)
    (hcur : b.firstEsSubgraph ≤ a.curSubgraphs + 1) (hmax : b.firstEsSubgraph ≤ p.maxSketchGraphs)
    (hbuf : b.firstEsSubgraph ≤ 16) :
    Ends GpuError.Capacity (Completed p a b.firstEsSubgraph) (a.completeUpdateBatch p b) := by
  obtain ⟨a₁,ha₁,hc⟩ := allocated_ok h hcur hmax
  have hfirst : b.firstEsSubgraph ≤ a₁.curSubgraphs := hc.cur ▸ le_max_right _ _
  have hstart : Same a₁ (⟨a₁,fun _ => []⟩ : Buffered n).alg := .refl a₁
  rw [completeUpdateBatch,if_neg (Nat.ne_of_gt hpos),ha₁]
  change Ends _ _ (if 16 < b.firstEsSubgraph then _ else _)
  rw [if_neg (not_lt.mpr hbuf)]
  refine Ends.bind (P := fun st' => Same a₁ st'.alg)
    (Ends.foldlM hstart fun e _ st' hst' => placeUpdate_ends hc.created hst' hfirst hpos e)
    fun st hst => ?_
  refine Ends.bind (P := fun st' => Same a₁ st'.alg)
    (Ends.foldlM hst fun g hg st' hst' => flushBuffer_ends hc.created hst'
      (lt_of_lt_of_le (List.mem_range.mp hg) hfirst) b.src) fun st' hst' => ?_
  exact ⟨hc.same.trans hst'.toSameStore,hst'.created hc.created,hst'.cur.trans hc.cur⟩

theorem completeNonempty_ends (h : a.Created p) (hpos : b.dstsData ≠ [] → 0 < b.firstEsSubgraph)
    (hcur : b.firstEsSubgraph ≤ a.curSubgraphs + 1)
    (hroom : b.dstsData ≠ [] → b.firstEsSubgraph ≤ p.maxSketchGraphs ∧ b.firstEsSubgraph ≤ 16) :
    Ends GpuError.Capacity (Completed p a (if b.dstsData = [] then 0 else b.firstEsSubgraph))
      (a.completeNonempty p b) := by
  unfold completeNonempty
  split
  · exact ⟨.refl a,h,(max_eq_left (Nat.zero_le _)).symm⟩
  · next hne =>
    obtain ⟨hmax,hbuf⟩ := hroom hne
    exact completeUpdateBatch_ends h (hpos hne) hcur hmax hbuf

-- the constructor's loop over create_sketch_graph
theorem constructor_creates (p : MCGPUParams) (a : MCGPUSketchAlg n) {initial : ℕ}
    (h : initial ≤ p.maxSketchGraphs) :
    (List.range initial).foldl (createSketchGraph p) { a with numSketchGraphs := 0 } =
      { a with numSketchGraphs := initial } := by
  induction initial with
  | zero => rfl
  | succ i ih =>
    rw [List.range_succ,List.foldl_append,ih (Nat.le_of_succ_le h),List.foldl_cons,List.foldl_nil,
      createSketchGraph,if_neg (by simp only [ne_eq,not_true,or_false]; omega)]

structure Housed (p : MCGPUParams) (a : MCGPUSketchAlg n) : Prop where
  unlocked : a.updateLocked = false
  store : a.edgeStore.Contraction
  created : a.Created p
  high : a.edgeStore.curSubgraph ≤ a.curSubgraphs + 1

theorem Housed.new (maxEdges needs : ℕ) {initial : ℕ} (h : initial ≤ p.maxSketchGraphs) :
    (new n maxEdges initial needs).Housed p :=
  ⟨rfl,.new maxEdges initial needs,⟨rfl,h⟩,Nat.le_succ _⟩

theorem Housed.adjacencyOnly [NeZero n] (hn : n < 2 ^ 32) (h : a.Housed p)
    (hzero : a.edgeStore.curSubgraph = 0) (src : Fin n) (dsts : List (Fin n)) :
    Ends GpuError.Capacity (Housed p) (a.applyUpdateBatch p src dsts) := by
  obtain ⟨⟨store,more⟩,hr,had⟩ := h.store.insert hn src
    (EdgeStore.tagUpdates p.xxh p.seed p.numSubgraphs src dsts)
    fun e _ => hzero ▸ Nat.zero_le e.subgraph
  have hmore : more.dstsData = [] := by
    by_contra hne
    exact absurd (had.pos hne) (by omega)
  rw [hzero] at hr
  simp only [applyUpdateBatch,h.unlocked,hzero,EdgeStore.insertAdjVertices,hr,completeNonempty,
    hmore]
  refine ⟨rfl,had.state,⟨h.created.sketches,h.created.room⟩,?_⟩
  have hgrow := had.grow
  simp only [hzero] at hgrow
  change store.curSubgraph ≤ a.curSubgraphs + 1
  omega

theorem Housed.sketching [NeZero n] (hn : n < 2 ^ 32) (h : a.Housed p)
    (hpos : 0 < a.edgeStore.curSubgraph) (src : Fin n) {dsts : List (Fin n)}
    (hroom : dsts ≠ [] →
      a.edgeStore.curSubgraph ≤ p.maxSketchGraphs ∧ a.edgeStore.curSubgraph ≤ 16) :
    Ends GpuError.Capacity (Housed p) (a.applyUpdateBatch p src dsts) := by
  have hlock : ¬ a.updateLocked = true := by rw [h.unlocked]; exact Bool.false_ne_true
  rw [applyUpdateBatch,if_neg hlock]
  simp only [Nat.ne_of_gt hpos,if_false]
  split
  · exact .inr rfl
  have htags : EdgeStore.tagUpdates p.xxh p.seed (p.numSubgraphs - 1) src dsts = [] ↔ dsts = [] :=
    List.map_eq_nil_iff
  generalize EdgeStore.tagUpdates p.xxh p.seed (p.numSubgraphs - 1) src dsts = sketchEdges at htags
  obtain ⟨⟨store,more⟩,hr,had⟩ := h.store.insert hn src
    (sketchEdges.filter fun e => a.edgeStore.curSubgraph ≤ e.subgraph)
    fun e he => of_decide_eq_true (List.mem_filter.mp he).2
  have hfirst : more.firstEsSubgraph = a.edgeStore.curSubgraph := had.first
  have hmore (hne : more.dstsData ≠ []) : dsts ≠ [] := fun hnil => by
    have hempty : (sketchEdges.filter fun e => a.edgeStore.curSubgraph ≤ e.subgraph) = [] := by
      rw [htags.mpr hnil,List.filter_nil]
    rw [hempty,EdgeStore.insertAdjEdges,if_pos rfl] at hr
    cases hr
    exact hne rfl
  rw [hr]
  refine Ends.bind (completeNonempty_ends (a := { a with edgeStore := store })
    (b := ⟨src,0,a.edgeStore.curSubgraph,sketchEdges⟩) ⟨h.created.sketches,h.created.room⟩
    (fun _ => hpos) h.high fun hne => hroom (mt htags.mpr hne)) fun a₁ ha₁ => ?_
  have hcur₁ : a.curSubgraphs ≤ a₁.curSubgraphs := ha₁.cur ▸ le_max_left _ _
  have hhigh := h.high
  have hends : Ends GpuError.Capacity (Completed p a₁ _) (a₁.completeNonempty p more) :=
    completeNonempty_ends ha₁.created (fun _ => hfirst ▸ hpos)
      (by rw [hfirst]; omega) fun hne => hfirst ▸ hroom (hmore hne)
  cases hlast : a₁.completeNonempty p more with
  | error e =>
    rw [hlast] at hends
    exact hends
  | ok a₂ =>
    rw [hlast] at hends
    have hstore : a₂.edgeStore = store := hends.same.store.trans ha₁.same.store
    have hcur₂ : a₁.curSubgraphs ≤ a₂.curSubgraphs := hends.cur ▸ le_max_left _ _
    refine ⟨hends.same.locked.trans (ha₁.same.locked.trans h.unlocked),hstore ▸ had.state,
      hends.created,?_⟩
    rw [hstore]
    rcases had.grow with hgrow | ⟨hne,hgrow⟩
    · simp only at hgrow
      omega
    · have hsketch : sketchEdges ≠ [] := fun hnil => hne (by rw [hnil,List.filter_nil])
      have hge : a.edgeStore.curSubgraph ≤ a₁.curSubgraphs := by
        rw [ha₁.cur,if_neg hsketch]
        exact le_max_right _ _
      simp only at hgrow
      omega

theorem Housed.flushTask [NeZero n] (hn : n < 2 ^ 32) (fuel : ℕ) (h : a.Housed p)
    (hfuel : a.edgeStore.contractInProgress → n + 2 ≤ fuel + a.edgeStore.needsContraction)
    (hpos : 0 < fuel)
    (hroom : (∃ v, a.edgeStore.needsContract v = true) →
      a.edgeStore.contractInProgress →
        a.edgeStore.curSubgraph ≤ p.maxSketchGraphs ∧ a.edgeStore.curSubgraph ≤ 16) :
    Ends GpuError.Capacity (Housed p) (a.flushTask p fuel) := by
  induction fuel generalizing a with
  | zero => exact absurd hpos (lt_irrefl 0)
  | succ fuel ih =>
    rw [MCGPUSketchAlg.flushTask]
    split
    · next hlt =>
      obtain ⟨⟨store,more⟩,hr,hm⟩ := h.store.advance hn hlt
      have hfirst : more.firstEsSubgraph = a.edgeStore.curSubgraph := hm.first
      have hcur : store.curSubgraph = a.edgeStore.curSubgraph := hm.cur
      have hneeds := (h.store.fetched hlt).1
      have hbudget := hfuel hlt
      rw [hr]
      refine Ends.bind (completeNonempty_ends (a := { a with edgeStore := store }) (b := more)
        ⟨h.created.sketches,h.created.room⟩ (fun _ => hfirst ▸ Nat.zero_lt_of_lt hlt)
        (hfirst ▸ h.high) fun hne => hfirst ▸ hroom (hm.found hne) hlt) fun a₁ ha₁ => ?_
      have hstore : a₁.edgeStore = store := ha₁.same.store
      have hcur₁ : a.curSubgraphs ≤ a₁.curSubgraphs := ha₁.cur ▸ le_max_left _ _
      have hhigh := h.high
      refine ih ⟨ha₁.same.locked.trans h.unlocked,hstore ▸ hm.state,ha₁.created,?_⟩ ?_ (by omega) ?_
      · rw [hstore,hcur]
        omega
      · intro hlt₁
        rw [hstore] at hlt₁ ⊢
        rcases hm.progress with hdone | ⟨hprog,_⟩
        · exact absurd hdone (ne_of_lt hlt₁)
        · simp only at hprog
          omega
      · rintro ⟨v,hv⟩ _
        rw [hstore] at hv ⊢
        rw [hcur]
        exact hroom ⟨v,hm.fewer v hv⟩ hlt
    · exact h

theorem Housed.flushSubgraphs (h : a.Housed p) (l : List ℕ) :
    (l.foldl flushSubgraph a).Housed p := by
  induction l generalizing a with
  | nil => exact h
  | cons g l ih => exact ih ⟨h.unlocked,h.store,⟨h.created.sketches,h.created.room⟩,h.high⟩

theorem Housed.call [NeZero n] (hn : n < 2 ^ 32) (h : a.Housed p) {c : Call n}
    (hroom : c.HasRoom p a) : Ends GpuError.Capacity (Housed p) (c.apply p a) := by
  cases c with
  | applyUpdateBatch src dsts =>
    rcases Nat.eq_zero_or_pos a.edgeStore.curSubgraph with hzero | hpos
    · exact h.adjacencyOnly hn hzero src dsts
    · exact h.sketching hn hpos src hroom
  | applyFlushUpdates =>
    refine Ends.bind (h.flushTask hn (n + 2) (fun _ => Nat.le_add_right _ _) (Nat.succ_pos _)
      fun hv hlt => hroom ⟨hlt,hv⟩) fun a' ha' => ha'.flushSubgraphs _

theorem Housed.runAll [NeZero n] (hn : n < 2 ^ 32) (h : a.Housed p) {calls : List (Call n)}
    (hroom : Trace.Along (Call.step p) (fun a c => c.HasRoom p a) a calls) :
    Ends GpuError.Capacity (Housed p) (Call.runAll p a calls) := by
  induction calls generalizing a with
  | nil => exact h
  | cons c calls ih =>
    obtain ⟨hc,hrest⟩ := hroom
    have hends := h.call hn hc
    rw [Call.runAll,List.foldlM_cons]
    cases happ : c.apply p a with
    | error e =>
      rw [happ] at hends
      exact hends
    | ok a' =>
      rw [happ] at hends
      rw [Call.step,happ] at hrest
      exact ih hends hrest

theorem subgraphs_in_bounds [NeZero n] (hn : n < 2 ^ 32) (p : MCGPUParams)
    {maxEdges initial needs : ℕ} (hinit : initial ≤ p.maxSketchGraphs) {calls : List (Call n)}
    (hroom : Trace.Along (Call.step p) (fun a c => c.HasRoom p a)
      (new n maxEdges initial needs) calls) :
    InBounds (Call.runAll p (new n maxEdges initial needs) calls) := by
  have hends := (Housed.new maxEdges needs hinit).runAll hn hroom
  cases hrun : Call.runAll p (MCGPUSketchAlg.new n maxEdges initial needs) calls with
  | error e =>
    rw [hrun] at hends
    exact hends
  | ok a => exact trivial

def zeroHash : MCGPUParams := ⟨fun _ _ => 0,0,2,1,16⟩

theorem subgraphs_in_bounds_zeroHash : InBounds (Call.runAll zeroHash (new 2 1 0 0)
    [.applyUpdateBatch 0 [1],.applyFlushUpdates]) :=
  subgraphs_in_bounds (by norm_num) zeroHash (Nat.zero_le _) (by decide +kernel)

def failure : Except GpuError (MCGPUSketchAlg n) → Option GpuError
  | .error e => some e
  | .ok _ => none

def pastMax : List (Call 2) :=
  [.applyUpdateBatch ⟨0,Nat.zero_lt_two⟩ [⟨1,Nat.one_lt_two⟩],.applyFlushUpdates,
    .applyUpdateBatch ⟨1,Nat.one_lt_two⟩ [⟨0,Nat.zero_lt_two⟩],.applyFlushUpdates]

theorem subgraphs_out_of_bounds :
    ¬ ∀ (n : ℕ) (_ : NeZero n) (p : MCGPUParams) (maxEdges initial needs : ℕ) (calls : List (Call n)),
      initial ≤ p.maxSketchGraphs →
      InBounds (Call.runAll p (new n maxEdges initial needs) calls) := by
  intro hclaim
  have h := hclaim 2 inferInstance zeroHash 1 0 0 pastMax (Nat.zero_le _)
  have hrun : failure (Call.runAll zeroHash (MCGPUSketchAlg.new 2 1 0 0) pastMax) =
      some .subgraphsIndex := by decide +kernel
  cases hr : Call.runAll zeroHash (MCGPUSketchAlg.new 2 1 0 0) pastMax with
  | error e =>
    rw [hr] at h hrun
    cases hrun
    rcases h with h | h
    · cases h
    · cases h
  | ok a =>
    rw [hr] at hrun
    cases hrun

end MCGPUSketchAlg
end GraphZeppelin.Gpu
