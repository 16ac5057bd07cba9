import GraphZeppelin.EdgeStore.Sequential
import GraphZeppelin.Gpu.Complete

namespace GraphZeppelin

namespace Gpu.MCGPUSketchAlg
open FoldExcept

variable {n : ℕ} {p : MCGPUParams} {a : MCGPUSketchAlg n} {N : Fin n → Fin n → ℕ} {src : Fin n}

def depth (p : MCGPUParams) (v u : Fin n) : ℕ := Bucket.ctzll (p.xxh (edgeIdx v u) p.seed)

theorem wellTagged_tagUpdates (maxDepth : ℕ) {bound : ℕ} (hb : bound ≤ maxDepth) (hb' : bound ≤ 64)
    (src : Fin n) (dsts : List (Fin n)) :
    WellTagged (depth p) bound src (EdgeStore.tagUpdates p.xxh p.seed maxDepth src dsts) := by
  intro e he g hg
  obtain ⟨dst,_,rfl⟩ := List.mem_map.mp he
  exact Bucket.le_getIndexDepth_iff _ _ _ (hg.trans hb) (hg.trans hb')

theorem submitted_tagUpdates (maxDepth : ℕ) (src : Fin n) (dsts : List (Fin n)) (v u : Fin n) :
    EdgeStore.submitted src (EdgeStore.tagUpdates p.xxh p.seed maxDepth src dsts) v u =
      if src = v then dsts.count u else 0 := by
  rw [EdgeStore.submitted,if_congr eq_comm rfl rfl,EdgeStore.tagUpdates,List.countP_map,
    List.count_eq_countP]
  exact if_congr Iff.rfl (List.countP_congr fun _ _ => by simp) rfl

structure Pipeline (p : MCGPUParams) (N : Fin n → Fin n → ℕ) (a : MCGPUSketchAlg n) : Prop where
  ready : a.Ready p
  unlocked : a.updateLocked = false
  seq : a.edgeStore.Sequential
  low : a.curSubgraphs ≤ a.edgeStore.curSubgraph
  high : a.edgeStore.curSubgraph ≤ a.curSubgraphs + 1
  balanced : a.edgeStore.Balanced (depth p) p.maxSketchGraphs a.given N

structure Sized (p : MCGPUParams) : Prop where
  batch : 16 ≤ p.batchSize
  max : p.maxSketchGraphs ≤ 16
  sub : p.maxSketchGraphs < p.numSubgraphs

def submittedWith (N : Fin n → Fin n → ℕ) (src : Fin n) (dsts : List (Fin n)) (v u : Fin n) : ℕ :=
  N v u + if src = v then dsts.count u else 0

structure Ingested (p : MCGPUParams) (N : Fin n → Fin n → ℕ) (a a' : MCGPUSketchAlg n) : Prop where
  grow : a'.edgeStore.curSubgraph ≤ a.edgeStore.curSubgraph + 1
  pipeline : a'.edgeStore.curSubgraph ≤ p.maxSketchGraphs → a'.Pipeline p N

theorem adjacencyOnly_spec [NeZero n] (hn : n < 2 ^ 32) (hp : Sized p) (h : a.Pipeline p N)
    (hzero : a.edgeStore.curSubgraph = 0) (src : Fin n) (dsts : List (Fin n)) :
    ∃ a', a.applyUpdateBatch p src dsts = .ok a' ∧ Ingested p (submittedWith N src dsts) a a' := by
  have ht : WellTagged (depth p) p.maxSketchGraphs src _ := wellTagged_tagUpdates
    p.numSubgraphs (le_of_lt hp.sub) (hp.max.trans (by decide)) src dsts
  obtain ⟨⟨store,more⟩,hr,had⟩ := EdgeStore.insertAdjEdges_spec hn h.balanced h.seq ht
  have hmore : more.dstsData = [] := by
    by_contra hne
    exact absurd (had.pos hne) (by omega)
  refine ⟨{ a with edgeStore := store },?_,?_,fun hc => ?_⟩
  · have hall (l : List (SubgraphTaggedUpdate n)) : (l.filter fun e => 0 ≤ e.subgraph) = l :=
      List.filter_eq_self.mpr fun e _ => decide_eq_true (Nat.zero_le _)
    rw [hzero,hall] at hr
    simp only [applyUpdateBatch,h.unlocked,hzero,EdgeStore.insertAdjVertices,hr,completeNonempty,
      hmore]
    rfl
  · rcases had.grow with hgrow | ⟨_,hgrow⟩
    · exact (le_of_eq hgrow).trans (Nat.le_succ _)
    · exact le_of_eq hgrow
  · refine ⟨⟨⟨h.ready.sketches,h.ready.room⟩,h.ready.bounded,h.ready.fresh⟩,h.unlocked,had.seq,?_,?_,?_⟩
    · have hlow := h.low
      rw [hzero] at hlow
      exact hlow.trans (Nat.zero_le _)
    · rcases had.grow with hgrow | ⟨_,hgrow⟩ <;>
      · change store.curSubgraph ≤ a.curSubgraphs + 1
        simp only [hzero] at hgrow
        omega
    · have hb := had.balanced hc
      obtain ⟨msrc,m,f,l⟩ := more
      cases hmore
      simp only [hzero,EdgeStore.sketched,lt_irrefl,if_false,TaggedUpdateBatch.reaches_nil,
        submitted_tagUpdates] at hb
      exact hb

theorem sketching_spec [NeZero n] (hn : n < 2 ^ 32) (hp : Sized p) (h : a.Pipeline p N)
    (hpos : 0 < a.edgeStore.curSubgraph) (src : Fin n) {dsts : List (Fin n)}
    (hdsts : dsts.length ≤ p.batchSize) :
    ∃ a', a.applyUpdateBatch p src dsts = .ok a' ∧ Ingested p (submittedWith N src dsts) a a' := by
  have hfirst := h.balanced.bounded
  have ht : WellTagged (depth p) p.maxSketchGraphs src _ := wellTagged_tagUpdates
    (p.numSubgraphs - 1) (Nat.le_sub_one_of_lt hp.sub) (hp.max.trans (by decide)) src dsts
  obtain ⟨⟨store,more⟩,hr,had⟩ := EdgeStore.insertAdjEdges_spec hn h.balanced h.seq ht
  have hready : { a with edgeStore := store : MCGPUSketchAlg n }.Ready p :=
    ⟨⟨h.ready.sketches,h.ready.room⟩,h.ready.bounded,h.ready.fresh⟩
  obtain ⟨a₁,ha₁,hready₁,hsame₁,hcur₁,hgiven₁⟩ := completeNonempty_spec
    (b := ⟨src,0,a.edgeStore.curSubgraph,EdgeStore.tagUpdates p.xxh p.seed (p.numSubgraphs - 1) src
      dsts⟩) hp.batch hp.max hready (fun _ => hpos) h.high hfirst
  have hle₁ : a.curSubgraphs ≤ a₁.curSubgraphs ∧ a₁.curSubgraphs ≤ a.edgeStore.curSubgraph := by
    rw [hcur₁]
    split
    · exact ⟨le_rfl,h.low⟩
    · exact ⟨le_max_left _ _,max_le h.low le_rfl⟩
  have hmore : more.firstEsSubgraph = a.edgeStore.curSubgraph := had.first
  obtain ⟨a₂,ha₂,hready₂,hsame₂,hcur₂,hgiven₂⟩ := completeNonempty_spec (b := more) hp.batch hp.max
    hready₁ (fun _ => hmore ▸ hpos) (hmore ▸ h.high.trans (Nat.succ_le_succ hle₁.1))
    (hmore ▸ hfirst)
  have hle₂ : a₁.curSubgraphs ≤ a₂.curSubgraphs ∧ a₂.curSubgraphs ≤ a.edgeStore.curSubgraph := by
    rw [hcur₂,hmore]
    split
    · exact ⟨le_rfl,hle₁.2⟩
    · exact ⟨le_max_left _ _,max_le hle₁.2 le_rfl⟩
  have hstore : a₂.edgeStore = store := hsame₂.store.trans hsame₁.store
  refine ⟨a₂,?_,?_,fun hc => ⟨hready₂,?_,?_,?_,?_,?_⟩⟩
  · have hlen : ¬ p.batchSize < dsts.length := not_lt.mpr hdsts
    have hlock : ¬ a.updateLocked = true := by rw [h.unlocked]; decide
    simp only [applyUpdateBatch,if_neg hlock,Nat.ne_of_gt hpos,if_false,if_neg hlen,hr,ha₁,bind,
      Except.bind]
    exact ha₂
  · rw [hstore]
    rcases had.grow with hgrow | ⟨_,hgrow⟩
    · exact (le_of_eq hgrow).trans (Nat.le_succ _)
    · exact le_of_eq hgrow
  · exact hsame₂.locked.trans (hsame₁.locked.trans h.unlocked)
  · exact hstore ▸ had.seq
  · rw [hstore]
    refine hle₂.2.trans ?_
    rcases had.grow with hgrow | ⟨_,hgrow⟩
    · exact ge_of_eq hgrow
    · exact (Nat.le_succ _).trans (ge_of_eq hgrow)
  · rw [hstore]
    rcases had.grow with hgrow | ⟨hne,hgrow⟩
    · exact (le_of_eq hgrow).trans (h.high.trans (Nat.succ_le_succ (hle₁.1.trans hle₂.1)))
    · rw [if_neg hne] at hcur₁
      refine (le_of_eq hgrow).trans (Nat.succ_le_succ (le_trans ?_ hle₂.1))
      exact hcur₁ ▸ le_max_right _ _
  · have hgiven : a₂.given = fun g v u => a.given g v u + EdgeStore.sketched src
        a.edgeStore.curSubgraph (EdgeStore.tagUpdates p.xxh p.seed (p.numSubgraphs - 1) src dsts)
        g v u + more.reaches g v u := by
      funext g v u
      rw [hgiven₂,hgiven₁,EdgeStore.sketched,if_pos hpos]
      rfl
    have hb := had.balanced (hstore ▸ hc)
    simp only [submitted_tagUpdates] at hb
    rw [hstore,hgiven]
    exact hb

theorem applyUpdateBatch_spec [NeZero n] (hn : n < 2 ^ 32) (hp : Sized p) (h : a.Pipeline p N)
    (src : Fin n) {dsts : List (Fin n)} (hdsts : dsts.length ≤ p.batchSize) :
    ∃ a', a.applyUpdateBatch p src dsts = .ok a' ∧ Ingested p (submittedWith N src dsts) a a' := by
  rcases Nat.eq_zero_or_pos a.edgeStore.curSubgraph with hzero | hpos
  · exact adjacencyOnly_spec hn hp h hzero src dsts
  · exact sketching_spec hn hp h hpos src hdsts

theorem flushTask_spec [NeZero n] (hn : n < 2 ^ 32) (hp : Sized p) (fuel : ℕ) (h : a.Pipeline p N)
    (hfuel : a.edgeStore.trueMinSubgraph < a.edgeStore.curSubgraph →
      n + 2 ≤ fuel + a.edgeStore.needsContraction) (hpos : 0 < fuel) :
    ∃ a', a.flushTask p fuel = .ok a' ∧ a'.Pipeline p N ∧
      a'.edgeStore.trueMinSubgraph = a'.edgeStore.curSubgraph := by
  induction fuel generalizing a with
  | zero => exact absurd hpos (lt_irrefl 0)
  | succ fuel ih =>
    rw [flushTask]
    split
    · next hlt =>
      obtain ⟨⟨store,more⟩,hr,hadv⟩ := EdgeStore.vertexAdvanceLoop_spec hn (n + 1) h.balanced h.seq
        hlt (by omega)
      have hmore : more.firstEsSubgraph = a.edgeStore.curSubgraph := hadv.first
      have hready : { a with edgeStore := store : MCGPUSketchAlg n }.Ready p :=
        ⟨⟨h.ready.sketches,h.ready.room⟩,h.ready.bounded,h.ready.fresh⟩
      obtain ⟨a₁,ha₁,hready₁,hsame₁,hcur₁,hgiven₁⟩ := completeNonempty_spec (b := more) hp.batch
        hp.max hready (fun _ => hmore ▸ Nat.zero_lt_of_lt hlt) (hmore ▸ h.high)
        (hmore ▸ h.balanced.bounded)
      have hle₁ : a.curSubgraphs ≤ a₁.curSubgraphs ∧
          a₁.curSubgraphs ≤ a.edgeStore.curSubgraph := by
        rw [hcur₁,hmore]
        split
        · exact ⟨le_rfl,h.low⟩
        · exact ⟨le_max_left _ _,max_le h.low le_rfl⟩
      have hstore : a₁.edgeStore = store := hsame₁.store
      have hcur : store.curSubgraph = a.edgeStore.curSubgraph := hadv.cur
      have hgiven : a₁.given = fun g v u => a.given g v u + more.reaches g v u := by
        funext g v u
        exact hgiven₁ g v u
      have hpipe : a₁.Pipeline p N := by
        refine ⟨hready₁,hsame₁.locked.trans h.unlocked,hstore ▸ hadv.seq,?_,?_,?_⟩
        · rw [hstore,hcur]
          exact hle₁.2
        · rw [hstore,hcur]
          exact h.high.trans (Nat.succ_le_succ hle₁.1)
        · rw [hstore,hgiven]
          exact hadv.balanced
      have hneeds := (h.seq.fetched hlt).1
      have hbudget := hfuel hlt
      obtain ⟨a₂,ha₂,hpipe₂,hdone⟩ := ih hpipe (fun hlt₁ => by
        rw [hstore] at hlt₁ ⊢
        rcases hadv.progress with hfin | ⟨hprog,_⟩
        · exact absurd hfin (ne_of_lt hlt₁)
        · simp only at hprog
          omega) (by omega)
      refine ⟨a₂,?_,hpipe₂,hdone⟩
      rw [EdgeStore.vertexAdvanceSubgraph,hr]
      simp only [ha₁,bind,Except.bind]
      exact ha₂
    · next hge => exact ⟨a,rfl,h,le_antisymm h.seq.lo (not_lt.mp hge)⟩

theorem given_flushSubgraph (a : MCGPUSketchAlg n) (g' g : ℕ) (v u : Fin n) :
    (a.flushSubgraph g').given g v u = a.given g v u := by
  rw [given,given,flushSubgraph]
  by_cases hg : g = g'
  · subst hg
    rw [setSubgraph_self,SketchSubgraph.given_flush]
  · rw [setSubgraph_ne hg]

theorem handed_flushSubgraph (a : MCGPUSketchAlg n) (g : ℕ) (v u : Fin n) :
    (a.flushSubgraph g).handed g v u = a.given g v u := by
  rw [handed,flushSubgraph,setSubgraph_self,SketchSubgraph.count_streams_flush]
  rfl

theorem handed_flushSubgraph_ne {g g' : ℕ} (h : g ≠ g') (v u : Fin n) :
    (a.flushSubgraph g').handed g v u = a.handed g v u := by
  rw [handed,flushSubgraph,setSubgraph_ne h]
  rfl

theorem foldl_flushSubgraph (l : List ℕ) (a : MCGPUSketchAlg n) {g : ℕ}
    (h : g ∈ l ∨ ∀ v u, a.handed g v u = a.given g v u) (v u : Fin n) :
    (l.foldl flushSubgraph a).handed g v u = a.given g v u := by
  induction l generalizing a with
  | nil => exact h.resolve_left List.not_mem_nil v u
  | cons g' l ih =>
    rw [List.foldl_cons,ih,given_flushSubgraph]
    by_cases hg : g = g'
    · subst hg
      refine .inr fun v u => ?_
      rw [handed_flushSubgraph,given_flushSubgraph]
    · refine (h.imp_left fun hmem => (List.mem_cons.mp hmem).resolve_left hg).imp_right ?_
      intro hall v u
      rw [handed_flushSubgraph_ne hg,given_flushSubgraph]
      exact hall v u

theorem foldl_flushSubgraph_frame (l : List ℕ) (a : MCGPUSketchAlg n) :
    SameStore a (l.foldl flushSubgraph a) ∧
      (l.foldl flushSubgraph a).curSubgraphs = a.curSubgraphs := by
  induction l generalizing a with
  | nil => exact ⟨.refl a,rfl⟩
  | cons g l ih =>
    rw [List.foldl_cons]
    obtain ⟨hsame,hcur⟩ := ih (a.flushSubgraph g)
    have hstep : SameStore a (a.flushSubgraph g) := ⟨rfl,rfl⟩
    exact ⟨hstep.trans hsame,hcur⟩

theorem pipeline_new {maxEdges initial needs : ℕ} (hinit : initial ≤ p.maxSketchGraphs) :
    (new n maxEdges initial needs).Pipeline p fun _ _ => 0 :=
  ⟨⟨⟨rfl,hinit⟩,fun _ => SketchSubgraph.bounded_initialized,fun _ _ _ _ => rfl⟩,rfl,
    ⟨le_rfl,Nat.le_succ _,fun _ _ => rfl,fun h => absurd h (lt_irrefl _)⟩,le_rfl,Nat.le_succ _,
    EdgeStore.Balanced.of_new hinit⟩

theorem submissions_append (pre : List (Fin n × List (Fin n))) (b : Fin n × List (Fin n)) :
    submissions (pre ++ [b]) = submittedWith (submissions pre) b.1 b.2 := by
  funext v u
  rw [submissions,submittedWith,List.map_append,List.sum_append]
  rfl

theorem applyUpdateBatches_spec [NeZero n] (hn : n < 2 ^ 32) (hp : Sized p)
    {batches : List (Fin n × List (Fin n))} (hsize : ∀ b ∈ batches, b.2.length ≤ p.batchSize)
    (h : a.Pipeline p fun _ _ => 0)
    (hfirst : ∀ pre a', pre <+: batches → a.applyUpdateBatches p pre = .ok a' →
      a'.edgeStore.curSubgraph ≤ p.maxSketchGraphs) :
    ∃ a', a.applyUpdateBatches p batches = .ok a' ∧ a'.Pipeline p (submissions batches) := by
  obtain ⟨a',ha',_,hpipe⟩ := foldlM_total
    (I := fun done a' => a.applyUpdateBatches p done = .ok a' ∧ a'.Pipeline p (submissions done))
    [] batches ⟨rfl,h⟩ fun done b a' hpre hst => by
      obtain ⟨hrun,hpipe⟩ := hst
      obtain ⟨a'',hstep,hing⟩ := applyUpdateBatch_spec hn hp hpipe b.1
        (hsize b (hpre.subset (List.mem_append_right done (List.mem_singleton_self b))))
      have hrun' : a.applyUpdateBatches p (done ++ [b]) = .ok a'' := foldlM_snoc_ok hrun hstep
      refine ⟨a'',hstep,hrun',?_⟩
      rw [List.nil_append,submissions_append]
      exact hing.pipeline (hfirst _ a'' hpre hrun')
  exact ⟨a',ha',hpipe⟩

theorem first_le_of_room [NeZero n] (hn : n < 2 ^ 32) (hp : Sized p)
    {batches : List (Fin n × List (Fin n))} (hsize : ∀ b ∈ batches, b.2.length ≤ p.batchSize)
    (h : a.Pipeline p fun _ _ => 0)
    (hroom : a.edgeStore.curSubgraph + batches.length ≤ p.maxSketchGraphs)
    (pre : List (Fin n × List (Fin n))) (a' : MCGPUSketchAlg n) (hpre : pre <+: batches)
    (hrun : a.applyUpdateBatches p pre = .ok a') :
    a'.edgeStore.curSubgraph ≤ p.maxSketchGraphs := by
  obtain ⟨a'',ha'',_,hle⟩ := foldlM_total
    (I := fun done (a' : MCGPUSketchAlg n) => a'.Pipeline p (submissions done) ∧
      a'.edgeStore.curSubgraph ≤ a.edgeStore.curSubgraph + done.length)
    (f := fun a' b => a'.applyUpdateBatch p b.1 b.2) [] pre ⟨h,le_rfl⟩ fun done b a' hdone hst => by
      obtain ⟨hpipe,hle⟩ := hst
      have hlen := (hdone.trans hpre).length_le
      rw [List.length_append,List.length_singleton] at hlen
      rw [List.nil_append] at hle
      obtain ⟨a'',hstep,hing⟩ := applyUpdateBatch_spec hn hp hpipe b.1
        (hsize b ((hdone.trans hpre).subset
          (List.mem_append_right done (List.mem_singleton_self b))))
      have hgrow := hing.grow
      refine ⟨a'',hstep,?_,?_⟩
      · rw [List.nil_append,submissions_append]
        exact hing.pipeline (by omega)
      · rw [List.nil_append,List.length_append,List.length_singleton]
        omega
  obtain rfl : a' = a'' := Except.ok.inj (hrun.symm.trans ha'')
  have hlen := hpre.length_le
  rw [List.nil_append] at hle
  omega

theorem applyFlushUpdates_spec [NeZero n] (hn : n < 2 ^ 32) (hp : Sized p) (h : a.Pipeline p N) :
    ∃ a', a.applyFlushUpdates p = .ok a' ∧
      (∀ g < a'.curSubgraphs, ∀ v u, (a'.handed g v u : ZMod 2) = EdgeStore.due (depth p) N g v u) ∧
      ∀ v u, (a'.edgeStore.entries v u : ZMod 2) =
        EdgeStore.due (depth p) N a'.edgeStore.curSubgraph v u := by
  obtain ⟨a₁,ha₁,hpipe,hdone⟩ := flushTask_spec hn hp (n + 2) h (fun _ => Nat.le_add_right _ _)
    (Nat.succ_pos _)
  obtain ⟨hsame,hcur⟩ := foldl_flushSubgraph_frame (List.range a₁.curSubgraphs) a₁
  have hsettled (v : Fin n) := hpipe.balanced.settled v (hpipe.seq.done hdone v)
  refine ⟨(List.range a₁.curSubgraphs).foldl flushSubgraph a₁,?_,fun g hg v u => ?_,fun v u => ?_⟩
  · rw [applyFlushUpdates,ha₁]
    rfl
  · rw [hcur] at hg
    rw [foldl_flushSubgraph _ _ (.inl (List.mem_range.mpr hg))]
    have hlow := hpipe.low
    rcases Nat.lt_or_eq_of_le (Nat.succ_le_of_lt (lt_of_lt_of_le hg hlow)) with hlt | heq
    · exact hpipe.balanced.low g v u hlt
    · exact (hsettled v).last u g heq
  · rw [hsame.store]
    exact (hsettled v).stored u

theorem odd_iff_due {depth : Fin n → Fin n → ℕ} {g k : ℕ} {v u : Fin n}
    (h : (k : ZMod 2) = EdgeStore.due depth N g v u) : Odd k ↔ Odd (N v u) ∧ g ≤ depth v u := by
  rw [← ZMod.natCast_eq_one_iff_odd,h,EdgeStore.due,← ZMod.natCast_eq_one_iff_odd]
  split
  · next hd => exact (and_iff_left hd).symm
  · next hd => exact ⟨fun h => absurd h (by decide),fun h => absurd h.2 hd⟩

theorem single_threaded_ingestion_correct [NeZero n] (hn : n < 2 ^ 32) (hp : Sized p)
    {maxEdges initial needs : ℕ} (hinit : initial ≤ p.maxSketchGraphs)
    {batches : List (Fin n × List (Fin n))} (hsize : ∀ b ∈ batches, b.2.length ≤ p.batchSize)
    (hfirst : ∀ pre a, pre <+: batches →
      (new n maxEdges initial needs).applyUpdateBatches p pre = .ok a →
        a.edgeStore.curSubgraph ≤ p.maxSketchGraphs) :
    ∃ a a', (new n maxEdges initial needs).applyUpdateBatches p batches = .ok a ∧
      a.applyFlushUpdates p = .ok a' ∧
      (∀ g < a'.curSubgraphs, ∀ v u, Odd (a'.handed g v u) ↔
        Odd (submissions batches v u) ∧ g ≤ depth p v u) ∧
      ∀ v u, Odd (a'.edgeStore.entries v u) ↔
        Odd (submissions batches v u) ∧ a'.edgeStore.curSubgraph ≤ depth p v u := by
  obtain ⟨a,ha,hpipe⟩ := applyUpdateBatches_spec hn hp hsize (pipeline_new hinit) hfirst
  obtain ⟨a',ha',hhanded,hentries⟩ := applyFlushUpdates_spec hn hp hpipe
  exact ⟨a,a',ha,ha',fun g hg v u => odd_iff_due (hhanded g hg v u),
    fun v u => odd_iff_due (hentries v u)⟩

def pairParams : MCGPUParams := ⟨fun _ _ => 4,0,4,3,16⟩

def pairBatches : List (Fin 2 × List (Fin 2)) :=
  [(⟨0,Nat.zero_lt_two⟩,[⟨1,Nat.one_lt_two⟩]),(⟨1,Nat.one_lt_two⟩,[⟨0,Nat.zero_lt_two⟩])]

theorem single_threaded_ingestion_pair :
    ∃ a a', (new 2 1 1 0).applyUpdateBatches pairParams pairBatches = .ok a ∧
      a.applyFlushUpdates pairParams = .ok a' ∧
      (∀ g < a'.curSubgraphs, ∀ v u, Odd (a'.handed g v u) ↔
        Odd (submissions pairBatches v u) ∧ g ≤ depth pairParams v u) ∧
      ∀ v u, Odd (a'.edgeStore.entries v u) ↔
        Odd (submissions pairBatches v u) ∧ a'.edgeStore.curSubgraph ≤ depth pairParams v u := by
  have hp : Sized pairParams := ⟨by decide,by decide,by decide⟩
  have hinit : 1 ≤ pairParams.maxSketchGraphs := by decide
  have hsize : ∀ b ∈ pairBatches, b.2.length ≤ pairParams.batchSize := by decide
  exact single_threaded_ingestion_correct (by decide) hp hinit hsize
    (first_le_of_room (by decide) hp hsize (pipeline_new hinit) (by decide))

end Gpu.MCGPUSketchAlg
end GraphZeppelin
