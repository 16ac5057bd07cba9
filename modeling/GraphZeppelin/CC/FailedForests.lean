import GraphZeppelin.Boruvka.RealEdges
import GraphZeppelin.CC.FailedQuery

open SpanningForest

namespace GraphZeppelin.CC
open Dsu Boruvka QueryState Sketch

variable {n w T : ℕ} {p : SketchParams} {Q : QueryRun n T} {a s : CCSketchAlg n w p}
  {xxh : XxHash} {G H : SimpleGraph (Fin n)} [DecidableRel G.Adj] [DecidableRel H.Adj]

namespace CCSketchAlg

section Buckets

theorem incident_subset (G : SimpleGraph (Fin n)) [DecidableRel G.Adj] (v : Fin n) :
    incident G v ⊆ cutEdges G {v} := by
  intro i hi
  obtain ⟨u,hu,rfl⟩ := Finset.mem_image.mp hi
  have hadj := (Finset.mem_filter.mp hu).2
  exact (mem_cutEdges G).mpr
    ⟨v,u,Finset.mem_singleton_self v,Finset.notMem_singleton.mpr hadj.ne',hadj,rfl⟩

theorem incident_mono (hH : H ≤ G) (v : Fin n) : incident H v ⊆ incident G v := by
  refine Finset.image_subset_image fun u hu => ?_
  simp only [Finset.mem_filter,Finset.mem_univ,true_and] at hu ⊢
  exact hH hu

theorem edgeIdx_notMem_incident (hn : n < 2 ^ 32) {u v : Fin n} (h : ¬ H.Adj u v) :
    edgeIdx u v ∉ incident H u := by
  intro hmem
  obtain ⟨x,hx,he⟩ := Finset.mem_image.mp hmem
  have hadj := (Finset.mem_filter.mp hx).2
  rcases (edgeIdx_eq_iff hn).mp he with ⟨_,rfl⟩ | ⟨rfl,rfl⟩
  · exact h hadj
  · exact h hadj

-- an edge that is gone from the sketches shows in the deterministic bucket
theorem setBuckets_ne (hn : n < 2 ^ 32) (hcf : ∀ A, CollisionFree xxh p (cutEdges G A))
    (hH : H ≤ G) {u v : Fin n} (hG : G.Adj u v) (hno : ¬ H.Adj u v) :
    setBuckets xxh p (incident H u) ≠ setBuckets xxh p (incident G u) := by
  intro heq
  have hdet := congrFun heq p.detBucket
  rw [setBuckets_det,setBuckets_det,← Finset.sum_sdiff (incident_mono hH u)] at hdet
  have hmem : edgeIdx u v ∈ incident G u :=
    Finset.mem_image.mpr ⟨v,Finset.mem_filter.mpr ⟨Finset.mem_univ v,hG⟩,rfl⟩
  refine (hcf {u}).zero (incident G u \ incident H u)
    (Finset.sdiff_subset.trans (incident_subset G u))
    ⟨_,Finset.mem_sdiff.mpr ⟨hmem,edgeIdx_notMem_incident hn hno⟩⟩ ?_
  exact right_eq_add.mp hdet

end Buckets

section Query

-- a cached forest holds edges of the graph, though it need not span the graph
structure Sound (xxh : XxHash) (G : SimpleGraph (Fin n)) [DecidableRel G.Adj]
    (a : CCSketchAlg n w p) : Prop where
  sketches : Sketches xxh G a.sketches
  flags : a.FlagsAgree
  forest : a.dsuValid = true → ForestInv G a.query

omit [DecidableRel G.Adj] in
theorem forestInv_of_correct {q : QueryState n} (h : Correct G q) : ForestInv G q :=
  ⟨h.keyed,h.forest.sub,h.forest.acyclic,fun u v => (h.rep u v).trans (h.forest.spans u v).symm⟩

theorem EagerInv.sound (he : a.EagerInv G) (hs : Sketches xxh G a.sketches) : a.Sound xxh G :=
  ⟨hs,he.shared,fun hv => forestInv_of_correct (he.correct hv)⟩

variable {E : QueryEnv n T}

def FirstQueryFails (E : QueryEnv n T) (a : CCSketchAlg n w p) : Prop :=
  a.sharedDsuValid = false ∧ (a.boruvkaEmulation E).2 ≠ none

theorem calcSpanningForest_threw_iff (E : QueryEnv n T) (o : ForestOrder n)
    (a : CCSketchAlg n w p) :
    (∃ err, (a.calcSpanningForest E o).2 = .error err) ↔ FirstQueryFails E a := by
  have hrefresh : (a.refresh E).2 = (a.boruvkaEmulation E).2 := rfl
  rw [FirstQueryFails,← hrefresh]
  unfold calcSpanningForest connectedComponents
  cases a.sharedDsuValid with
  | true => simp
  | false => cases hr : (a.refresh E).2 <;> simp [hr]

theorem refresh_forest (hs : Sketches E.xxh G a.sketches)
    (hcf : ∀ A, CollisionFree E.xxh p (cutEdges G A)) : ForestInv G (a.refresh E).1.query := by
  have hforest := boruvkaEmulation_forest hcf hs a.query.dsu
  simp only [refresh,boruvkaEmulation]
  split <;> exact hforest

theorem Sound.connectedComponents (h : a.Sound E.xxh G)
    (hcf : ∀ A, CollisionFree E.xxh p (cutEdges G A)) {cc : ConnectedComponents n}
    (hok : (a.connectedComponents E).2 = .ok cc) :
    (a.connectedComponents E).1.Sound E.xxh G ∧ (a.connectedComponents E).1.dsuValid = true := by
  have hbkt (v : Fin n) := (connectedComponents_buckets E a v).trans (h.sketches v)
  rw [connectedComponents_eq h.flags] at hok hbkt ⊢
  split at hok
  · cases hok
  · next hnone =>
    have hrep (b : CCSketchAlg n w p) (x : Fin n) :
        b.components.1.query.dsu.rep x = b.query.dsu.rep x :=
      DisjointSetUnionMT.rep_findEach _ _ x
    simp only [hnone] at hbkt ⊢
    unfold prepare at hnone hbkt ⊢
    split at hnone
    · next hv =>
      rw [if_pos hv] at hbkt ⊢
      exact ⟨⟨hbkt,h.flags,fun _ => (h.forest hv).of_rep (hrep a)⟩,hv⟩
    · next hv =>
      rw [if_neg hv] at hbkt ⊢
      have hforest := (refresh_forest h.sketches hcf).of_rep (hrep (a.refresh E).1)
      rcases refresh_cases E a with ⟨_,_,hd,_⟩ | ⟨⟨err,herr⟩,_⟩
      · exact ⟨⟨hbkt,h.flags.refresh E,fun _ => hforest⟩,hd⟩
      · cases hnone.symm.trans herr

omit [DecidableRel G.Adj] in
theorem preInsert_deleted {e : Edge n} (hq : ForestInv G a.query) (hv : a.dsuValid = true)
    (he : e.dst ∈ a.query.spanningForest e.src) (type : UpdateType) :
    (a.preInsert ⟨e,type⟩).dsuValid = false := by
  have hlt := hq.keyed _ _ he
  have hmin : min e.src e.dst = e.src := min_eq_left hlt.le
  have hmax : max e.src e.dst = e.dst := max_eq_right hlt.le
  have hadj : (forestGraph a.query.spanningForest).Adj e.src e.dst :=
    forestGraph_adj.mpr ⟨hlt.ne,.inl he⟩
  have hm : (a.query.mergeEdge e.src e.dst).2 = false := by
    by_contra hne
    exact hq.merged_iff.mp (Bool.eq_true_of_not_eq_false hne) ((hq.rep _ _).mpr hadj.reachable)
  have hf := mergeEdge_of_not_merged hm
  simp only [preInsert,hv,if_true,hmin,hmax,hm,hf,he]
  rfl

omit [DecidableRel G.Adj] in
theorem updateEdges_invalid (hv : a.dsuValid = false) (type : UpdateType) (es : List (Edge n)) :
    (a.updateEdges xxh type es).dsuValid = false := by
  refine List.foldlRecOn (motive := fun b : CCSketchAlg n w p => b.dsuValid = false) es _ hv
    fun b hb e _ => ?_
  change (b.preInsert ⟨e,type⟩).dsuValid = false
  rw [preInsert,hb]
  exact hb

omit [DecidableRel G.Adj] in
theorem updateEdges_deleted {es : List (Edge n)} (hq : ForestInv G a.query)
    (hv : a.dsuValid = true) (he : ∀ e ∈ es, e.dst ∈ a.query.spanningForest e.src) (hne : es ≠ []) :
    (a.updateEdges xxh .delete es).dsuValid = false := by
  obtain ⟨e,es,rfl⟩ := List.exists_cons_of_ne_nil hne
  have hfirst : (a.update xxh ⟨e,.delete⟩).dsuValid = false :=
    preInsert_deleted hq hv (he e List.mem_cons_self) .delete
  exact updateEdges_invalid hfirst .delete es

end Query

section Loop

omit [DecidableRel G.Adj] in
theorem extracted_ofForest (o : ForestOrder n) {q : QueryState n} (hq : ForestInv G q) :
    Extracted G (.ofForest o q.spanningForest) := by
  refine ⟨SpanningForest.proper_ofForest o hq.keyed,?_⟩
  rw [SpanningForest.graph_ofForest]
  exact hq.sub

structure Deleted (xxh : XxHash) (G : SimpleGraph (Fin n)) [DecidableRel G.Adj]
    (SFs : List (SpanningForest n)) (a : CCSketchAlg n w p) : Prop where
  sound : a.Sound xxh (residual G SFs)
  steps : Stepwise Extracted G SFs

theorem Deleted.next {SFs : List (SpanningForest n)} {sf : SpanningForest n} {i : ℕ}
    (h : a.Deleted Q.xxh G SFs) (hcf : ∀ A, CollisionFree Q.xxh p (cutEdges G A))
    (hok : (a.calcSpanningForest (Q.env i) (Q.order i)).2 = .ok sf) :
    Deleted Q.xxh G (SFs ++ [sf])
      ((a.calcSpanningForest (Q.env i) (Q.order i)).1.updateEdges Q.xxh .delete sf.edges) ∧
    (sf.edges = [] → ((a.calcSpanningForest (Q.env i) (Q.order i)).1.updateEdges Q.xxh .delete
      sf.edges).dsuValid = true) := by
  have hcf' (A : Finset (Fin n)) : CollisionFree (Q.env i).xxh p (cutEdges (residual G SFs) A) :=
    (hcf A).mono (cutEdges_residual_subset G SFs A)
  simp only [calcSpanningForest] at hok ⊢
  split at hok
  · cases hok
  · next cc hcc =>
    obtain ⟨hsound,hv⟩ := Sound.connectedComponents (E := Q.env i) h.sound hcf' hcc
    cases hok
    have hq := hsound.forest hv
    have hext := extracted_ofForest (Q.order i) hq
    have hres := residual_concat hext.1 hext.2
    generalize hsf : SpanningForest.ofForest (Q.order i) _ = sf at hext hres ⊢
    have hmem (e : Edge n) (he : e ∈ sf.edges) : e.dst ∈
        (a.connectedComponents (Q.env i)).1.query.spanningForest e.src := by
      rw [← hsf] at he
      exact SpanningForest.mem_ofForest.mp he
    refine ⟨⟨⟨?_,hsound.flags.updateEdges _ _,fun hvalid => ?_⟩,
      Stepwise.concat_iff.mpr ⟨h.steps,hext⟩⟩,fun hnil => ?_⟩
    · exact sketches_updateEdges Q.vertices_lt hsound.sketches _ hres _
    · by_cases hnil : sf.edges = []
      · rw [hres,hnil,toggled_nil]
        exact hq
      · cases hvalid.symm.trans (updateEdges_deleted hq hv hmem hnil)
    · rw [hnil]
      exact hv

theorem Deleted.deleteForests (hcf : ∀ A, CollisionFree Q.xxh p (cutEdges G A)) (k i maxRounds : ℕ)
    {SFs : List (SpanningForest n)} (h : a.Deleted Q.xxh G SFs)
    {r : ℕ × List (SpanningForest n)} (hrun : a.deleteForests Q k i maxRounds SFs = (s,.ok r)) :
    s.Deleted Q.xxh G r.2 ∧
      (0 < k → (∀ sf ∈ r.2, sf.edges = []) → s.dsuValid = true) := by
  induction k generalizing i maxRounds SFs a with
  | zero =>
    cases hrun
    exact ⟨h,fun hlt => absurd hlt (lt_irrefl 0)⟩
  | succ k ih =>
    rw [CCSketchAlg.deleteForests] at hrun
    split at hrun
    · cases hrun
    · next sf hsf =>
      obtain ⟨hnext,hvalid⟩ := h.next hcf hsf
      obtain ⟨hdel,hempty⟩ := ih _ _ hnext hrun
      refine ⟨hdel,fun _ hnil => ?_⟩
      cases k with
      | zero =>
        cases hrun
        exact hvalid (hnil sf (by simp))
      | succ k => exact hempty (Nat.succ_pos k) hnil

-- the query that throws runs on what the shorter loop before it leaves
theorem deleteForests_threw (k i maxRounds : ℕ) (SFs : List (SpanningForest n)) {err : QueryError}
    (hrun : (a.deleteForests Q k i maxRounds SFs).2 = .error err) :
    ∃ j < k, ∃ s r, a.deleteForests Q j i maxRounds SFs = (s,.ok r) ∧
      (s.calcSpanningForest (Q.env (i + j)) (Q.order (i + j))).2 = .error err ∧
      (a.deleteForests Q k i maxRounds SFs).1 =
        (s.calcSpanningForest (Q.env (i + j)) (Q.order (i + j))).1 := by
  induction k generalizing i maxRounds SFs a with
  | zero => cases hrun
  | succ k ih =>
    cases hsf : (a.calcSpanningForest (Q.env i) (Q.order i)).2 with
    | error err' =>
      rw [deleteForests,hsf] at hrun ⊢
      cases hrun
      exact ⟨0,Nat.succ_pos k,a,(maxRounds,SFs),rfl,hsf,rfl⟩
    | ok sf =>
      simp only [deleteForests,hsf] at hrun ⊢
      obtain ⟨j,hj,s,r,hprev,herr,hstate⟩ := ih _ _ _ hrun
      rw [Nat.add_right_comm,Nat.add_assoc i] at herr hstate
      refine ⟨j + 1,Nat.succ_lt_succ hj,s,r,?_,herr,hstate⟩
      simp only [deleteForests,hsf]
      exact hprev

theorem calcSpanningForest_buckets (E : QueryEnv n T) (o : ForestOrder n) (a : CCSketchAlg n w p)
    (v : Fin n) : ((a.calcSpanningForest E o).1.sketches v).buckets = (a.sketches v).buckets := by
  have hcc := connectedComponents_buckets E a v
  rw [calcSpanningForest]
  split
  · exact hcc
  · exact hcc

theorem Deleted.none_found {SFs : List (SpanningForest n)} (h : s.Deleted xxh G SFs)
    (hn : n < 2 ^ 32) (hcf : ∀ A, CollisionFree xxh p (cutEdges G A))
    (hkept : ∀ v, (s.sketches v).buckets = setBuckets xxh p (incident G v)) :
    ∀ sf ∈ SFs, sf.edges = [] := by
  intro sf hsf
  refine List.eq_nil_iff_forall_not_mem.mpr fun e he => ?_
  obtain ⟨i,hi,rfl⟩ := List.mem_iff_getElem.mp hsf
  obtain ⟨hproper,hsub⟩ := h.steps i hi
  have hadj : SFs[i].graph.Adj e.src e.dst :=
    (SpanningForest.graph_adj_iff (hproper.oriented e he).ne).mpr ⟨e,he,.inl ⟨rfl,rfl⟩⟩
  have hgone : ¬ (residual G SFs).Adj e.src e.dst := fun hres => hres.2 _ hsf e he (.inl ⟨rfl,rfl⟩)
  have hsubG : residual G SFs ≤ G := fun _ _ hres => hres.1
  exact setBuckets_ne hn hcf hsubG (hsub hadj).1 hgone
    ((h.sound.sketches e.src).symm.trans (hkept e.src))

end Loop

def Intact (Q : QueryRun n T) (a : CCSketchAlg n w p) (k : ℕ) : Prop :=
  ∀ err, (a.calcDisjointSpanningForests Q k).2 = .error err →
    ∀ v, ((a.calcDisjointSpanningForests Q k).1.sketches v).buckets = (a.sketches v).buckets

theorem calcDisjoint_threw {k : ℕ} {err : QueryError}
    (h : (a.calcDisjointSpanningForests Q k).2 = .error err) :
    ∃ j < k, ∃ s r, a.deleteForests Q j 0 0 [] = (s,.ok r) ∧ FirstQueryFails (Q.env j) s ∧
      ∀ v, ((a.calcDisjointSpanningForests Q k).1.sketches v).buckets = (s.sketches v).buckets := by
  simp only [calcDisjointSpanningForests] at h ⊢
  split at h
  · next err' herr =>
    obtain ⟨j,hj,s,r,hprev,hthrew,hstate⟩ := deleteForests_threw _ _ _ _ herr
    rw [Nat.zero_add] at hthrew hstate
    refine ⟨j,hj,s,r,hprev,(calcSpanningForest_threw_iff ..).mp ⟨_,hthrew⟩,fun v => ?_⟩
    rw [hstate]
    exact calcSpanningForest_buckets ..
  · cases h

theorem FirstQueryFails.stops {k maxRounds : ℕ} (h : FirstQueryFails (Q.env 0) a)
    {r : ℕ × List (SpanningForest n)} (hrun : a.deleteForests Q k 0 maxRounds [] = (s,.ok r)) :
    k = 0 := by
  obtain ⟨err,herr⟩ := (calcSpanningForest_threw_iff (Q.env 0) (Q.order 0) a).mpr h
  cases k with
  | zero => rfl
  | succ k =>
    rw [deleteForests,herr] at hrun
    cases hrun

theorem FirstQueryFails.intact (h : FirstQueryFails (Q.env 0) a) (k : ℕ) : Intact Q a k := by
  intro err herr v
  obtain ⟨j,_,s,r,hprev,_,hbkt⟩ := calcDisjoint_threw herr
  obtain rfl := h.stops hprev
  cases hprev
  exact hbkt v

theorem failed_forests_intact_iff (Q : QueryRun n T) (G : SimpleGraph (Fin n)) [DecidableRel G.Adj]
    (a : CCSketchAlg n w p) (k : ℕ) (hs : Sketches Q.xxh G a.sketches) (he : a.EagerInv G)
    (hcf : ∀ A, CollisionFree Q.xxh p (cutEdges G A)) {err : QueryError}
    (herr : (a.calcDisjointSpanningForests Q k).2 = .error err) :
    ((∀ v, ((a.calcDisjointSpanningForests Q k).1.sketches v).buckets = (a.sketches v).buckets) ↔
      FirstQueryFails (Q.env 0) a) ∧
    (k ≤ 1 → FirstQueryFails (Q.env 0) a) := by
  obtain ⟨j,hj,s,r,hprev,hfails,hbkt⟩ := calcDisjoint_threw herr
  have hzero (h0 : j = 0) : FirstQueryFails (Q.env 0) a := by
    subst h0
    cases hprev
    exact hfails
  refine ⟨⟨fun hkept => ?_,fun h => h.intact k err herr⟩,fun hk => hzero (by omega)⟩
  have hnil := residual_nil G
  have hstart : a.Deleted Q.xxh G [] := by
    refine ⟨(hnil.symm ▸ he : a.EagerInv (residual G [])).sound fun v => (hs v).trans ?_,.nil⟩
    congr! 2
    exact hnil.symm
  by_contra hno
  have hpos : 0 < j := Nat.pos_of_ne_zero fun h0 => hno (hzero h0)
  obtain ⟨hdel,hvalid⟩ := hstart.deleteForests hcf j 0 0 hprev
  have hnone := hdel.none_found Q.vertices_lt hcf fun v => (hbkt v).symm.trans ((hkept v).trans (hs v))
  have hshared := hdel.sound.flags.trans (hvalid hpos hnone)
  exact Bool.false_ne_true (hfails.1.symm.trans hshared)

theorem calcDisjoint_first_threw {k : ℕ} {err : QueryError}
    (herr : (a.calcSpanningForest (Q.env 0) (Q.order 0)).2 = .error err) :
    (a.calcDisjointSpanningForests Q (k + 1)).2 = .error err := by
  simp only [calcDisjointSpanningForests,deleteForests,herr]

theorem calcDisjoint_second_threw {sf : SpanningForest n} {err : QueryError}
    (hsf : (a.calcSpanningForest (Q.env 0) (Q.order 0)).2 = .ok sf)
    (herr : (((a.calcSpanningForest (Q.env 0) (Q.order 0)).1.updateEdges Q.xxh .delete
      sf.edges).calcSpanningForest (Q.env 1) (Q.order 1)).2 = .error err) :
    (a.calcDisjointSpanningForests Q 2).2 = .error err ∧
    ∀ v, ((a.calcDisjointSpanningForests Q 2).1.sketches v).buckets =
      (((a.calcSpanningForest (Q.env 0) (Q.order 0)).1.updateEdges Q.xxh .delete
        sf.edges).sketches v).buckets := by
  simp only [calcDisjointSpanningForests,deleteForests,hsf,herr]
  exact ⟨trivial,fun v => calcSpanningForest_buckets ..⟩

theorem calcSpanningForest_cached (hv : a.sharedDsuValid = true) (E : QueryEnv n T)
    (o : ForestOrder n) : a.calcSpanningForest E o =
      (a.components.1,.ok (.ofForest o a.components.1.query.spanningForest)) := by
  simp only [calcSpanningForest,connectedComponents_cached hv E]

theorem FlagsAgree.calcSpanningForest (h : a.FlagsAgree) (E : QueryEnv n T) (o : ForestOrder n) :
    (a.calcSpanningForest E o).1.FlagsAgree := h.runQuery E (.calcSpanningForest o)

theorem completeAlg_forest :
    (completeAlg.calcSpanningForest (soloRun.env 0) (soloRun.order 0)).2 = .ok ⟨starEdges⟩ ∧
    (completeAlg.calcSpanningForest (soloRun.env 0) (soloRun.order 0)).1.sketches =
      completeAlg.sketches ∧
    ((completeAlg.calcSpanningForest (soloRun.env 0) (soloRun.order 0)).1.updateEdges xxh3 .delete
      starEdges).dsuValid = false := by
  have hkept (b : CCSketchAlg 4 1 stuckParams) : b.components.1.sketches = b.sketches := rfl
  have hforest : SpanningForest.ofForest (soloRun.order 0)
      completeAlg.components.1.query.spanningForest = ⟨starEdges⟩ := by
    decide
  rw [calcSpanningForest_cached (show completeAlg.sharedDsuValid = true by decide),hforest]
  refine ⟨rfl,hkept completeAlg,?_⟩
  decide

theorem triangle_first_fails {a : CCSketchAlg 4 1 stuckParams} (hflags : a.FlagsAgree)
    (hv : a.dsuValid = false) (ha : a.sketches = triangleSketch) (i : ℕ) :
    FirstQueryFails (soloRun.env i) a := by
  obtain ⟨err,herr⟩ := triangle_throws hv ha i
  rw [prepare,if_neg (Bool.eq_false_iff.mp hv)] at herr
  exact ⟨hflags.trans hv,fun hnone => by cases hnone.symm.trans herr⟩

theorem complete_graph_not_intact : ¬ Intact soloRun completeAlg 2 := by
  obtain ⟨hsf,hsk,hv⟩ := completeAlg_forest
  have hcomplete : Reachable xxh3 completeAlg := (Reachable.new _).updateEdges _ _
  have hflags := hcomplete.flagsAgree.calcSpanningForest (soloRun.env 0) (soloRun.order 0)
  have hfails := triangle_first_fails (hflags.updateEdges .delete starEdges) hv (deleted_star hsk) 1
  obtain ⟨err,herr⟩ := (calcSpanningForest_threw_iff (soloRun.env 1) (soloRun.order 1) _).mpr hfails
  obtain ⟨hthrew,hleft⟩ := calcDisjoint_second_threw (Q := soloRun) hsf herr
  have hstar := congrArg Sketch.buckets (congrFun (deleted_star hsk) 1)
  have hdet : (triangleSketch 1).buckets stuckParams.detBucket ≠
      (completeAlg.sketches 1).buckets stuckParams.detBucket := by
    decide
  intro h
  exact hdet (congrFun (hstar.symm.trans ((hleft 1).symm.trans (h err hthrew 1))) _)

theorem triangle_query_intact : ∃ err,
    (triangleAlg.calcDisjointSpanningForests soloRun 2).2 = .error err ∧
    ∀ v, ((triangleAlg.calcDisjointSpanningForests soloRun 2).1.sketches v).buckets =
      (triangleAlg.sketches v).buckets := by
  have hv := triangleAlg_invalid
  have hsk : triangleAlg.sketches = triangleSketch := deleted_star rfl
  have hfails := triangle_first_fails triangleAlg_reachable.flagsAgree hv hsk 0
  obtain ⟨err,herr⟩ := (calcSpanningForest_threw_iff (soloRun.env 0) (soloRun.order 0) _).mpr hfails
  have hrun : (triangleAlg.calcDisjointSpanningForests soloRun 2).2 = .error err :=
    calcDisjoint_first_threw herr
  exact ⟨err,hrun,(failed_forests_intact_iff soloRun triangle triangleAlg 2 (hsk ▸ fun _ => rfl)
    ⟨triangleAlg_reachable.flagsAgree,fun ht => by cases hv.symm.trans ht⟩ triangle_collisionFree
    hrun).1.mpr hfails⟩

end CCSketchAlg
end GraphZeppelin.CC
