import GraphZeppelin.Boruvka.EmulationSpec

namespace GraphZeppelin.Boruvka
open Dsu QueryState SpanningForest Sketch Outcome

variable {n T : ℕ} {p : SketchParams}

section Drawn

variable {xxh : XxHash} {skt skt' : Sketch p} {q : QueryState n} {K : SimpleGraph (Fin n)}

def drawnEdge (smp : SketchSample) : SimpleGraph (Fin n) :=
  let e := invConcatPairingFn smp.idx
  match smp.result with
  | .good =>
    if h₁ : e.1.toNat < n then
      if h₂ : e.2.toNat < n then SimpleGraph.edge ⟨e.1.toNat,h₁⟩ ⟨e.2.toNat,h₂⟩ else ⊥
    else ⊥
  | _ => ⊥

def sampledEdge (xxh : XxHash) (skt : Sketch p) : SimpleGraph (Fin n) :=
  match (skt.sample xxh).map Prod.snd with
  | .ok smp => drawnEdge smp
  | .error _ => ⊥

theorem sampledEdge_congr (hidx : skt.sampleIdx = skt'.sampleIdx)
    (h : ∀ b, b = p.detBucket ∨ InRange p skt.sampleIdx 1 b → skt.buckets b = skt'.buckets b) :
    (sampledEdge xxh skt : SimpleGraph (Fin n)) = sampledEdge xxh skt' := by
  rw [sampledEdge,sampledEdge,sample_congr hidx h]

theorem sampledEdge_det_zero (h : skt.buckets p.detBucket = 0) :
    (sampledEdge xxh skt : SimpleGraph (Fin n)) = ⊥ := by
  rw [sampledEdge]
  by_cases hidx : skt.sampleIdx < p.numSamples
  · rw [sample_det_zero hidx h]
    rfl
  · rw [sample_exhausted (not_lt.mp hidx)]
    rfl

theorem sampleSupernode_represents (xxh : XxHash) (skt : Sketch p) (hq : q.dsu.Represents K) :
    (sampleSupernode xxh q skt).query.dsu.Represents (K ⊔ sampledEdge xxh skt) := by
  unfold sampleSupernode sampledEdge
  cases skt.sample xxh with
  | error e =>
    simp only [Except.map,sup_bot_eq]
    exact hq
  | ok r =>
    obtain ⟨skt',i,res⟩ := r
    cases res with
    | zero =>
      simp only [Except.map,drawnEdge,sup_bot_eq]
      exact hq
    | fail =>
      simp only [Except.map,drawnEdge,sup_bot_eq]
      exact hq
    | good =>
      simp only [Except.map,drawnEdge]
      split
      · next h =>
        rw [dif_pos h.1,dif_pos h.2]
        simp only [mergeEdge_dsu]
        exact hq.merge _ _
      · next h =>
        by_cases h₁ : (invConcatPairingFn i).1.toNat < n
        · rw [dif_pos h₁,dif_neg fun h₂ => h ⟨h₁,h₂⟩,sup_bot_eq]
          exact hq
        · rw [dif_neg h₁,sup_bot_eq]
          exact hq

theorem after_represents (xxh : XxHash) (hq : q.dsu.Represents K) (skts : List (Sketch p)) :
    (after xxh q skts).query.dsu.Represents (K ⊔ ⨆ skt ∈ skts, sampledEdge xxh skt) := by
  induction skts with
  | nil =>
    simp only [List.not_mem_nil,iSup_false,iSup_bot,sup_bot_eq]
    exact hq
  | cons skt skts ih =>
    have h := sampleSupernode_represents xxh skt ih
    have he : (K ⊔ ⨆ s ∈ skts, sampledEdge xxh s) ⊔ sampledEdge xxh skt =
        K ⊔ ⨆ s ∈ skt :: skts, sampledEdge xxh s := by
      simp only [List.mem_cons,iSup_or,iSup_sup_eq,iSup_iSup_eq_left]
      rw [sup_assoc,sup_comm (sampledEdge xxh skt)]
    rw [he] at h
    exact h

theorem after_all_exhausted {skts : List (Sketch p)}
    (h : ∀ skt ∈ skts, p.numSamples ≤ skt.sampleIdx) : (after xxh q skts).query = q := by
  induction skts with
  | nil => rfl
  | cons skt skts ih =>
    have hq := ih fun s hs => h s (List.mem_cons_of_mem _ hs)
    rw [after,Outcome.sample,sampleSupernode,sample_exhausted (h skt List.mem_cons_self)]
    exact hq

theorem sampleSupernode_rep (h : (sampleSupernode xxh q skt).modified = false) (x : Fin n) :
    (sampleSupernode xxh q skt).query.dsu.rep x = q.dsu.rep x := by
  unfold sampleSupernode at h ⊢
  split at h
  · rfl
  · simp only at h ⊢
    split at h
    · cases h
    · rfl
    · split at h
      · next hlt =>
        rw [dif_pos hlt]
        exact mergeEdge_rep h x
      · next hlt => rw [dif_neg hlt]

theorem after_rep {skts : List (Sketch p)} (h : (after xxh q skts).modified = false) (x : Fin n) :
    (after xxh q skts).query.dsu.rep x = q.dsu.rep x := by
  induction skts with
  | nil => rfl
  | cons skt skts ih =>
    obtain ⟨hrest,hskt⟩ := Bool.or_eq_false_iff.mp h
    exact (sampleSupernode_rep hskt x).trans (ih hrest)

end Drawn

section Rounds

open Classical in
noncomputable def component (K : SimpleGraph (Fin n)) (v : Fin n) : Finset (Fin n) :=
  Finset.univ.filter fun u => K.Reachable u v

theorem mem_component {K : SimpleGraph (Fin n)} {u v : Fin n} :
    u ∈ component K v ↔ K.Reachable u v := by
  simp [component]

noncomputable def supernodeSketch (sketches : Fin n → Sketch p) (K : SimpleGraph (Fin n)) (r : ℕ)
    (v : Fin n) : Sketch p :=
  ⟨if r = 0 then (sketches v).sampleIdx else r,∑ u ∈ component K v, (sketches u).buckets⟩

theorem supernodeSketch_bot (sketches : Fin n → Sketch p) (v : Fin n) :
    supernodeSketch sketches ⊥ 0 v = sketches v := by
  have hcomp : component (⊥ : SimpleGraph (Fin n)) v = {v} := by
    ext u
    rw [mem_component,SimpleGraph.reachable_bot,Finset.mem_singleton]
  rw [supernodeSketch,hcomp,Finset.sum_singleton,if_pos rfl]

noncomputable def sampledGraph (xxh : XxHash) (sketches : Fin n → Sketch p) :
    ℕ → SimpleGraph (Fin n)
  | 0 => ⊥
  | r + 1 => sampledGraph xxh sketches r ⊔
    ⨆ v, sampledEdge xxh (supernodeSketch sketches (sampledGraph xxh sketches r) r v)

def Complete (sketches : Fin n → Sketch p) (K : SimpleGraph (Fin n)) : Prop :=
  ∀ v, (∑ u ∈ component K v, (sketches u).buckets) p.detBucket = 0

variable {xxh : XxHash} {sketches : Fin n → Sketch p} {K G : SimpleGraph (Fin n)}

theorem Complete.sampledGraph_succ {r : ℕ} (h : Complete sketches (sampledGraph xxh sketches r)) :
    sampledGraph xxh sketches (r + 1) = sampledGraph xxh sketches r := by
  rw [sampledGraph]
  refine sup_eq_left.mpr (iSup_le fun v => ?_)
  rw [sampledEdge_det_zero (h v)]
  exact bot_le

theorem Complete.sampledGraph_eq {r r' : ℕ} (h : Complete sketches (sampledGraph xxh sketches r))
    (hr : r ≤ r') : sampledGraph xxh sketches r' = sampledGraph xxh sketches r := by
  induction r', hr using Nat.le_induction with
  | base => rfl
  | succ r' _ ih =>
    rw [← ih] at h
    exact h.sampledGraph_succ.trans ih

theorem component_classOf {q : QueryState n} (hq : q.dsu.Represents K) (v : Fin n) :
    classOf q (q.dsu.rep v) = component K v := by
  ext u
  rw [mem_component,← hq u v]
  simp [classOf]

theorem complete_iff (hn : n < 2 ^ 32) [DecidableRel G.Adj] (hs : Sketches xxh G sketches)
    (hcf : ∀ A, CollisionFree xxh p (cutEdges G A)) :
    Complete sketches K ↔ ∀ u v, G.Reachable u v → K.Reachable u v := by
  have hiff (v : Fin n) : (∑ u ∈ component K v, (sketches u).buckets) p.detBucket = 0 ↔
      cutEdges G (component K v) = ∅ := by
    rw [hs.sum hn,det_eq_zero_iff (hcf _)]
  constructor
  · intro h u v huv
    refine reachable_of_adj (R := fun x y => K.Reachable x y)
      ⟨fun _ => .rfl,SimpleGraph.Reachable.symm,SimpleGraph.Reachable.trans⟩ (fun x y hxy => ?_) huv
    have hy := (cutEdges_eq_empty_iff G).mp ((hiff x).mp (h x)) x (mem_component.mpr .rfl) y hxy
    exact (mem_component.mp hy).symm
  · intro h v
    refine (hiff v).mpr ((cutEdges_eq_empty_iff G).mpr fun x hx y hxy => ?_)
    exact mem_component.mpr ((h y x hxy.symm.reachable).trans (mem_component.mp hx))

end Rounds

section Track

variable {E : QueryEnv n T} {G : SimpleGraph (Fin n)} [DecidableRel G.Adj] {e : Emulation n T p}
  {sk : Fin n → Sketch p}

structure Tracked (xxh : XxHash) (sk : Fin n → Sketch p) (e : Emulation n T p) : Prop where
  rep : e.query.dsu.Represents (sampledGraph xxh sk e.roundNum)
  buckets : ∀ v, (e.sketches v).buckets = (sk v).buckets
  start : e.roundNum = 0 → e.sketches = sk

def roundSketches (E : QueryEnv n T) (hb : InBounds E.fl n T) (e : Emulation n T p) :
    List (Sketch p) :=
  if e.roundNum = 0 then E.schedule.roundZero.reverse.map e.sketches
  else (runRound E hb e).calls.map (·.sketch)

theorem performBoruvkaRound_after (hb : InBounds E.fl n T) (e : Emulation n T p) :
    (after E.xxh e.query (roundSketches E hb e)).query = (performBoruvkaRound E e).1.query ∧
    ∀ m, (performBoruvkaRound E e).2 = .ok m →
      (after E.xxh e.query (roundSketches E hb e)).modified = m := by
  rw [performBoruvkaRound,roundSketches,dif_pos hb]
  split
  · have hz := zeroInv_run E.xxh e.sketches e.query
      (E.schedule.roundZero_perm.nodup_iff.mpr (List.nodup_finRange n))
    exact ⟨hz.query,fun m hm => hz.modified.trans (rethrow_ok hm)⟩
  · have htrack := runRound_tracks (e := e) hb
    exact ⟨htrack.query,fun m hm => htrack.modified.trans (rethrow_ok hm)⟩

def Matches (skt skt' : Sketch p) : Prop :=
  skt.sampleIdx = skt'.sampleIdx ∧ skt.sampleIdx < p.numSamples ∧
    ∀ b, b = p.detBucket ∨ InRange p skt.sampleIdx 1 b → skt.buckets b = skt'.buckets b

theorem Tracked.supernodeSketch_zero (ht : Tracked E.xxh sk e) (h0 : e.roundNum = 0) (v : Fin n) :
    supernodeSketch sk (sampledGraph E.xxh sk e.roundNum) e.roundNum v = e.sketches v := by
  rw [h0,sampledGraph,supernodeSketch_bot,ht.start h0]

theorem EmulationInv.call_matches (h : EmulationInv E G e) (hE : E.Consistent) (ht : Tracked E.xxh sk e)
    (h0 : e.roundNum ≠ 0) (hr : e.roundNum < p.numSamples) {c : Call n T p}
    (hc : c ∈ (runRound E hE.inBounds e).calls) {v : Fin n} (hv : e.query.dsu.rep v = c.root) :
    Matches c.sketch (supernodeSketch sk (sampledGraph E.xxh sk e.roundNum) e.roundNum v) := by
  obtain ⟨hbkt,hidx,_⟩ := (h.runRound_inv hE).call c hc
  have hidx : c.sketch.sampleIdx = e.roundNum := hidx
  refine ⟨by rw [hidx,supernodeSketch,if_neg h0],hidx ▸ hr,fun b hb => ?_⟩
  rw [hidx] at hb
  have htotal := total_eq_sum (I := roundInput E hE.inBounds e) h.grouped c.root
  rw [hbkt,htotal,clip_apply,if_pos ⟨hr,hb⟩,← hv,component_classOf ht.rep]
  simp only [supernodeSketch]
  exact congrFun (Finset.sum_congr rfl fun u _ => ht.buckets u) b

theorem EmulationInv.sketch_matches (h : EmulationInv E G e) (hE : E.Consistent)
    (ht : Tracked E.xxh sk e)
    (hsup : Supplied e) : ∀ skt ∈ roundSketches E hE.inBounds e, ∃ v,
      Matches skt (supernodeSketch sk (sampledGraph E.xxh sk e.roundNum) e.roundNum v) := by
  intro skt hskt
  unfold Supplied at hsup
  rw [roundSketches] at hskt
  split at hsup
  · next h0 =>
    rw [if_pos h0] at hskt
    obtain ⟨v,_,rfl⟩ := List.mem_map.mp hskt
    refine ⟨v,?_⟩
    rw [ht.supernodeSketch_zero h0]
    exact ⟨rfl,hsup v,fun _ _ => rfl⟩
  · next h0 =>
    rw [if_neg h0] at hskt
    obtain ⟨c,hc,rfl⟩ := List.mem_map.mp hskt
    obtain ⟨a,ha⟩ : ∃ a, (roundInput E hE.inBounds e).rootAt a = c.root := by
      rcases ((h.runRound_inv hE).call c hc).responsible with ⟨a,_,hb,_⟩ | ⟨_,a,_,hb,_⟩
      · exact ⟨a,hb.root_first⟩
      · exact ⟨a,hb.root_first⟩
    exact ⟨_,h.call_matches hE ht h0 hsup hc ((h.grouped.root a).symm.trans ha)⟩

theorem EmulationInv.matches_sketch (h : EmulationInv E G e) (hE : E.Consistent)
    (ht : Tracked E.xxh sk e)
    (hsup : Supplied e) (v : Fin n) : ∃ skt ∈ roundSketches E hE.inBounds e,
      Matches skt (supernodeSketch sk (sampledGraph E.xxh sk e.roundNum) e.roundNum v) := by
  unfold Supplied at hsup
  rw [roundSketches]
  split at hsup
  · next h0 =>
    rw [if_pos h0]
    refine ⟨e.sketches v,List.mem_map.mpr ⟨v,?_,rfl⟩,?_⟩
    · rw [List.mem_reverse,E.schedule.roundZero_perm.mem_iff]
      exact List.mem_finRange v
    · rw [ht.supernodeSketch_zero h0]
      exact ⟨rfl,hsup v,fun _ _ => rfl⟩
  · next h0 =>
    rw [if_neg h0]
    obtain ⟨j,rfl⟩ := h.grouped.child.2 v
    obtain ⟨c,hc,hR⟩ := h.all_called hE j
    exact ⟨c.sketch,List.mem_map.mpr ⟨c,hc,rfl⟩,
      h.call_matches hE ht h0 hsup hc ((h.grouped.root j).symm.trans hR.symm)⟩

theorem EmulationInv.round_represents (h : EmulationInv E G e) (hE : E.Consistent)
    (ht : Tracked E.xxh sk e)
    (hsup : Supplied e) : (performBoruvkaRound E e).1.query.dsu.Represents
      (sampledGraph E.xxh sk (e.roundNum + 1)) := by
  have hrep := after_represents E.xxh ht.rep (roundSketches E hE.inBounds e)
  rw [(performBoruvkaRound_after hE.inBounds e).1] at hrep
  have he : (⨆ skt ∈ roundSketches E hE.inBounds e, sampledEdge E.xxh skt : SimpleGraph (Fin n)) =
      ⨆ v, sampledEdge E.xxh
        (supernodeSketch sk (sampledGraph E.xxh sk e.roundNum) e.roundNum v) := by
    refine le_antisymm (iSup₂_le fun skt hskt => ?_) (iSup_le fun v => ?_)
    · obtain ⟨v,hidx,_,hb⟩ := h.sketch_matches hE ht hsup skt hskt
      rw [sampledEdge_congr hidx hb]
      exact le_iSup (fun v => sampledEdge E.xxh
        (supernodeSketch sk (sampledGraph E.xxh sk e.roundNum) e.roundNum v)) v
    · obtain ⟨skt,hskt,hidx,_,hb⟩ := h.matches_sketch hE ht hsup v
      rw [← sampledEdge_congr hidx hb]
      exact le_iSup₂ (f := fun skt _ => sampledEdge E.xxh skt) skt hskt
  rw [he] at hrep
  exact hrep

theorem EmulationInv.round_modified (h : EmulationInv E G e) (hE : E.Consistent)
    (hcf : ∀ A, CollisionFree E.xxh p (cutEdges G A)) (hsk : Sketches E.xxh G sk)
    (ht : Tracked E.xxh sk e) (hsup : Supplied e) {m : Bool}
    (hm : (performBoruvkaRound E e).2 = .ok m) :
    m = false ↔ Complete sk (sampledGraph E.xxh sk e.roundNum) := by
  obtain ⟨hquery,hmod⟩ := performBoruvkaRound_after hE.inBounds e
  constructor
  · rintro rfl
    obtain ⟨m,hok,_,hcorrect⟩ := h.round_ok hcf hsup
    obtain rfl : false = m := Except.ok.inj (hm.symm.trans hok)
    refine (complete_iff E.vertices_lt hsk hcf).mpr fun u v huv => ?_
    rw [← ht.rep u v,← after_rep (hmod _ hm),← after_rep (hmod _ hm),hquery]
    exact ((hcorrect rfl).rep u v).mpr huv
  · intro hc
    rw [← hmod m hm,after_det_zero E.xxh e.query fun skt hskt => ?_]
    obtain ⟨v,_,hlt,hb⟩ := h.sketch_matches hE ht hsup skt hskt
    exact ⟨hlt,(hb _ (.inl rfl)).trans (hc v)⟩

theorem EmulationInv.round_exhausted (h : EmulationInv E G e) (hE : E.Consistent) (h0 : e.roundNum ≠ 0)
    (hsup : ¬ Supplied e) : (performBoruvkaRound E e).1.query = e.query := by
  rw [Supplied,if_neg h0] at hsup
  rw [← (performBoruvkaRound_after hE.inBounds e).1,roundSketches,if_neg h0]
  refine after_all_exhausted fun skt hskt => ?_
  obtain ⟨c,hc,rfl⟩ := List.mem_map.mp hskt
  rw [((h.runRound_inv hE).call c hc).idx]
  exact not_lt.mp hsup

theorem Tracked.next (ht : Tracked E.xxh sk e) {q : QueryState n} {mergeInstr : Fin n → MergeInstr n}
    (hq : q.dsu.Represents (sampledGraph E.xxh sk (e.roundNum + 1))) :
    Tracked E.xxh sk { (performBoruvkaRound E e).1 with
      query := q
      mergeInstr := mergeInstr
      roundNum := (performBoruvkaRound E e).1.roundNum + 1 } := by
  have hframe := performBoruvkaRound_frame E (e := e)
  refine ⟨?_,fun v => (hframe.buckets v).trans (ht.buckets v),fun h => by cases h⟩
  simp only [hframe.num]
  exact hq

theorem Tracked.supplied_iff (ht : Tracked E.xxh sk e) (hn : 0 < n)
    (hidx : ∀ v, (sk v).sampleIdx < p.numSamples) : Supplied e ↔ e.roundNum < p.numSamples := by
  unfold Supplied
  split
  · next h0 =>
    have hv := hidx ⟨0,hn⟩
    rw [ht.start h0,h0]
    exact ⟨fun _ => Nat.zero_lt_of_lt hv,fun _ => hidx⟩
  · rfl

structure Ran (xxh : XxHash) (G : SimpleGraph (Fin n)) (sk : Fin n → Sketch p) (r : ℕ)
    (res : Emulation n T p × Ended) : Prop where
  returned : res.2 = .returned ↔
    r < p.numSamples ∧ Complete sk (sampledGraph xxh sk (p.numSamples - 1))
  forest : ForestInv G res.1.query
  rep : res.1.query.dsu.Represents (sampledGraph xxh sk p.numSamples)

theorem boruvkaLoop_ran (hE : E.Consistent) (hcf : ∀ A, CollisionFree E.xxh p (cutEdges G A))
    (hsk : Sketches E.xxh G sk) (hidx : ∀ v, (sk v).sampleIdx < p.numSamples) (fuel : ℕ)
    (h : EmulationInv E G e) (ht : Tracked E.xxh sk e)
    (hfuel : p.numSamples + 1 ≤ fuel + e.roundNum) :
    Ran E.xxh G sk e.roundNum (boruvkaLoop E fuel e) := by
  induction fuel generalizing e with
  | zero =>
    have hle := h.le
    omega
  | succ fuel ih =>
    have hnum := (performBoruvkaRound_frame E (e := e)).num
    by_cases hsup : Supplied e
    · have hlt := (ht.supplied_iff (E.vertices_pos hE) hidx).mp hsup
      obtain ⟨m,hm,hforest,_⟩ := h.round_ok hcf hsup
      have hrep := h.round_represents hE ht hsup
      have hmod := h.round_modified hE hcf hsk ht hsup hm
      cases m with
      | false =>
        have hc := hmod.mp rfl
        rw [boruvkaLoop_returned hm]
        refine ⟨⟨fun _ => ⟨hlt,?_⟩,fun _ => rfl⟩,hforest,?_⟩
        · rw [hc.sampledGraph_eq (Nat.le_sub_one_of_lt hlt)]
          exact hc
        · rw [hc.sampledGraph_eq (le_of_lt hlt),← hc.sampledGraph_succ]
          exact hrep
      | true =>
        obtain ⟨dsu,mergeInstr,hrun,hdsu,hnext⟩ := h.next hE hsup hforest
        rw [boruvkaLoop_next hm hrun]
        obtain ⟨hret,hf,hr⟩ := ih hnext (ht.next fun u v => by rw [hdsu,hdsu,hrep u v])
          (by simp only; omega)
        refine ⟨hret.trans ⟨fun hc => ⟨hlt,hc.2⟩,fun hc => ⟨?_,hc.2⟩⟩,hf,hr⟩
        simp only [hnum]
        by_contra hge
        have hlast : p.numSamples - 1 = e.roundNum := by omega
        exact Bool.false_ne_true (hmod.mpr (hlast ▸ hc.2)).symm
    · have h0 : e.roundNum ≠ 0 := by
        intro h0
        rw [Supplied,if_pos h0,ht.start h0] at hsup
        exact hsup hidx
      obtain ⟨err,herr⟩ := h.round_throws hsup
      have hge := (ht.supplied_iff (E.vertices_pos hE) hidx).not.mp hsup
      have hq := h.round_exhausted hE h0 hsup
      rw [boruvkaLoop_threw herr]
      refine ⟨⟨(fun hret => by cases hret),fun hlt => absurd hlt.1 hge⟩,?_,?_⟩
      · rw [hq]
        exact h.forest
      · rw [hq,← le_antisymm h.le (not_lt.mp hge)]
        exact ht.rep

theorem boruvkaLoop_later (fuel : ℕ) (h0 : e.roundNum ≠ 0) :
    (boruvkaLoop E fuel e).1.sketches = e.sketches := by
  induction fuel generalizing e with
  | zero => rfl
  | succ fuel ih =>
    obtain ⟨e',hframe,⟨r,he⟩ | ⟨q,mergeInstr,he⟩⟩ := boruvkaLoop_cases (E := E) fuel e
    · rw [he]
      exact hframe.later h0
    · rw [he,ih (Nat.succ_ne_zero _)]
      exact hframe.later h0

theorem boruvkaEmulation_frame (E : QueryEnv n T) (sk : Fin n → Sketch p)
    (dsu : DisjointSetUnionMT n) : ∃ e', Frame (startEmulation T sk dsu) e' ∧
      (boruvkaEmulation E sk dsu).1.sketches = e'.sketches := by
  obtain ⟨e',hframe,⟨r,he⟩ | ⟨q,mergeInstr,he⟩⟩ :=
    boruvkaLoop_cases (E := E) p.numSamples (startEmulation T sk dsu)
  · rw [boruvkaEmulation,he]
    exact ⟨e',hframe,rfl⟩
  · rw [boruvkaEmulation,he,boruvkaLoop_later _ (Nat.succ_ne_zero _)]
    exact ⟨e',hframe,rfl⟩

theorem boruvkaEmulation_ran (hE : E.Consistent) (hcf : ∀ A, CollisionFree E.xxh p (cutEdges G A))
    (hsk : Sketches E.xxh G sk) (hidx : ∀ v, (sk v).sampleIdx < p.numSamples)
    (dsu : DisjointSetUnionMT n) : Ran E.xxh G sk 0 (boruvkaEmulation E sk dsu) :=
  boruvkaLoop_ran hE hcf hsk hidx _ (start_inv hsk dsu)
    ⟨DisjointSetUnionMT.represents_fresh _,fun _ => rfl,fun _ => rfl⟩ (Nat.le_add_right _ _)

theorem boruvkaEmulation_exhausted (E : QueryEnv n T) {sk : Fin n → Sketch p}
    (hidx : ¬ ∀ v, (sk v).sampleIdx < p.numSamples) (dsu : DisjointSetUnionMT n) :
    ∃ err, boruvkaEmulation E sk dsu =
      ((performBoruvkaRound E (startEmulation T sk dsu)).1,.threw err) := by
  obtain ⟨err,herr⟩ := zero_throws (E := E) (e := startEmulation T sk dsu) rfl hidx
  rw [boruvkaEmulation,boruvkaLoop_threw herr]
  exact ⟨err,rfl⟩

theorem boruvkaEmulation_all_exhausted (E : QueryEnv n T) (hn : 0 < n) {sk : Fin n → Sketch p}
    (hidx : ∀ v, p.numSamples ≤ (sk v).sampleIdx) (dsu : DisjointSetUnionMT n) :
    (boruvkaEmulation E sk dsu).1.query = (startEmulation T sk dsu).query := by
  obtain ⟨err,herr⟩ := boruvkaEmulation_exhausted E
    (fun h => absurd (h ⟨0,hn⟩) (not_lt.mpr (hidx ⟨0,hn⟩))) dsu
  have hz := zeroInv_run E.xxh sk (startEmulation T sk dsu).query
    (E.schedule.roundZero_perm.nodup_iff.mpr (List.nodup_finRange n))
  rw [herr,performBoruvkaRound,if_pos (show (startEmulation T sk dsu).roundNum = 0 from rfl)]
  refine hz.query.symm.trans (after_all_exhausted fun skt hskt => ?_)
  obtain ⟨v,_,rfl⟩ := List.mem_map.mp hskt
  exact hidx v

end Track
end GraphZeppelin.Boruvka
