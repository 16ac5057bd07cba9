import GraphZeppelin.Boruvka.SampledRounds

namespace GraphZeppelin.Boruvka
open Dsu Sketch QueryState Outcome

variable {n T : ℕ} {p : SketchParams} {xxh : XxHash} {G : SimpleGraph (Fin n)}
  [DecidableRel G.Adj] {q : QueryState n} {skt other : Sketch p}

-- bucket by bucket the sketch of a cut, also where the ranges of a round overlap or leave a gap
def OfCuts (xxh : XxHash) (G : SimpleGraph (Fin n)) [DecidableRel G.Adj] (skt : Sketch p) : Prop :=
  ∀ b, ∃ A, skt.buckets b = setBuckets xxh p (cutEdges G A) b

theorem setBuckets_cut_add (hn : n < 2 ^ 32) (A B : Finset (Fin n)) :
    setBuckets xxh p (cutEdges G A) + setBuckets xxh p (cutEdges G B) =
      setBuckets xxh p (cutEdges G (symmDiff A B)) := by
  let sketches (v : Fin n) : Sketch p := ⟨0,setBuckets xxh p (incident G v)⟩
  have hsk : Sketches xxh G sketches := fun _ => rfl
  have hsum (C : Finset (Fin n)) :
      ∑ v ∈ C, setBuckets xxh p (incident G v) = setBuckets xxh p (cutEdges G C) :=
    hsk.sum hn C
  rw [← hsum A,← hsum B,← hsum (symmDiff A B),XorGroup.sum_symmDiff]

theorem ofCuts_blank (h : skt.buckets = 0) : OfCuts xxh G skt := by
  refine fun b => ⟨∅,?_⟩
  have hcut : cutEdges G ∅ = ∅ := by
    ext i
    simp [mem_cutEdges]
  rw [h,hcut]
  simp [setBuckets]

theorem OfCuts.congr (h : OfCuts xxh G skt) (hb : other.buckets = skt.buckets) :
    OfCuts xxh G other := by
  intro b
  rw [hb]
  exact h b

theorem OfCuts.rangeMerge (hn : n < 2 ^ 32) (h : OfCuts xxh G skt) (ho : OfCuts xxh G other)
    (r : ℕ) : OfCuts xxh G (skt.rangeMerge other r 1) := by
  intro b
  obtain ⟨A,hA⟩ := h b
  rw [rangeMerge_buckets,Pi.add_apply,clip_apply]
  split
  · obtain ⟨B,hB⟩ := ho b
    refine ⟨symmDiff A B,?_⟩
    rw [hA,hB,← setBuckets_cut_add hn]
    rfl
  · exact ⟨A,by rw [add_zero,hA]⟩

theorem Sketches.ofCuts (hn : n < 2 ^ 32) {sketches : Fin n → Sketch p}
    (h : Sketches xxh G sketches) (v : Fin n) : OfCuts xxh G (sketches v) := by
  refine fun b => ⟨{v},?_⟩
  rw [← h.sum hn {v},Finset.sum_singleton]

section Samples

variable (hcf : ∀ A, CollisionFree xxh p (cutEdges G A))
include hcf

theorem OfCuts.sample_good (h : OfCuts xxh G skt) {skt' : Sketch p} {smp : SketchSample}
    (hsmp : skt.sample xxh = .ok (skt',smp)) (hgood : smp.result = .good) :
    ∃ A, smp.idx ∈ cutEdges G A := by
  have hbucket {b : Fin p.numBuckets} (hb : (skt.buckets b).isGood xxh p.checksumSeed = true) :
      ∃ A, (skt.buckets b).alpha ∈ cutEdges G A := by
    obtain ⟨A,hA⟩ := h b
    rw [hA] at hb ⊢
    exact ⟨A,mem_of_isGood (hcf A) hb⟩
  unfold Sketch.sample at hsmp
  split at hsmp
  · cases hsmp
  · simp only at hsmp
    split at hsmp
    · cases hsmp
      cases hgood
    · split at hsmp
      · next hdet =>
        cases hsmp
        exact hbucket hdet
      · split at hsmp
        · next b hfind =>
          cases hsmp
          have hb := List.find?_some hfind
          exact hbucket hb
        · cases hsmp
          cases hgood

theorem QueryState.ForestInv.sampleSupernode (hn : n < 2 ^ 32) (hq : ForestInv G q)
    (h : OfCuts xxh G skt) :
    ForestInv G (sampleSupernode xxh q skt).query := by
  unfold Boruvka.sampleSupernode
  split
  · exact hq
  · next skt' smp hsmp =>
    simp only
    split
    · exact hq
    · exact hq
    · next hgood =>
      obtain ⟨A,hA⟩ := h.sample_good hcf hsmp hgood
      obtain ⟨hlt,hadj,_⟩ := sampled_edge hn hA
      rw [dif_pos hlt]
      exact hq.mergeEdge hadj

theorem QueryState.ForestInv.samples (hn : n < 2 ^ 32) (hq : ForestInv G q) {skts : List (Sketch p)}
    (h : ∀ skt ∈ skts, OfCuts xxh G skt) : ForestInv G (after xxh q skts).query := by
  induction skts with
  | nil => exact hq
  | cons skt skts ih =>
    exact (ih fun s hs => h s (List.mem_cons_of_mem _ hs)).sampleSupernode hcf hn
      (h skt List.mem_cons_self)

end Samples

namespace Round

variable {I : RoundInput n T p} {s s' : Round n T p} {t : Fin T}

structure OfCuts (G : SimpleGraph (Fin n)) [DecidableRel G.Adj] (I : RoundInput n T p)
    (s : Round n T p) : Prop where
  worker : ∀ t, Boruvka.OfCuts I.xxh G (s.workers t).localSketch
  slot : ∀ g, Boruvka.OfCuts I.xxh G (s.globals g).sketch
  call : ∀ c ∈ s.calls, Boruvka.OfCuts I.xxh G c.sketch

theorem OfCuts.workers (h : s.OfCuts G I) {w : Worker n T p}
    (hw : Boruvka.OfCuts I.xxh G w.localSketch) (t u : Fin T) :
    Boruvka.OfCuts I.xxh G (Function.update s.workers t w u).localSketch :=
  (Function.forall_update_iff s.workers fun _ w => Boruvka.OfCuts I.xxh G w.localSketch).mpr
    ⟨hw,fun u _ => h.worker u⟩ u

theorem OfCuts.slots (h : s.OfCuts G I) {m : GlobalMergeData p}
    (hm : Boruvka.OfCuts I.xxh G m.sketch) (g u : Fin T) :
    Boruvka.OfCuts I.xxh G (Function.update s.globals g m u).sketch :=
  (Function.forall_update_iff s.globals fun _ m => Boruvka.OfCuts I.xxh G m.sketch).mpr
    ⟨hm,fun u _ => h.slot u⟩ u

theorem OfCuts.setWorker (h : s.OfCuts G I) {w : Worker n T p}
    (hw : Boruvka.OfCuts I.xxh G w.localSketch) (t : Fin T) : (s.setWorker t w).OfCuts G I :=
  ⟨h.workers hw t,h.slot,h.call⟩

theorem OfCuts.setPc (h : s.OfCuts G I) (t : Fin T) (pc : Pc T) : (s.setPc t pc).OfCuts G I := by
  refine h.setWorker ?_ t
  exact h.worker t

theorem OfCuts.absorb (hI : Sketches I.xxh G I.sketches) {w : Worker n T p}
    (hw : Boruvka.OfCuts I.xxh G w.localSketch) (i : Fin n) :
    Boruvka.OfCuts I.xxh G (absorb I w i).localSketch :=
  hw.rangeMerge I.vertices_lt (hI.ofCuts I.vertices_lt _) I.curRound

theorem OfCuts.mergeInto (h : s.OfCuts G I) (t g : Fin T) (next : Bool → Pc T) :
    (s.mergeInto I t g next).OfCuts G I := by
  refine ⟨h.workers ?_ t,h.slots ?_ g,h.call⟩
  · exact h.worker t
  · exact (h.slot g).rangeMerge I.vertices_lt (h.worker t) I.curRound

theorem OfCuts.sampleLocal (h : s.OfCuts G I) (t : Fin T) (next : Pc T) :
    (s.sampleLocal I t next).OfCuts G I := by
  refine ⟨h.workers ?_ t,h.slot,List.forall_mem_cons.mpr ⟨h.worker t,h.call⟩⟩
  exact (h.worker t).congr (sampleSupernode_buckets I.xxh s.query _)

theorem OfCuts.queryGlobal (h : s.OfCuts G I) (t g : Fin T) (queryReady : Bool) :
    (s.queryGlobal I t g queryReady).OfCuts G I := by
  unfold Round.queryGlobal
  split
  · refine ⟨h.workers ?_ t,h.slots ?_ g,List.forall_mem_cons.mpr ⟨h.slot g,h.call⟩⟩
    · exact h.worker t
    · exact (h.slot g).congr (sampleSupernode_buckets I.xxh s.query _)
  · exact h

theorem OfCuts.announce (h : s.OfCuts G I) (t : Fin T) : (s.announce I t).OfCuts G I := by
  unfold Round.announce
  simp only
  have hneeded (g : Fin T) : (s.setNeeded t g).OfCuts G I := by
    refine ⟨h.worker,h.slots ?_ g,h.call⟩
    exact h.slot g
  split
  · refine h.setWorker ?_ t
    exact h.worker t
  · refine (hneeded _).setWorker ?_ t
    exact h.worker t

theorem OfCuts.step (h : s.OfCuts G I) (hI : Sketches I.xxh G I.sketches) (t : Fin T) :
    (s.step I t).OfCuts G I := by
  unfold Round.step
  simp only
  split
  · split
    · split
      · exact h.setWorker (absorb hI (h.worker t) _) t
      · split
        · exact h.mergeInto t t _
        · exact h.sampleLocal t _
    · split
      · exact h.announce t
      · exact h.sampleLocal t _
  · next queryReady _ =>
    have hq := h.queryGlobal t t queryReady
    refine hq.setWorker ?_ t
    exact hq.worker t
  · split
    · refine h.setWorker (absorb hI ?_ _) t
      exact ofCuts_blank rfl
    · exact h
  · exact h.mergeInto t _ _
  · exact (h.queryGlobal t _ _).setPc t _
  · have hreport : (s.report t).OfCuts G I := ⟨h.worker,h.slot,h.call⟩
    exact hreport.setPc t _
  · exact h

theorem ofCuts_begin (I : RoundInput n T p) (q : QueryState n)
    (globals : Fin T → GlobalMergeData p) : (I.begin q globals).OfCuts G I :=
  ⟨fun _ => ofCuts_blank rfl,fun _ => ofCuts_blank rfl,fun _ hc => by cases hc⟩

theorem OfCuts.run (h : s.OfCuts G I) (hI : Sketches I.xxh G I.sketches)
    (schedule : List (Fin T)) : (s.run I schedule).OfCuts G I :=
  List.foldlRecOn (motive := fun s => s.OfCuts G I) schedule (Round.step I) h
    fun _ hs t _ => hs.step hI t

end Round

section Loop

variable {E : QueryEnv n T} {e : Emulation n T p}

theorem roundSketches_ofCuts (hb : InBounds E.fl n T) (hs : Sketches E.xxh G e.sketches) :
    ∀ skt ∈ roundSketches E hb e, OfCuts E.xxh G skt := by
  intro skt hskt
  unfold roundSketches at hskt
  split at hskt
  · obtain ⟨v,_,rfl⟩ := List.mem_map.mp hskt
    exact hs.ofCuts E.vertices_lt v
  · obtain ⟨c,hc,rfl⟩ := List.mem_map.mp hskt
    exact ((Round.ofCuts_begin (roundInput E hb e) e.query e.globalMerges).run hs _).call c hc

variable (hcf : ∀ A, CollisionFree E.xxh p (cutEdges G A))
include hcf

theorem performBoruvkaRound_forest (hs : Sketches E.xxh G e.sketches) (hq : ForestInv G e.query) :
    ForestInv G (performBoruvkaRound E e).1.query := by
  by_cases hb : InBounds E.fl n T
  · rw [← (performBoruvkaRound_after hb e).1]
    exact hq.samples hcf E.vertices_lt (roundSketches_ofCuts hb hs)
  by_cases h0 : e.roundNum = 0
  · have hz := zeroInv_run E.xxh e.sketches e.query
      (E.schedule.roundZero_perm.nodup_iff.mpr (List.nodup_finRange n))
    rw [performBoruvkaRound,if_pos h0]
    simp only
    rw [← hz.query]
    refine hq.samples hcf E.vertices_lt fun skt hskt => ?_
    obtain ⟨v,_,rfl⟩ := List.mem_map.mp hskt
    exact hs.ofCuts E.vertices_lt v
  · rw [performBoruvkaRound,if_neg h0,dif_neg hb]
    exact hq

omit hcf in
theorem createMergeInstructions_rep {fl : Rounding} {o : CaptureOrder n T}
    {d d' : DisjointSetUnionMT n} {instr instr' : Fin n → MergeInstr n}
    (h : createMergeInstructions fl o d instr = some (d',instr')) (x : Fin n) :
    d'.rep x = d.rep x := by
  unfold createMergeInstructions at h
  split at h
  · simp only [Option.map_eq_some_iff,Prod.mk.injEq] at h
    obtain ⟨_,_,rfl,_⟩ := h
    exact DisjointSetUnionMT.rep_findEach d _ x
  · cases h

omit hcf [DecidableRel G.Adj] in
theorem QueryState.ForestInv.of_rep (h : ForestInv G q) {d : DisjointSetUnionMT n}
    (hrep : ∀ x, d.rep x = q.dsu.rep x) : ForestInv G { q with dsu := d } := by
  refine ⟨h.keyed,h.sub,h.acyclic,fun u v => ?_⟩
  simp only [hrep]
  exact h.rep u v

-- whatever the ranges of the rounds are, only edges of the graph enter the forest
theorem boruvkaLoop_forest (fuel : ℕ) (hs : Sketches E.xxh G e.sketches) (hq : ForestInv G e.query) :
    ForestInv G (boruvkaLoop E fuel e).1.query := by
  induction fuel generalizing e with
  | zero => exact hq
  | succ fuel ih =>
    have hforest := performBoruvkaRound_forest hcf hs hq
    have hframe := performBoruvkaRound_frame E (e := e)
    rw [boruvkaLoop]
    generalize performBoruvkaRound E e = r at hforest hframe
    obtain ⟨e',err | m⟩ := r
    · exact hforest
    · cases m with
      | false => exact hforest
      | true =>
        simp only
        split
        · exact hforest
        · next d instr hrun =>
          exact ih (fun v => (hframe.buckets v).trans (hs v))
            (hforest.of_rep (createMergeInstructions_rep hrun))

theorem boruvkaEmulation_forest {sketches : Fin n → Sketch p} (hs : Sketches E.xxh G sketches)
    (dsu : DisjointSetUnionMT n) : ForestInv G (boruvkaEmulation E sketches dsu).1.query :=
  boruvkaLoop_forest hcf _ hs (forestInv_reset dsu)

end Loop
end GraphZeppelin.Boruvka
