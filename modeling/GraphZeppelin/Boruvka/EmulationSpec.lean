import GraphZeppelin.Boruvka.Correct
import GraphZeppelin.Boruvka.CreateMergeInstrSpec
import GraphZeppelin.Boruvka.Emulation
import GraphZeppelin.Boruvka.Outcome

namespace GraphZeppelin.Boruvka
open Dsu QueryState SpanningForest Sketch Outcome

variable {n T : ℕ} {p : SketchParams}

section Zero

variable (xxh : XxHash)

structure ZeroInv (sketches : Fin n → Sketch p) (q : QueryState n) (done : List (Fin n))
    (z : RoundZero n p) : Prop where
  buckets : ∀ v, (z.sketches v).buckets = (sketches v).buckets
  fresh : ∀ v, v ∉ done → z.sketches v = sketches v
  bumped : ∀ v, (sketches v).sampleIdx ≤ (z.sketches v).sampleIdx ∧
    (z.sketches v).sampleIdx ≤ (sketches v).sampleIdx + 1
  sampled : ∀ v ∈ done, (sketches v).sampleIdx < p.numSamples →
    (z.sketches v).sampleIdx = (sketches v).sampleIdx + 1
  query : (after xxh q (done.map sketches)).query = z.query
  modified : (after xxh q (done.map sketches)).modified = z.modified
  threw : (after xxh q (done.map sketches)).threw = z.err.isSome
  traced : ∀ err, z.err = some err →
    ∃ v ∈ done, ∃ q : QueryState n, (sampleSupernode xxh q (sketches v)).err = some err

variable {xxh}

theorem sampleSupernode_idx (q : QueryState n) (skt : Sketch p) :
    skt.sampleIdx ≤ (sampleSupernode xxh q skt).skt.sampleIdx ∧
      (sampleSupernode xxh q skt).skt.sampleIdx ≤ skt.sampleIdx + 1 := by
  unfold sampleSupernode
  split
  · exact ⟨le_rfl,Nat.le_succ _⟩
  · next skt' smp h =>
    have hb := (sample_buckets h).2
    simp only
    split
    · simp [hb]
    · simp [hb]
    · split <;> simp [hb]

theorem sampleSupernode_supplied (q : QueryState n) {skt : Sketch p}
    (h : skt.sampleIdx < p.numSamples) :
    (sampleSupernode xxh q skt).skt.sampleIdx = skt.sampleIdx + 1 := by
  obtain ⟨smp,hsmp⟩ := sample_supplied xxh h
  unfold sampleSupernode
  rw [hsmp]
  simp only
  split
  · rfl
  · rfl
  · split <;> rfl

theorem ZeroInv.step {sketches : Fin n → Sketch p} {q : QueryState n} {done : List (Fin n)}
    {z : RoundZero n p} (h : ZeroInv xxh sketches q done z) {i : Fin n} (hi : i ∉ done) :
    ZeroInv xxh sketches q (i :: done) (sampleVertex xxh z i) := by
  have hsk := h.fresh i hi
  refine ⟨fun v => ?_,fun v hv => ?_,fun v => ?_,fun v hv hidx => ?_,?_,?_,?_,fun err herr => ?_⟩
  · by_cases hv : v = i
    · subst hv
      simp only [sampleVertex,Function.update_self]
      rw [sampleSupernode_buckets,hsk]
    · simp [sampleVertex,hv,h.buckets]
  · simp only [List.mem_cons,not_or] at hv
    simp [sampleVertex,hv.1,h.fresh v hv.2]
  · by_cases hv : v = i
    · subst hv
      simp only [sampleVertex,Function.update_self,hsk]
      exact sampleSupernode_idx _ _
    · simp only [sampleVertex,Function.update_of_ne hv]
      exact h.bumped v
  · by_cases hvi : v = i
    · subst hvi
      simp only [sampleVertex,Function.update_self,hsk]
      exact sampleSupernode_supplied _ hidx
    · simp only [sampleVertex,Function.update_of_ne hvi]
      exact h.sampled v ((List.mem_cons.mp hv).resolve_left hvi) hidx
  · rw [List.map_cons,after,Outcome.sample,h.query,← hsk]
    rfl
  · rw [List.map_cons,after,Outcome.sample,h.query,h.modified,← hsk]
    rfl
  · rw [List.map_cons,after,Outcome.sample,h.query,h.threw,← hsk]
    simp [sampleVertex,Bool.or_comm]
  · simp only [sampleVertex,Option.or_eq_some_iff] at herr
    rcases herr with herr | ⟨_,herr⟩
    · exact ⟨i,List.mem_cons_self,_,hsk ▸ herr⟩
    · obtain ⟨v,hv,hsampled⟩ := h.traced err herr
      exact ⟨v,List.mem_cons_of_mem i hv,hsampled⟩

theorem zeroInv_foldl {sketches : Fin n → Sketch p} {q : QueryState n} (order done : List (Fin n))
    {z : RoundZero n p} (h : ZeroInv xxh sketches q done z) (ho : order.Nodup)
    (hd : ∀ i ∈ order, i ∉ done) :
    ZeroInv xxh sketches q (order.reverse ++ done) (order.foldl (sampleVertex xxh) z) := by
  induction order generalizing done z with
  | nil => exact h
  | cons i order ih =>
    obtain ⟨hi,ho⟩ := List.nodup_cons.mp ho
    rw [List.foldl_cons,List.reverse_cons,List.append_assoc]
    refine ih (i :: done) (h.step (hd i List.mem_cons_self)) ho fun j hj hmem => ?_
    rcases List.mem_cons.mp hmem with rfl | hmem
    · exact hi hj
    · exact hd j (List.mem_cons_of_mem _ hj) hmem

theorem zeroInv_run (xxh : XxHash) (sketches : Fin n → Sketch p) (q : QueryState n)
    {order : List (Fin n)}
    (ho : order.Nodup) :
    ZeroInv xxh sketches q order.reverse (runRoundZero xxh order sketches q) := by
  have hz : ZeroInv xxh sketches q [] ⟨sketches,q,false,none⟩ :=
    ⟨fun _ => rfl,fun _ _ => rfl,fun _ => ⟨le_rfl,Nat.le_succ _⟩,fun _ hv => (by cases hv),rfl,rfl,
      rfl,fun _ herr => (by cases herr)⟩
  have h := zeroInv_foldl order [] hz ho fun i _ hi => by cases hi
  rwa [List.append_nil] at h

end Zero

section Cut

variable {xxh : XxHash} {G : SimpleGraph (Fin n)} [DecidableRel G.Adj]

def Sketches (xxh : XxHash) (G : SimpleGraph (Fin n)) [DecidableRel G.Adj]
    (sketches : Fin n → Sketch p) : Prop :=
  ∀ v, (sketches v).buckets = setBuckets xxh p (incident G v)

theorem Sketches.sum (hn : n < 2 ^ 32) {sketches : Fin n → Sketch p} (h : Sketches xxh G sketches)
    (A : Finset (Fin n)) :
    ∑ v ∈ A, (sketches v).buckets = setBuckets xxh p (cutEdges G A) := by
  simp only [h _,setBuckets]
  exact sum_supernode G hn _ A

theorem Sketches.ready_vertex (hn : n < 2 ^ 32) {sketches : Fin n → Sketch p}
    (h : Sketches xxh G sketches) {v : Fin n} (hv : (sketches v).sampleIdx < p.numSamples) :
    Ready xxh G {v} (sketches v) := by
  refine ⟨hv,fun b _ => ?_⟩
  rw [← h.sum hn {v},Finset.sum_singleton]

theorem closed_classOf (q : QueryState n) (R : Fin n) : Closed q (classOf q R) := by
  intro u hu v huv
  simp only [classOf,Finset.mem_filter,Finset.mem_univ,true_and] at hu ⊢
  rw [← huv,hu]

end Cut

section Round

variable {xxh : XxHash} {G : SimpleGraph (Fin n)} [DecidableRel G.Adj] {I : RoundInput n T p}
  {q : QueryState n}

theorem image_child (h : GroupedBy q.dsu I.mergeInstr) (R : Fin n) :
    (Finset.univ.filter fun j => I.rootAt j = R).image I.childAt = classOf q R := by
  ext v
  simp only [Finset.mem_image,Finset.mem_filter,Finset.mem_univ,true_and,classOf]
  constructor
  · rintro ⟨j,hj,rfl⟩
    rw [← h.root j]
    exact hj
  · intro hv
    obtain ⟨j,rfl⟩ := h.child.2 v
    exact ⟨j,(h.root j).trans hv,rfl⟩

theorem total_eq_sum (h : GroupedBy q.dsu I.mergeInstr) (R : Fin n) :
    I.total R = clip p I.curRound (∑ v ∈ classOf q R, (I.sketches v).buckets) := by
  rw [← image_child h R,Finset.sum_image fun i _ j _ he => h.child.1 he,map_sum]
  rfl

theorem total_eq (h : GroupedBy q.dsu I.mergeInstr) (hs : Sketches I.xxh G I.sketches) (R : Fin n) :
    I.total R = clip p I.curRound (setBuckets I.xxh p (cutEdges G (classOf q R))) := by
  rw [total_eq_sum h,hs.sum I.vertices_lt]

theorem Round.Inv.ready {s : Round n T p} (hi : s.Inv I) (h : GroupedBy q.dsu I.mergeInstr)
    (hs : Sketches I.xxh G I.sketches) (hr : I.curRound < p.numSamples) {c : Call n T p}
    (hc : c ∈ s.calls) : Ready I.xxh G (classOf q c.root) c.sketch := by
  obtain ⟨hbkt,hidx,_⟩ := hi.call c hc
  refine ⟨hidx ▸ hr,?_⟩
  rw [hidx]
  exact holds_of_clip hr (hbkt.trans (total_eq h hs c.root))

end Round

section Emulate

variable (E : QueryEnv n T) {G : SimpleGraph (Fin n)} [DecidableRel G.Adj] {e : Emulation n T p}

def Supplied (e : Emulation n T p) : Prop :=
  if e.roundNum = 0 then ∀ v, (e.sketches v).sampleIdx < p.numSamples
  else e.roundNum < p.numSamples

abbrev QueryEnv.Consistent : Prop := Boruvka.Consistent E.fl n T

structure EmulationInv (G : SimpleGraph (Fin n)) [DecidableRel G.Adj] (e : Emulation n T p) :
    Prop where
  parts : e.roundNum ≠ 0 → E.Consistent
  sketches : Sketches E.xxh G e.sketches
  grouped : GroupedBy e.query.dsu e.mergeInstr
  forest : ForestInv G e.query
  start : e.roundNum = 0 → ∀ x, e.query.dsu.rep x = x
  le : e.roundNum ≤ p.numSamples

structure Frame (e e' : Emulation n T p) : Prop where
  buckets : ∀ v, (e'.sketches v).buckets = (e.sketches v).buckets
  idx : ∀ v, (e.sketches v).sampleIdx ≤ (e'.sketches v).sampleIdx ∧
    (e'.sketches v).sampleIdx ≤ (e.sketches v).sampleIdx + 1
  instr : e'.mergeInstr = e.mergeInstr
  num : e'.roundNum = e.roundNum
  sampled : e.roundNum = 0 → ∀ v, (e.sketches v).sampleIdx < p.numSamples →
    (e'.sketches v).sampleIdx = (e.sketches v).sampleIdx + 1
  later : e.roundNum ≠ 0 → e'.sketches = e.sketches

theorem performBoruvkaRound_frame : Frame e (performBoruvkaRound E e).1 := by
  unfold performBoruvkaRound
  split
  · next h0 =>
    have hz := zeroInv_run E.xxh e.sketches e.query
      (E.schedule.roundZero_perm.nodup_iff.mpr (List.nodup_finRange n))
    refine ⟨hz.buckets,hz.bumped,rfl,rfl,fun _ v => hz.sampled v ?_,fun h => absurd h0 h⟩
    rw [List.mem_reverse,E.schedule.roundZero_perm.mem_iff]
    exact List.mem_finRange v
  · next h0 =>
    split <;>
    exact ⟨fun _ => rfl,fun _ => ⟨le_rfl,Nat.le_succ _⟩,rfl,rfl,fun h => absurd h h0,fun _ => rfl⟩

theorem rethrow_none {err : Option QueryError} (h : err.isSome = false) (m : Bool) :
    rethrow err m = .ok m := by
  rw [Option.isSome_eq_false_iff,Option.isNone_iff_eq_none] at h
  rw [h]
  rfl

theorem rethrow_some {err : Option QueryError} (h : err.isSome = true) (m : Bool) :
    ∃ x, rethrow err m = .error x := by
  obtain ⟨x,rfl⟩ := Option.isSome_iff_exists.mp h
  exact ⟨x,rfl⟩

variable {E}

theorem QueryEnv.vertices_pos (hE : E.Consistent) : 0 < n := E.threads_pos.trans_le hE.divisions_le

theorem roundInput_tiled (hE : E.Consistent) (e : Emulation n T p) :
    (roundInput E hE.inBounds e).Tiled := ⟨hE⟩

theorem EmulationInv.runRound_inv (h : EmulationInv E G e) (hE : E.Consistent) :
    (runRound E hE.inBounds e).Inv (roundInput E hE.inBounds e) := by
  have := roundInput_tiled hE e
  exact (Round.inv_begin h.grouped.sorted e.query e.globalMerges).run h.grouped.sorted h.le _

theorem EmulationInv.runRound_finished (h : EmulationInv E G e) (hE : E.Consistent) :
    (runRound E hE.inBounds e).Finished := by
  have := roundInput_tiled hE e
  exact Round.finished_of_fair h.grouped.sorted h.le e.query e.globalMerges
    (E.schedule.workers_fair e.roundNum)

theorem runRound_tracks (hb : InBounds E.fl n T) :
    (runRound E hb e).Tracks (roundInput E hb e) e.query :=
  (Round.tracks_begin e.globalMerges).run _

theorem performBoruvkaRound_later (hb : InBounds E.fl n T) (h0 : e.roundNum ≠ 0) :
    performBoruvkaRound E e =
      ({ e with query := (runRound E hb e).query,globalMerges := (runRound E hb e).globals },
        rethrow (runRound E hb e).err (runRound E hb e).modified) := by
  rw [performBoruvkaRound,if_neg h0,dif_pos hb]

theorem EmulationInv.all_called (h : EmulationInv E G e) (hE : E.Consistent) (j : Fin n) :
    ∃ c ∈ (runRound E hE.inBounds e).calls, c.root = (e.mergeInstr j).root := by
  have := roundInput_tiled hE e
  exact (h.runRound_inv hE).all_called h.grouped.sorted (h.runRound_finished hE) j

theorem EmulationInv.zero_ok (h : EmulationInv E G e)
    (hcf : ∀ A, CollisionFree E.xxh p (cutEdges G A)) (h0 : e.roundNum = 0)
    (hsup : Supplied e) : ∃ m, (performBoruvkaRound E e).2 = .ok m ∧
      ForestInv G (performBoruvkaRound E e).1.query ∧
      (m = false → Correct G (performBoruvkaRound E e).1.query) := by
  rw [Supplied,if_pos h0] at hsup
  have hz := zeroInv_run E.xxh e.sketches e.query
    (E.schedule.roundZero_perm.nodup_iff.mpr (List.nodup_finRange n))
  have hspec := after_spec E.vertices_lt h.forest hcf
    (E.schedule.roundZero.reverse.map fun v => ({v},e.sketches v)) (by
      intro x hx
      obtain ⟨v,_,rfl⟩ := List.mem_map.mp hx
      refine ⟨h.sketches.ready_vertex E.vertices_lt (hsup v),fun u hu w huw => ?_⟩
      rw [h.start h0,h.start h0] at huw
      exact huw ▸ hu)
  rw [List.map_map,List.map_map] at hspec
  change Spec G e.query _ (after E.xxh e.query (E.schedule.roundZero.reverse.map e.sketches)) at hspec
  obtain ⟨hthrew,hinv,hrep,hcut⟩ := hspec
  rw [hz.threw] at hthrew
  rw [hz.query] at hinv hrep
  rw [hz.modified] at hrep hcut
  rw [performBoruvkaRound,if_pos h0]
  refine ⟨_,rethrow_none hthrew _,hinv,fun hm => correct_of_cuts hinv fun v => ?_⟩
  have hclass : classOf (runRoundZero E.xxh E.schedule.roundZero e.sketches e.query).query
      ((runRoundZero E.xxh E.schedule.roundZero e.sketches e.query).query.dsu.rep v) = {v} := by
    ext u
    simp [classOf,hrep hm,h.start h0]
  rw [hclass]
  refine hcut hm _ (List.mem_map.mpr ⟨v,?_,rfl⟩)
  rw [List.mem_reverse,E.schedule.roundZero_perm.mem_iff]
  exact List.mem_finRange v

theorem EmulationInv.later_ok (h : EmulationInv E G e)
    (hcf : ∀ A, CollisionFree E.xxh p (cutEdges G A)) (h0 : e.roundNum ≠ 0)
    (hsup : Supplied e) : ∃ m, (performBoruvkaRound E e).2 = .ok m ∧
      ForestInv G (performBoruvkaRound E e).1.query ∧
      (m = false → Correct G (performBoruvkaRound E e).1.query) := by
  rw [Supplied,if_neg h0] at hsup
  have hE := h.parts h0
  rw [performBoruvkaRound_later hE.inBounds h0]
  have hinv := h.runRound_inv hE
  have htrack := runRound_tracks (e := e) hE.inBounds
  have hfin := h.runRound_finished hE
  have hspec := after_spec E.vertices_lt h.forest hcf
    ((runRound E hE.inBounds e).calls.map fun c => (classOf e.query c.root,c.sketch)) (by
      intro x hx
      obtain ⟨c,hc,rfl⟩ := List.mem_map.mp hx
      exact ⟨hinv.ready (G := G) h.grouped h.sketches hsup hc,closed_classOf _ _⟩)
  rw [List.map_map,List.map_map] at hspec
  change Spec G e.query _ (Round.outcome (roundInput E hE.inBounds e) e.query
    (runRound E hE.inBounds e)) at hspec
  obtain ⟨hthrew,hforest,hrep,hcut⟩ := hspec
  rw [htrack.threw_iff hfin] at hthrew
  rw [htrack.query] at hforest hrep
  rw [htrack.modified] at hrep hcut
  refine ⟨_,rethrow_none hthrew _,hforest,fun hm => correct_of_cuts hforest fun v => ?_⟩
  have hclass : classOf (runRound E hE.inBounds e).query
      ((runRound E hE.inBounds e).query.dsu.rep v) = classOf e.query (e.query.dsu.rep v) := by
    ext u
    simp [classOf,hrep hm]
  rw [hclass]
  obtain ⟨j,rfl⟩ := h.grouped.child.2 v
  obtain ⟨c,hc,hR⟩ := h.all_called hE j
  refine hcut hm _ (List.mem_map.mpr ⟨c,hc,?_⟩)
  rw [← h.grouped.root j]
  exact congrArg (classOf e.query) hR

theorem EmulationInv.round_ok (h : EmulationInv E G e)
    (hcf : ∀ A, CollisionFree E.xxh p (cutEdges G A)) (hsup : Supplied e) :
    ∃ m, (performBoruvkaRound E e).2 = .ok m ∧
      ForestInv G (performBoruvkaRound E e).1.query ∧
      (m = false → Correct G (performBoruvkaRound E e).1.query) := by
  by_cases h0 : e.roundNum = 0
  · exact h.zero_ok hcf h0 hsup
  · exact h.later_ok hcf h0 hsup

theorem zero_throws (h0 : e.roundNum = 0)
    (h : ¬ ∀ v, (e.sketches v).sampleIdx < p.numSamples) :
    ∃ err, (performBoruvkaRound E e).2 = .error err := by
  have hz := zeroInv_run E.xxh e.sketches e.query
    (E.schedule.roundZero_perm.nodup_iff.mpr (List.nodup_finRange n))
  push Not at h
  obtain ⟨v,hv⟩ := h
  rw [performBoruvkaRound,if_pos h0]
  refine rethrow_some ?_ _
  rw [← hz.threw]
  refine after_exhausted ⟨e.sketches v,List.mem_map.mpr ⟨v,?_,rfl⟩,hv⟩
  rw [List.mem_reverse,E.schedule.roundZero_perm.mem_iff]
  exact List.mem_finRange v

theorem EmulationInv.round_throws (h : EmulationInv E G e) (hsup : ¬ Supplied e) :
    ∃ err, (performBoruvkaRound E e).2 = .error err := by
  unfold Supplied at hsup
  split at hsup
  · next h0 => exact zero_throws h0 hsup
  · next h0 =>
    have hE := h.parts h0
    rw [performBoruvkaRound_later hE.inBounds h0]
    refine rethrow_some ?_ _
    rw [← (runRound_tracks hE.inBounds).threw_iff (h.runRound_finished hE)]
    obtain ⟨c,hc,_⟩ := h.all_called hE ⟨0,E.vertices_pos hE⟩
    refine after_exhausted ⟨c.sketch,List.mem_map.mpr ⟨c,hc,rfl⟩,?_⟩
    rw [((h.runRound_inv hE).call c hc).idx]
    exact not_lt.mp hsup

theorem rethrow_ok {err : Option QueryError} {m m' : Bool} (h : rethrow err m = .ok m') :
    m = m' := by
  cases err with
  | none => exact Except.ok.inj h
  | some err => cases h

theorem rethrow_error {err : Option QueryError} {m : Bool} {x : QueryError}
    (h : rethrow err m = .error x) : err = some x := by
  cases err with
  | none => cases h
  | some y =>
    cases h
    rfl

-- a round of a correct query throws nothing else
theorem EmulationInv.round_error (h : EmulationInv E G e)
    (hcf : ∀ A, CollisionFree E.xxh p (cutEdges G A)) {err : QueryError}
    (herr : (performBoruvkaRound E e).2 = .error err) : ∃ ex, err = .outOfSamples ex := by
  by_cases h0 : e.roundNum = 0
  · rw [performBoruvkaRound,if_pos h0] at herr
    have hz := zeroInv_run E.xxh e.sketches e.query
      (E.schedule.roundZero_perm.nodup_iff.mpr (List.nodup_finRange n))
    obtain ⟨v,_,q,hv⟩ := hz.traced err (rethrow_error herr)
    refine sampleSupernode_outOfSamples E.vertices_lt (hcf {v}) ?_ hv
    exact (lt_or_ge _ _).symm.imp_right (h.sketches.ready_vertex E.vertices_lt)
  · have hE := h.parts h0
    rw [performBoruvkaRound_later hE.inBounds h0] at herr
    obtain ⟨c,hc,q,hcall⟩ := (runRound_tracks hE.inBounds).traced err (.inl (rethrow_error herr))
    refine sampleSupernode_outOfSamples E.vertices_lt (hcf (classOf e.query c.root)) ?_ hcall
    rcases lt_or_ge e.roundNum p.numSamples with hlt | hge
    · exact .inr ((h.runRound_inv hE).ready (G := G) h.grouped h.sketches hlt hc)
    · exact .inl (hge.trans_eq ((h.runRound_inv hE).call c hc).idx.symm)

theorem EmulationInv.next (h : EmulationInv E G e) (hE : E.Consistent) (hsup : Supplied e)
    (hforest : ForestInv G (performBoruvkaRound E e).1.query) :
    ∃ dsu mergeInstr, createMergeInstructions E.fl
        (E.schedule.captures (performBoruvkaRound E e).1.roundNum)
        (performBoruvkaRound E e).1.query.dsu (performBoruvkaRound E e).1.mergeInstr =
          some (dsu,mergeInstr) ∧
      (∀ x, dsu.rep x = (performBoruvkaRound E e).1.query.dsu.rep x) ∧
      EmulationInv E G { (performBoruvkaRound E e).1 with
        query := { (performBoruvkaRound E e).1.query with dsu := dsu }
        mergeInstr := mergeInstr
        roundNum := (performBoruvkaRound E e).1.roundNum + 1 } := by
  have hframe := performBoruvkaRound_frame E (e := e)
  have hlt : e.roundNum < p.numSamples := by
    unfold Supplied at hsup
    split at hsup
    · next h0 =>
      have hv := hsup ⟨0,E.vertices_pos hE⟩
      omega
    · exact hsup
  obtain ⟨dsu,mergeInstr,hrun,hrep,hgroup⟩ := createMergeInstructions_spec
    (E.schedule.captures (performBoruvkaRound E e).1.roundNum)
    (performBoruvkaRound E e).1.query.dsu (performBoruvkaRound E e).1.mergeInstr
    hE (hframe.instr ▸ h.grouped.child)
  refine ⟨dsu,mergeInstr,hrun,hrep,fun _ => hE,fun v => ?_,⟨hgroup.child,fun i => ?_,hgroup.sorted⟩,
    ⟨hforest.keyed,hforest.sub,hforest.acyclic,fun u v => ?_⟩,fun h0 => ?_,?_⟩
  · exact (hframe.buckets v).trans (h.sketches v)
  · exact (hgroup.root i).trans (hrep _).symm
  · rw [hrep,hrep]
    exact hforest.rep u v
  · simp at h0
  · rw [← hframe.num] at hlt
    exact hlt

theorem boruvkaLoop_threw {fuel : ℕ} {err : QueryError}
    (h : (performBoruvkaRound E e).2 = .error err) :
    boruvkaLoop E (fuel + 1) e = ((performBoruvkaRound E e).1,.threw err) := by
  rw [boruvkaLoop]
  revert h
  cases performBoruvkaRound E e with
  | mk e' res =>
    rintro rfl
    rfl

theorem boruvkaLoop_returned {fuel : ℕ} (h : (performBoruvkaRound E e).2 = .ok false) :
    boruvkaLoop E (fuel + 1) e = ((performBoruvkaRound E e).1,.returned) := by
  rw [boruvkaLoop]
  revert h
  cases performBoruvkaRound E e with
  | mk e' res =>
    rintro rfl
    rfl

theorem boruvkaLoop_next {fuel : ℕ} {dsu : DisjointSetUnionMT n} {mergeInstr : Fin n → MergeInstr n}
    (h : (performBoruvkaRound E e).2 = .ok true)
    (hrun : createMergeInstructions E.fl (E.schedule.captures (performBoruvkaRound E e).1.roundNum)
      (performBoruvkaRound E e).1.query.dsu (performBoruvkaRound E e).1.mergeInstr =
        some (dsu,mergeInstr)) :
    boruvkaLoop E (fuel + 1) e = boruvkaLoop E fuel { (performBoruvkaRound E e).1 with
      query := { (performBoruvkaRound E e).1.query with dsu := dsu }
      mergeInstr := mergeInstr
      roundNum := (performBoruvkaRound E e).1.roundNum + 1 } := by
  rw [boruvkaLoop]
  revert h hrun
  cases performBoruvkaRound E e with
  | mk e' res =>
    rintro rfl hrun
    simp only at hrun
    simp only [hrun]

theorem EmulationInv.round_empty (h : EmulationInv E G e) (hG : G = ⊥) (h0 : e.roundNum = 0)
    (hsup : Supplied e) {m : Bool} (hm : (performBoruvkaRound E e).2 = .ok m) : m = false := by
  rw [Supplied,if_pos h0] at hsup
  have hz := zeroInv_run E.xxh e.sketches e.query
    (E.schedule.roundZero_perm.nodup_iff.mpr (List.nodup_finRange n))
  rw [performBoruvkaRound,if_pos h0] at hm
  rw [← rethrow_ok hm,← hz.modified,after_det_zero E.xxh e.query fun skt hskt => ?_]
  obtain ⟨v,_,rfl⟩ := List.mem_map.mp hskt
  refine ⟨hsup v,?_⟩
  have hinc : incident G v = ∅ := by
    subst hG
    simp [incident]
  rw [h.sketches v,hinc]
  simp [setBuckets]

-- no partition is used before a round finds an edge
theorem boruvkaLoop_spec (hE : E.Consistent ∨ G = ⊥)
    (hcf : ∀ A, CollisionFree E.xxh p (cutEdges G A)) (fuel : ℕ) (h : EmulationInv E G e)
    (hfuel : p.numSamples + 1 ≤ fuel + e.roundNum) :
    (∃ ex, (boruvkaLoop E fuel e).2 = .threw (.outOfSamples ex)) ∨
      ((boruvkaLoop E fuel e).2 = .returned ∧ Correct G (boruvkaLoop E fuel e).1.query) := by
  induction fuel generalizing e with
  | zero =>
    have hle := h.le
    omega
  | succ fuel ih =>
    by_cases hsup : Supplied e
    · obtain ⟨m,hm,hforest,hcorrect⟩ := h.round_ok hcf hsup
      cases m with
      | false =>
        rw [boruvkaLoop_returned hm]
        exact .inr ⟨rfl,hcorrect rfl⟩
      | true =>
        have hE' : E.Consistent := by
          by_cases h0 : e.roundNum = 0
          · exact hE.resolve_right fun hG => absurd (h.round_empty hG h0 hsup hm) (by decide)
          · exact h.parts h0
        obtain ⟨dsu,mergeInstr,hrun,_,hnext⟩ := h.next hE' hsup hforest
        rw [boruvkaLoop_next hm hrun]
        refine ih hnext ?_
        have hnum := (performBoruvkaRound_frame E (e := e)).num
        simp only
        omega
    · obtain ⟨err,herr⟩ := h.round_throws hsup
      obtain ⟨ex,rfl⟩ := h.round_error hcf herr
      rw [boruvkaLoop_threw herr]
      exact .inl ⟨ex,rfl⟩

theorem start_inv {sketches : Fin n → Sketch p} (hs : Sketches E.xxh G sketches)
    (dsu : DisjointSetUnionMT n) : EmulationInv E G (startEmulation T sketches dsu) := by
  have hrep (x : Fin n) : (startEmulation T sketches dsu).query.dsu.rep x = x :=
    DisjointSetUnionMT.rep_fresh _ x
  exact ⟨fun h => absurd rfl h,hs,
    ⟨⟨fun _ _ h => h,fun v => ⟨v,rfl⟩⟩,fun i => (hrep i).symm,fun _ _ h => h⟩,
    forestInv_reset dsu,fun _ => hrep,Nat.zero_le _⟩

theorem boruvkaLoop_cases (fuel : ℕ) (e : Emulation n T p) :
    ∃ e', Frame e e' ∧ ((∃ r, boruvkaLoop E (fuel + 1) e = (e',r)) ∨
      ∃ q mergeInstr, boruvkaLoop E (fuel + 1) e = boruvkaLoop E fuel
        { e' with query := q,mergeInstr := mergeInstr,roundNum := e'.roundNum + 1 }) := by
  refine ⟨_,performBoruvkaRound_frame E (e := e),?_⟩
  rw [boruvkaLoop]
  cases performBoruvkaRound E e with
  | mk e' res =>
    rcases res with err | m
    · exact .inl ⟨_,rfl⟩
    · cases m with
      | false => exact .inl ⟨_,rfl⟩
      | true =>
        simp only
        split
        · exact .inl ⟨_,rfl⟩
        · exact .inr ⟨_,_,rfl⟩

theorem boruvkaLoop_buckets (fuel : ℕ) (e : Emulation n T p) (v : Fin n) :
    ((boruvkaLoop E fuel e).1.sketches v).buckets = (e.sketches v).buckets := by
  induction fuel generalizing e with
  | zero => rfl
  | succ fuel ih =>
    obtain ⟨e',hframe,⟨r,he⟩ | ⟨q,mergeInstr,he⟩⟩ := boruvkaLoop_cases (E := E) fuel e
    · rw [he]
      exact hframe.buckets v
    · rw [he,ih]
      exact hframe.buckets v

theorem boruvkaLoop_rounds (fuel : ℕ) (e : Emulation n T p)
    (hr : (boruvkaLoop E fuel e).2 ≠ .running) :
    (boruvkaLoop E fuel e).1.roundNum < fuel + e.roundNum := by
  induction fuel generalizing e with
  | zero => exact absurd rfl hr
  | succ fuel ih =>
    obtain ⟨e',hframe,⟨r,he⟩ | ⟨q,mergeInstr,he⟩⟩ := boruvkaLoop_cases (E := E) fuel e
    · rw [he]
      have hnum := hframe.num
      simp only
      omega
    · rw [he] at hr ⊢
      have hlt := ih _ hr
      have hnum := hframe.num
      simp only at hlt
      omega

end Emulate

theorem boruvka_emulation_correct (E : QueryEnv n T) (hfl : E.fl = .exact) (hT : T ≤ n)
    (G : SimpleGraph (Fin n)) [DecidableRel G.Adj] (sketches : Fin n → Sketch p)
    (hs : ∀ v, (sketches v).buckets = setBuckets E.xxh p (incident G v))
    (hcf : ∀ A, CollisionFree E.xxh p (cutEdges G A)) (dsu : DisjointSetUnionMT n) :
    ((∃ ex, (boruvkaEmulation E sketches dsu).2 = .threw (.outOfSamples ex)) ∨
      (boruvkaEmulation E sketches dsu).2 = .returned) ∧
    (boruvkaEmulation E sketches dsu).1.roundNum < p.numSamples + 1 ∧
    ((boruvkaEmulation E sketches dsu).2 = .returned →
      let q := (boruvkaEmulation E sketches dsu).1.query
      (∀ u v, (q.dsu.findRoot u).2 = (q.dsu.findRoot v).2 ↔ G.Reachable u v) ∧
      IsSpanningForest G (forestGraph q.spanningForest)) := by
  have hE : E.Consistent := by
    rw [QueryEnv.Consistent,hfl]
    exact exact_consistent E.threads_pos hT
  have hspec := boruvkaLoop_spec (.inl hE) hcf (p.numSamples + 1) (start_inv hs dsu)
    (Nat.le_add_right _ _)
  have hstop : (boruvkaEmulation E sketches dsu).2 ≠ .running := by
    intro hrun
    rw [boruvkaEmulation] at hrun
    rcases hspec with ⟨err,herr⟩ | ⟨hret,_⟩
    · rw [herr] at hrun
      cases hrun
    · rw [hret] at hrun
      cases hrun
  refine ⟨hspec.imp_right And.left,boruvkaLoop_rounds _ _ hstop,fun hret => ?_⟩
  rcases hspec with ⟨err,herr⟩ | ⟨_,hc⟩
  · rw [boruvkaEmulation,herr] at hret
    cases hret
  · refine ⟨fun u v => ?_,hc.forest⟩
    rw [DisjointSetUnionMT.findRoot_snd,DisjointSetUnionMT.findRoot_snd]
    exact hc.rep u v

def pairSchedule : Schedule 2 2 where
  roundZero := [⟨0,Nat.zero_lt_two⟩,⟨1,Nat.one_lt_two⟩]
  roundZero_perm := by decide
  workers _ := List.replicate 11 ⟨0,Nat.zero_lt_two⟩ ++ List.replicate 11 ⟨1,Nat.one_lt_two⟩
  workers_fair _ t := by revert t; decide
  captures _ := ⟨[(⟨0,Nat.zero_lt_two⟩,⟨0,Nat.zero_lt_two⟩),(⟨1,Nat.one_lt_two⟩,⟨0,Nat.zero_lt_two⟩),
    (⟨0,Nat.zero_lt_two⟩,⟨1,Nat.one_lt_two⟩),(⟨1,Nat.one_lt_two⟩,⟨1,Nat.one_lt_two⟩)],by decide,
    by decide⟩

def pairEnv : QueryEnv 2 2 where
  xxh x _ := x + 1
  schedule := pairSchedule
  fl := .exact
  threads_pos := Nat.zero_lt_two
  vertices_lt := Round.two_lt_two_pow

def pairParams : SketchParams := ⟨0,2,1,1⟩

theorem pair_cut : ∀ A : Finset (Fin 2), cutEdges (⊤ : SimpleGraph (Fin 2)) A ⊆ {1#64} := by
  decide

theorem pair_collisionFree (A : Finset (Fin 2)) :
    CollisionFree pairEnv.xxh pairParams (cutEdges (⊤ : SimpleGraph (Fin 2)) A) :=
  .of_subset_singleton (pair_cut A) (by decide) (by decide)

def fullParams : SketchParams := ⟨0,18,1,1⟩

theorem full_collisionFree (A : Finset (Fin 2)) :
    CollisionFree pairEnv.xxh fullParams (cutEdges (⊤ : SimpleGraph (Fin 2)) A) :=
  .of_subset_singleton (pair_cut A) (by decide) (by decide)

def pairSketches (v : Fin 2) : Sketch pairParams :=
  ⟨0,setBuckets pairEnv.xxh pairParams (incident (⊤ : SimpleGraph (Fin 2)) v)⟩

theorem boruvka_emulation_pair :
    (boruvkaEmulation pairEnv pairSketches (.fresh fun _ => 0)).2 = .returned ∧
    IsSpanningForest ⊤ (forestGraph
      (boruvkaEmulation pairEnv pairSketches (.fresh fun _ => 0)).1.query.spanningForest) := by
  have hret : (boruvkaEmulation pairEnv pairSketches (.fresh fun _ => 0)).2 = .returned := by
    decide +kernel
  exact ⟨hret,((boruvka_emulation_correct pairEnv rfl le_rfl ⊤ pairSketches (fun _ => rfl)
    pair_collisionFree _).2.2 hret).2⟩

end GraphZeppelin.Boruvka
