import GraphZeppelin.EdgeStore.Split
import GraphZeppelin.Gpu.DeviceSketch
import GraphZeppelin.Gpu.Pipeline
import GraphZeppelin.MC.MinCut

namespace GraphZeppelin.Gpu
open Boruvka Sketch CC MC MCGPUSketchAlg

variable {n T : ℕ} {sp : SketchParams} {xxh : XxHash} {p : MCGPUParams}

def streamHalves (es : List (Edge n)) : List (Fin n × Fin n) :=
  es.flatMap fun e => [(e.src,e.dst),(e.dst,e.src)]

theorem count_streamHalves_ne {v u : Fin n} (hne : v ≠ u) (es : List (Edge n)) :
    (streamHalves es).count (v,u) = toggles es v u := by
  induction es with
  | nil => rfl
  | cons e es ih =>
    obtain ⟨s,d⟩ := e
    rw [streamHalves,List.flatMap_cons,List.count_append,← streamHalves,ih,toggles,toggles,
      List.countP_cons,Nat.add_comm]
    refine congrArg (es.countP (fun e => joins e v u) + ·) ?_
    rw [List.count_cons,List.count_singleton]
    by_cases hs : s = v
    · subst hs
      simp [joins,hne]
    · by_cases hd : d = v
      · subst hd
        simp [joins,hs]
      · simp [joins,hs,hd]

theorem even_streamHalves_self (v : Fin n) (es : List (Edge n)) :
    Even ((streamHalves es).count (v,v)) := by
  induction es with
  | nil => exact .zero
  | cons e es ih =>
    rw [streamHalves,List.flatMap_cons,List.count_append,← streamHalves]
    refine .add ⟨if e.src = v ∧ e.dst = v then 1 else 0,?_⟩ ih
    rw [List.count_cons,List.count_singleton]
    simp [and_comm]

theorem odd_streamHalves (es : List (Edge n)) (v u : Fin n) :
    Odd ((streamHalves es).count (v,u)) ↔ (currentGraph es).Adj v u := by
  by_cases hne : v = u
  · subst hne
    exact iff_of_false (Nat.not_odd_iff_even.mpr (even_streamHalves_self v es)) (SimpleGraph.irrefl _)
  · rw [count_streamHalves_ne hne]
    exact (and_iff_right hne).symm

theorem depth_comm (p : MCGPUParams) (v u : Fin n) : depth p v u = depth p u v := by
  rw [depth,edgeIdx_comm,depth]

def sampledSubgraph (p : MCGPUParams) (G : SimpleGraph (Fin n)) (g : ℕ) : SimpleGraph (Fin n) where
  Adj v u := G.Adj v u ∧ g ≤ depth p v u
  symm := ⟨fun v u h => ⟨h.1.symm,depth_comm p v u ▸ h.2⟩⟩
  loopless := ⟨fun v h => G.loopless.irrefl v h.1⟩

instance (p : MCGPUParams) (G : SimpleGraph (Fin n)) [DecidableRel G.Adj] (g : ℕ) :
    DecidableRel (sampledSubgraph p G g).Adj :=
  fun _ _ => inferInstanceAs (Decidable (_ ∧ _))

theorem sampledSubgraph_zero (p : MCGPUParams) (G : SimpleGraph (Fin n)) :
    sampledSubgraph p G 0 = G := by
  ext v u
  exact and_iff_left (Nat.zero_le _)

theorem sampledSubgraph_anti (p : MCGPUParams) (G : SimpleGraph (Fin n)) :
    Antitone (sampledSubgraph p G) := fun _ _ hg _ _ h => ⟨h.1,hg.trans h.2⟩

namespace MCGPUSketchAlg

variable {a : MCGPUSketchAlg n} {N : Fin n → Fin n → ℕ}

def getAdjlistSpanningForests (a : MCGPUSketchAlg n) : List (Edge n) :=
  a.edgeStore.getEdges.map fun e => ⟨e.1,e.2⟩

theorem count_getAdjlistSpanningForests (a : MCGPUSketchAlg n) (v u : Fin n) :
    a.getAdjlistSpanningForests.count ⟨v,u⟩ = a.edgeStore.entries v u := by
  have hinj : Function.Injective fun e : Fin n × Fin n => (⟨e.1,e.2⟩ : Edge n) :=
    fun e e' h => Prod.ext (Edge.mk.inj h).1 (Edge.mk.inj h).2
  have hmap := List.count_map_of_injective a.edgeStore.getEdges _ hinj (v,u)
  rw [getAdjlistSpanningForests,EdgeStore.entries,← EdgeStore.count_getEdges]
  convert hmap using 2

-- a contraction that was begun but moved no update leaves an empty graph on both sides of it
theorem Pipeline.stored_current (h : a.Pipeline p N)
    (hdone : a.edgeStore.trueMinSubgraph = a.edgeStore.curSubgraph) (v u : Fin n) :
    (a.edgeStore.entries v u : ZMod 2) = EdgeStore.due (depth p) N a.curSubgraphs v u := by
  have hsettled := h.balanced.settled v (h.seq.done hdone v)
  rw [hsettled.stored u]
  rcases Nat.lt_or_ge a.curSubgraphs a.edgeStore.curSubgraph with hlt | hge
  · have heq : a.curSubgraphs + 1 = a.edgeStore.curSubgraph := le_antisymm hlt h.high
    have hlast := hsettled.last u _ heq
    rw [h.ready.fresh _ le_rfl v u,Nat.cast_zero] at hlast
    rw [← hlast,EdgeStore.due]
    split
    · next hd =>
      rw [EdgeStore.due,if_pos (by omega)] at hlast
      exact hlast.symm
    · rfl
  · rw [le_antisymm hge h.low]

theorem applyFlushUpdates_stored [NeZero n] (hn : n < 2 ^ 32) (hp : Sized p) (h : a.Pipeline p N)
    {a' : MCGPUSketchAlg n} (hrun : a.applyFlushUpdates p = .ok a') (v u : Fin n) :
    (a'.edgeStore.entries v u : ZMod 2) = EdgeStore.due (depth p) N a'.curSubgraphs v u := by
  obtain ⟨a₁,ha₁,hpipe,hdone⟩ := flushTask_spec hn hp (n + 2) h (fun _ => Nat.le_add_right _ _)
    (Nat.succ_pos _)
  obtain ⟨hsame,hcur⟩ := foldl_flushSubgraph_frame (List.range a₁.curSubgraphs) a₁
  rw [applyFlushUpdates,ha₁] at hrun
  cases hrun
  rw [hsame.store,hcur]
  exact hpipe.stored_current hdone v u

end MCGPUSketchAlg

structure DeviceHolds (xxh : XxHash) (sub : SketchSubgraph n) (sk : Fin n → Sketch sp)
    {W : ℕ} (P : StreamParams) (work : Fin W → List (Fin n × List (Fin n)))
    (s : Fin W → AsyncStream.Sys (CudaStream.Mem (Fin sp.numBuckets → Bucket)) CudaStream.HostAct
      CudaStream.Op) : Prop where
  batches : 1 ≤ P.numBatchPerBuffer
  threads : ThreadWork P work
  given : ∀ v u, ∑ t, (handedPairs (work t)).count (v,u) = (sub.streams v).count u
  completed : ∀ t, CudaStream.Completed P (streamDelta xxh sp) ((work t).map nodeBatch) (s t)
  sketches : ∀ v, (sk v).buckets = (deviceSketch P s v).buckets

theorem DeviceHolds.represents {sub : SketchSubgraph n} {sk : Fin n → Sketch sp} {W : ℕ}
    {P : StreamParams} {work : Fin W → List (Fin n × List (Fin n))}
    {s : Fin W → AsyncStream.Sys (CudaStream.Mem (Fin sp.numBuckets → Bucket)) CudaStream.HostAct
      CudaStream.Op}
    (h : DeviceHolds xxh sub sk P work s) (hn : n < 2 ^ 32) (G : SimpleGraph (Fin n))
    [DecidableRel G.Adj] (hG : ∀ v u, G.Adj v u ↔ Odd ((sub.streams v).count u)) :
    Sketches xxh G sk := by
  intro v
  rw [h.sketches v,deviceSketch_eq_received hn h.batches h.threads h.completed,
    Driver.received_eq_setBuckets hn]
  refine congrArg _ (oddHalves_eq_incident fun u => ?_)
  rw [hG,← h.given,List.count_flatMap,Fin.sum_univ_def]
  rfl

structure StreamAnswered (p : MCGPUParams) (G : SimpleGraph (Fin n)) [DecidableRel G.Adj]
    (a : MCGPUSketchAlg n) (R : ℕ → QueryRun n T) (V : VieCut n) (k numGraphs : ℕ)
    (m : MCSketchAlg n a.curSubgraphs sp) : Prop where
  adjacency : ∀ v u, Odd (a.getAdjlistSpanningForests.count ⟨v,u⟩) ↔
    (sampledSubgraph p G a.curSubgraphs).Adj v u
  sketches : ∀ g : Fin a.curSubgraphs, Sketches (R 0).xxh (sampledSubgraph p G g) (m.sketches g)
  answer : MCSketchAlg.Answer R V a.getAdjlistSpanningForests k m (sampledSubgraph p G) numGraphs
    (m.findMinCut R V a.getAdjlistSpanningForests k (List.range numGraphs)).2

section Pair

def loggedWork (sub : SketchSubgraph n) (_ : Fin 1) : List (Fin n × List (Fin n)) :=
  (List.finRange n).map fun v => (v,sub.streams v)

def loggedParams (sub : SketchSubgraph n) : StreamParams :=
  ⟨1,min (∑ v, (sub.streams v).length) (2 ^ 29),0,BitVec.ofNat 32 n,true,by omega⟩

theorem count_loggedWork (sub : SketchSubgraph n) (t : Fin 1) (v u : Fin n) :
    (handedPairs (loggedWork sub t)).count (v,u) = (sub.streams v).count u := by
  rw [handedPairs,loggedWork,List.flatMap_map,List.count_flatMap,← Fin.sum_univ_def,
    Finset.sum_eq_single v]
  · exact List.count_map_of_injective _ _ (fun _ _ h => (Prod.mk.inj h).2) u
  · intro v' _ hv
    refine List.count_eq_zero.mpr fun hmem => ?_
    obtain ⟨_,_,heq⟩ := List.mem_map.mp hmem
    exact hv (Prod.mk.inj heq).1
  · exact fun h => absurd (Finset.mem_univ v) h

theorem exists_deviceHolds (xxh : XxHash) (sp : SketchParams) (sub : SketchSubgraph n) :
    ∃ (s : Fin 1 → AsyncStream.Sys (CudaStream.Mem (Fin sp.numBuckets → Bucket))
        CudaStream.HostAct CudaStream.Op),
      ∑ v, (sub.streams v).length ≤ 2 ^ 29 →
        DeviceHolds xxh sub (deviceSketch (loggedParams sub) s) (loggedParams sub)
          (loggedWork sub) s := by
  choose s hs using fun t => CudaStream.exists_completed (loggedParams sub) (streamDelta xxh sp)
    (CudaStream.blankMem_created 0) ((loggedWork sub t).map nodeBatch)
  refine ⟨s,fun hfits => ⟨le_rfl,⟨fun t b hb => ?_,fun h => by cases h⟩,fun v u => ?_,hs,
    fun v => rfl⟩⟩
  · obtain ⟨v,_,rfl⟩ := List.mem_map.mp hb
    refine le_of_le_of_eq ?_ (min_eq_left hfits).symm
    exact Finset.single_le_sum (f := fun v => (sub.streams v).length) (fun _ _ => Nat.zero_le _)
      (Finset.mem_univ v)
  · rw [Finset.sum_congr rfl fun t _ => count_loggedWork sub t v u,Fin.sum_univ_one]

def pairVieCut : VieCut 2 where
  performMinimumCut := crossCount {⟨0,Nat.zero_lt_two⟩}
  getNodeInCut _ i := i = ⟨0,Nat.zero_lt_two⟩

theorem pair_supplied {g : ℕ} {m : MCSketchAlg 2 g Boruvka.pairParams} {j : Fin g}
    (h : ∀ v, m.sketches j v = pairSketches v) (hq : m.query.dsu = .fresh fun _ => 0) :
    MCSketchAlg.Serves CCSketchAlg.pairRun j 1 m := by
  refine ⟨fun h => absurd h one_ne_zero,fun i b e hi hreach => .inl ?_⟩
  obtain rfl : i = 0 := Nat.lt_one_iff.mp hi
  obtain ⟨_,hrounds⟩ := MCSketchAlg.reaches_iff.mp hreach
  have hfirst : (m.forestLoop CCSketchAlg.pairRun j 0).alg.firstRound 2 j =
      startEmulation 2 pairSketches (.fresh fun _ => 0) := by
    rw [← hq,← funext h]
    rfl
  rw [hfirst] at hrounds
  exact MCSketchAlg.pair_verdict.returned.mp (by decide +kernel) e hrounds

def deviceAlg (a : MCGPUSketchAlg n) (s : ℕ → Fin 1 → AsyncStream.Sys
    (CudaStream.Mem (Fin sp.numBuckets → Bucket)) CudaStream.HostAct CudaStream.Op) :
    MCSketchAlg n a.curSubgraphs sp :=
  { MCSketchAlg.new a.curSubgraphs sp fun _ => 0 with
    sketches := fun g => deviceSketch (loggedParams (a.subgraphs g)) (s g) }

def PairIngested (a : MCGPUSketchAlg 2) : Prop :=
  a.curSubgraphs = 1 ∧ ∑ v, ((a.subgraphs 0).streams v).length ≤ 2 ^ 29 ∧
    ∀ v u : Fin 2, v ≠ u ↔ Odd (a.handed 0 v u)

instance (a : MCGPUSketchAlg 2) : Decidable (PairIngested a) :=
  inferInstanceAs (Decidable (_ ∧ _ ∧ _))

theorem pair_ingested : ((new 2 8 1 0).applyUpdateBatches pairParams pairBatches >>=
    fun a => a.applyFlushUpdates pairParams).map (fun a => decide (PairIngested a)) = .ok true := by
  decide +kernel

end Pair

end GraphZeppelin.Gpu
