import GraphZeppelin.Boruvka.RoundStates
import GraphZeppelin.CC.KForests
import GraphZeppelin.MC.Alg

open SpanningForest

namespace GraphZeppelin.MC
open Dsu Boruvka Sketch CC

variable {n g T : ℕ} {p : SketchParams} {xxh : XxHash}

theorem sortedAdjacency_perm (sf : SpanningForest n) (type : UpdateType) :
    ((sortedAdjacency sf).map fun e => (e.src,e.dst)).Perm
      (sf.edges.flatMap fun e => halfUpdates ⟨e,type⟩) := by
  refine ((List.mergeSort_perm _ _).map _).trans ?_
  rw [List.map_append,List.map_map]
  have h := List.map_append_flatMap_perm sf.edges (fun e => (e.src,e.dst)) fun e => [(e.dst,e.src)]
  rwa [← List.map_eq_flatMap] at h

namespace MCSketchAlg

theorem updateHalf_buckets (sketches : Fin n → Sketch p) (e : Edge n) (v : Fin n) :
    (updateHalf xxh sketches e v).buckets =
      (sketches v).buckets + half xxh p v (e.src,e.dst) := by
  unfold updateHalf half
  by_cases h : e.src = v
  · subst h
    simp [update_buckets]
  · simp [h,Ne.symm h]

theorem updateHalf_sampleIdx (sketches : Fin n → Sketch p) (e : Edge n) (v : Fin n) :
    (updateHalf xxh sketches e v).sampleIdx = (sketches v).sampleIdx := by
  unfold updateHalf
  by_cases h : v = e.src
  · subst h
    simp [update_sampleIdx]
  · simp [h]

theorem foldl_updateHalf (es : List (Edge n)) (sketches : Fin n → Sketch p) (v : Fin n) :
    (es.foldl (updateHalf xxh) sketches v).buckets =
      (sketches v).buckets + received xxh p v (es.map fun e => (e.src,e.dst)) ∧
    (es.foldl (updateHalf xxh) sketches v).sampleIdx = (sketches v).sampleIdx := by
  induction es generalizing sketches with
  | nil => exact ⟨(add_zero _).symm,rfl⟩
  | cons e es ih =>
    obtain ⟨hb,hi⟩ := ih (updateHalf xxh sketches e)
    rw [List.foldl_cons]
    refine ⟨?_,hi.trans (updateHalf_sampleIdx _ _ _)⟩
    rw [hb,updateHalf_buckets,add_assoc]
    rfl

variable {G : SimpleGraph (Fin n)} {a : MCSketchAlg n g p} {graphId : Fin g}

theorem deleteForest_sketches (hn : n < 2 ^ 32) [DecidableRel G.Adj]
    (h : Sketches xxh G (a.sketches graphId)) (sf : SpanningForest n) :
    Sketches xxh (toggled G sf.edges) ((a.deleteForest xxh graphId sf).sketches graphId) := by
  intro v
  simp only [deleteForest,Function.update_self]
  rw [(foldl_updateHalf _ _ v).1,h v,received_toggle hn .delete sf.edges rfl,
    received_perm xxh v (sortedAdjacency_perm sf .delete)]

theorem deleteForest_sampleIdx (sf : SpanningForest n) (v : Fin n) :
    ((a.deleteForest xxh graphId sf).sketches graphId v).sampleIdx =
      (a.sketches graphId v).sampleIdx := by
  simp only [deleteForest,Function.update_self]
  exact (foldl_updateHalf _ _ v).2

section Forest

variable {E : QueryEnv n T}

def firstRound (T : ℕ) (a : MCSketchAlg n g p) (graphId : Fin g) : Emulation n T p :=
  startEmulation T (a.sketches graphId) a.query.dsu

theorem kBoruvkaEmulation_sketches (E : QueryEnv n T) (a : MCSketchAlg n g p) (graphId : Fin g) :
    (a.kBoruvkaEmulation E graphId).1.sketches graphId =
      (boruvkaEmulation E (a.sketches graphId) a.query.dsu).1.sketches := by
  unfold kBoruvkaEmulation
  simp only
  split <;> exact Function.update_self ..

theorem kBoruvkaEmulation_query (E : QueryEnv n T) (a : MCSketchAlg n g p) (graphId : Fin g) :
    (a.kBoruvkaEmulation E graphId).1.query =
      (boruvkaEmulation E (a.sketches graphId) a.query.dsu).1.query := by
  unfold kBoruvkaEmulation
  simp only
  split <;> rfl

theorem kBoruvkaEmulation_unlocked (E : QueryEnv n T) (a : MCSketchAlg n g p) (graphId : Fin g) :
    (a.kBoruvkaEmulation E graphId).1.updateLocked = false ↔
      (boruvkaEmulation E (a.sketches graphId) a.query.dsu).2 = .returned := by
  unfold kBoruvkaEmulation
  simp only
  split
  · next h => simp [h]
  · next h => simp [h]
  · next h => simp [h]

theorem calcSpanningForest_frame (E : QueryEnv n T) (o : ForestOrder n) (a : MCSketchAlg n g p)
    (graphId : Fin g) (v : Fin n) :
    ((a.calcSpanningForest E o graphId).1.sketches graphId v).buckets =
      (a.sketches graphId v).buckets ∧
    (a.sketches graphId v).sampleIdx ≤
      ((a.calcSpanningForest E o graphId).1.sketches graphId v).sampleIdx ∧
    ((a.sketches graphId v).sampleIdx < p.numSamples →
      ((a.calcSpanningForest E o graphId).1.sketches graphId v).sampleIdx =
        (a.sketches graphId v).sampleIdx + 1) := by
  obtain ⟨e',hframe,he⟩ := boruvkaEmulation_frame E (a.sketches graphId) a.query.dsu
  simp only [calcSpanningForest,kBoruvkaEmulation_sketches,he]
  exact ⟨hframe.buckets v,(hframe.idx v).1,hframe.sampled rfl v⟩

structure ForestSpec (E : QueryEnv n T) (H : SimpleGraph (Fin n)) (e : Emulation n T p)
    (r : MCSketchAlg n g p × SpanningForest n) : Prop where
  extracted : Extracted H r.2
  spanning : IsSpanningForest H r.2.graph ↔
    ∀ e', Rounds E e e' → Supplied e' ∨ NothingLeft e'
  unlocked : r.1.updateLocked = false ↔ ∀ e', Rounds E e e' → Supplied e'

theorem calcSpanningForest_spec [DecidableRel G.Adj] (hE : E.Consistent ∨ G = ⊥)
    (h : Sketches E.xxh G (a.sketches graphId))
    (hcf : ∀ A, CollisionFree E.xxh p (cutEdges G A))
    (hidx : ∀ v, (a.sketches graphId v).sampleIdx < p.numSamples) (o : ForestOrder n) :
    ForestSpec E G (a.firstRound T graphId) (a.calcSpanningForest E o graphId) := by
  obtain ⟨hreturned,hforest,hspanning⟩ := boruvkaEmulation_verdict hE hcf h hidx a.query.dsu
  have hgraph : (a.calcSpanningForest E o graphId).2.graph = forestGraph
      (boruvkaEmulation E (a.sketches graphId) a.query.dsu).1.query.spanningForest := by
    rw [calcSpanningForest,SpanningForest.graph_ofForest,kBoruvkaEmulation_query]
  refine ⟨⟨?_,?_⟩,?_,?_⟩
  · rw [calcSpanningForest,kBoruvkaEmulation_query]
    exact SpanningForest.proper_ofForest o hforest.keyed
  · rw [hgraph]
    exact hforest.sub
  · rw [hgraph]
    exact hspanning
  · rw [calcSpanningForest,kBoruvkaEmulation_unlocked]
    exact hreturned

theorem calcSpanningForest_exhausted (E : QueryEnv n T)
    (hidx : ¬ ∀ v, (a.sketches graphId v).sampleIdx < p.numSamples) (o : ForestOrder n) :
    (a.calcSpanningForest E o graphId).1.updateLocked = true := by
  obtain ⟨err,herr⟩ := boruvkaEmulation_exhausted E hidx a.query.dsu
  rw [← Bool.not_eq_false,calcSpanningForest,kBoruvkaEmulation_unlocked,herr]
  exact fun hret => by cases hret

end Forest

section Loop

variable {Q : QueryRun n T}

def nextForest (Q : QueryRun n T) (a : MCSketchAlg n g p) (graphId : Fin g) (i : ℕ) :
    MCSketchAlg n g p × SpanningForest n :=
  (a.forestLoop Q graphId i).alg.calcSpanningForest (Q.env i) (Q.order i) graphId

theorem forestLoop_succ (a : MCSketchAlg n g p) (graphId : Fin g) (k : ℕ) :
    a.forestLoop Q graphId (k + 1) = (a.forestLoop Q graphId k).step Q graphId k := by
  rw [forestLoop,List.range_succ,List.foldl_append]
  rfl

theorem forestLoop_SFs (a : MCSketchAlg n g p) (graphId : Fin g) (k : ℕ) :
    (a.forestLoop Q graphId (k + 1)).SFs =
      (a.forestLoop Q graphId k).SFs ++ [(a.nextForest Q graphId k).2] := by
  rw [forestLoop_succ]
  rfl

theorem forestLoop_length (a : MCSketchAlg n g p) (graphId : Fin g) (k : ℕ) :
    (a.forestLoop Q graphId k).SFs.length = k := by
  induction k with
  | zero => rfl
  | succ k ih => rw [forestLoop_SFs,List.length_append,ih,List.length_singleton]

theorem forestLoop_locked (a : MCSketchAlg n g p) (graphId : Fin g) (k : ℕ) :
    (a.forestLoop Q graphId (k + 1)).alg.updateLocked =
      (a.nextForest Q graphId k).1.updateLocked := by
  rw [forestLoop_succ]
  rfl

theorem forestLoop_sketches [DecidableRel G.Adj] (h : Sketches Q.xxh G (a.sketches graphId))
    (k : ℕ) : Sketches Q.xxh (toggled G ((a.forestLoop Q graphId k).SFs.flatMap (·.edges)))
      ((a.forestLoop Q graphId k).alg.sketches graphId) := by
  induction k with
  | zero =>
    intro v
    refine (h v).trans ?_
    congr! 2
    exact (toggled_nil G).symm
  | succ k ih =>
    have hs : Sketches Q.xxh (toggled G ((a.forestLoop Q graphId k).SFs.flatMap (·.edges)))
        ((a.nextForest Q graphId k).1.sketches graphId) :=
      fun v => (calcSpanningForest_frame _ _ _ graphId v).1.trans (ih v)
    have hnext := deleteForest_sketches Q.vertices_lt hs (a.nextForest Q graphId k).2
    rw [forestLoop_succ]
    intro v
    refine (hnext v).trans ?_
    congr! 2
    rw [← toggled_append]
    simp only [ForestLoop.step,List.flatMap_append,List.flatMap_singleton]
    rfl

theorem forestLoop_sampleIdx (a : MCSketchAlg n g p) (graphId : Fin g) (k : ℕ) (v : Fin n) :
    ((a.forestLoop Q graphId k).alg.sketches graphId v).sampleIdx < p.numSamples ↔
      (a.sketches graphId v).sampleIdx + k < p.numSamples := by
  have hstep (k : ℕ) : ((a.forestLoop Q graphId k).alg.sketches graphId v).sampleIdx ≤
        ((a.forestLoop Q graphId (k + 1)).alg.sketches graphId v).sampleIdx ∧
      (((a.forestLoop Q graphId k).alg.sketches graphId v).sampleIdx < p.numSamples →
        ((a.forestLoop Q graphId (k + 1)).alg.sketches graphId v).sampleIdx =
          ((a.forestLoop Q graphId k).alg.sketches graphId v).sampleIdx + 1) := by
    rw [forestLoop_succ,ForestLoop.step,deleteForest_sampleIdx]
    exact (calcSpanningForest_frame _ _ _ graphId v).2
  have hexact (k : ℕ) : ((a.forestLoop Q graphId k).alg.sketches graphId v).sampleIdx <
        p.numSamples ∨ (a.sketches graphId v).sampleIdx + k < p.numSamples →
      ((a.forestLoop Q graphId k).alg.sketches graphId v).sampleIdx =
        (a.sketches graphId v).sampleIdx + k := by
    induction k with
    | zero => exact fun _ => rfl
    | succ k ih =>
      obtain ⟨hle,hone⟩ := hstep k
      omega
  have := hexact k
  omega

theorem stepwise_forestLoop {P : SimpleGraph (Fin n) → SpanningForest n → Prop} (k : ℕ) :
    Stepwise P G (a.forestLoop Q graphId k).SFs ↔
      ∀ i < k, P (residual G (a.forestLoop Q graphId i).SFs) (a.nextForest Q graphId i).2 := by
  induction k with
  | zero => exact ⟨fun _ i hi => absurd hi (Nat.not_lt_zero i),fun _ => .nil⟩
  | succ k ih =>
    rw [forestLoop_SFs,Stepwise.concat_iff,ih]
    constructor
    · rintro ⟨hall,hlast⟩ i hi
      rcases Nat.lt_succ_iff_lt_or_eq.mp hi with hlt | rfl
      · exact hall i hlt
      · exact hlast
    · intro hall
      exact ⟨fun i hi => hall i (Nat.lt_succ_of_lt hi),hall k (Nat.lt_succ_self k)⟩

theorem nextForest_spec [DecidableRel G.Adj] (hE : Q.Consistent ∨ G = ⊥)
    (h : Sketches Q.xxh G (a.sketches graphId))
    (hcf : ∀ A, CollisionFree Q.xxh p (cutEdges G A)) {k : ℕ}
    (hidx : ∀ v, (a.sketches graphId v).sampleIdx + k ≤ p.numSamples) :
    ∀ i < k, ForestSpec (Q.env i) (residual G (a.forestLoop Q graphId i).SFs)
      ((a.forestLoop Q graphId i).alg.firstRound T graphId) (a.nextForest Q graphId i) := by
  intro i
  induction i using Nat.strong_induction_on with
  | _ i ih =>
    intro hi
    have hext : Stepwise Extracted G (a.forestLoop Q graphId i).SFs :=
      (stepwise_forestLoop i).mpr fun j hj => (ih j hj (hj.trans hi)).extracted
    have hs : Sketches Q.xxh (residual G (a.forestLoop Q graphId i).SFs)
        ((a.forestLoop Q graphId i).alg.sketches graphId) := by
      intro v
      refine (forestLoop_sketches h i v).trans ?_
      congr! 2
      exact hext.residual_eq.symm
    have hparts : (Q.env i).Consistent ∨ residual G (a.forestLoop Q graphId i).SFs = ⊥ := by
      refine hE.imp_right fun hG => le_bot_iff.mp ?_
      rw [← hG]
      exact fun _ _ hadj => hadj.1
    refine calcSpanningForest_spec (E := Q.env i) hparts hs
      (fun A => (hcf A).mono (cutEdges_residual_subset G _ A)) (fun v => ?_) _
    rw [forestLoop_sampleIdx]
    have := hidx v
    omega

theorem deleteForests_sketches (hn : n < 2 ^ 32) (SFs : List (SpanningForest n))
    {H : SimpleGraph (Fin n)} [DecidableRel H.Adj] {a : MCSketchAlg n g p}
    (h : Sketches xxh H (a.sketches graphId)) [DecidableRel G.Adj]
    (hG : G = toggled H (SFs.flatMap (·.edges))) :
    Sketches xxh G ((SFs.foldl (fun a sf => a.deleteForest xxh graphId sf) a).sketches graphId) := by
  induction SFs generalizing H a with
  | nil =>
    intro v
    refine (h v).trans ?_
    congr! 2
    rw [hG,List.flatMap_nil,toggled_nil]
  | cons sf SFs ih =>
    rw [List.flatMap_cons,toggled_append] at hG
    exact ih (deleteForest_sketches hn h sf) hG

theorem calcDisjointSpanningForests_sketches [DecidableRel G.Adj]
    (h : Sketches Q.xxh G (a.sketches graphId)) (k : ℕ) :
    Sketches Q.xxh G ((a.calcDisjointSpanningForests Q graphId k).1.sketches graphId) :=
  deleteForests_sketches Q.vertices_lt _ (forestLoop_sketches h k) (toggled_twice _ _).symm

theorem calcDisjointSpanningForests_locked (a : MCSketchAlg n g p) (graphId : Fin g) (k : ℕ) :
    (a.calcDisjointSpanningForests Q graphId k).1.updateLocked =
      (a.forestLoop Q graphId k).alg.updateLocked :=
  List.foldlRecOn (motive := fun b : MCSketchAlg n g p =>
      b.updateLocked = (a.forestLoop Q graphId k).alg.updateLocked) _ _ rfl fun _ hb _ _ => hb

theorem calcDisjointSpanningForests_sampleIdx (a : MCSketchAlg n g p) (graphId : Fin g) (k : ℕ)
    (v : Fin n) :
    ((a.calcDisjointSpanningForests Q graphId k).1.sketches graphId v).sampleIdx =
      ((a.forestLoop Q graphId k).alg.sketches graphId v).sampleIdx :=
  List.foldlRecOn (motive := fun b : MCSketchAlg n g p => (b.sketches graphId v).sampleIdx =
      ((a.forestLoop Q graphId k).alg.sketches graphId v).sampleIdx) _ _ rfl
    fun _ hb sf _ => (deleteForest_sampleIdx sf v).trans hb

end Loop

inductive Calls (xxh : XxHash) (graphId : Fin g) (a₀ : MCSketchAlg n g p) :
    MCSketchAlg n g p → Prop
  | refl : Calls xxh graphId a₀ a₀
  | call {T : ℕ} {a : MCSketchAlg n g p} (Q : QueryRun n T) (k : ℕ) : Q.xxh = xxh →
      Calls xxh graphId a₀ a → Calls xxh graphId a₀ (a.calcDisjointSpanningForests Q graphId k).1

theorem Calls.sketches [DecidableRel G.Adj] {a₀ : MCSketchAlg n g p}
    (h : Sketches xxh G (a₀.sketches graphId)) (hc : Calls xxh graphId a₀ a) :
    Sketches xxh G (a.sketches graphId) := by
  induction hc with
  | refl => exact h
  | call Q k hQ _ ih =>
    subst hQ
    exact calcDisjointSpanningForests_sketches ih k

structure Honest (G : SimpleGraph (Fin n)) (k : ℕ)
    (r : MCSketchAlg n g p × List (SpanningForest n)) : Prop where
  length : r.2.length = k
  spanning : ∀ i (hi : i < r.2.length), IsSpanningForest (residual G (r.2.take i)) r.2[i].graph
  unlocked : r.1.updateLocked = false

def takeForest (Q : QueryRun n T) (graphId : Fin g) (i : ℕ) (a : MCSketchAlg n g p) :
    MCSketchAlg n g p :=
  let r := a.calcSpanningForest (Q.env i) (Q.order i) graphId
  r.1.deleteForest Q.xxh graphId r.2

-- the states in which a round of the query starts, the i-th forest being under way
inductive Reaches (Q : QueryRun n T) (graphId : Fin g) (a : MCSketchAlg n g p) :
    ℕ → MCSketchAlg n g p → Emulation n T p → Prop
  | start : Reaches Q graphId a 0 a (a.firstRound T graphId)
  | round {i : ℕ} {b : MCSketchAlg n g p} {e e' : Emulation n T p} : Reaches Q graphId a i b e →
      NextRound (Q.env i) e e' → Reaches Q graphId a i b e'
  | forest {i : ℕ} {b : MCSketchAlg n g p} {e : Emulation n T p} : Reaches Q graphId a i b e →
      Reaches Q graphId a (i + 1) (b.takeForest Q graphId i)
        ((b.takeForest Q graphId i).firstRound T graphId)

theorem reaches_iff {Q : QueryRun n T} {i : ℕ} {b : MCSketchAlg n g p} {e : Emulation n T p} :
    Reaches Q graphId a i b e ↔ b = (a.forestLoop Q graphId i).alg ∧
      Rounds (Q.env i) ((a.forestLoop Q graphId i).alg.firstRound T graphId) e := by
  constructor
  · intro h
    induction h with
    | start => exact ⟨rfl,.refl⟩
    | round _ hnext ih => exact ⟨ih.1,ih.2.tail hnext⟩
    | forest _ ih =>
      rw [forestLoop_succ,ih.1]
      exact ⟨rfl,.refl⟩
  · rintro ⟨rfl,hrounds⟩
    have hfirst (i : ℕ) : Reaches Q graphId a i (a.forestLoop Q graphId i).alg
        ((a.forestLoop Q graphId i).alg.firstRound T graphId) := by
      induction i with
      | zero => exact .start
      | succ i ih =>
        rw [forestLoop_succ]
        exact .forest ih
    induction hrounds with
    | refl => exact hfirst i
    | tail _ hnext ih => exact .round ih hnext

structure Serves (Q : QueryRun n T) (graphId : Fin g) (k : ℕ) (a : MCSketchAlg n g p) : Prop where
  idle : k = 0 → a.updateLocked = false
  round : ∀ i b e, i < k → Reaches Q graphId a i b e →
    Supplied e ∨ (i + 1 < k ∧ e.roundNum ≠ 0 ∧ NothingLeft e)

theorem Serves.unused {Q : QueryRun n T} {k : ℕ} (h : Serves Q graphId k a) (hk : 0 < k)
    (v : Fin n) : (a.sketches graphId v).sampleIdx + k ≤ p.numSamples := by
  obtain ⟨k,rfl⟩ := Nat.exists_eq_add_of_lt hk
  rw [Nat.zero_add] at h ⊢
  have hfirst := (h.round k _ _ (Nat.lt_succ_self k) (reaches_iff.mpr ⟨rfl,.refl⟩)).resolve_right
    fun hlater => hlater.2.1 rfl
  rw [Supplied,if_pos (show (firstRound T _ graphId).roundNum = 0 from rfl)] at hfirst
  have hlt := (forestLoop_sampleIdx a graphId k v).mp (hfirst v)
  omega

theorem calcSpanningForest_all_exhausted (E : QueryEnv n T) (hn : 0 < n) (o : ForestOrder n)
    {a : MCSketchAlg n g p} {graphId : Fin g}
    (hidx : ∀ v, p.numSamples ≤ (a.sketches graphId v).sampleIdx) :
    (a.calcSpanningForest E o graphId).2 = ⟨[]⟩ := by
  have henum : o.enum ∅ = [] := List.eq_nil_iff_forall_not_mem.mpr fun x hx =>
    Finset.notMem_empty x ((o.mem ∅ x).mp hx)
  rw [calcSpanningForest,kBoruvkaEmulation_query,boruvkaEmulation_all_exhausted E hn hidx]
  simp [startEmulation,SpanningForest.ofForest,henum]

section Pair

def pairAlg (p : SketchParams) : MCSketchAlg 2 1 p :=
  { new 1 p fun _ => 0 with
    sketches := fun _ v => ⟨0,setBuckets pairEnv.xxh p (incident (⊤ : SimpleGraph (Fin 2)) v)⟩ }

theorem pair_verdict : Verdict (CCSketchAlg.pairRun.env 0) ⊤
    (startEmulation 2 pairSketches (.fresh fun _ => 0))
    (boruvkaEmulation (CCSketchAlg.pairRun.env 0) pairSketches (.fresh fun _ => 0)) :=
  boruvkaEmulation_verdict (E := CCSketchAlg.pairRun.env 0) (.inl CCSketchAlg.pairRun_consistent)
    pair_collisionFree (fun _ => rfl) (fun _ => Nat.zero_lt_two) _

def usedAlg : MCSketchAlg 2 1 fullParams :=
  ((pairAlg fullParams).calcDisjointSpanningForests CCSketchAlg.pairRun 0 18).1

theorem used_sampleIdx (v : Fin 2) : fullParams.numSamples ≤ (usedAlg.sketches 0 v).sampleIdx := by
  rw [usedAlg,calcDisjointSpanningForests_sampleIdx,← not_lt,forestLoop_sampleIdx]
  exact lt_irrefl 18

end Pair

end MCSketchAlg
end GraphZeppelin.MC
