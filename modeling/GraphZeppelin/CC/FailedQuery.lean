import GraphZeppelin.CC.KForests
import GraphZeppelin.Boruvka.Stalled

open SpanningForest

namespace GraphZeppelin.CC
open Dsu Boruvka Sketch

variable {n w T : ℕ} {p : SketchParams} {xxh : XxHash}

namespace CCSketchAlg

inductive Query (n : ℕ) where
  | connectedComponents
  | pointQuery (u v : Fin n)
  | calcSpanningForest (o : ForestOrder n)

def except? {ε α : Type} : Except ε α → Option ε
  | .error err => some err
  | .ok _ => none

def runQuery (E : QueryEnv n T) (a : CCSketchAlg n w p) : Query n → CCSketchAlg n w p × Option QueryError
  | .connectedComponents => ((a.connectedComponents E).1,except? (a.connectedComponents E).2)
  | .pointQuery u v => ((a.pointQuery E u v).1,except? (a.pointQuery E u v).2)
  | .calcSpanningForest o => ((a.calcSpanningForest E o).1,except? (a.calcSpanningForest E o).2)

inductive Reachable (xxh : XxHash) : CCSketchAlg n w p → Prop
  | new (priority : Fin n → ℕ) : Reachable xxh (new w p priority)
  | deserialized (priority : Fin n → ℕ) (buckets : Fin n → Fin p.numBuckets → Bucket) :
    Reachable xxh { new w p priority with
      sketches := fun v => ⟨0,buckets v⟩
      dsuValid := false
      sharedDsuValid := false }
  | preInsert {a : CCSketchAlg n w p} (h : Reachable xxh a) (upd : GraphUpdate n) :
    Reachable xxh (a.preInsert upd)
  | update {a : CCSketchAlg n w p} (h : Reachable xxh a) (upd : GraphUpdate n) :
    Reachable xxh (a.update xxh upd)
  | applyUpdateBatch {a b : CCSketchAlg n w p} (h : Reachable xxh a) {thrId : Fin w}
    {srcVertex : Fin n} {dstVertices : List (Fin n)}
    (hok : a.applyUpdateBatch xxh thrId srcVertex dstVertices = .ok b) : Reachable xxh b
  | applyRawBucketsUpdate {a : CCSketchAlg n w p} (h : Reachable xxh a) (srcVertex : Fin n)
    (rawBuckets : Fin p.numBuckets → Bucket) :
    Reachable xxh (a.applyRawBucketsUpdate srcVertex rawBuckets)
  | runQuery {a : CCSketchAlg n w p} (h : Reachable xxh a) {T : ℕ} {E : QueryEnv n T}
    (hE : E.xxh = xxh) (q : Query n) : Reachable xxh (a.runQuery E q).1
  | calcDisjointSpanningForests {a : CCSketchAlg n w p} (h : Reachable xxh a) {T : ℕ}
    {Q : QueryRun n T} (hQ : Q.xxh = xxh) (k : ℕ) :
    Reachable xxh (a.calcDisjointSpanningForests Q k).1

def FlagsAgree (a : CCSketchAlg n w p) : Prop := a.sharedDsuValid = a.dsuValid

structure Rewound (a b : CCSketchAlg n w p) : Prop where
  dsuValid : b.dsuValid = false
  sharedDsuValid : b.sharedDsuValid = false
  sampleIdx : ∀ v, (b.sketches v).sampleIdx = 0
  buckets : ∀ v, (b.sketches v).buckets = (a.sketches v).buckets

structure Usable (xxh : XxHash) (a b : CCSketchAlg n w p) : Prop extends Rewound a b where
  unlocked : b.updateLocked = false
  accepts : ∀ thrId srcVertex dstVertices,
    ∃ c, b.applyUpdateBatch xxh thrId srcVertex dstVertices = .ok c

section Flags

variable {a b : CCSketchAlg n w p}

theorem FlagsAgree.preInsert (h : a.FlagsAgree) (upd : GraphUpdate n) :
    (a.preInsert upd).FlagsAgree := by
  unfold CCSketchAlg.preInsert
  split
  · simp only
    split
    · exact h
    · split
      · rfl
      · exact h
  · exact h

theorem FlagsAgree.update (h : a.FlagsAgree) (upd : GraphUpdate n) :
    (a.update xxh upd).FlagsAgree :=
  h.preInsert upd

theorem FlagsAgree.updateEdges (h : a.FlagsAgree) (type : UpdateType) (es : List (Edge n)) :
    (a.updateEdges xxh type es).FlagsAgree := by
  induction es generalizing a with
  | nil => exact h
  | cons e es ih => exact ih (h.update ⟨e,type⟩)

theorem FlagsAgree.applyUpdateBatch (h : a.FlagsAgree) {thrId : Fin w} {srcVertex : Fin n}
    {dstVertices : List (Fin n)}
    (hok : a.applyUpdateBatch xxh thrId srcVertex dstVertices = .ok b) : b.FlagsAgree := by
  unfold CCSketchAlg.applyUpdateBatch at hok
  split at hok
  · cases hok
  · cases hok
    exact h

theorem refresh_cases (E : QueryEnv n T) (a : CCSketchAlg n w p) :
    ((a.refresh E).2 = none ∧ (a.refresh E).1.updateLocked = false ∧
      (a.refresh E).1.dsuValid = true ∧ (a.refresh E).1.sharedDsuValid = true) ∨
    (∃ err, (a.refresh E).2 = some err) ∧ (a.refresh E).1.updateLocked = true ∧
      (a.refresh E).1.dsuValid = a.dsuValid ∧
      (a.refresh E).1.sharedDsuValid = a.sharedDsuValid := by
  simp only [refresh,boruvkaEmulation]
  split
  · exact .inl ⟨rfl,rfl,rfl,rfl⟩
  · exact .inr ⟨⟨_,rfl⟩,rfl,rfl,rfl⟩
  · exact .inr ⟨⟨_,rfl⟩,rfl,rfl,rfl⟩

theorem FlagsAgree.refresh (h : a.FlagsAgree) (E : QueryEnv n T) : (a.refresh E).1.FlagsAgree := by
  rcases refresh_cases E a with ⟨_,_,hd,hs⟩ | ⟨_,_,hd,hs⟩
  · exact hs.trans hd.symm
  · exact (hs.trans h).trans hd.symm

def prepare (E : QueryEnv n T) (a : CCSketchAlg n w p) : CCSketchAlg n w p × Option QueryError :=
  if a.dsuValid then (a,none) else a.refresh E

structure SameFlags (a b : CCSketchAlg n w p) : Prop where
  updateLocked : a.updateLocked = b.updateLocked
  dsuValid : a.dsuValid = b.dsuValid
  sharedDsuValid : a.sharedDsuValid = b.sharedDsuValid

-- after the cached forest is valid again a query only reads, and compresses paths of the dsu
structure Answers (r s : CCSketchAlg n w p × Option QueryError) : Prop where
  err : s.2 = r.2
  flags : SameFlags s.1 r.1
  failed : ∀ err, r.2 = some err → s.1 = r.1

theorem connectedComponents_eq (h : a.FlagsAgree) (E : QueryEnv n T) : a.connectedComponents E =
    match (a.prepare E).2 with
    | some err => ((a.prepare E).1,.error err)
    | none => ((a.prepare E).1.components.1,.ok (a.prepare E).1.components.2) := by
  rw [CCSketchAlg.connectedComponents,show a.sharedDsuValid = a.dsuValid from h]
  rfl

theorem runQuery_answers (h : a.FlagsAgree) (E : QueryEnv n T) (q : Query n) :
    Answers (a.prepare E) (a.runQuery E q) := by
  have hpoint (u v : Fin n) : a.pointQuery E u v =
      match (a.prepare E).2 with
      | some err => ((a.prepare E).1,.error err)
      | none =>
        let fu := (a.prepare E).1.query.dsu.findRoot u
        let fv := fu.1.findRoot v
        ({ (a.prepare E).1 with query := { (a.prepare E).1.query with dsu := fv.1 } },
          .ok (decide (fu.2 = fv.2))) := rfl
  cases q with
  | connectedComponents =>
    rw [runQuery,connectedComponents_eq h]
    split
    · next herr => exact ⟨herr.symm,⟨rfl,rfl,rfl⟩,fun _ _ => rfl⟩
    · next hok => exact ⟨hok.symm,⟨rfl,rfl,rfl⟩,fun err herr => by cases hok.symm.trans herr⟩
  | pointQuery u v =>
    rw [runQuery,hpoint]
    split
    · next herr => exact ⟨herr.symm,⟨rfl,rfl,rfl⟩,fun _ _ => rfl⟩
    · next hok => exact ⟨hok.symm,⟨rfl,rfl,rfl⟩,fun err herr => by cases hok.symm.trans herr⟩
  | calcSpanningForest o =>
    rw [runQuery,CCSketchAlg.calcSpanningForest,connectedComponents_eq h]
    cases hr : (a.prepare E).2 with
    | some err => exact ⟨hr.symm,⟨rfl,rfl,rfl⟩,fun _ _ => rfl⟩
    | none => exact ⟨hr.symm,⟨rfl,rfl,rfl⟩,fun err herr => by cases hr.symm.trans herr⟩

theorem SameFlags.flagsAgree (hs : SameFlags a b) (h : b.FlagsAgree) : a.FlagsAgree :=
  (hs.sharedDsuValid.trans h).trans hs.dsuValid.symm

theorem FlagsAgree.prepare (h : a.FlagsAgree) (E : QueryEnv n T) : (a.prepare E).1.FlagsAgree := by
  unfold CCSketchAlg.prepare
  split
  · exact h
  · exact h.refresh E

theorem FlagsAgree.runQuery (h : a.FlagsAgree) (E : QueryEnv n T) (q : Query n) :
    (a.runQuery E q).1.FlagsAgree :=
  (runQuery_answers h E q).flags.flagsAgree (h.prepare E)

theorem FlagsAgree.deleteForests (Q : QueryRun n T) (k i maxRounds : ℕ)
    (SFs : List (SpanningForest n)) (h : a.FlagsAgree) :
    (a.deleteForests Q k i maxRounds SFs).1.FlagsAgree := by
  induction k generalizing i maxRounds SFs a with
  | zero => exact h
  | succ k ih =>
    have hq := h.runQuery (Q.env i) (.calcSpanningForest (Q.order i))
    rw [CCSketchAlg.deleteForests]
    split
    · exact hq
    · exact ih _ _ _ (hq.updateEdges _ _)

theorem FlagsAgree.reinsertForests (h : a.FlagsAgree) (SFs : List (SpanningForest n)) :
    (a.reinsertForests xxh SFs).FlagsAgree := by
  rw [reinsertForests_eq]
  exact h.updateEdges _ _

theorem Reachable.flagsAgree (h : Reachable xxh a) : a.FlagsAgree := by
  induction h with
  | new priority => rfl
  | deserialized priority buckets => rfl
  | preInsert _ upd ih => exact ih.preInsert upd
  | update _ upd ih => exact ih.update upd
  | applyUpdateBatch _ hok ih => exact ih.applyUpdateBatch hok
  | applyRawBucketsUpdate _ srcVertex rawBuckets ih => exact ih
  | runQuery _ _ q ih => exact ih.runQuery _ q
  | @calcDisjointSpanningForests a _ T Q _ k ih =>
    have hdel := ih.deleteForests Q k 0 0 []
    rw [CCSketchAlg.calcDisjointSpanningForests]
    split
    · exact hdel
    · exact hdel.reinsertForests _

theorem Reachable.updateEdges (h : Reachable xxh a) (type : UpdateType) (es : List (Edge n)) :
    Reachable xxh (a.updateEdges xxh type es) := by
  induction es generalizing a with
  | nil => exact h
  | cons e es ih => exact ih (h.update ⟨e,type⟩)

end Flags

theorem prepare_failed {a : CCSketchAlg n w p} (h : a.FlagsAgree) {E : QueryEnv n T} {err : QueryError}
    (herr : (a.prepare E).2 = some err) :
    (a.prepare E).1.updateLocked = true ∧ Rewound a (a.prepare E).1 := by
  unfold prepare at herr ⊢
  split at herr
  · cases herr
  · next hv =>
    rw [if_neg hv]
    have hv := Bool.eq_false_of_not_eq_true hv
    rcases refresh_cases E a with ⟨hnone,_⟩ | ⟨_,hl,hd,hs⟩
    · cases hnone.symm.trans herr
    · exact ⟨hl,hd.trans hv,(hs.trans h).trans hv,fun v => rfl,refresh_buckets E a⟩

theorem failed_query_stays_locked {a : CCSketchAlg n w p} (h : Reachable xxh a)
    (E : QueryEnv n T) (q : Query n) {err : QueryError} (herr : (a.runQuery E q).2 = some err) :
    ¬ Usable xxh a (a.runQuery E q).1 ∧ Rewound a (a.runQuery E q).1 ∧
      ∀ thrId srcVertex dstVertices,
        (a.runQuery E q).1.applyUpdateBatch xxh thrId srcVertex dstVertices = .error ⟨⟩ := by
  have ha := runQuery_answers h.flagsAgree E q
  have herr := ha.err.symm.trans herr
  obtain ⟨hlock,hrew⟩ := prepare_failed h.flagsAgree herr
  rw [ha.failed err herr]
  refine ⟨fun hu => ?_,hrew,fun thrId srcVertex dstVertices => ?_⟩
  · exact Bool.false_ne_true (hu.unlocked.symm.trans hlock)
  · rw [applyUpdateBatch,if_pos hlock]

theorem updateEdges_sampleIdx (type : UpdateType) (es : List (Edge n)) (a : CCSketchAlg n w p)
    (v : Fin n) : ((a.updateEdges xxh type es).sketches v).sampleIdx = (a.sketches v).sampleIdx := by
  have hhalf (a : CCSketchAlg n w p) (u : Fin n) (idx : VecT) :
      ((a.updateSketch xxh u idx).sketches v).sampleIdx = (a.sketches v).sampleIdx := by
    by_cases huv : v = u
    · subst huv
      simp [updateSketch,update_sampleIdx]
    · simp [updateSketch,huv]
  induction es generalizing a with
  | nil => rfl
  | cons e es ih =>
    refine (ih _).trans ?_
    change ((a.update xxh ⟨e,type⟩).sketches v).sampleIdx = _
    rw [CCSketchAlg.update,hhalf,hhalf,preInsert_sketches]

theorem prepare_stalled {G : SimpleGraph (Fin n)} [DecidableRel G.Adj] {E : QueryEnv n T}
    {a : CCSketchAlg n w p} (hE : E.Consistent) (hv : a.dsuValid = false)
    (hsk : Sketches E.xxh G a.sketches)
    (hcf : ∀ A, CollisionFree E.xxh p (cutEdges G A))
    (hidx : ∀ v, (a.sketches v).sampleIdx < p.numSamples) {r : ℕ} (hr : r < p.numSamples)
    (h : ∀ v, Stalled E.xxh p (cutEdges G (component (sampledGraph E.xxh a.sketches r) v)))
    {u v : Fin n} (huv : G.Reachable u v)
    (hnot : ¬ (sampledGraph E.xxh a.sketches r).Reachable u v) :
    ∃ err, (a.prepare E).2 = some err := by
  have hret := boruvkaEmulation_stalled hE hsk hcf hidx hr h huv hnot a.query.dsu
  rw [prepare,hv,if_neg Bool.false_ne_true]
  simp only [refresh,CCSketchAlg.boruvkaEmulation]
  cases hend : (Boruvka.boruvkaEmulation E a.sketches a.query.dsu).2 with
  | returned => exact absurd hend hret
  | threw err => exact ⟨err,rfl⟩
  | running => exact ⟨.outOfBounds,rfl⟩

end CCSketchAlg

section Stuck

open CCSketchAlg

-- XXH3_64bits_withSeed on the eight bytes of an index
def xxh3 (idx seed : BitVec 64) : BitVec 64 :=
  let lo := seed.setWidth 32
  let swapped := (lo &&& 0xFF#32) <<< 24 ||| (lo &&& 0xFF00#32) <<< 8 |||
    (lo >>> 8) &&& 0xFF00#32 ||| lo >>> 24
  let seed := seed ^^^ swapped.setWidth 64 <<< 32
  let bitflip := (0x1CAD21F72C81017C#64 ^^^ 0xDB979083E96DD4DE#64) - seed
  let keyed := (idx >>> 32 + idx <<< 32) ^^^ bitflip
  let h := keyed ^^^ keyed.rotateLeft 49 ^^^ keyed.rotateLeft 24
  let h := h * 0x9FB21C651E98DF25#64
  let h := (h ^^^ (h >>> 35 + 8#64)) * 0x9FB21C651E98DF25#64
  h ^^^ h >>> 28

def stuckParams : SketchParams := ⟨103245699#64,18,1,4⟩

def orderedEdges (n : ℕ) : List (Edge n) :=
  (List.finRange n).flatMap fun u => ((List.finRange n).filter (u < ·)).map (⟨u,·⟩)

def starEdges : List (Edge 4) := (orderedEdges 4).filter fun e => e.src.val = 0
def triangleEdges : List (Edge 4) := (orderedEdges 4).filter fun e => e.src.val ≠ 0

abbrev edge12 : VecT := 0x100000002#64
abbrev edge13 : VecT := 0x100000003#64
abbrev edge23 : VecT := 0x200000003#64

abbrev triangle : SimpleGraph (Fin 4) := currentGraph triangleEdges

theorem stuck_depth : ∀ c : Fin stuckParams.numColumns,
    Bucket.getIndexDepth xxh3 edge13 (stuckParams.columnSeed c) stuckParams.bktPerCol =
      Bucket.getIndexDepth xxh3 edge23 (stuckParams.columnSeed c) stuckParams.bktPerCol := by
  decide

theorem stuck_stalled : Stalled xxh3 stuckParams {edge13,edge23} :=
  stalled_pair (by decide) stuck_depth

theorem triangle_cut (A : Finset (Fin 4)) : cutEdges triangle A ⊆ {edge12,edge13,edge23} := by
  have hall : ∀ u v : Fin 4, triangle.Adj u v →
      edgeIdx u v ∈ ({edge12,edge13,edge23} : Finset VecT) := by
    decide
  intro i hi
  obtain ⟨u,v,_,_,huv,rfl⟩ := (mem_cutEdges triangle).mp hi
  exact hall u v huv

theorem triangle_collisionFree (A : Finset (Fin 4)) :
    CollisionFree xxh3 stuckParams (cutEdges triangle A) := by
  have hcf : CollisionFree xxh3 stuckParams [edge12,edge13,edge23].toFinset :=
    .of_sublists (by decide) (by decide) (by decide)
  exact hcf.mono (triangle_cut A)

def triangleSketch (v : Fin 4) : Sketch stuckParams :=
  ⟨0,setBuckets xxh3 stuckParams (incident triangle v)⟩

theorem triangleSketch_sample : ∀ v : Fin 4, ((triangleSketch v).sample xxh3).map Prod.snd =
    if v = 0 then .ok ⟨0,.zero⟩ else if v = 3 then .ok ⟨0,.fail⟩ else .ok ⟨edge12,.good⟩ := by
  decide

theorem triangleSketch_sampledEdge (v : Fin 4) :
    (sampledEdge xxh3 (triangleSketch v) : SimpleGraph (Fin 4)) =
      if v = 1 ∨ v = 2 then SimpleGraph.edge 1 2 else ⊥ := by
  rw [sampledEdge,triangleSketch_sample]
  fin_cases v <;> rfl

theorem triangle_sampledGraph : sampledGraph xxh3 triangleSketch 1 = SimpleGraph.edge 1 2 := by
  have hstep : sampledGraph xxh3 triangleSketch 1 =
      ⨆ v : Fin 4, if v = 1 ∨ v = 2 then SimpleGraph.edge 1 2 else ⊥ := by
    rw [sampledGraph,sampledGraph,bot_sup_eq]
    refine iSup_congr fun v => ?_
    rw [supernodeSketch_bot,triangleSketch_sampledEdge]
  rw [hstep]
  refine le_antisymm (iSup_le fun v => ?_) (le_iSup_of_le 1 (le_of_eq rfl))
  split
  · exact le_rfl
  · exact bot_le

def side (v : Fin 4) : ℕ := if v.val = 2 then 1 else v.val

theorem edge_reachable_iff (u v : Fin 4) :
    (SimpleGraph.edge 1 2 : SimpleGraph (Fin 4)).Reachable u v ↔ side u = side v := by
  constructor
  · intro h
    refine reachable_of_adj (R := fun x y => side x = side y)
      ⟨fun _ => rfl,Eq.symm,Eq.trans⟩ (fun x y hxy => ?_) h
    rcases (SimpleGraph.edge_adj ..).mp hxy with ⟨⟨rfl,rfl⟩ | ⟨rfl,rfl⟩,_⟩ <;> rfl
  · intro h
    have hcases : u = v ∨ (u = 1 ∧ v = 2) ∨ (u = 2 ∧ v = 1) := by
      revert u v
      decide
    have hadj : (SimpleGraph.edge 1 2 : SimpleGraph (Fin 4)).Adj 1 2 := by
      simp [SimpleGraph.edge_adj]
    rcases hcases with rfl | ⟨rfl,rfl⟩ | ⟨rfl,rfl⟩
    · exact .rfl
    · exact hadj.reachable
    · exact hadj.reachable.symm

theorem triangle_stalled (v : Fin 4) : Stalled xxh3 stuckParams
    (cutEdges triangle (component (sampledGraph xxh3 triangleSketch 1) v)) := by
  have hcomp : component (sampledGraph xxh3 triangleSketch 1) v =
      Finset.univ.filter fun u => side u = side v := by
    ext u
    rw [mem_component,triangle_sampledGraph,edge_reachable_iff]
    simp
  have hcut : ∀ v : Fin 4, cutEdges triangle (Finset.univ.filter fun u => side u = side v) =
      if v = 0 then ∅ else {edge13,edge23} := by
    decide
  rw [hcomp,hcut]
  split
  · exact stalled_empty _ _
  · exact stuck_stalled

def completeAlg : CCSketchAlg 4 1 stuckParams :=
  (new 1 stuckParams fun _ => 0).updateEdges xxh3 .insert (orderedEdges 4)

-- what the first forest query leaves, read from the cached forest of the insertions
def triangleAlg : CCSketchAlg 4 1 stuckParams := completeAlg.updateEdges xxh3 .delete starEdges

theorem four_lt_two_pow : 4 < 2 ^ 32 := by norm_num

def soloRun : QueryRun 4 1 where
  xxh := xxh3
  schedule _ := soloSchedule 4
  order _ := ascendingOrder 4
  fl := .double
  threads_pos := Nat.zero_lt_one
  vertices_lt := four_lt_two_pow

theorem soloRun_consistent : soloRun.Consistent := by decide +kernel

theorem completeAlg_sketches :
    Sketches xxh3 (toggled ⊥ (orderedEdges 4)) completeAlg.sketches :=
  sketches_updateEdges soloRun.vertices_lt (fun _ => rfl) _ rfl _

theorem triangle_eq : triangle = toggled (toggled ⊥ (orderedEdges 4)) starEdges := by
  ext u v
  revert u v
  decide

theorem deleted_star {a : CCSketchAlg 4 1 stuckParams} (ha : a.sketches = completeAlg.sketches) :
    (a.updateEdges xxh3 .delete starEdges).sketches = triangleSketch := by
  funext v
  have hbkt := sketches_updateEdges soloRun.vertices_lt (ha ▸ completeAlg_sketches) starEdges
    triangle_eq .delete v
  have hidx : ((a.updateEdges xxh3 .delete starEdges).sketches v).sampleIdx = 0 := by
    rw [updateEdges_sampleIdx,ha,completeAlg,updateEdges_sampleIdx]
    rfl
  cases hs : (a.updateEdges xxh3 .delete starEdges).sketches v
  rw [hs] at hbkt hidx
  rw [triangleSketch]
  exact congrArg₂ Sketch.mk hidx hbkt

theorem triangle_throws {a : CCSketchAlg 4 1 stuckParams} (hv : a.dsuValid = false)
    (ha : a.sketches = triangleSketch) (i : ℕ) :
    ∃ err, (a.prepare (soloRun.env i)).2 = some err := by
  have hadj : triangle.Adj 1 3 := by decide
  refine prepare_stalled soloRun_consistent hv (ha ▸ fun _ => rfl) triangle_collisionFree (fun v => ?_)
    (show 1 < stuckParams.numSamples by decide) (ha ▸ triangle_stalled) hadj.reachable ?_
  · rw [ha]
    exact (by decide : 0 < stuckParams.numSamples)
  · rw [ha]
    change ¬ (sampledGraph xxh3 triangleSketch 1).Reachable 1 3
    rw [triangle_sampledGraph,edge_reachable_iff]
    decide

theorem triangleAlg_reachable : Reachable xxh3 triangleAlg :=
  ((Reachable.new _).updateEdges _ _).updateEdges _ _

theorem triangleAlg_invalid : triangleAlg.dsuValid = false := by decide

theorem triangleAlg_throws (q : Query 4) :
    ∃ err, (triangleAlg.runQuery (soloRun.env 0) q).2 = some err := by
  obtain ⟨err,herr⟩ := triangle_throws triangleAlg_invalid (deleted_star rfl) 0
  exact ⟨err,(runQuery_answers triangleAlg_reachable.flagsAgree _ q).err.trans herr⟩

theorem triangle_query_keeps_lock : Reachable xxh3 triangleAlg ∧ triangleAlg.updateLocked = false ∧
    ∃ err, (triangleAlg.runQuery (soloRun.env 0) .connectedComponents).2 = some err ∧
      ¬ Usable xxh3 triangleAlg (triangleAlg.runQuery (soloRun.env 0) .connectedComponents).1 := by
  have hflags := triangleAlg_reachable.flagsAgree
  obtain ⟨err,herr⟩ := triangleAlg_throws .connectedComponents
  have ha := runQuery_answers hflags (soloRun.env 0) .connectedComponents
  have hprep := ha.err.symm.trans herr
  refine ⟨triangleAlg_reachable,by decide,err,herr,fun hu => ?_⟩
  rw [ha.failed err hprep] at hu
  exact Bool.false_ne_true (hu.unlocked.symm.trans (prepare_failed hflags hprep).1)

theorem triangle_batch_rejected :
    (triangleAlg.runQuery (soloRun.env 0) (.pointQuery 1 3)).1.applyUpdateBatch xxh3 0 1 [2] =
      .error ⟨⟩ := by
  obtain ⟨err,herr⟩ := triangleAlg_throws (.pointQuery 1 3)
  exact (failed_query_stays_locked triangleAlg_reachable _ _ herr).2.2 0 1 [2]

end Stuck
end GraphZeppelin.CC
