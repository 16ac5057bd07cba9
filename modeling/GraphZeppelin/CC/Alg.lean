import GraphZeppelin.Boruvka.Emulation

namespace GraphZeppelin.CC
open Dsu Boruvka

variable {n w T : ℕ} {p : SketchParams}

inductive UpdateType where
  | insert
  | delete
deriving DecidableEq, Repr

structure GraphUpdate (n : ℕ) where
  edge : Edge n
  type : UpdateType
deriving DecidableEq, Repr

inductive QueryCode where
  | connectivity
  | kSpanningForests
deriving DecidableEq, Repr

structure UpdateLockedException where
deriving DecidableEq, Repr

structure ConnectedComponents (n : ℕ) where
  parentArr : Fin n → Fin n
  numCc : ℕ

structure SpanningForest (n : ℕ) where
  edges : List (Edge n)
deriving DecidableEq, Repr

structure ForestOrder (n : ℕ) where
  enum : Finset (Fin n) → List (Fin n)
  nodup : ∀ s, (enum s).Nodup
  mem : ∀ s x, x ∈ enum s ↔ x ∈ s

structure QueryRun (n T : ℕ) where
  xxh : XxHash
  schedule : ℕ → Schedule n T
  order : ℕ → ForestOrder n
  fl : Rounding
  threads_pos : 0 < T
  vertices_lt : n < 2 ^ 32

def QueryRun.env (Q : QueryRun n T) (i : ℕ) : QueryEnv n T :=
  ⟨Q.xxh,Q.schedule i,Q.fl,Q.threads_pos,Q.vertices_lt⟩

structure CCSketchAlg (n w : ℕ) (p : SketchParams) where
  updateLocked : Bool
  sketches : Fin n → Sketch p
  query : QueryState n
  dsuValid : Bool
  sharedDsuValid : Bool
  deltaSketches : Fin w → Sketch p
  lastQueryRounds : ℕ

namespace ConnectedComponents

def ofDsu (d : DisjointSetUnionMT n) : DisjointSetUnionMT n × ConnectedComponents n :=
  let r := d.findEach id
  (r.1,⟨r.2,(List.finRange n).countP fun i => r.2 i = i⟩)

def isConnected (cc : ConnectedComponents n) (a b : Fin n) : Bool :=
  decide (cc.parentArr a = cc.parentArr b)

def size (cc : ConnectedComponents n) : ℕ := cc.numCc

end ConnectedComponents

def SpanningForest.ofForest (o : ForestOrder n) (F : Fin n → Finset (Fin n)) : SpanningForest n :=
  ⟨(List.finRange n).flatMap fun src => (o.enum (F src)).map fun dst => ⟨src,dst⟩⟩

namespace CCSketchAlg

def new (w : ℕ) (p : SketchParams) (priority : Fin n → ℕ) : CCSketchAlg n w p where
  updateLocked := false
  sketches _ := Sketch.empty p
  query := ⟨.fresh priority,fun _ => ∅⟩
  dsuValid := true
  sharedDsuValid := true
  deltaSketches _ := Sketch.empty p
  lastQueryRounds := 0

def preInsert (a : CCSketchAlg n w p) (upd : GraphUpdate n) : CCSketchAlg n w p :=
  if a.dsuValid then
    let src := min upd.edge.src upd.edge.dst
    let dst := max upd.edge.src upd.edge.dst
    let m := a.query.mergeEdge src dst
    if m.2 then { a with query := m.1 }
    else if dst ∈ m.1.spanningForest src then
      { a with query := m.1,dsuValid := false,sharedDsuValid := false }
    else { a with query := m.1 }
  else a

def updateSketch (xxh : XxHash) (a : CCSketchAlg n w p) (v : Fin n) (idx : VecT) :
    CCSketchAlg n w p :=
  { a with sketches := Function.update a.sketches v ((a.sketches v).update xxh idx) }

def applyUpdateBatch (xxh : XxHash) (a : CCSketchAlg n w p) (thrId : Fin w) (srcVertex : Fin n)
    (dstVertices : List (Fin n)) : Except UpdateLockedException (CCSketchAlg n w p) :=
  if a.updateLocked then .error ⟨⟩
  else
    let delta := dstVertices.foldl (fun s dst => s.update xxh (edgeIdx srcVertex dst))
      (a.deltaSketches thrId).zeroContents
    .ok { a with
      deltaSketches := Function.update a.deltaSketches thrId delta
      sketches := Function.update a.sketches srcVertex ((a.sketches srcVertex).merge delta) }

def applyRawBucketsUpdate (a : CCSketchAlg n w p) (srcVertex : Fin n)
    (rawBuckets : Fin p.numBuckets → Bucket) : CCSketchAlg n w p :=
  { a with
    sketches := Function.update a.sketches srcVertex
      ((a.sketches srcVertex).mergeRawBucketBuffer rawBuckets) }

def update (xxh : XxHash) (a : CCSketchAlg n w p) (upd : GraphUpdate n) : CCSketchAlg n w p :=
  let e := upd.edge
  ((a.preInsert upd).updateSketch xxh e.src (edgeIdx e.src e.dst)).updateSketch xxh e.dst
    (edgeIdx e.src e.dst)

def hasCachedQuery (a : CCSketchAlg n w p) : QueryCode → Bool
  | .connectivity => a.sharedDsuValid
  | .kSpanningForests => false

def boruvkaEmulation (E : QueryEnv n T) (a : CCSketchAlg n w p) :
    CCSketchAlg n w p × Option QueryError :=
  let r := Boruvka.boruvkaEmulation E a.sketches a.query.dsu
  let a' := { a with updateLocked := true,sketches := r.1.sketches,query := r.1.query }
  match r.2 with
  | .returned =>
    ({ a' with
      updateLocked := false
      dsuValid := true
      sharedDsuValid := true
      lastQueryRounds := r.1.roundNum },none)
  | .threw err => (a',some err)
  | .running => (a',some .outOfBounds)

def resetSampleStates (a : CCSketchAlg n w p) : CCSketchAlg n w p :=
  { a with sketches := fun v => (a.sketches v).resetSampleState }

def refresh (E : QueryEnv n T) (a : CCSketchAlg n w p) : CCSketchAlg n w p × Option QueryError :=
  let r := a.boruvkaEmulation E
  (r.1.resetSampleStates,r.2)

def components (a : CCSketchAlg n w p) : CCSketchAlg n w p × ConnectedComponents n :=
  let cc := ConnectedComponents.ofDsu a.query.dsu
  ({ a with query := { a.query with dsu := cc.1 } },cc.2)

def connectedComponents (E : QueryEnv n T) (a : CCSketchAlg n w p) :
    CCSketchAlg n w p × Except QueryError (ConnectedComponents n) :=
  let r := if a.sharedDsuValid then (a,none) else a.refresh E
  match r.2 with
  | some err => (r.1,.error err)
  | none => (r.1.components.1,.ok r.1.components.2)

def pointQuery (E : QueryEnv n T) (a : CCSketchAlg n w p) (u v : Fin n) :
    CCSketchAlg n w p × Except QueryError Bool :=
  let r := if a.dsuValid then (a,none) else a.refresh E
  match r.2 with
  | some err => (r.1,.error err)
  | none =>
    let fu := r.1.query.dsu.findRoot u
    let fv := fu.1.findRoot v
    ({ r.1 with query := { r.1.query with dsu := fv.1 } },.ok (decide (fu.2 = fv.2)))

def calcSpanningForest (E : QueryEnv n T) (o : ForestOrder n) (a : CCSketchAlg n w p) :
    CCSketchAlg n w p × Except QueryError (SpanningForest n) :=
  let r := a.connectedComponents E
  match r.2 with
  | .error err => (r.1,.error err)
  | .ok _ => (r.1,.ok (.ofForest o r.1.query.spanningForest))

def updateEdges (xxh : XxHash) (type : UpdateType) (a : CCSketchAlg n w p) (edges : List (Edge n)) :
    CCSketchAlg n w p :=
  edges.foldl (fun a e => a.update xxh ⟨e,type⟩) a

def deleteForests (Q : QueryRun n T) : ℕ → ℕ → ℕ → List (SpanningForest n) → CCSketchAlg n w p →
    CCSketchAlg n w p × Except QueryError (ℕ × List (SpanningForest n))
  | 0, _, maxRounds, SFs, a => (a,.ok (maxRounds,SFs))
  | k + 1, i, maxRounds, SFs, a =>
    let r := a.calcSpanningForest (Q.env i) (Q.order i)
    match r.2 with
    | .error err => (r.1,.error err)
    | .ok sf =>
      deleteForests Q k (i + 1) (max r.1.lastQueryRounds maxRounds) (SFs ++ [sf])
        (r.1.updateEdges Q.xxh .delete sf.edges)

def reinsertForests (xxh : XxHash) (a : CCSketchAlg n w p) (SFs : List (SpanningForest n)) :
    CCSketchAlg n w p :=
  SFs.foldl (fun a sf => a.updateEdges xxh .insert sf.edges) a

def calcDisjointSpanningForests (Q : QueryRun n T) (a : CCSketchAlg n w p) (k : ℕ) :
    CCSketchAlg n w p × Except QueryError (List (SpanningForest n)) :=
  let r := deleteForests Q k 0 0 [] a
  match r.2 with
  | .error err => (r.1,.error err)
  | .ok (maxRounds,SFs) =>
    ({ reinsertForests Q.xxh r.1 SFs with lastQueryRounds := maxRounds },.ok SFs)

end CCSketchAlg
end GraphZeppelin.CC
