import GraphZeppelin.EdgeStore.Basic

namespace GraphZeppelin.Gpu

inductive GpuError where
  | updateLocked
  | gross
  | subgraphsIndex
  | buffersIndex
  | uninit
  | gutterOverflow
  | storeBuffers
  | running
  | store (err : StoreError)
deriving DecidableEq, Repr

structure SketchSubgraph (n : ℕ) where
  gutters : Fin n → List (Fin n)
  streams : Fin n → List (Fin n)

namespace SketchSubgraph

variable {n : ℕ}

def initialized : SketchSubgraph n := ⟨fun _ => [],fun _ => []⟩

def applyUpdateBatch (sub : SketchSubgraph n) (src : Fin n) (dstVertices : List (Fin n)) :
    SketchSubgraph n :=
  { sub with streams := Function.update sub.streams src (sub.streams src ++ dstVertices) }

def setGutter (sub : SketchSubgraph n) (src : Fin n) (data : List (Fin n)) : SketchSubgraph n :=
  { sub with gutters := Function.update sub.gutters src data }

def batchInsert (batchSize : ℕ) (sub : SketchSubgraph n) (src : Fin n) (dsts : List (Fin n)) :
    Except GpuError (SketchSubgraph n) :=
  let capacity := batchSize - (sub.gutters src).length
  let data := sub.gutters src ++ dsts.take capacity
  if capacity ≤ dsts.length then
    if batchSize < dsts.length - capacity then .error .gutterOverflow
    else .ok ((sub.applyUpdateBatch src data).setGutter src (dsts.drop capacity))
  else .ok (sub.setGutter src data)

def flushGutter (sub : SketchSubgraph n) (v : Fin n) : SketchSubgraph n :=
  if sub.gutters v = [] then sub
  else (sub.applyUpdateBatch v (sub.gutters v)).setGutter v []

def flush (sub : SketchSubgraph n) : SketchSubgraph n := (List.finRange n).foldl flushGutter sub

end SketchSubgraph

structure MCGPUParams where
  xxh : XxHash
  seed : BitVec 64
  numSubgraphs : ℕ
  maxSketchGraphs : ℕ
  batchSize : ℕ

structure MCGPUSketchAlg (n : ℕ) where
  updateLocked : Bool
  edgeStore : EdgeStore n
  subgraphs : ℕ → SketchSubgraph n
  curSubgraphs : ℕ
  numSketchGraphs : ℕ

namespace MCGPUSketchAlg

variable {n : ℕ}

def new (n maxEdges initialSketchGraphs needsContraction : ℕ) : MCGPUSketchAlg n where
  updateLocked := false
  edgeStore := .new n maxEdges initialSketchGraphs needsContraction
  subgraphs _ := .initialized
  curSubgraphs := initialSketchGraphs
  numSketchGraphs := initialSketchGraphs

def setSubgraph (a : MCGPUSketchAlg n) (g : ℕ) (sub : SketchSubgraph n) : MCGPUSketchAlg n :=
  { a with subgraphs := Function.update a.subgraphs g sub }

def createSketchGraph (p : MCGPUParams) (a : MCGPUSketchAlg n) (graphId : ℕ) : MCGPUSketchAlg n :=
  if p.maxSketchGraphs ≤ graphId ∨ graphId ≠ a.numSketchGraphs then a
  else { a with numSketchGraphs := a.numSketchGraphs + 1 }

def allocate (p : MCGPUParams) (a : MCGPUSketchAlg n) : Except GpuError (MCGPUSketchAlg n) :=
  if a.curSubgraphs < p.maxSketchGraphs then
    .ok { (a.setSubgraph a.curSubgraphs .initialized).createSketchGraph p a.curSubgraphs with
      curSubgraphs := a.curSubgraphs + 1 }
  else .error .subgraphsIndex

def batchInsert (p : MCGPUParams) (a : MCGPUSketchAlg n) (graphId : ℕ) (src : Fin n)
    (dsts : List (Fin n)) : Except GpuError (MCGPUSketchAlg n) :=
  if p.maxSketchGraphs ≤ graphId then .error .subgraphsIndex
  else if graphId < a.curSubgraphs ∧ graphId < a.numSketchGraphs then do
    let sub ← (a.subgraphs graphId).batchInsert p.batchSize src dsts
    return a.setSubgraph graphId sub
  else .error .uninit

structure Buffered (n : ℕ) where
  alg : MCGPUSketchAlg n
  buffers : ℕ → List (Fin n)

def placeDst (p : MCGPUParams) (src dst : Fin n) (st : Buffered n) (graphId : ℕ) :
    Except GpuError (Buffered n) :=
  let buffer := st.buffers graphId ++ [dst]
  if 16 ≤ buffer.length then do
    let a ← st.alg.batchInsert p graphId src buffer
    return ⟨a,Function.update st.buffers graphId []⟩
  else .ok ⟨st.alg,Function.update st.buffers graphId buffer⟩

def placeUpdate (p : MCGPUParams) (updates : TaggedUpdateBatch n) (st : Buffered n)
    (dstData : SubgraphTaggedUpdate n) : Except GpuError (Buffered n) :=
  let updateSubgraphs := min dstData.subgraph (updates.firstEsSubgraph - 1)
  (List.range' updates.minSubgraph (updateSubgraphs + 1 - updates.minSubgraph)).foldlM
    (placeDst p updates.src dstData.dst) st

def flushBuffer (p : MCGPUParams) (src : Fin n) (st : Buffered n) (i : ℕ) :
    Except GpuError (Buffered n) :=
  if st.buffers i = [] then .ok st
  else do
    let a ← st.alg.batchInsert p i src (st.buffers i)
    return { st with alg := a }

def allocated (p : MCGPUParams) (a : MCGPUSketchAlg n) (firstEsSubgraph : ℕ) :
    Except GpuError (MCGPUSketchAlg n) :=
  if a.curSubgraphs < firstEsSubgraph then a.allocate p else .ok a

def completeUpdateBatch (p : MCGPUParams) (a : MCGPUSketchAlg n) (updates : TaggedUpdateBatch n) :
    Except GpuError (MCGPUSketchAlg n) :=
  if updates.firstEsSubgraph = 0 then .error .gross
  else do
    let a ← a.allocated p updates.firstEsSubgraph
    if 16 < updates.firstEsSubgraph then .error .buffersIndex
    else
      let st ← updates.dstsData.foldlM (placeUpdate p updates) ⟨a,fun _ => []⟩
      let st ← (List.range updates.firstEsSubgraph).foldlM (flushBuffer p updates.src) st
      return st.alg

def completeNonempty (p : MCGPUParams) (a : MCGPUSketchAlg n) (updates : TaggedUpdateBatch n) :
    Except GpuError (MCGPUSketchAlg n) :=
  if updates.dstsData = [] then .ok a else a.completeUpdateBatch p updates

def applyUpdateBatch [NeZero n] (p : MCGPUParams) (a : MCGPUSketchAlg n) (srcVertex : Fin n)
    (dstVertices : List (Fin n)) : Except GpuError (MCGPUSketchAlg n) :=
  if a.updateLocked then .error .updateLocked
  else
    let firstEsSubgraph := a.edgeStore.curSubgraph
    if firstEsSubgraph = 0 then
      match a.edgeStore.insertAdjVertices p.xxh p.seed p.numSubgraphs srcVertex dstVertices with
      | .error err => .error (.store err)
      | .ok (store,moreUpds) => { a with edgeStore := store }.completeNonempty p moreUpds
    else if p.batchSize < dstVertices.length then .error .storeBuffers
    else
      let sketchEdges := EdgeStore.tagUpdates p.xxh p.seed (p.numSubgraphs - 1) srcVertex dstVertices
      let storeEdges := sketchEdges.filter fun e => firstEsSubgraph ≤ e.subgraph
      match a.edgeStore.insertAdjEdges srcVertex firstEsSubgraph storeEdges with
      | .error err => .error (.store err)
      | .ok (store,moreUpds) => do
        let a ← { a with edgeStore := store }.completeNonempty p
          ⟨srcVertex,0,firstEsSubgraph,sketchEdges⟩
        a.completeNonempty p moreUpds

def flushTask [NeZero n] (p : MCGPUParams) : ℕ → MCGPUSketchAlg n →
    Except GpuError (MCGPUSketchAlg n)
  | 0, _ => .error .running
  | fuel + 1, a =>
    if a.edgeStore.contractInProgress then
      match a.edgeStore.vertexAdvanceSubgraph a.edgeStore.curSubgraph with
      | .error err => .error (.store err)
      | .ok (store,moreUpds) => do
        let a ← { a with edgeStore := store }.completeNonempty p moreUpds
        flushTask p fuel a
    else .ok a

def flushSubgraph (a : MCGPUSketchAlg n) (graphId : ℕ) : MCGPUSketchAlg n :=
  a.setSubgraph graphId (a.subgraphs graphId).flush

def applyFlushUpdates [NeZero n] (p : MCGPUParams) (a : MCGPUSketchAlg n) :
    Except GpuError (MCGPUSketchAlg n) := do
  let a ← a.flushTask p (n + 2)
  return (List.range a.curSubgraphs).foldl flushSubgraph a

def applyUpdateBatches [NeZero n] (p : MCGPUParams) (a : MCGPUSketchAlg n)
    (batches : List (Fin n × List (Fin n))) : Except GpuError (MCGPUSketchAlg n) :=
  batches.foldlM (fun a b => a.applyUpdateBatch p b.1 b.2) a

def handed (a : MCGPUSketchAlg n) (g : ℕ) (v u : Fin n) : ℕ := ((a.subgraphs g).streams v).count u

def submissions (batches : List (Fin n × List (Fin n))) (v u : Fin n) : ℕ :=
  (batches.map fun b => if b.1 = v then b.2.count u else 0).sum

end MCGPUSketchAlg
end GraphZeppelin.Gpu
