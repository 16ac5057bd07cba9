import GraphZeppelin.CC.EagerDsu
import GraphZeppelin.CC.Ingestion

namespace GraphZeppelin.Driver
open Boruvka Sketch CC

variable {n w T : ℕ} {p : SketchParams}

structure GraphSketchDriver (n w : ℕ) (p : SketchParams) where
  sketchingAlg : CCSketchAlg n w p
  pending : List (Fin n × Fin n)
  gts : List (Fin n × Fin n)

structure SerializedData (n : ℕ) (p : SketchParams) where
  buckets : Fin n → Fin p.numBuckets → Bucket

def writeBinary (a : CCSketchAlg n w p) : SerializedData n p := ⟨fun v => (a.sketches v).buckets⟩

def constructFromSerializedData (w : ℕ) (priority : Fin n → ℕ) (file : SerializedData n p) :
    CCSketchAlg n w p :=
  { CCSketchAlg.new w p priority with
    sketches := fun v => ⟨0,file.buckets v⟩
    dsuValid := false
    sharedDsuValid := false }

namespace GraphSketchDriver

def new (alg : CCSketchAlg n w p) : GraphSketchDriver n w p := ⟨alg,[],[]⟩

def preInsert (d : GraphSketchDriver n w p) (upd : GraphUpdate n) : GraphSketchDriver n w p :=
  { d with
    sketchingAlg := d.sketchingAlg.preInsert upd
    pending := d.pending ++ halfUpdates upd }

inductive Deliver (xxh : XxHash) (d : GraphSketchDriver n w p) : GraphSketchDriver n w p → Prop
  | batchCallback (b : Batch n w) (rest : List (Fin n × Fin n)) (alg : CCSketchAlg n w p) :
      d.gts.Perm (b.halves ++ rest) →
      d.sketchingAlg.applyUpdateBatch xxh b.thrId b.srcVertex b.dstVertices = .ok alg →
      Deliver xxh d { d with sketchingAlg := alg,gts := rest }

def Delivers (xxh : XxHash) : GraphSketchDriver n w p → GraphSketchDriver n w p → Prop :=
  Relation.ReflTransGen (Deliver xxh)

-- flush_workers may come back while batches are still queued
def PrepQuery (xxh : XxHash) (code : QueryCode) (d d' : GraphSketchDriver n w p) : Prop :=
  if d.sketchingAlg.hasCachedQuery code then d' = d else Delivers xxh d d'

def ProcessedUntil (d : GraphSketchDriver n w p) : Prop := d.pending = []

-- what is still buffered cancels out
def Drained (d : GraphSketchDriver n w p) : Prop := ∀ v u, Even (d.gts.count (v,u))

def Settled (d : GraphSketchDriver n w p) (E : QueryEnv n T) : Prop :=
  d.sketchingAlg.sharedDsuValid = true ∨ d.Drained ∧ Boruvka.Consistent E.fl n T

-- settled says that every query so far was
inductive Reach (xxh : XxHash) : Prop → List (Edge n) → GraphSketchDriver n w p → Prop
  | new (priority : Fin n → ℕ) : Reach xxh True [] (new (CCSketchAlg.new w p priority))
  | preInsert {settled : Prop} {es : List (Edge n)} {d : GraphSketchDriver n w p}
      (upd : GraphUpdate n) :
      Reach xxh settled es d → Reach xxh settled (es ++ [upd.edge]) (d.preInsert upd)
  | insert {settled : Prop} {es : List (Edge n)} {d : GraphSketchDriver n w p} (h : Fin n × Fin n)
      (rest : List (Fin n × Fin n)) : Reach xxh settled es d → d.pending.Perm (h :: rest) →
      Reach xxh settled es { d with pending := rest,gts := h :: d.gts }
  | deliver {settled : Prop} {es : List (Edge n)} {d d' : GraphSketchDriver n w p} :
      Reach xxh settled es d → Deliver xxh d d' → Reach xxh settled es d'
  | query {T : ℕ} {settled : Prop} {es : List (Edge n)} {d d' : GraphSketchDriver n w p}
      (E : QueryEnv n T) (cc : ConnectedComponents n) : Reach xxh settled es d →
      d.ProcessedUntil → E.xxh = xxh →
      (∀ A, CollisionFree xxh p (cutEdges (currentGraph es) A)) →
      PrepQuery xxh .connectivity d d' → (d'.sketchingAlg.connectedComponents E).2 = .ok cc →
      Reach xxh (settled ∧ d'.Settled E) es
        { d' with sketchingAlg := (d'.sketchingAlg.connectedComponents E).1 }

end GraphSketchDriver
end GraphZeppelin.Driver
