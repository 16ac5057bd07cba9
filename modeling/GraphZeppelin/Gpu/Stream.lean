import GraphZeppelin.Lib.AsyncStream
import GraphZeppelin.Sketch.Bucket

namespace GraphZeppelin.Gpu

structure StreamBatch where
  src : NodeId
  dsts : List NodeId
deriving DecidableEq, Repr

structure StreamParams where
  numBatchPerBuffer : ℕ
  batchSize : ℕ
  graphId : ℕ
  numNodes : NodeId
  cudaUVMEnabled : Bool
  -- the constructor clears h_edgeUpdates with an int
  fits : 2 * numBatchPerBuffer * batchSize < 2 ^ 31

namespace CudaStream

structure Control where
  bufferId : Bool
  batchOffset : ℕ
  batchCount : ℕ
  firstBuffer : Bool
deriving DecidableEq, Repr

def Control.created : Control := ⟨false,0,0,true⟩

structure Mem (D : Type*) where
  hEdgeUpdates : ℕ → NodeId
  hUpdateSizes : ℕ → ℕ
  hUpdateSrc : ℕ → NodeId
  hUpdateStartIndex : ℕ → ℕ
  dEdgeUpdates : ℕ → NodeId
  dUpdateSizes : ℕ → ℕ
  dUpdateSrc : ℕ → NodeId
  dUpdateStartIndex : ℕ → ℕ
  dBuckets : ℕ → D
  hBuckets : ℕ → D
  applied : List (NodeId × D)
  launched : List StreamBatch

inductive HostAct where
  | writeEdge (i : ℕ) (dst : NodeId)
  | writeSize (i : ℕ) (size : ℕ)
  | writeSrc (i : ℕ) (src : NodeId)
  | writeStart (i : ℕ) (start : ℕ)
  | applyRawBuckets (srcId : ℕ) (slot : ℕ)

inductive Op where
  | copyEdges (start len : ℕ)
  | copySizes (start len : ℕ)
  | copySrc (start len : ℕ)
  | copyStarts (start len : ℕ)
  | sketchUpdate (numBlocks : ℕ)
  | copyBuckets (len : ℕ)

inductive Call where
  | processBatch (b : StreamBatch)
  | flushBuffers

abbrev Act := AsyncStream.Act HostAct Op

variable {D : Type*} (p : StreamParams) (delta : StreamBatch → D)

def sketchIndex (src : NodeId) : NodeId := BitVec.ofNat 32 p.graphId * p.numNodes + src

def startIndex (bufferId : Bool) : ℕ := bufferId.toNat * p.numBatchPerBuffer * p.batchSize

theorem startIndex_lt (bufferId : Bool) : startIndex p bufferId < 2 ^ 30 := by
  have hfits := p.fits
  have hle : startIndex p bufferId ≤ p.numBatchPerBuffer * p.batchSize :=
    Nat.mul_le_mul_right _ ((Nat.mul_le_mul_right _ bufferId.toNat_le).trans_eq (Nat.one_mul _))
  rw [Nat.mul_assoc] at hfits
  omega

-- flush_buffers holds the start index in an int
theorem startIndex_signExtend (bufferId : Bool) :
    ((BitVec.ofNat 32 (startIndex p bufferId)).signExtend 64).toNat = startIndex p bufferId := by
  have hlt := startIndex_lt p bufferId
  rw [signExtend_ofNat (by omega),BitVec.toNat_ofNat]
  omega

def startBatchId (bufferId : Bool) : ℕ := bufferId.toNat * p.numBatchPerBuffer

def copied {α : Type*} (dst src : ℕ → α) (start len : ℕ) : ℕ → α :=
  fun k => if k < len then src (start + k) else dst k

def readBatch (edges : ℕ → NodeId) (sizes : ℕ → ℕ) (srcs : ℕ → NodeId) (starts : ℕ → ℕ) (b : ℕ) :
    StreamBatch :=
  ⟨srcs b,(List.range (sizes b)).map fun k => edges (starts b + k)⟩

def deviceBatch (m : Mem D) (b : ℕ) : StreamBatch :=
  readBatch m.dEdgeUpdates m.dUpdateSizes m.dUpdateSrc m.dUpdateStartIndex b

def perform : HostAct → Mem D → Mem D
  | .writeEdge i dst, m => {m with hEdgeUpdates := Function.update m.hEdgeUpdates i dst}
  | .writeSize i size, m => {m with hUpdateSizes := Function.update m.hUpdateSizes i size}
  | .writeSrc i src, m => {m with hUpdateSrc := Function.update m.hUpdateSrc i src}
  | .writeStart i start, m =>
    {m with hUpdateStartIndex := Function.update m.hUpdateStartIndex i start}
  | .applyRawBuckets srcId slot, m =>
    {m with applied := m.applied ++ [(sketchIndex p (m.hUpdateSrc srcId),m.hBuckets slot)]}

def sketchUpdateUVM (numBlocks : ℕ) (m : Mem D) : Mem D :=
  {m with
    applied := m.applied ++ (List.range numBlocks).map fun b =>
      ((deviceBatch m b).src,delta (deviceBatch m b))
    launched := m.launched ++ (List.range numBlocks).map (deviceBatch m)}

def sketchUpdateDefault (numBlocks : ℕ) (m : Mem D) : Mem D :=
  {m with
    dBuckets := fun b => if b < numBlocks then delta (deviceBatch m b) else m.dBuckets b
    launched := m.launched ++ (List.range numBlocks).map (deviceBatch m)}

def exec : Op → Mem D → Mem D
  | .copyEdges start len, m =>
    {m with dEdgeUpdates := copied m.dEdgeUpdates m.hEdgeUpdates start len}
  | .copySizes start len, m =>
    {m with dUpdateSizes := copied m.dUpdateSizes m.hUpdateSizes start len}
  | .copySrc start len, m => {m with dUpdateSrc := copied m.dUpdateSrc m.hUpdateSrc start len}
  | .copyStarts start len, m =>
    {m with dUpdateStartIndex := copied m.dUpdateStartIndex m.hUpdateStartIndex start len}
  | .sketchUpdate numBlocks, m =>
    if p.cudaUVMEnabled then sketchUpdateUVM delta numBlocks m
    else sketchUpdateDefault delta numBlocks m
  | .copyBuckets len, m => {m with hBuckets := copied m.hBuckets m.dBuckets 0 len}

def edgeFill : ℕ → List NodeId → List HostAct
  | _, [] => []
  | i, dst :: dsts => .writeEdge i dst :: edgeFill (i + 1) dsts

def fillBatch (c : Control) (b : StreamBatch) : List HostAct :=
  edgeFill c.batchOffset b.dsts ++
    [.writeSize (startBatchId p c.bufferId + c.batchCount) b.dsts.length,
      .writeSrc (startBatchId p c.bufferId + c.batchCount) b.src,
      .writeStart (startBatchId p c.bufferId + c.batchCount)
        (c.batchOffset - startIndex p c.bufferId)]

def counted (c : Control) (b : StreamBatch) : Control :=
  {c with batchOffset := c.batchOffset + b.dsts.length, batchCount := c.batchCount + 1}

def transferAndLaunch (c : Control) : List Op :=
  [.copyEdges (startIndex p c.bufferId) (c.batchOffset - startIndex p c.bufferId),
    .copySizes (startBatchId p c.bufferId) c.batchCount,
    .copySrc (startBatchId p c.bufferId) c.batchCount,
    .copyStarts (startBatchId p c.bufferId) c.batchCount,
    .sketchUpdate c.batchCount]

def applyDeltas (batchId count : ℕ) : List HostAct :=
  (List.range count).map fun b => .applyRawBuckets (batchId + b) b

def previousDeltas (c : Control) : List HostAct :=
  if c.firstBuffer then [] else applyDeltas (startBatchId p (!c.bufferId)) p.numBatchPerBuffer

def processBatchUVM (c : Control) (b : StreamBatch) : List Act × Control :=
  let writes := (fillBatch p c b).map AsyncStream.Act.host
  let c' := counted c b
  if c'.batchCount = p.numBatchPerBuffer then
    (writes ++ .sync :: (transferAndLaunch p c').map AsyncStream.Act.enqueue,
      {c' with batchCount := 0, bufferId := !c.bufferId, batchOffset := startIndex p (!c.bufferId)})
  else (writes,c')

def processBatchDefault (c : Control) (b : StreamBatch) : List Act × Control :=
  let writes := (fillBatch p c b).map AsyncStream.Act.host
  let c' := counted c b
  if c'.batchCount = p.numBatchPerBuffer then
    (writes ++ .sync :: ((previousDeltas p c).map AsyncStream.Act.host ++
        (transferAndLaunch p c' ++ [Op.copyBuckets p.numBatchPerBuffer]).map AsyncStream.Act.enqueue),
      ⟨!c.bufferId,startIndex p (!c.bufferId),0,false⟩)
  else (writes,c')

def processBatch (c : Control) (b : StreamBatch) : List Act × Control :=
  if p.cudaUVMEnabled then processBatchUVM p c b else processBatchDefault p c b

def flushBuffersUVM (c : Control) : List Act :=
  if c.batchCount = 0 then [] else (transferAndLaunch p c).map .enqueue

def flushBuffersDefault (c : Control) : List Act :=
  .sync :: ((applyDeltas (startBatchId p (!c.bufferId)) p.numBatchPerBuffer).map .host ++
    if c.batchCount = 0 then []
    else (transferAndLaunch p c ++ [Op.copyBuckets c.batchCount]).map .enqueue ++
      .sync :: (applyDeltas (startBatchId p c.bufferId) c.batchCount).map .host)

def flushBuffers (c : Control) : List Act :=
  if p.cudaUVMEnabled then flushBuffersUVM p c else flushBuffersDefault p c

def issue (c : Control) : Call → List Act × Control
  | .processBatch b => processBatch p c b
  | .flushBuffers => (flushBuffers p c,c)

def controlAfter (c : Control) (calls : List Call) : Control :=
  calls.foldl (fun c call => (issue p c call).2) c

def program : Control → List Call → List Act
  | _, [] => []
  | c, call :: calls => (issue p c call).1 ++ program (issue p c call).2 calls

def Mem.sketch [AddCommMonoid D] (m : Mem D) (idx : NodeId) : D :=
  ((m.applied.filter (·.1 = idx)).map (·.2)).sum

variable {p}

theorem processBatchUVM_room {c : Control} {b : StreamBatch}
    (h : (counted c b).batchCount ≠ p.numBatchPerBuffer) :
    processBatchUVM p c b = ((fillBatch p c b).map .host,counted c b) := if_neg h

theorem processBatchUVM_full {c : Control} {b : StreamBatch}
    (h : (counted c b).batchCount = p.numBatchPerBuffer) :
    processBatchUVM p c b = ((fillBatch p c b).map .host ++
        .sync :: (transferAndLaunch p (counted c b)).map .enqueue,
      ⟨!c.bufferId,startIndex p (!c.bufferId),0,c.firstBuffer⟩) := if_pos h

theorem processBatchDefault_room {c : Control} {b : StreamBatch}
    (h : (counted c b).batchCount ≠ p.numBatchPerBuffer) :
    processBatchDefault p c b = ((fillBatch p c b).map .host,counted c b) := if_neg h

theorem processBatchDefault_full {c : Control} {b : StreamBatch}
    (h : (counted c b).batchCount = p.numBatchPerBuffer) :
    processBatchDefault p c b = ((fillBatch p c b).map .host ++ .sync ::
        ((previousDeltas p c).map .host ++
          (transferAndLaunch p (counted c b) ++ [Op.copyBuckets p.numBatchPerBuffer]).map .enqueue),
      ⟨!c.bufferId,startIndex p (!c.bufferId),0,false⟩) := if_pos h

variable (p)

structure Mem.Created (m : Mem D) : Prop where
  edges : m.hEdgeUpdates = fun _ => 0
  sizes : m.hUpdateSizes = fun _ => 0
  srcs : m.hUpdateSrc = fun _ => 0
  starts : m.hUpdateStartIndex = fun _ => 0
  applied : m.applied = []
  launched : m.launched = []

abbrev started (m : Mem D) (calls : List Call) : AsyncStream.Sys (Mem D) HostAct Op :=
  AsyncStream.start m (program p Control.created calls)

abbrev step : AsyncStream.Sys (Mem D) HostAct Op → AsyncStream.Side →
    Option (AsyncStream.Sys (Mem D) HostAct Op) :=
  AsyncStream.step (perform p) (exec p delta)

abbrev eager (m : Mem D) (acts : List Act) : Mem D := AsyncStream.eager (perform p) (exec p delta) m acts

end CudaStream

end GraphZeppelin.Gpu
