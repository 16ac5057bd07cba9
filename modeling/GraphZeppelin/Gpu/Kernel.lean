import GraphZeppelin.Lib.FoldExcept
import GraphZeppelin.Lib.StridedLoop
import GraphZeppelin.Graph.Pairing

namespace GraphZeppelin.Gpu.Kernel

open FoldExcept (guarded)
open StridedLoop (signed unsigned runAll)

def ffsll (x : ColHash) : ℕ :=
  match (List.range 64).find? (x.getLsbD ·) with
  | some k => k + 1
  | none => 0

def bucketGetIndexDepth (cudaXxh : XxHash) (updateIdx : VecT) (seedAndCol : BitVec 64)
    (maxDepth : ℕ) : ℕ :=
  let first := ffsll (cudaXxh updateIdx seedAndCol ||| (1#64 <<< maxDepth))
  if first = 0 then 2 ^ 64 - 1 else first - 1

def bucketGetIndexHash (cudaXxh : XxHash) (updateIdx : VecT) (sketchSeed : BitVec 64) : VecHash :=
  (cudaXxh updateIdx sketchSeed).setWidth 32

def deviceConcatPairingFn (i j : NodeId) : VecT :=
  if i > j then (j.setWidth 64 <<< 32) ||| i.setWidth 64
  else (i.setWidth 64 <<< 32) ||| j.setWidth 64

structure Batches where
  updateSrc : ℕ → NodeId
  updateSizes : ℕ → ℕ
  updateStartIndex : ℕ → ℕ
  edgeUpdates : ℕ → NodeId

def maxBytes (p : SketchParams) (extra : ℕ) : ℕ :=
  p.numBuckets * 8 + p.numBuckets * 4 + extra

-- a launch beyond these limits is refused by the device: 1024 threads in a block, and at most
-- 227 KB of shared memory on any device
structure Launch (p : SketchParams) (extra : ℕ) where
  blockDim : ℕ
  pos : 1 ≤ blockDim
  threads : blockDim ≤ 1024
  sharedBytes : maxBytes p extra ≤ 2 ^ 20

structure Shared where
  bucketA : ℕ → VecT
  bucketC : ℕ → VecHash

inductive SharedOp where
  | zeroA (i : ℕ)
  | zeroC (i : ℕ)
  | xorA (i : ℕ) (value : VecT)
  | xorC (i : ℕ) (value : VecT)

-- &bucket_c[i]: bucket_c starts behind the num_buckets alphas
def gammaAddr (p : SketchParams) (i : ℕ) : ℕ := p.numBuckets * 8 + i * 4

-- atomicXor on bucket_c is 64 bits wide: it needs an address that is a multiple of 8
def SharedOp.Legal (p : SketchParams) (extra : ℕ) : SharedOp → Prop
  | .zeroA i | .xorA i _ => i * 8 + 8 ≤ maxBytes p extra
  | .zeroC i => gammaAddr p i + 4 ≤ maxBytes p extra
  | .xorC i _ => 8 ∣ gammaAddr p i ∧ gammaAddr p i + 8 ≤ maxBytes p extra

instance (p : SketchParams) (extra : ℕ) : DecidablePred (SharedOp.Legal p extra)
  | .zeroA _ | .xorA _ _ | .zeroC _ => inferInstanceAs (Decidable (_ ≤ _))
  | .xorC _ _ => inferInstanceAs (Decidable (_ ∧ _))

-- it covers the next 32-bit word too
def SharedOp.apply (m : Shared) : SharedOp → Shared
  | .zeroA i => { m with bucketA := Function.update m.bucketA i 0 }
  | .zeroC i => { m with bucketC := Function.update m.bucketC i 0 }
  | .xorA i value => { m with bucketA := Function.update m.bucketA i (m.bucketA i ^^^ value) }
  | .xorC i value =>
    { m with
      bucketC := Function.update (Function.update m.bucketC i (m.bucketC i ^^^ value.setWidth 32))
        (i + 1) (m.bucketC (i + 1) ^^^ (value >>> 32).setWidth 32) }

def SharedOp.exec (p : SketchParams) (extra : ℕ) : Shared → SharedOp → Option Shared :=
  guarded (SharedOp.Legal p extra) SharedOp.apply

inductive GlobalOp where
  | storeAlpha (k : ℕ) (value : VecT)
  | storeGamma (k : ℕ) (value : VecHash)
  | xorAlpha (k : ℕ) (value : VecT)
  | xorGamma (k : ℕ) (value : VecT)

-- a packed Bucket is 12 bytes, and the array holds total of them; the stores are packed ones
def GlobalOp.Legal (total : ℕ) : GlobalOp → Prop
  | .storeAlpha k _ | .storeGamma k _ => k < total
  | .xorAlpha k _ => 8 ∣ k * 12 ∧ k < total
  | .xorGamma k _ => 8 ∣ k * 12 + 8 ∧ k * 12 + 16 ≤ total * 12

instance (total : ℕ) : DecidablePred (GlobalOp.Legal total)
  | .storeAlpha _ _ | .storeGamma _ _ => inferInstanceAs (Decidable (_ < _))
  | .xorAlpha _ _ | .xorGamma _ _ => inferInstanceAs (Decidable (_ ∧ _))

-- the upper half of a 64-bit atomicXor on gamma falls on the lower half of the next bucket's alpha
def GlobalOp.apply (g : ℕ → Bucket) : GlobalOp → ℕ → Bucket
  | .storeAlpha k value => Function.update g k { g k with alpha := value }
  | .storeGamma k value => Function.update g k { g k with gamma := value }
  | .xorAlpha k value => Function.update g k { g k with alpha := (g k).alpha ^^^ value }
  | .xorGamma k value =>
    Function.update (Function.update g k { g k with gamma := (g k).gamma ^^^ value.setWidth 32 })
      (k + 1) { g (k + 1) with alpha := (g (k + 1)).alpha ^^^ (value >>> 32) }

def GlobalOp.exec (total : ℕ) : (ℕ → Bucket) → GlobalOp → Option (ℕ → Bucket) :=
  guarded (GlobalOp.Legal total) GlobalOp.apply

section Block

variable (cudaXxh : XxHash) {p : SketchParams} {extra : ℕ} (launch : Launch p extra)
  (batches : Batches)

def bucketUpdate (i : ℕ) (updateIdx : VecT) (updateHash : VecHash) : List SharedOp :=
  [.xorA i updateIdx,.xorC i (updateHash.setWidth 64)]

def updateOps (p : SketchParams) (batchId id : ℕ) : List SharedOp :=
  let columnId := id % p.numColumns
  let updateId := id / p.numColumns
  let edgeId := deviceConcatPairingFn (batches.updateSrc batchId)
    (batches.edgeUpdates (batches.updateStartIndex batchId + updateId))
  let checksum := bucketGetIndexHash cudaXxh edgeId p.seed
  let depth := bucketGetIndexDepth cudaXxh edgeId
    (p.seed + (BitVec.ofNat 32 (columnId * 5)).signExtend 64) p.bktPerCol
  let bucketId := columnId * p.bktPerCol + depth
  (if columnId = 0 then bucketUpdate (p.numBuckets - 1) edgeId checksum else []) ++
    if depth < p.bktPerCol then bucketUpdate bucketId edgeId checksum else []

def blockLoop (bound : ℕ) : Option (List ℕ) := runAll (signed 32 64) launch.blockDim bound

def clearOps : Option (List SharedOp) :=
  (blockLoop launch p.numBuckets).map fun ids => ids.flatMap fun i => [.zeroA i,.zeroC i]

def sketchOps (batchId : ℕ) : Option (List SharedOp) :=
  (blockLoop launch (batches.updateSizes batchId * p.numColumns)).map fun ids =>
    ids.flatMap (updateOps cudaXxh batches p batchId)

-- the two phases between barriers, each in any order of the threads' accesses; none where an access
-- faults
def BlockEnds (batchId : ℕ) (m : Option Shared) : Prop :=
  ∃ (before : Shared) (clears ops : List SharedOp),
    (∃ l, clearOps launch = some l ∧ clears.Perm l) ∧
    (∃ l, sketchOps cudaXxh launch batches batchId = some l ∧ ops.Perm l) ∧
    m = (clears.foldlM (SharedOp.exec p extra) before).bind fun m =>
      ops.foldlM (SharedOp.exec p extra) m

def storeOps (m : Shared) (slot : ℕ) : Option (List GlobalOp) :=
  (blockLoop launch p.numBuckets).map fun ids => ids.flatMap fun i =>
    [.storeAlpha (slot * p.numBuckets + i) (m.bucketA i),
      .storeGamma (slot * p.numBuckets + i) (m.bucketC i)]

def xorOps (m : Shared) (slot : ℕ) : Option (List GlobalOp) :=
  (blockLoop launch p.numBuckets).map fun ids => ids.flatMap fun i =>
    [.xorAlpha (slot * p.numBuckets + i) (m.bucketA i),
      .xorGamma (slot * p.numBuckets + i) ((m.bucketC i).setWidth 64)]

structure Run (writeBack : Shared → ℕ → Option (List GlobalOp)) (batchIds : List ℕ) where
  shared : ℕ → Option Shared
  ops : List GlobalOp
  ends : ∀ b ∈ batchIds, BlockEnds cudaXxh launch batches b (shared b)
  order : ∃ ls, batchIds.mapM (fun b => (shared b).elim (some []) (writeBack · b)) = some ls ∧
    ops.Perm ls.flatten

def sketchUpdateDefaultKernel (numBlocks : ℕ) : Type :=
  Run cudaXxh launch batches (storeOps launch) (List.range numBlocks)

def singleSketchUpdateDefaultKernel (numDeviceBlocks numBatches : ℕ) : Type :=
  Σ batchIds : { l : List ℕ // runAll (unsigned 64) numDeviceBlocks numBatches = some l },
    Run cudaXxh launch batches (storeOps launch) batchIds

def sketchUpdateUVMKernel (numBlocks : ℕ) : Type :=
  Run cudaXxh launch batches
    (fun m b => xorOps launch m (batches.updateSrc b).toNat) (List.range numBlocks)

end Block

-- a fault of any thread ends the launch with an error
def Run.result {cudaXxh : XxHash} {p : SketchParams} {extra : ℕ} {launch : Launch p extra}
    {batches : Batches} {writeBack : Shared → ℕ → Option (List GlobalOp)} {batchIds : List ℕ}
    (run : Run cudaXxh launch batches writeBack batchIds) (total : ℕ) (g : ℕ → Bucket) :
    Option (ℕ → Bucket) :=
  if ∀ b ∈ batchIds, (run.shared b).isSome then run.ops.foldlM (GlobalOp.exec total) g else none

def dsts (batches : Batches) (batchId : ℕ) : List NodeId :=
  (List.range (batches.updateSizes batchId)).map fun u =>
    batches.edgeUpdates (batches.updateStartIndex batchId + u)

def deltaSketch (xxh : XxHash) (p : SketchParams) (batches : Batches) (batchId : ℕ) : Sketch p :=
  (dsts batches batchId).foldl
    (fun s dst => s.update xxh (concatPairingFn (batches.updateSrc batchId) dst)) (Sketch.empty p)

end GraphZeppelin.Gpu.Kernel
