import GraphZeppelin.Sketch.Bucket

namespace GraphZeppelin

structure SketchParams where
  seed : BitVec 64
  numSamples : ℕ
  colsPerSample : ℕ
  bktPerCol : ℕ
deriving DecidableEq, Repr

namespace SketchParams

variable (p : SketchParams)

abbrev numColumns : ℕ := p.numSamples * p.colsPerSample
abbrev numBuckets : ℕ := p.numColumns * p.bktPerCol + 1

def columnSeed (columnIdx : ℕ) : BitVec 64 := p.seed + BitVec.ofNat 64 (columnIdx * 5)
def checksumSeed : BitVec 64 := p.seed

def detBucket : Fin p.numBuckets := Fin.last _

def bucketId (i : Fin p.numColumns) (j : Fin p.bktPerCol) : Fin p.numBuckets :=
  ⟨i * p.bktPerCol + j,by
    have hi : (i + 1) * p.bktPerCol ≤ p.numColumns * p.bktPerCol :=
      Nat.mul_le_mul_right _ i.isLt
    rw [Nat.add_mul] at hi
    change _ < p.numColumns * p.bktPerCol + 1
    omega⟩

def windowColumn (r : ℕ) (hr : r < p.numSamples) (i : Fin p.colsPerSample) : Fin p.numColumns :=
  ⟨i + r * p.colsPerSample,by
    have hi : (r + 1) * p.colsPerSample ≤ p.numSamples * p.colsPerSample :=
      Nat.mul_le_mul_right _ hr
    rw [Nat.add_mul] at hi
    change _ < p.numSamples * p.colsPerSample
    omega⟩

end SketchParams

inductive SampleResult where
  | good
  | zero
  | fail
deriving DecidableEq, Repr

structure SketchSample where
  idx : VecT
  result : SampleResult
deriving DecidableEq, Repr

structure ExhaustiveSketchSample where
  idxs : Finset VecT
  result : SampleResult
deriving DecidableEq

structure OutOfSamplesException where
  seed : BitVec 64
  numSamples : ℕ
  sampleIdx : ℕ
deriving DecidableEq, Repr

structure Sketch (p : SketchParams) where
  sampleIdx : ℕ
  buckets : Fin p.numBuckets → Bucket

namespace Sketch

variable {p : SketchParams}

def empty (p : SketchParams) : Sketch p := ⟨0,fun _ => 0⟩

def resetSampleState (s : Sketch p) : Sketch p := { s with sampleIdx := 0 }

def zeroContents (s : Sketch p) : Sketch p :=
  resetSampleState { s with buckets := fun _ => 0 }

def updateBucket (s : Sketch p) (b : Fin p.numBuckets) (updateIdx : VecT) (updateHash : VecHash) :
    Sketch p :=
  { s with buckets := Function.update s.buckets b ((s.buckets b).update updateIdx updateHash) }

def updateColumn (xxh : XxHash) (updateIdx : VecT) (checksum : VecHash) (s : Sketch p)
    (i : Fin p.numColumns) : Sketch p :=
  let depth := Bucket.getIndexDepth xxh updateIdx (p.columnSeed i) p.bktPerCol
  if h : depth < p.bktPerCol then s.updateBucket (p.bucketId i ⟨depth,h⟩) updateIdx checksum
  else s

def update (xxh : XxHash) (s : Sketch p) (updateIdx : VecT) : Sketch p :=
  let checksum := Bucket.getIndexHash xxh updateIdx p.checksumSeed
  (List.finRange p.numColumns).foldl (updateColumn xxh updateIdx checksum)
    (s.updateBucket p.detBucket updateIdx checksum)

def window (p : SketchParams) (r : ℕ) (hr : r < p.numSamples) : List (Fin p.numBuckets) :=
  (List.finRange p.colsPerSample).flatMap fun i =>
    (List.finRange p.bktPerCol).map (p.bucketId (p.windowColumn r hr i))

def sample (xxh : XxHash) (s : Sketch p) :
    Except OutOfSamplesException (Sketch p × SketchSample) :=
  if h : p.numSamples ≤ s.sampleIdx then .error ⟨p.seed,p.numSamples,s.sampleIdx⟩
  else
    let s' : Sketch p := { s with sampleIdx := s.sampleIdx + 1 }
    let det := s.buckets p.detBucket
    if det.alpha = 0 ∧ det.gamma = 0 then .ok (s',⟨0,.zero⟩)
    else if det.isGood xxh p.checksumSeed then .ok (s',⟨det.alpha,.good⟩)
    else match (window p s.sampleIdx (Nat.lt_of_not_le h)).find?
        fun b => (s.buckets b).isGood xxh p.checksumSeed with
      | some b => .ok (s',⟨(s.buckets b).alpha,.good⟩)
      | none => .ok (s',⟨0,.fail⟩)

def insertGood (xxh : XxHash) (s : Sketch p) (ret : Finset VecT) (b : Fin p.numBuckets) :
    Finset VecT :=
  if (s.buckets b).isGood xxh p.checksumSeed then insert (s.buckets b).alpha ret else ret

def exhaustiveSample (xxh : XxHash) (s : Sketch p) :
    Except OutOfSamplesException (Sketch p × ExhaustiveSketchSample) :=
  if h : p.numSamples ≤ s.sampleIdx then .error ⟨p.seed,p.numSamples,s.sampleIdx⟩
  else
    let s' : Sketch p := { s with sampleIdx := s.sampleIdx + 1 }
    let det := s.buckets p.detBucket
    if det.alpha = 0 ∧ det.gamma = 0 then .ok (s',⟨∅,.zero⟩)
    else if det.isGood xxh p.checksumSeed then .ok (s',⟨{det.alpha},.good⟩)
    else
      let ret := (window p s.sampleIdx (Nat.lt_of_not_le h)).foldl (s.insertGood xxh) ∅
      if ret.card = 0 then .ok (s',⟨ret,.fail⟩) else .ok (s',⟨ret,.good⟩)

def mergeRawBucketBuffer (s : Sketch p) (rawBuckets : Fin p.numBuckets → Bucket) : Sketch p :=
  { s with buckets := fun b =>
      ⟨(s.buckets b).alpha ^^^ (rawBuckets b).alpha,(s.buckets b).gamma ^^^ (rawBuckets b).gamma⟩ }

def merge (s other : Sketch p) : Sketch p := s.mergeRawBucketBuffer other.buckets

def equal {q : SketchParams} (s : Sketch p) (t : Sketch q) : Bool :=
  if h : p.numBuckets = q.numBuckets ∧ p.seed = q.seed then
    (List.finRange p.numBuckets).all fun b =>
      (s.buckets b).alpha == (t.buckets (b.cast h.1)).alpha &&
        (s.buckets b).gamma == (t.buckets (b.cast h.1)).gamma
  else false

def InRange (p : SketchParams) (startSample nSamples : ℕ) (b : Fin p.numBuckets) : Prop :=
  startSample * p.colsPerSample * p.bktPerCol ≤ b ∧
    b < startSample * p.colsPerSample * p.bktPerCol + nSamples * p.colsPerSample * p.bktPerCol

instance (p : SketchParams) (startSample nSamples : ℕ) (b : Fin p.numBuckets) :
    Decidable (InRange p startSample nSamples b) := inferInstanceAs (Decidable (_ ∧ _))

def rangeMerge (s other : Sketch p) (startSample nSamples : ℕ) : Sketch p :=
  if p.numSamples < startSample + nSamples then { s with sampleIdx := p.numSamples }
  else
    { sampleIdx := max s.sampleIdx startSample
      buckets := fun b =>
        if b = p.detBucket ∨ InRange p startSample nSamples b then
          ⟨(s.buckets b).alpha ^^^ (other.buckets b).alpha,
            (s.buckets b).gamma ^^^ (other.buckets b).gamma⟩
        else s.buckets b }

end Sketch
end GraphZeppelin
