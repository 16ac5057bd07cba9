import GraphZeppelin.Lib.ByteCodec
import GraphZeppelin.CC.Alg
import GraphZeppelin.Sketch.Program

namespace GraphZeppelin

open ByteCodec

namespace Bucket

def toBytes (b : Bucket) : List Byte := writeWord 8 b.alpha ++ writeWord 4 b.gamma

def ofBytes (bs : List Byte) : Bucket := ⟨readWord 64 (bs.take 8),readWord 32 ((bs.drop 8).take 4)⟩

theorem length_toBytes (b : Bucket) : b.toBytes.length = 12 := by
  rw [toBytes,List.length_append,length_writeWord,length_writeWord]

theorem ofBytes_toBytes (b : Bucket) : ofBytes b.toBytes = b := by
  have hlow : b.toBytes.take 8 = writeWord 8 b.alpha := List.take_left' (length_writeWord 8 _)
  have hhigh : (b.toBytes.drop 8).take 4 = writeWord 4 b.gamma := by
    rw [toBytes,List.drop_left' (length_writeWord 8 _),
      List.take_of_length_le (le_of_eq (length_writeWord 4 _))]
  rw [ofBytes,hlow,hhigh,readWord_writeWord (by decide),readWord_writeWord (by decide)]

end Bucket

namespace Sketch

variable {p : SketchParams}

def bucketArrayBytes (p : SketchParams) : ℕ := p.numBuckets * 12

def serialize (s : Sketch p) : List Byte :=
  (List.finRange p.numBuckets).flatMap fun i => (s.buckets i).toBytes

def ofStream (p : SketchParams) (binaryIn : List Byte) : Option (Sketch p × List Byte) :=
  match read (bucketArrayBytes p) binaryIn with
  | none => none
  | some (bs,rest) =>
    some (⟨0,fun i => Bucket.ofBytes ((bs.drop (12 * (i : ℕ))).take 12)⟩,rest)

theorem length_serialize (s : Sketch p) : s.serialize.length = bucketArrayBytes p := by
  rw [serialize,List.length_flatMap]
  simp only [Bucket.length_toBytes,List.map_const',List.length_finRange,List.sum_replicate]
  rfl

theorem ofStream_serialize (s : Sketch p) (rest : List Byte) :
    ofStream p (s.serialize ++ rest) = some (s.resetSampleState,rest) := by
  have hchunk (i : Fin p.numBuckets) :
      (s.serialize.drop (12 * (i : ℕ))).take 12 = (s.buckets i).toBytes := by
    have hget := chunk_flatMap (fun j => Bucket.length_toBytes (s.buckets j))
      (List.finRange p.numBuckets)
      (show (i : ℕ) < (List.finRange p.numBuckets).length by rw [List.length_finRange]; exact i.isLt)
    rw [serialize,hget,List.get_finRange]
    rfl
  rw [ofStream,read_append (length_serialize s)]
  simp only [hchunk,Bucket.ofBytes_toBytes]
  rfl

end Sketch

namespace CC

-- calc_cc_samples and calc_bkt_per_col (calc_vector_length) in floating point
structure SizeFormulas where
  calcCcSamples : NodeId → BitVec 64 → ℕ
  calcBktPerCol : NodeId → ℕ

def SizeFormulas.params (sizes : SizeFormulas) (numVertices : NodeId) (seed factor : BitVec 64) :
    SketchParams :=
  ⟨seed,sizes.calcCcSamples numVertices factor,1,sizes.calcBktPerCol numVertices⟩

-- comparisons of a double with zero, on its bits
def isNaN (x : BitVec 64) : Bool :=
  (x >>> 52) &&& 0x7FF#64 == 0x7FF#64 && (x &&& 0xFFFFFFFFFFFFF#64) != 0#64

def nonPositive (x : BitVec 64) : Bool := !isNaN x && (x.msb || x == 0#64)

def positive (x : BitVec 64) : Bool := !isNaN x && !x.msb && x != 0#64

def setSketchesFactor (factor : BitVec 64) : BitVec 64 :=
  if nonPositive factor then 0x3FF0000000000000#64 else factor

structure ConfiguredAlg (sizes : SizeFormulas) where
  numVertices : NodeId
  seed : BitVec 64
  sketchesFactor : BitVec 64
  numDeltaSketches : ℕ
  alg : CCSketchAlg numVertices.toNat numDeltaSketches (sizes.params numVertices seed sketchesFactor)

variable {sizes : SizeFormulas}

def writeBinary (a : ConfiguredAlg sizes) : List Byte :=
  writeWord 8 a.seed ++ writeWord 4 a.numVertices ++ writeWord 8 a.sketchesFactor ++
    (List.finRange a.numVertices.toNat).flatMap fun i => (a.alg.sketches i).serialize

def readSketches (p : SketchParams) : (k : ℕ) → List Byte →
    Option ((Fin k → Sketch p) × List Byte)
  | 0, bs => some (Fin.elim0,bs)
  | k + 1, bs =>
    match Sketch.ofStream p bs with
    | none => none
    | some (s,bs) =>
      match readSketches p k bs with
      | none => none
      | some (rest,bs) => some (Fin.cons s rest,bs)

def CCSketchAlg.deserialized {n : ℕ} {p : SketchParams} (priority : Fin n → ℕ)
    (sketches : Fin n → Sketch p) : CCSketchAlg n 0 p where
  updateLocked := false
  sketches := sketches
  query := ⟨.fresh priority,fun _ => ∅⟩
  dsuValid := false
  sharedDsuValid := false
  deltaSketches := Fin.elim0
  lastQueryRounds := 0

def ofBinaryStream (sizes : SizeFormulas) (priority : (n : ℕ) → Fin n → ℕ) (numVertices : NodeId)
    (seed factor : BitVec 64) (binaryStream : List Byte) :
    Option (ConfiguredAlg sizes × List Byte) := do
  let (sketches,binaryStream) ←
    readSketches (sizes.params numVertices seed factor) numVertices.toNat binaryStream
  return (⟨numVertices,seed,factor,0,.deserialized (priority _) sketches⟩,binaryStream)

def constructFromSerializedData (sizes : SizeFormulas) (priority : (n : ℕ) → Fin n → ℕ)
    (binaryIn : List Byte) : Option (ConfiguredAlg sizes × List Byte) := do
  let (seed,binaryIn) ← read 8 binaryIn
  let (numVertices,binaryIn) ← read 4 binaryIn
  let (sketchesFactor,binaryIn) ← read 8 binaryIn
  let factor := setSketchesFactor (readWord 64 sketchesFactor)
  ofBinaryStream sizes priority (readWord 32 numVertices) (readWord 64 seed) factor binaryIn

structure SameSketches (a b : ConfiguredAlg sizes) : Prop where
  numVertices : a.numVertices = b.numVertices
  seed : a.seed = b.seed
  sketchesFactor : a.sketchesFactor = b.sketchesFactor
  sketches : ∀ v, (a.alg.sketches v).equal
    (b.alg.sketches (v.cast (congrArg BitVec.toNat numVertices))) = true

structure Restored (a b : ConfiguredAlg sizes) : Prop extends SameSketches a b where
  sampleIdx : ∀ v, (b.alg.sketches v).sampleIdx = 0
  dsuValid : b.alg.dsuValid = false

theorem setSketchesFactor_positive {factor : BitVec 64} (h : positive factor = true) :
    setSketchesFactor factor = factor := by
  simp only [positive,Bool.and_eq_true,Bool.not_eq_true',bne_iff_ne] at h
  rw [setSketchesFactor,if_neg]
  simp [nonPositive,h.1.2,h.2]

theorem readSketches_serialize {p : SketchParams} {k : ℕ} (f : Fin k → Sketch p)
    (rest : List Byte) :
    readSketches p k (((List.finRange k).flatMap fun i => (f i).serialize) ++ rest) =
      some (fun i => (f i).resetSampleState,rest) := by
  induction k with
  | zero =>
    rw [readSketches]
    exact congrArg (fun g => some (g,rest)) (funext fun i => i.elim0)
  | succ k ih =>
    rw [List.finRange_succ,List.flatMap_cons,List.flatMap_map,List.append_assoc,readSketches,
      Sketch.ofStream_serialize]
    simp only [ih fun i => f i.succ]
    exact congrArg (fun g => some (g,rest)) (Fin.cons_self_tail fun i => (f i).resetSampleState)

theorem construct_writeBinary (priority : (n : ℕ) → Fin n → ℕ) (a : ConfiguredAlg sizes)
    (h : positive a.sketchesFactor = true) :
    constructFromSerializedData sizes priority (writeBinary a) =
      some (⟨a.numVertices,a.seed,a.sketchesFactor,0,.deserialized (priority _)
        fun v => (a.alg.sketches v).resetSampleState⟩,[]) := by
  have hseed := readWord_writeWord (k := 8) (by decide) a.seed
  have hnum := readWord_writeWord (k := 4) (by decide) a.numVertices
  have hfactor := readWord_writeWord (k := 8) (by decide) a.sketchesFactor
  have hsketches := readSketches_serialize a.alg.sketches []
  rw [List.append_nil] at hsketches
  simp only [constructFromSerializedData,writeBinary,List.append_assoc,
    read_append (length_writeWord 8 a.seed),read_append (length_writeWord 4 a.numVertices),
    read_append (length_writeWord 8 a.sketchesFactor),Option.bind_eq_bind,Option.bind_some]
  rw [hseed,hnum,hfactor,setSketchesFactor_positive h,ofBinaryStream,hsketches]
  rfl

theorem restored_deserialized (a : ConfiguredAlg sizes) (priority : Fin a.numVertices.toNat → ℕ) :
    Restored a ⟨a.numVertices,a.seed,a.sketchesFactor,0,.deserialized priority
      fun v => (a.alg.sketches v).resetSampleState⟩ where
  numVertices := rfl
  seed := rfl
  sketchesFactor := rfl
  sketches _ := (Sketch.equal_iff _ _).mpr rfl
  sampleIdx _ := rfl
  dsuValid := rfl

theorem sameSketches_of_writeBinary_eq {a b : ConfiguredAlg sizes}
    (ha : positive a.sketchesFactor = true) (hb : positive b.sketchesFactor = true)
    (h : writeBinary a = writeBinary b) : SameSketches a b := by
  have hread := construct_writeBinary (fun _ _ => 0) a ha
  rw [h,construct_writeBinary (fun _ _ => 0) b hb] at hread
  obtain ⟨n,seed,factor,w,alg⟩ := a
  obtain ⟨n',seed',factor',w',alg'⟩ := b
  simp only [Option.some.injEq,Prod.mk.injEq,ConfiguredAlg.mk.injEq,and_true] at hread
  obtain ⟨rfl,rfl,rfl,_,heq⟩ := hread
  have hsketches := congrArg CCSketchAlg.sketches (eq_of_heq heq)
  refine ⟨rfl,rfl,rfl,fun v => (Sketch.equal_iff _ _).mpr ?_⟩
  exact (congrArg Sketch.buckets (congrFun hsketches v)).symm

theorem serialization_round_trip (priority : (n : ℕ) → Fin n → ℕ) (a : ConfiguredAlg sizes)
    (ha : positive a.sketchesFactor = true) :
    (∃ b, constructFromSerializedData sizes priority (writeBinary a) = some (b,[]) ∧
      Restored a b) ∧
    ∀ b : ConfiguredAlg sizes, positive b.sketchesFactor = true → writeBinary a = writeBinary b →
      SameSketches a b :=
  ⟨⟨_,construct_writeBinary priority a ha,restored_deserialized a _⟩,
    fun _ hb h => sameSketches_of_writeBinary_eq ha hb h⟩

def twoVertexSizes : SizeFormulas := ⟨fun _ _ => 18,fun _ => 1⟩

def twoVertexAlg : ConfiguredAlg twoVertexSizes :=
  ⟨2#32,7#64,0x3FF8000000000000#64,1,
    { CCSketchAlg.new 1 _ fun v => v with
      sketches := fun v => ⟨3,fun b => ⟨BitVec.ofNat 64 (300 * v + b + 1),BitVec.ofNat 32 (b + 256)⟩⟩ }⟩

theorem serialization_round_trip_two :
    ∃ b, constructFromSerializedData twoVertexSizes (fun _ v => v) (writeBinary twoVertexAlg) =
      some (b,[]) ∧ Restored twoVertexAlg b :=
  (serialization_round_trip (fun _ v => v) twoVertexAlg (by decide)).1

end CC
end GraphZeppelin
