import GraphZeppelin.Lib.RoundEven
import GraphZeppelin.Sketch.Linear

namespace GraphZeppelin.Sketch

-- the product of two converted node ids, rounded to the 53 bits of a double
def doubleProduct (a b : NodeId) : ℕ := RoundEven.round 53 (a.toNat * b.toNat)

def calcVectorLength (numVertices : NodeId) : ℕ :=
  ⌈(doubleProduct numVertices (numVertices - 1#32) : ℚ) / 2⌉₊

def ceilLog2 (n : ℕ) : ℕ := Nat.clog 2 n

def calcBktPerCol (n : ℕ) : ℕ :=
  let temp := ceilLog2 n + 1
  if temp % 16 = 0 then temp + 1 else temp

def numSamplesDiv : ℚ := 1 - 0.263034406

-- the argument is the double f * log2(num_vertices) / num_samples_div
def calcCcSamples (quotient : ℚ) : ℕ := max 18 ⌈quotient⌉₊

theorem ceilLog2_eq (n : ℕ) : ceilLog2 n = ⌈Real.logb 2 n⌉₊ := by
  have h := Real.natCeil_logb_natCast 2 n
  rw [ceilLog2,← h]
  rfl

structure ValidDimensions (numVertices : NodeId) (b : ℕ) : Prop where
  pos : 1 ≤ b
  shift : b ≤ 63
  covers : ⌈Real.logb 2 (calcVectorLength numVertices)⌉₊ + 1 ≤ b
  conflict : ¬ 16 ∣ b
  depth : ∀ (xxh : XxHash) (idx : VecT) (seed : BitVec 64), Bucket.getIndexDepth xxh idx seed b ≤ b
  bucket : ∀ (xxh : XxHash) (idx : VecT) (p : SketchParams), p.bktPerCol = b →
    ∀ i : Fin p.numColumns, Bucket.getIndexDepth xxh idx (p.columnSeed i) p.bktPerCol < p.bktPerCol →
      i * p.bktPerCol + Bucket.getIndexDepth xxh idx (p.columnSeed i) p.bktPerCol < p.numBuckets - 1

theorem column_bucket_lt {p : SketchParams} (i : Fin p.numColumns) {j : ℕ} (hj : j < p.bktPerCol) :
    i * p.bktPerCol + j < p.numBuckets - 1 := by
  have hi : (i + 1) * p.bktPerCol ≤ p.numColumns * p.bktPerCol := Nat.mul_le_mul_right _ i.isLt
  rw [Nat.add_mul] at hi
  change _ < p.numColumns * p.bktPerCol + 1 - 1
  omega

theorem calcBktPerCol_bounds (n : ℕ) : ceilLog2 n + 1 ≤ calcBktPerCol n ∧ ¬ 16 ∣ calcBktPerCol n := by
  rw [calcBktPerCol]
  split
  · omega
  · omega

theorem calcBktPerCol_le_iff (n : ℕ) : calcBktPerCol n ≤ 63 ↔ n ≤ 2 ^ 62 := by
  have hlog : ceilLog2 n ≤ 62 ↔ n ≤ 2 ^ 62 := Nat.clog_le_iff_le_pow Nat.one_lt_two
  rw [← hlog,calcBktPerCol]
  split
  · omega
  · omega

theorem calcVectorLength_le_iff (numVertices : NodeId) {m : ℕ} :
    calcVectorLength numVertices ≤ m ↔ doubleProduct numVertices (numVertices - 1#32) ≤ 2 * m := by
  rw [calcVectorLength,Nat.ceil_le,div_le_iff₀ (by norm_num)]
  norm_cast
  rw [Nat.mul_comm]

theorem pred_toNat {numVertices : NodeId} (h : 1 ≤ numVertices.toNat) :
    (numVertices - 1#32).toNat = numVertices.toNat - 1 :=
  BitVec.toNat_sub_of_le (show (1#32).toNat ≤ numVertices.toNat from h)

theorem doubleProduct_le_iff {numVertices : NodeId} (h : 2 ≤ numVertices.toNat) :
    doubleProduct numVertices (numVertices - 1#32) ≤ 2 ^ 63 ↔ numVertices.toNat ≤ 3037000500 := by
  have hlt := numVertices.isLt
  have hpred := pred_toNat (show 1 ≤ numVertices.toNat by omega)
  have hprod : numVertices.toNat * (numVertices.toNat - 1) < 2 ^ (53 + 11) := by
    have hle := Nat.mul_le_mul (Nat.le_of_lt hlt) (show numVertices.toNat - 1 ≤ 2 ^ 32 - 1 by omega)
    omega
  have hround := RoundEven.round_bounds hprod
  rw [doubleProduct,hpred]
  constructor
  · intro hle
    by_contra hgt
    have hbig := Nat.mul_le_mul (show 3037000501 ≤ numVertices.toNat by omega)
      (show 3037000500 ≤ numVertices.toNat - 1 by omega)
    omega
  · intro hle
    have hsmall := Nat.mul_le_mul hle (show numVertices.toNat - 1 ≤ 3037000499 by omega)
    omega

theorem sketch_dimensions_valid_iff (numVertices : NodeId) (h : 2 ≤ numVertices.toNat) :
    ValidDimensions numVertices (calcBktPerCol (calcVectorLength numVertices)) ↔
      numVertices.toNat ≤ 3037000500 := by
  obtain ⟨hcovers,hconflict⟩ := calcBktPerCol_bounds (calcVectorLength numVertices)
  have hshift : calcBktPerCol (calcVectorLength numVertices) ≤ 63 ↔
      numVertices.toNat ≤ 3037000500 := by
    have htwice : 2 * 2 ^ 62 = 2 ^ 63 := by norm_num
    rw [calcBktPerCol_le_iff,calcVectorLength_le_iff,htwice,doubleProduct_le_iff h]
  refine ⟨fun hv => hshift.mp hv.shift,fun hn => ?_⟩
  have hb := hshift.mpr hn
  refine ⟨by omega,hb,ceilLog2_eq _ ▸ hcovers,hconflict,fun xxh idx seed => ?_,?_⟩
  · exact Bucket.getIndexDepth_le xxh idx seed (by omega)
  · exact fun xxh idx p _ i hdepth => column_bucket_lt i hdepth

theorem dimensions_invalid_three_billion : ¬ ValidDimensions 3037000501#32
    (calcBktPerCol (calcVectorLength 3037000501#32)) := by
  intro h
  have hb : 64 ≤ calcBktPerCol (calcVectorLength 3037000501#32) := by
    decide +kernel
  have hshift := h.shift
  omega

theorem dimensions_valid_three_billion : ValidDimensions 3037000500#32
    (calcBktPerCol (calcVectorLength 3037000500#32)) :=
  (sketch_dimensions_valid_iff 3037000500#32 (by decide)).mpr (by decide)

end GraphZeppelin.Sketch
