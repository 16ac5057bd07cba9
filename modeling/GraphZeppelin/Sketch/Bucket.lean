import GraphZeppelin.Lib.XorGroup

namespace GraphZeppelin

abbrev NodeId := BitVec 32
abbrev VecT := BitVec 64
abbrev VecHash := BitVec 32
abbrev ColHash := BitVec 64
abbrev XxHash := VecT → BitVec 64 → BitVec 64

theorem signExtend_ofNat {k : ℕ} (h : k < 2 ^ 31) :
    (BitVec.ofNat 32 k).signExtend 64 = BitVec.ofNat 64 k := by
  have hmsb : (BitVec.ofNat 32 k).msb = false := by
    rw [BitVec.msb_eq_false_iff_two_mul_lt,BitVec.toNat_ofNat]
    omega
  rw [BitVec.signExtend_eq_setWidth_of_msb_false hmsb]
  apply BitVec.eq_of_toNat_eq
  rw [BitVec.toNat_setWidth,BitVec.toNat_ofNat,BitVec.toNat_ofNat]
  omega

structure Bucket where
  alpha : VecT
  gamma : VecHash
deriving DecidableEq, Repr

namespace Bucket

def ctzll (x : ColHash) : ℕ := ((List.range 64).find? (x.getLsbD ·)).getD 64

def getIndexDepth (xxh : XxHash) (updateIdx : VecT) (seedAndCol : BitVec 64) (maxDepth : ℕ) : ℕ :=
  ctzll (xxh updateIdx seedAndCol ||| (1#64 <<< maxDepth))

def getIndexHash (xxh : XxHash) (updateIdx : VecT) (sketchSeed : BitVec 64) : VecHash :=
  (xxh updateIdx sketchSeed).setWidth 32

def isGood (xxh : XxHash) (bucket : Bucket) (sketchSeed : BitVec 64) : Bool :=
  bucket.gamma == getIndexHash xxh bucket.alpha sketchSeed

def update (bucket : Bucket) (updateIdx : VecT) (updateHash : VecHash) : Bucket :=
  ⟨bucket.alpha ^^^ updateIdx,bucket.gamma ^^^ updateHash⟩

instance : Zero Bucket := ⟨⟨0,0⟩⟩
instance : Add Bucket := ⟨fun a b => ⟨a.alpha ^^^ b.alpha,a.gamma ^^^ b.gamma⟩⟩
instance : Neg Bucket := ⟨id⟩

@[simp] theorem zero_alpha : (0 : Bucket).alpha = 0 := rfl
@[simp] theorem zero_gamma : (0 : Bucket).gamma = 0 := rfl
@[simp] theorem add_alpha (a b : Bucket) : (a + b).alpha = a.alpha ^^^ b.alpha := rfl
@[simp] theorem add_gamma (a b : Bucket) : (a + b).gamma = a.gamma ^^^ b.gamma := rfl

theorem eq_of_fields {a b : Bucket} (ha : a.alpha = b.alpha) (hg : a.gamma = b.gamma) : a = b := by
  cases a
  cases b
  cases ha
  cases hg
  rfl

theorem add_self_eq_zero (a : Bucket) : a + a = 0 :=
  eq_of_fields (BitVec.xor_self) (BitVec.xor_self)

instance : AddCommGroup Bucket where
  add_assoc a b c := eq_of_fields (BitVec.xor_assoc ..) (BitVec.xor_assoc ..)
  zero_add a := eq_of_fields (BitVec.zero_xor) (BitVec.zero_xor)
  add_zero a := eq_of_fields (BitVec.xor_zero) (BitVec.xor_zero)
  add_comm a b := eq_of_fields (BitVec.xor_comm ..) (BitVec.xor_comm ..)
  neg_add_cancel := add_self_eq_zero
  nsmul := nsmulRec
  zsmul := zsmulRec

instance : XorGroup Bucket := ⟨add_self_eq_zero⟩

def tag (xxh : XxHash) (sketchSeed : BitVec 64) (idx : VecT) : Bucket :=
  ⟨idx,getIndexHash xxh idx sketchSeed⟩

theorem update_eq_add (xxh : XxHash) (sketchSeed : BitVec 64) (b : Bucket) (idx : VecT) :
    b.update idx (getIndexHash xxh idx sketchSeed) = b + tag xxh sketchSeed idx := rfl

theorem isGood_tag (xxh : XxHash) (sketchSeed : BitVec 64) (idx : VecT) :
    isGood xxh (tag xxh sketchSeed idx) sketchSeed = true := by
  simp [isGood,tag]

theorem eq_zero_iff (b : Bucket) : b = 0 ↔ b.alpha = 0 ∧ b.gamma = 0 :=
  ⟨fun h => h ▸ ⟨rfl,rfl⟩,fun h => eq_of_fields h.1 h.2⟩

theorem le_ctzll_iff (x : ColHash) {g : ℕ} (hg : g ≤ 64) :
    g ≤ ctzll x ↔ ∀ i < g, x.getLsbD i = false := by
  unfold ctzll
  cases hfind : (List.range 64).find? (x.getLsbD ·) with
  | none =>
    refine ⟨fun _ i hi => ?_,fun _ => hg⟩
    have hnone := List.find?_eq_none.mp hfind i (List.mem_range.mpr (by omega))
    exact Bool.eq_false_of_not_eq_true hnone
  | some k =>
    obtain ⟨hk,_,hlow⟩ := List.find?_range_eq_some.mp hfind
    simp only [Bool.not_eq_true'] at hlow
    refine ⟨fun hle i hi => hlow i (lt_of_lt_of_le hi hle),fun h => ?_⟩
    by_contra hlt
    have hfalse := h k (not_le.mp hlt)
    rw [hk] at hfalse
    cases hfalse

theorem le_getIndexDepth_iff (xxh : XxHash) (idx : VecT) (seed : BitVec 64) {maxDepth g : ℕ}
    (hg : g ≤ maxDepth) (hg' : g ≤ 64) :
    g ≤ getIndexDepth xxh idx seed maxDepth ↔ g ≤ ctzll (xxh idx seed) := by
  rw [getIndexDepth,le_ctzll_iff _ hg',le_ctzll_iff _ hg']
  refine forall₂_congr fun i hi => ?_
  have hshift : (1#64 <<< maxDepth).getLsbD i = false := by
    rw [BitVec.getLsbD_shiftLeft,decide_eq_true (show i < maxDepth by omega)]
    simp
  rw [BitVec.getLsbD_or,hshift,Bool.or_false]

theorem getIndexDepth_le (xxh : XxHash) (idx : VecT) (seed : BitVec 64) {maxDepth : ℕ}
    (h : maxDepth < 64) : getIndexDepth xxh idx seed maxDepth ≤ maxDepth := by
  by_contra hlt
  have hbit := (le_ctzll_iff _ (Nat.succ_le_of_lt h)).mp (not_le.mp hlt) maxDepth (Nat.lt_succ_self _)
  rw [BitVec.getLsbD_or,BitVec.getLsbD_shiftLeft] at hbit
  simp [h] at hbit

theorem getIndexDepth_eq_min (xxh : XxHash) (idx : VecT) (seed : BitVec 64) {maxDepth : ℕ}
    (h : maxDepth < 64) :
    getIndexDepth xxh idx seed maxDepth = min (ctzll (xxh idx seed)) maxDepth := by
  have hle := getIndexDepth_le xxh idx seed h
  refine le_antisymm (le_min ?_ hle) ?_
  · exact (le_getIndexDepth_iff xxh idx seed hle (hle.trans (le_of_lt h))).mp le_rfl
  · refine (le_getIndexDepth_iff xxh idx seed (min_le_right _ _) ?_).mpr (min_le_left _ _)
    exact (min_le_right _ _).trans (le_of_lt h)

end Bucket
end GraphZeppelin
