import GraphZeppelin.Gpu.KernelSpec
import GraphZeppelin.Lib.BitMixing
import GraphZeppelin.Lib.ByteCodec

open ByteCodec

namespace GraphZeppelin.Gpu.CudaXxh

def kSecret : List Byte :=
  [0xb8,0xfe,0x6c,0x39,0x23,0xa4,0x4b,0xbe,0x7c,0x01,0x81,0x2c,0xf7,0x21,0xad,0x1c,
    0xde,0xd4,0x6d,0xe9,0x83,0x90,0x97,0xdb,0x72,0x40,0xa4,0xa4,0xb7,0xb3,0x67,0x1f,
    0xcb,0x79,0xe6,0x4e,0xcc,0xc0,0xe5,0x78,0x82,0x5a,0xd0,0x7d,0xcc,0xff,0x72,0x21,
    0xb8,0x08,0x46,0x74,0xf7,0x43,0x24,0x8e,0xe0,0x35,0x90,0xe6,0x81,0x3a,0x26,0x4c,
    0x3c,0x28,0x52,0xbb,0x91,0xc3,0x00,0xcb,0x88,0xd0,0x65,0x8b,0x1b,0x53,0x2e,0xa3,
    0x71,0x64,0x48,0x97,0xa2,0x0d,0xf9,0x4e,0x38,0x19,0xef,0x46,0xa9,0xde,0xac,0xd8,
    0xa8,0xfa,0x76,0x3f,0xe3,0x9c,0x34,0x3f,0xf9,0xdc,0xbb,0xc7,0xc7,0x0b,0x4f,0x1d,
    0x8a,0x51,0xe0,0x4b,0xcd,0xb4,0x59,0x31,0xc8,0x9f,0x7e,0xc9,0xd9,0x78,0x73,0x64,
    0xea,0xc5,0xac,0x83,0x34,0xd3,0xeb,0xc3,0xc5,0x81,0xa0,0xff,0xfa,0x13,0x63,0xeb,
    0x17,0x0d,0xdd,0x51,0xb7,0xf0,0xda,0x49,0xd3,0x16,0x55,0x26,0x29,0xd4,0x68,0x9e,
    0x2b,0x16,0xbe,0x58,0x7d,0x47,0xa1,0xfc,0x8f,0xf8,0xb8,0xd1,0x7a,0xd0,0x31,0xce,
    0x45,0xcb,0x3a,0x8f,0x95,0x16,0x04,0x28,0xaf,0xd7,0xfb,0xca,0xbb,0x4b,0x40,0x7e]

def rotl64 (x : BitVec 64) (r : ℕ) : BitVec 64 := (x <<< r) ||| (x >>> (64 - r))

def mult32to64 (x y : BitVec 64) : BitVec 64 :=
  (x.setWidth 32).setWidth 64 * (y.setWidth 32).setWidth 64

structure Hash128 where
  low64 : BitVec 64
  high64 : BitVec 64
deriving DecidableEq, Repr

def mult64to128 (lhs rhs : BitVec 64) : Hash128 :=
  let loLo := mult32to64 (lhs &&& 0xFFFFFFFF#64) (rhs &&& 0xFFFFFFFF#64)
  let hiLo := mult32to64 (lhs >>> 32) (rhs &&& 0xFFFFFFFF#64)
  let loHi := mult32to64 (lhs &&& 0xFFFFFFFF#64) (rhs >>> 32)
  let hiHi := mult32to64 (lhs >>> 32) (rhs >>> 32)
  let cross := (loLo >>> 32) + (hiLo &&& 0xFFFFFFFF#64) + loHi
  let upper := (hiLo >>> 32) + (cross >>> 32) + hiHi
  let lower := (cross <<< 32) ||| (loLo &&& 0xFFFFFFFF#64)
  ⟨lower,upper⟩

def mul128Fold64 (lhs rhs : BitVec 64) : BitVec 64 :=
  let product := mult64to128 lhs rhs
  product.low64 ^^^ product.high64

def readLE32 (bytes : List Byte) (offset : ℕ) : BitVec 32 := readWord 32 ((bytes.drop offset).take 4)

def readLE64 (bytes : List Byte) (offset : ℕ) : BitVec 64 := readWord 64 ((bytes.drop offset).take 8)

def swap32 (x : BitVec 32) : BitVec 32 :=
  ((x <<< 24) &&& 0xff000000#32) ||| ((x <<< 8) &&& 0x00ff0000#32) |||
    ((x >>> 8) &&& 0x0000ff00#32) ||| ((x >>> 24) &&& 0x000000ff#32)

def swap64 (x : BitVec 64) : BitVec 64 :=
  ((x <<< 56) &&& 0xff00000000000000#64) ||| ((x <<< 40) &&& 0x00ff000000000000#64) |||
    ((x <<< 24) &&& 0x0000ff0000000000#64) ||| ((x <<< 8) &&& 0x000000ff00000000#64) |||
    ((x >>> 8) &&& 0x00000000ff000000#64) ||| ((x >>> 24) &&& 0x0000000000ff0000#64) |||
    ((x >>> 40) &&& 0x000000000000ff00#64) ||| ((x >>> 56) &&& 0x00000000000000ff#64)

def xorshift64 (v64 : BitVec 64) (shift : ℕ) : BitVec 64 := v64 ^^^ (v64 >>> shift)

def xxh3Avalanche (h64 : BitVec 64) : BitVec 64 :=
  xorshift64 (xorshift64 h64 37 * 0x165667919E3779F9#64) 32

def prime64x2 : BitVec 64 := 0xC2B2AE3D27D4EB4F#64
def prime64x3 : BitVec 64 := 0x165667B19E3779F9#64

def xxh64Avalanche (h64 : BitVec 64) : BitVec 64 :=
  let h64 := h64 ^^^ (h64 >>> 33)
  let h64 := h64 * prime64x2
  let h64 := h64 ^^^ (h64 >>> 29)
  let h64 := h64 * prime64x3
  h64 ^^^ (h64 >>> 32)

def rrmxmx (h64 : BitVec 64) (len : ℕ) : BitVec 64 :=
  let h64 := h64 ^^^ (rotl64 h64 49 ^^^ rotl64 h64 24)
  let h64 := h64 * 0x9FB21C651E98DF25#64
  let h64 := h64 ^^^ ((h64 >>> 35) + BitVec.ofNat 64 len)
  let h64 := h64 * 0x9FB21C651E98DF25#64
  xorshift64 h64 28

def len1to3 (input : List Byte) (seed : BitVec 64) : BitVec 64 :=
  let len := input.length
  let c1 := input.getD 0 0
  let c2 := input.getD (len / 2) 0
  let c3 := input.getD (len - 1) 0
  let combined := (c1.setWidth 32 <<< 16) ||| (c2.setWidth 32 <<< 24) ||| (c3.setWidth 32 <<< 0) |||
    (BitVec.ofNat 32 len <<< 8)
  let bitflip := (readLE32 kSecret 0 ^^^ readLE32 kSecret 4).setWidth 64 + seed
  xxh64Avalanche (combined.setWidth 64 ^^^ bitflip)

def len4to8 (input : List Byte) (seed : BitVec 64) : BitVec 64 :=
  let len := input.length
  let seed := seed ^^^ ((swap32 (seed.setWidth 32)).setWidth 64 <<< 32)
  let input1 := readLE32 input 0
  let input2 := readLE32 input (len - 4)
  let bitflip := (readLE64 kSecret 8 ^^^ readLE64 kSecret 16) - seed
  let input64 := input2.setWidth 64 + (input1.setWidth 64 <<< 32)
  rrmxmx (input64 ^^^ bitflip) len

def len9to16 (input : List Byte) (seed : BitVec 64) : BitVec 64 :=
  let len := input.length
  let bitflip1 := (readLE64 kSecret 24 ^^^ readLE64 kSecret 32) + seed
  let bitflip2 := (readLE64 kSecret 40 ^^^ readLE64 kSecret 48) - seed
  let inputLo := readLE64 input 0 ^^^ bitflip1
  let inputHi := readLE64 input (len - 8) ^^^ bitflip2
  let acc := BitVec.ofNat 64 len + swap64 inputLo + inputHi + mul128Fold64 inputLo inputHi
  xxh3Avalanche acc

def len0to16 (input : List Byte) (seed : BitVec 64) : BitVec 64 :=
  if input.length > 8 then len9to16 input seed
  else if input.length ≥ 4 then len4to8 input seed
  else if input.length ≠ 0 then len1to3 input seed
  else xxh64Avalanche (seed ^^^ (readLE64 kSecret 56 ^^^ readLE64 kSecret 64))

-- CUDA_XXH64(&update_idx, sizeof(vec_t), seed)
def cudaXxh64 : XxHash := fun updateIdx seed => len0to16 (writeWord 8 updateIdx) seed

open BitMixing

theorem xxh64Avalanche_injective : Function.Injective xxh64Avalanche := by
  have h2 : prime64x2 * 839798700976720815#64 = 1 := by decide
  have h3 : prime64x3 * 16855272203555305545#64 = 1 := by decide
  have hlast := (xorShift_injective (w := 64) (s := 32) (by decide)).comp (mul_injective h3)
  have hmid := hlast.comp (xorShift_injective (s := 29) (by decide))
  exact (hmid.comp (mul_injective h2)).comp (xorShift_injective (s := 33) (by decide))

theorem rotl64_eq (x : BitVec 64) {r : ℕ} (h : r < 64) : rotl64 x r = x.rotateLeft r := by
  rw [rotl64,BitVec.rotateLeft_def,Nat.mod_eq_of_lt h]

theorem rrmxmx_injective {len : ℕ} (h : len < 2 ^ 34) : Function.Injective fun x => rrmxmx x len := by
  have hrot : Function.Injective fun x => x ^^^ (rotl64 x 49 ^^^ rotl64 x 24) := by
    simp only [rotl64_eq _ (show 49 < 64 by decide),rotl64_eq _ (show 24 < 64 by decide)]
    exact rotMix_injective (m := 6) rfl 49 24
  have hmul : 0x9FB21C651E98DF25#64 * 192419422752744621#64 = 1 := by decide
  have hlen : 2 ^ (64 - 35) + (BitVec.ofNat 64 len).toNat ≤ 2 ^ 35 := by
    rw [BitVec.toNat_ofNat,Nat.mod_eq_of_lt (by omega)]
    omega
  have hlast := (xorShift_injective (w := 64) (s := 28) (by decide)).comp (mul_injective hmul)
  exact ((hlast.comp (xorShiftAdd_injective hlen)).comp (mul_injective hmul)).comp hrot

theorem input64_inj {a b a' b' : BitVec 32}
    (h : b.setWidth 64 + (a.setWidth 64 <<< 32) = b'.setWidth 64 + (a'.setWidth 64 <<< 32)) :
    a = a' ∧ b = b' := by
  have hnat := congrArg BitVec.toNat h
  simp only [BitVec.toNat_add,BitVec.toNat_setWidth,BitVec.toNat_shiftLeft,
    Nat.shiftLeft_eq] at hnat
  have ha := a.isLt
  have hb := b.isLt
  have ha' := a'.isLt
  have hb' := b'.isLt
  exact ⟨BitVec.eq_of_toNat_eq (by omega),BitVec.eq_of_toNat_eq (by omega)⟩

theorem readLE32_inj {input input' : List Byte} (hlen : input.length = input'.length) {offset : ℕ}
    (h : readLE32 input offset = readLE32 input' offset) :
    (input.drop offset).take 4 = (input'.drop offset).take 4 := by
  refine readWord_inj (by simp [hlen]) ?_ h
  rw [List.length_take]
  omega

theorem len4to8_inj {input input' : List Byte} (hlen : input.length = input'.length)
    (h4 : 4 ≤ input.length) (h8 : input.length ≤ 8) {seed : BitVec 64}
    (h : len4to8 input seed = len4to8 input' seed) : input = input' := by
  simp only [len4to8,← hlen] at h
  have hkeyed := rrmxmx_injective (lt_of_le_of_lt h8 (by decide)) h
  obtain ⟨hfirst,hlast⟩ := input64_inj (xor_injective _ hkeyed)
  have hhead : input.take 4 = input'.take 4 := readLE32_inj hlen hfirst
  have htail := readLE32_inj hlen hlast
  rw [List.take_of_length_le (by simp; omega),List.take_of_length_le (by simp; omega)] at htail
  have hrest : input.drop 4 = input'.drop 4 := by
    have hdrop := congrArg (List.drop (8 - input.length)) htail
    simp only [List.drop_drop] at hdrop
    rwa [show input.length - 4 + (8 - input.length) = 4 by omega] at hdrop
  rw [← List.take_append_drop 4 input,hhead,hrest,List.take_append_drop]

theorem combined_inj {c1 c2 c3 c1' c2' c3' : Byte} {len : BitVec 32} (hlen : len.toNat < 2 ^ 8)
    (h : (c1.setWidth 32 <<< 16) ||| (c2.setWidth 32 <<< 24) ||| (c3.setWidth 32 <<< 0) ||| (len <<< 8) =
      (c1'.setWidth 32 <<< 16) ||| (c2'.setWidth 32 <<< 24) ||| (c3'.setWidth 32 <<< 0) ||| (len <<< 8)) :
    c1 = c1' ∧ c2 = c2' ∧ c3 = c3' := by
  have hbit (i : ℕ) := congrArg (fun x : BitVec 32 => x.getLsbD i) h
  simp only [BitVec.getLsbD_or,BitVec.getLsbD_shiftLeft,BitVec.getLsbD_setWidth] at hbit
  have hhigh {i : ℕ} (hi : 8 ≤ i) : len.getLsbD i = false :=
    Nat.testBit_lt_two_pow (lt_of_lt_of_le hlen (Nat.pow_le_pow_right Nat.two_pos hi))
  refine ⟨BitVec.eq_of_getLsbD_eq fun i hi => ?_,BitVec.eq_of_getLsbD_eq fun i hi => ?_,
    BitVec.eq_of_getLsbD_eq fun i hi => ?_⟩
  · have hb := hbit (i + 16)
    simpa [hhigh (i := i + 8) (by omega),show i < 32 by omega,show i + 16 < 32 by omega,
      show i + 16 < 24 by omega] using hb
  · have hb := hbit (i + 24)
    simpa [hhigh (i := i + 16) (by omega),show i < 32 by omega,show i + 24 < 32 by omega] using hb
  · have hb := hbit i
    simpa [show i < 32 by omega,show i < 16 by omega,show i < 24 by omega,hi] using hb

theorem len1to3_inj {input input' : List Byte} (hlen : input.length = input'.length)
    (h3 : input.length < 4) {seed : BitVec 64}
    (h : len1to3 input seed = len1to3 input' seed) : input = input' := by
  simp only [len1to3,← hlen] at h
  have hkeyed := xor_injective _ (xxh64Avalanche_injective h)
  have hcombined := setWidth_injective (show 32 ≤ 64 by decide) hkeyed
  have hsmall : (BitVec.ofNat 32 input.length).toNat < 2 ^ 8 := by
    rw [BitVec.toNat_ofNat]
    omega
  obtain ⟨hfirst,hmid,hlast⟩ := combined_inj hsmall hcombined
  refine List.ext_getElem hlen fun i hi hi' => ?_
  rw [← List.getD_eq_getElem input 0 hi,← List.getD_eq_getElem input' 0 hi']
  -- Three reads cover the input, the middle one repeats the last at length two.
  have hcover : i = 0 ∨ i = input.length / 2 ∨ i = input.length - 1 := by omega
  rcases hcover with rfl | rfl | rfl
  exacts [hfirst,hmid,hlast]

theorem len0to16_inj {input input' : List Byte} (hlen : input.length = input'.length)
    (h8 : input.length ≤ 8) {seed : BitVec 64}
    (h : len0to16 input seed = len0to16 input' seed) : input = input' := by
  simp only [len0to16,← hlen,gt_iff_lt,not_lt.mpr h8,if_false] at h
  split at h
  case isTrue h4 => exact len4to8_inj hlen h4 h8 h
  case isFalse h4 =>
    split at h
    case isTrue => exact len1to3_inj hlen (not_le.mp h4) h
    case isFalse h0 =>
      have hnil := List.length_eq_zero_iff.mp (not_not.mp h0)
      rw [hnil] at hlen ⊢
      exact (List.length_eq_zero_iff.mp hlen.symm).symm

theorem cudaXxh64_bijective (seed : BitVec 64) : Function.Bijective fun idx => cudaXxh64 idx seed := by
  refine Finite.injective_iff_bijective.mp fun idx idx' h => ?_
  refine writeWord_injective (k := 8) (by decide) (len0to16_inj ?_ ?_ h)
  · simp
  · simp

theorem card_depth_le (seed : BitVec 64) {g maxDepth : ℕ} (hg : g ≤ maxDepth) (hmax : maxDepth < 64) :
    Nat.card {idx // g ≤ Kernel.bucketGetIndexDepth cudaXxh64 idx seed maxDepth} = 2 ^ (64 - g) := by
  have hlow (idx : VecT) : g ≤ Kernel.bucketGetIndexDepth cudaXxh64 idx seed maxDepth ↔
      (cudaXxh64 idx seed).setWidth g = 0#g := by
    rw [Kernel.bucketGetIndexDepth_eq _ _ _ hmax,Bucket.le_getIndexDepth_iff _ _ _ hg (by omega),
      Bucket.le_ctzll_iff _ (by omega)]
    constructor
    · intro hbits
      refine BitVec.eq_of_getLsbD_eq fun i hi => ?_
      rw [BitVec.getLsbD_setWidth,hbits i hi]
      simp
    · intro hzero i hi
      have hbit := congrArg (fun x : BitVec g => x.getLsbD i) hzero
      simpa [hi] using hbit
  let hashing := Equiv.ofBijective _ (cudaXxh64_bijective seed)
  rw [← card_setWidth (show g ≤ 64 by omega) 0#g]
  exact Nat.card_congr (hashing.subtypeEquiv hlow)

theorem card_checksum (seed : BitVec 64) (checksum : VecHash) :
    Nat.card {idx // Kernel.bucketGetIndexHash cudaXxh64 idx seed = checksum} = 2 ^ 32 := by
  let hashing := Equiv.ofBijective _ (cudaXxh64_bijective seed)
  have hcard := card_setWidth (w := 64) (by decide) checksum
  rw [show 2 ^ 32 = 2 ^ (64 - 32) by rfl,← hcard]
  exact Nat.card_congr (hashing.subtypeEquiv fun _ => Iff.rfl)

theorem cuda_xxh64_uniform (seed : BitVec 64) :
    Function.Bijective (fun idx => cudaXxh64 idx seed) ∧
    (∀ g maxDepth, g ≤ maxDepth → maxDepth < 64 →
      Nat.card {idx // g ≤ Kernel.bucketGetIndexDepth cudaXxh64 idx seed maxDepth} = 2 ^ (64 - g)) ∧
    (∀ checksum,
      Nat.card {idx // Kernel.bucketGetIndexHash cudaXxh64 idx seed = checksum} = 2 ^ 32) ∧
    ∀ input input' : List Byte, input.length = input'.length → input.length ≤ 8 →
      len0to16 input seed = len0to16 input' seed → input = input' :=
  ⟨cudaXxh64_bijective seed,fun _ _ => card_depth_le seed,card_checksum seed,
    fun _ _ hlen h8 => len0to16_inj hlen h8⟩

theorem cuda_xxh64_uniform_depth_three :
    Nat.card {idx // 3 ≤ Kernel.bucketGetIndexDepth cudaXxh64 idx 42#64 20} = 2 ^ 61 ∧
    len0to16 [1,2,3] 42#64 ≠ len0to16 [1,2,4] 42#64 :=
  ⟨(cuda_xxh64_uniform 42#64).2.1 3 20 (by decide) (by decide),
    fun h => absurd ((cuda_xxh64_uniform 42#64).2.2.2 [1,2,3] [1,2,4] rfl (by decide) h) (by decide)⟩

end GraphZeppelin.Gpu.CudaXxh
