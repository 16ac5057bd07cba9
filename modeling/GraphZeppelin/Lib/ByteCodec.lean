import Mathlib

namespace ByteCodec

abbrev Byte := BitVec 8

def toBytes : ℕ → ℕ → List Byte
  | 0, _ => []
  | k + 1, x => BitVec.ofNat 8 x :: toBytes k (x / 256)

def ofBytes : List Byte → ℕ
  | [] => 0
  | b :: bs => b.toNat + 256 * ofBytes bs

def writeWord {w : ℕ} (k : ℕ) (x : BitVec w) : List Byte := toBytes k x.toNat

def readWord (w : ℕ) (bs : List Byte) : BitVec w := BitVec.ofNat w (ofBytes bs)

def read (k : ℕ) (bs : List Byte) : Option (List Byte × List Byte) :=
  if k ≤ bs.length then some (bs.take k,bs.drop k) else none

@[simp] theorem length_toBytes (k x : ℕ) : (toBytes k x).length = k := by
  induction k generalizing x with
  | zero => rfl
  | succ k ih => rw [toBytes,List.length_cons,ih]

theorem ofBytes_toBytes {k x : ℕ} (h : x < 256 ^ k) : ofBytes (toBytes k x) = x := by
  induction k generalizing x with
  | zero =>
    rw [pow_zero] at h
    rw [toBytes,ofBytes]
    omega
  | succ k ih =>
    have hdiv : x / 256 < 256 ^ k := by
      rw [pow_succ] at h
      exact Nat.div_lt_of_lt_mul (by rwa [Nat.mul_comm])
    have hlow : (BitVec.ofNat 8 x).toNat = x % 256 := BitVec.toNat_ofNat x 8
    rw [toBytes,ofBytes,ih hdiv,hlow]
    exact Nat.mod_add_div x 256

theorem ofBytes_lt (bs : List Byte) : ofBytes bs < 256 ^ bs.length := by
  induction bs with
  | nil => exact Nat.one_pos
  | cons b bs ih =>
    have hb : b.toNat < 256 := b.isLt
    rw [ofBytes,List.length_cons,pow_succ]
    omega

theorem ofBytes_inj {bs bs' : List Byte} (hlen : bs.length = bs'.length)
    (h : ofBytes bs = ofBytes bs') : bs = bs' := by
  induction bs generalizing bs' with
  | nil => exact (List.eq_nil_of_length_eq_zero hlen.symm).symm
  | cons b bs ih =>
    cases bs' with
    | nil => cases hlen
    | cons b' bs' =>
      have hb : b.toNat < 256 := b.isLt
      have hb' : b'.toNat < 256 := b'.isLt
      simp only [ofBytes] at h
      have hhead : b = b' := BitVec.eq_of_toNat_eq (by omega)
      rw [hhead,ih (Nat.succ.inj hlen) (by omega)]

theorem readWord_inj {w : ℕ} {bs bs' : List Byte} (hlen : bs.length = bs'.length)
    (hw : 8 * bs.length ≤ w) (h : readWord w bs = readWord w bs') : bs = bs' := by
  have hlt (l : List Byte) (hl : l.length = bs.length) : ofBytes l < 2 ^ w := by
    refine lt_of_lt_of_le (ofBytes_lt l) ?_
    calc 256 ^ l.length = 2 ^ (8 * l.length) := by rw [pow_mul]; rfl
      _ ≤ 2 ^ w := Nat.pow_le_pow_right Nat.two_pos (hl ▸ hw)
  have hnat := congrArg BitVec.toNat h
  rw [readWord,readWord,BitVec.toNat_ofNat,BitVec.toNat_ofNat,Nat.mod_eq_of_lt (hlt bs rfl),
    Nat.mod_eq_of_lt (hlt bs' hlen.symm)] at hnat
  exact ofBytes_inj hlen hnat

@[simp] theorem length_writeWord {w : ℕ} (k : ℕ) (x : BitVec w) : (writeWord k x).length = k :=
  length_toBytes k _

theorem readWord_writeWord {w k : ℕ} (h : w ≤ 8 * k) (x : BitVec w) :
    readWord w (writeWord k x) = x := by
  have hlt : x.toNat < 256 ^ k := by
    refine lt_of_lt_of_le x.isLt ?_
    calc 2 ^ w ≤ 2 ^ (8 * k) := Nat.pow_le_pow_right (by decide) h
      _ = 256 ^ k := by rw [pow_mul]; rfl
  rw [readWord,writeWord,ofBytes_toBytes hlt,BitVec.ofNat_toNat,BitVec.setWidth_eq]

theorem writeWord_injective {w k : ℕ} (h : w ≤ 8 * k) :
    Function.Injective (writeWord k : BitVec w → List Byte) :=
  Function.LeftInverse.injective (readWord_writeWord h)

theorem read_append {k : ℕ} {l : List Byte} (h : l.length = k) (rest : List Byte) :
    read k (l ++ rest) = some (l,rest) := by
  have hle : k ≤ (l ++ rest).length := by
    rw [List.length_append]
    omega
  rw [read,if_pos hle,List.take_left' h,List.drop_left' h]

theorem chunk_flatMap {α β : Type*} {f : α → List β} {k : ℕ} (hf : ∀ a, (f a).length = k)
    (l : List α) {i : ℕ} (h : i < l.length) :
    ((l.flatMap f).drop (k * i)).take k = f (l.get ⟨i,h⟩) := by
  induction l generalizing i with
  | nil => cases h
  | cons a l ih =>
    rw [List.flatMap_cons]
    cases i with
    | zero => rw [Nat.mul_zero,List.drop_zero,List.take_left' (hf a)]; rfl
    | succ i =>
      rw [Nat.mul_succ,Nat.add_comm,← List.drop_drop,List.drop_left' (hf a)]
      exact ih (Nat.lt_of_succ_lt_succ h)

end ByteCodec
