import Mathlib

namespace BitMixing

variable {w : ℕ}

theorem xorShift_injective {s : ℕ} (hs : 0 < s) :
    Function.Injective fun x : BitVec w => x ^^^ (x >>> s) := by
  intro x y h
  have hbits (d i : ℕ) (hi : w ≤ i + d) : x.getLsbD i = y.getLsbD i := by
    induction d generalizing i with
    | zero => rw [x.getLsbD_of_ge i hi,y.getLsbD_of_ge i hi]
    | succ d ih =>
      have hbit := congrArg (fun z => z.getLsbD i) h
      simp only [BitVec.getLsbD_xor,BitVec.getLsbD_ushiftRight] at hbit
      rw [ih (s + i) (by omega)] at hbit
      exact Bool.xor_left_inj.mp hbit
  exact BitVec.eq_of_getLsbD_eq fun i _ => hbits w i (Nat.le_add_left w i)

theorem xorShiftAdd_injective {s : ℕ} {k : BitVec w} (h : 2 ^ (w - s) + k.toNat ≤ 2 ^ s) :
    Function.Injective fun x : BitVec w => x ^^^ ((x >>> s) + k) := by
  have hhigh (x : BitVec w) : (x ^^^ ((x >>> s) + k)) >>> s = x >>> s := by
    have hlt : ((x >>> s) + k).toNat < 2 ^ s := by
      have hdiv : x.toNat / 2 ^ s < 2 ^ (w - s) := by
        refine Nat.div_lt_of_lt_mul (lt_of_lt_of_le x.isLt ?_)
        rw [← pow_add]
        exact Nat.pow_le_pow_right Nat.two_pos (by omega)
      rw [BitVec.toNat_add,BitVec.toNat_ushiftRight,Nat.shiftRight_eq_div_pow]
      exact lt_of_le_of_lt (Nat.mod_le _ _) (by omega)
    have hzero : ((x >>> s) + k) >>> s = 0#w := by
      refine BitVec.eq_of_toNat_eq ?_
      rw [BitVec.toNat_ushiftRight,Nat.shiftRight_eq_div_pow,Nat.div_eq_of_lt hlt]
      rfl
    rw [BitVec.ushiftRight_xor_distrib,hzero,BitVec.xor_zero]
  intro x y hxy
  have hshift : x >>> s = y >>> s := by
    have hs := congrArg (fun z : BitVec w => z >>> s) hxy
    simp only [hhigh] at hs
    exact hs
  simp only [hshift] at hxy
  exact (BitVec.xor_left_inj _).mp hxy

theorem mul_injective {c u : BitVec w} (h : c * u = 1) :
    Function.Injective fun x : BitVec w => x * c := by
  intro x y hxy
  have hu := congrArg (· * u) hxy
  simpa only [BitVec.mul_assoc,h,mul_one] using hu

theorem xor_injective (c : BitVec w) : Function.Injective fun x : BitVec w => x ^^^ c :=
  fun _ _ h => (BitVec.xor_left_inj c).mp h

theorem setWidth_injective {v w : ℕ} (h : v ≤ w) :
    Function.Injective (BitVec.setWidth w : BitVec v → BitVec w) := by
  intro x y hxy
  have hnat := congrArg BitVec.toNat hxy
  rw [BitVec.toNat_setWidth_of_le h,BitVec.toNat_setWidth_of_le h] at hnat
  exact BitVec.eq_of_toNat_eq hnat

section Rotation

theorem getLsbD_rotateLeft_mod (x : BitVec w) (r : ℕ) {i : ℕ} (hi : i < w) :
    (x.rotateLeft r).getLsbD i = x.getLsbD ((i + (w - r % w)) % w) := by
  have hr : r % w < w := Nat.mod_lt _ (by omega)
  rw [BitVec.getLsbD_rotateLeft]
  by_cases hlt : i < r % w
  · have hsmall : i + (w - r % w) < w := by omega
    simp only [hlt,decide_true,cond_true,Nat.mod_eq_of_lt hsmall]
    congr 1
    omega
  · have hwrap : (i + (w - r % w)) % w = i - r % w := by
      rw [show i + (w - r % w) = (i - r % w) + w by omega,Nat.add_mod_right]
      exact Nat.mod_eq_of_lt (by omega)
    simp only [hlt,decide_false,cond_false,hi,decide_true,Bool.true_and,hwrap]

theorem rotateLeft_xor (x y : BitVec w) (r : ℕ) :
    (x ^^^ y).rotateLeft r = x.rotateLeft r ^^^ y.rotateLeft r := by
  refine BitVec.eq_of_getLsbD_eq fun i hi => ?_
  simp only [BitVec.getLsbD_xor,getLsbD_rotateLeft_mod _ r hi]

theorem rotateLeft_rotateLeft (x : BitVec w) (a b : ℕ) :
    (x.rotateLeft a).rotateLeft b = x.rotateLeft (a + b) := by
  refine BitVec.eq_of_getLsbD_eq fun i hi => ?_
  have hw : 0 < w := by omega
  rw [getLsbD_rotateLeft_mod _ b hi,getLsbD_rotateLeft_mod _ a (Nat.mod_lt _ hw),
    getLsbD_rotateLeft_mod _ (a + b) hi]
  congr 1
  have ha := Nat.mod_lt a hw
  have hb := Nat.mod_lt b hw
  rw [Nat.mod_add_mod,Nat.add_mod a b]
  by_cases hlt : a % w + b % w < w
  · rw [Nat.mod_eq_of_lt hlt,← Nat.add_mod_right (i + (w - (a % w + b % w))) w]
    congr 1
    omega
  · have hwrap : (a % w + b % w) % w = a % w + b % w - w := by
      rw [Nat.mod_eq_sub_mod (not_lt.mp hlt)]
      exact Nat.mod_eq_of_lt (by omega)
    rw [hwrap]
    congr 1
    omega

theorem rotateLeft_of_dvd (x : BitVec w) {r : ℕ} (h : w ∣ r) : x.rotateLeft r = x := by
  refine BitVec.eq_of_getLsbD_eq fun i hi => ?_
  rw [getLsbD_rotateLeft_mod x r hi,Nat.mod_eq_zero_of_dvd h,Nat.sub_zero,Nat.add_mod_right,
    Nat.mod_eq_of_lt hi]

def rotMix (a b : ℕ) (x : BitVec w) : BitVec w := x ^^^ (x.rotateLeft a ^^^ x.rotateLeft b)

-- Rotations commute and xor is its own inverse, so squaring only doubles the two distances.
theorem rotMix_rotMix (a b : ℕ) (x : BitVec w) :
    rotMix a b (rotMix a b x) = rotMix (2 * a) (2 * b) x := by
  refine BitVec.eq_of_getLsbD_eq fun i hi => ?_
  simp only [rotMix,rotateLeft_xor,rotateLeft_rotateLeft,BitVec.getLsbD_xor,Nat.add_comm b a,
    ← Nat.two_mul]
  generalize x.getLsbD i = x₀
  generalize (x.rotateLeft a).getLsbD i = xa
  generalize (x.rotateLeft b).getLsbD i = xb
  generalize (x.rotateLeft (a + b)).getLsbD i = xab
  cases x₀ <;> cases xa <;> cases xb <;> cases xab <;> simp

theorem rotMix_iterate (m a b : ℕ) (x : BitVec w) :
    (rotMix a b)^[2 ^ m] x = rotMix (2 ^ m * a) (2 ^ m * b) x := by
  induction m generalizing a b x with
  | zero => simp
  | succ m ih =>
    have hsquare : (rotMix a b)^[2] = (rotMix (2 * a) (2 * b) : BitVec w → BitVec w) :=
      funext (rotMix_rotMix a b)
    rw [pow_succ',Function.iterate_mul,hsquare,ih,Nat.mul_left_comm,← Nat.mul_assoc,
      Nat.mul_left_comm,← Nat.mul_assoc]

theorem rotMix_injective {m : ℕ} (hw : w = 2 ^ m) (a b : ℕ) :
    Function.Injective (rotMix a b : BitVec w → BitVec w) := by
  have hid (x : BitVec w) : (rotMix a b)^[2 ^ m] x = x := by
    rw [rotMix_iterate,rotMix,rotateLeft_of_dvd x ⟨a,by rw [hw]⟩,rotateLeft_of_dvd x ⟨b,by rw [hw]⟩,
      BitVec.xor_self,BitVec.xor_zero]
  obtain ⟨k,hk⟩ := Nat.exists_eq_succ_of_ne_zero (Nat.two_pow_pos m).ne'
  intro x y hxy
  rw [← hid x,← hid y,hk,Function.iterate_succ_apply,Function.iterate_succ_apply,hxy]

end Rotation

theorem card_setWidth {v : ℕ} (h : v ≤ w) (c : BitVec v) :
    Nat.card {x : BitVec w // x.setWidth v = c} = 2 ^ (w - v) := by
  have hlow (y : BitVec (w - v)) : ((y ++ c).cast (Nat.sub_add_cancel h)).setWidth v = c := by
    refine BitVec.eq_of_getLsbD_eq fun i hi => ?_
    simp [BitVec.getLsbD_append,hi]
  let e : {x : BitVec w // x.setWidth v = c} ≃ BitVec (w - v) :=
    { toFun x := x.1.extractLsb' v (w - v)
      invFun y := ⟨(y ++ c).cast (Nat.sub_add_cancel h),hlow y⟩
      left_inv := by
        rintro ⟨x,rfl⟩
        refine Subtype.ext (BitVec.eq_of_getLsbD_eq fun i hi => ?_)
        by_cases hiv : i < v
        · simp [BitVec.getLsbD_append,hiv]
        · have hsub : v + (i - v) = i := by omega
          have hlt : i - v < w - v := by omega
          simp [BitVec.getLsbD_append,hiv,hsub,hlt]
      right_inv y := by
        refine BitVec.eq_of_getLsbD_eq fun i hi => ?_
        simp [BitVec.getLsbD_append,hi] }
  let toFin : BitVec (w - v) ≃ Fin (2 ^ (w - v)) :=
    ⟨BitVec.toFin,BitVec.ofFin,fun _ => rfl,fun _ => rfl⟩
  rw [Nat.card_congr (e.trans toFin),Nat.card_fin]

end BitMixing
