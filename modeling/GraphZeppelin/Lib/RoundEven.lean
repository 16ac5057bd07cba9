import Mathlib

namespace RoundEven

def halfEven (x step : ℕ) : ℕ :=
  let q := x / step
  let r := x % step
  if 2 * r < step ∨ (2 * r = step ∧ q % 2 = 0) then q * step else (q + 1) * step

-- the nearest number with at most prec significant bits, a tie to the even one
def round (prec x : ℕ) : ℕ := halfEven x (2 ^ (x.size - prec))

theorem halfEven_bounds {step : ℕ} (hs : 0 < step) (x : ℕ) :
    2 * x ≤ 2 * halfEven x step + step ∧ 2 * halfEven x step ≤ 2 * x + step := by
  have hdiv := Nat.div_add_mod' x step
  have hmod := Nat.mod_lt x hs
  rw [halfEven]
  split
  · next h => omega
  · next h =>
    rw [Nat.add_mul]
    omega

theorem round_bounds {prec x e : ℕ} (hx : x < 2 ^ (prec + e)) :
    2 * x ≤ 2 * round prec x + 2 ^ e ∧ 2 * round prec x ≤ 2 * x + 2 ^ e := by
  have hsize := Nat.size_le.mpr hx
  have hstep : 2 ^ (x.size - prec) ≤ 2 ^ e := Nat.pow_le_pow_right Nat.zero_lt_two (by omega)
  have hb := halfEven_bounds (Nat.two_pow_pos (x.size - prec)) x
  rw [round]
  omega

def nearest (x : ℚ) : ℤ :=
  let k := ⌊x⌋
  if x - k < 1 / 2 then k else if 1 / 2 < x - k then k + 1 else k + k % 2

-- the nearest number of the form m * 2^e with 2^52 <= m <= 2^53, a tie to the even m
def double (x : ℚ) : ℚ :=
  if x = 0 then 0
  else
    let quantum : ℚ := 2 ^ (Int.log 2 x - 52)
    nearest (x / quantum) * quantum

end RoundEven
