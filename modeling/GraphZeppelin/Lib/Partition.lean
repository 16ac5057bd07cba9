import Mathlib

namespace Partition

variable {n T : ℕ}

def cut (n T i : ℕ) : ℕ := ⌈(n : ℚ) / T * i⌉₊

def part (n T x : ℕ) : ℕ := ⌊(x : ℚ) / ((n : ℚ) / T)⌋₊

theorem cut_le_iff (hT : 0 < T) {i x : ℕ} : cut n T i ≤ x ↔ n * i ≤ x * T := by
  have hT' : (0 : ℚ) < T := by exact_mod_cast hT
  rw [cut,Nat.ceil_le,div_mul_eq_mul_div,div_le_iff₀ hT']
  exact_mod_cast Iff.rfl

theorem part_eq_div (n T x : ℕ) : part n T x = x * T / n := by
  rw [part,div_div_eq_mul_div]
  exact_mod_cast Nat.floor_div_eq_div (K := ℚ) (x * T) n

@[simp] theorem cut_zero (n T : ℕ) : cut n T 0 = 0 := by simp [cut]

theorem cut_last (hT : 0 < T) : cut n T T = n := by
  refine le_antisymm ((cut_le_iff hT).mpr le_rfl) ?_
  have h := (cut_le_iff hT).mp (le_refl (cut n T T))
  exact Nat.le_of_mul_le_mul_right h hT

theorem cut_mono (hT : 0 < T) {i j : ℕ} (hij : i ≤ j) : cut n T i ≤ cut n T j := by
  have h := (cut_le_iff hT).mp (le_refl (cut n T j))
  exact (cut_le_iff hT).mpr ((Nat.mul_le_mul_left n hij).trans h)

theorem cut_le (hT : 0 < T) {i : ℕ} (hi : i ≤ T) : cut n T i ≤ n :=
  (cut_mono hT hi).trans_eq (cut_last hT)

theorem cut_lt_succ (hT : 0 < T) (hn : T ≤ n) (i : ℕ) : cut n T i < cut n T (i + 1) := by
  by_contra h
  have hle := (cut_le_iff hT).mp (not_lt.mp h)
  rcases Nat.eq_zero_or_pos (cut n T i) with hz | hpos
  · rw [hz,Nat.mul_add] at hle
    omega
  · have hpred : ¬ cut n T i ≤ cut n T i - 1 := by omega
    rw [cut_le_iff hT,not_le,Nat.sub_mul] at hpred
    rw [Nat.mul_add] at hle
    have hcut : T ≤ cut n T i * T := Nat.le_mul_of_pos_left T hpos
    omega

theorem part_eq_iff (hT : 0 < T) {x i : ℕ} (hx : x < n) :
    part n T x = i ↔ cut n T i ≤ x ∧ x < cut n T (i + 1) := by
  have hn : 0 < n := Nat.zero_lt_of_lt hx
  rw [part_eq_div,Nat.div_eq_iff hn,cut_le_iff hT,← not_le (a := cut n T (i + 1)),cut_le_iff hT,
    Nat.mul_add,Nat.mul_comm n i]
  omega

theorem part_lt (hT : 0 < T) {x : ℕ} (hx : x < n) : part n T x < T := by
  rw [part_eq_div]
  exact Nat.div_lt_of_lt_mul (Nat.mul_lt_mul_of_pos_right hx hT)

theorem cut_succ_le (hT : 0 < T) (hn : n ≤ T) (i : ℕ) : cut n T (i + 1) ≤ cut n T i + 1 := by
  have h := (cut_le_iff hT).mp (le_refl (cut n T i))
  rw [cut_le_iff hT,Nat.mul_add,Nat.add_mul]
  omega

theorem cut_part (hT : 0 < T) (hn : n ≤ T) {x : ℕ} (hx : x < n) : cut n T (part n T x) = x := by
  obtain ⟨hlo,hhi⟩ := (part_eq_iff hT hx).mp rfl
  have hsucc := cut_succ_le hT hn (part n T x)
  omega

theorem cut_pos (hT : 0 < T) (hn : 0 < n) (i : ℕ) : 0 < cut n T (i + 1) := by
  by_contra h
  have hle := (cut_le_iff hT).mp (not_lt.mp h)
  rw [Nat.mul_add] at hle
  omega

theorem le_cut_of_le (h : n ≤ T) : n ≤ cut n (T + 1) T := by
  by_contra hlt
  have hle := (cut_le_iff (T := T + 1) (Nat.succ_pos T)).mp (show cut n (T + 1) T ≤ n - 1 by omega)
  have hT : T ≤ n * T := Nat.le_mul_of_pos_left T (by omega)
  rw [Nat.sub_mul,Nat.mul_add] at hle
  omega

-- c i is where the i-th range starts and the one before it ends
structure Tiles (c : ℕ → ℕ) (n T : ℕ) : Prop where
  first : c 0 = 0
  last : c T = n
  le_succ : ∀ i < T, c i ≤ c (i + 1)
  pos : 0 < n → 0 < c 1

instance (c : ℕ → ℕ) (n T : ℕ) : Decidable (Tiles c n T) :=
  decidable_of_iff (c 0 = 0 ∧ c T = n ∧ (∀ i < T, c i ≤ c (i + 1)) ∧ (0 < n → 0 < c 1))
    ⟨fun ⟨h₁,h₂,h₃,h₄⟩ => ⟨h₁,h₂,h₃,h₄⟩,fun ⟨h₁,h₂,h₃,h₄⟩ => ⟨h₁,h₂,h₃,h₄⟩⟩

def owner (c : ℕ → ℕ) (T x : ℕ) : ℕ := Nat.findGreatest (fun i => c i ≤ x) T

namespace Tiles

variable {c : ℕ → ℕ} {x i j : ℕ} (h : Tiles c n T)
include h

theorem mono (hij : i ≤ j) (hj : j ≤ T) : c i ≤ c j := by
  induction j, hij using Nat.le_induction with
  | base => exact le_rfl
  | succ j _ ih => exact (ih (by omega)).trans (h.le_succ j (by omega))

theorem le (hi : i ≤ T) : c i ≤ n := (h.mono hi le_rfl).trans_eq h.last

theorem cut_pos (hn : 0 < n) (hi : i < T) : 0 < c (i + 1) :=
  (h.pos hn).trans_le (h.mono (Nat.le_add_left 1 i) hi)

theorem owner_le (x : ℕ) : c (owner c T x) ≤ x :=
  Nat.findGreatest_spec (P := fun i => c i ≤ x) (Nat.zero_le T) (h.first.trans_le (Nat.zero_le x))

theorem owner_lt (hx : x < n) : owner c T x < T := by
  refine lt_of_le_of_ne (Nat.findGreatest_le T) fun he => ?_
  have hle := h.owner_le x
  rw [he,h.last] at hle
  omega

theorem owner_eq_iff (hx : x < n) : owner c T x = i ↔ i < T ∧ c i ≤ x ∧ x < c (i + 1) := by
  constructor
  · rintro rfl
    have hlt := h.owner_lt hx
    refine ⟨hlt,h.owner_le x,?_⟩
    exact not_le.mp (Nat.findGreatest_is_greatest (P := fun i => c i ≤ x) (Nat.lt_succ_self _) hlt)
  · rintro ⟨hi,hlo,hhi⟩
    have hle : i ≤ owner c T x := Nat.le_findGreatest (le_of_lt hi) hlo
    refine le_antisymm (not_lt.mp fun hlt => ?_) hle
    have hmono := h.mono (Nat.succ_le_of_lt hlt) (Nat.findGreatest_le T)
    exact absurd (hmono.trans (h.owner_le x)) (not_le.mpr hhi)

theorem lt_owner_iff (hi : i < T) : i < owner c T x ↔ c (i + 1) ≤ x := by
  constructor
  · intro hlt
    exact (h.mono (Nat.succ_le_of_lt hlt) (Nat.findGreatest_le T)).trans (h.owner_le x)
  · exact fun hle => Nat.le_findGreatest (Nat.succ_le_of_lt hi) hle

theorem owner_zero (hn : 0 < n) : owner c T 0 = 0 := by
  refine Nat.eq_zero_of_not_pos fun hpos => ?_
  have hT : 0 < T := hpos.trans_le (Nat.findGreatest_le T)
  exact absurd ((h.lt_owner_iff hT).mp hpos) (not_le.mpr (h.pos hn))

end Tiles

theorem owner_mono {c : ℕ → ℕ} {x y : ℕ} (hxy : x ≤ y) : owner c T x ≤ owner c T y :=
  Nat.findGreatest_mono_left (fun _ hi => hi.trans hxy) T

theorem exact_tiles (hT : 0 < T) : Tiles (cut n T) n T where
  first := cut_zero n T
  last := cut_last hT
  le_succ i _ := cut_mono hT (Nat.le_succ i)
  pos hn := cut_pos hT hn 0

theorem part_eq_owner (hT : 0 < T) {x : ℕ} (hx : x < n) : part n T x = owner (cut n T) T x :=
  (((exact_tiles hT).owner_eq_iff hx).mpr ⟨part_lt hT hx,(part_eq_iff hT hx).mp rfl⟩).symm

end Partition
