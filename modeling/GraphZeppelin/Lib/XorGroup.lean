import Mathlib

class XorGroup (M : Type*) [AddCommGroup M] : Prop where
  add_self : ∀ x : M, x + x = 0

namespace XorGroup

variable {M α ι : Type*} [AddCommGroup M] [XorGroup M]

instance : XorGroup (ι → M) where
  add_self f := funext fun i => add_self (f i)

theorem add_add_cancel (x y : M) : x + y + y = x := by
  rw [add_assoc,add_self,add_zero]

theorem eq_of_add_eq_zero {x y : M} (h : x + y = 0) : x = y := by
  rw [← add_add_cancel x y,h,zero_add]

theorem nsmul_eq (k : ℕ) (x : M) : k • x = if Odd k then x else 0 := by
  induction k with
  | zero => simp
  | succ k ih =>
    rw [succ_nsmul,ih]
    by_cases hk : Odd k
    · have hk' : ¬ Odd (k + 1) := by simpa [Nat.odd_add_one] using hk
      simp [hk,hk',add_self]
    · simp [hk,Nat.odd_add_one]

theorem list_sum_eq_odd [DecidableEq α] (f : α → M) (l : List α) :
    (l.map f).sum = ∑ a ∈ l.toFinset with Odd (l.count a), f a := by
  rw [Finset.sum_list_map_count,Finset.sum_filter]
  exact Finset.sum_congr rfl fun a _ => nsmul_eq _ _

theorem sum_symmDiff [DecidableEq α] (f : α → M) (A B : Finset α) :
    ∑ a ∈ symmDiff A B, f a = ∑ a ∈ A, f a + ∑ a ∈ B, f a := by
  have hA := Finset.sum_inter_add_sum_sdiff A B f
  have hB := Finset.sum_inter_add_sum_sdiff B A f
  rw [Finset.inter_comm] at hB
  have hdisj : Disjoint (A \ B) (B \ A) := disjoint_sdiff_sdiff
  rw [symmDiff_def,Finset.sup_eq_union,Finset.sum_union hdisj,← hA,← hB,add_add_add_comm,add_self,
    zero_add]

section Cut

variable {V : Type*} (G : SimpleGraph V) [DecidableRel G.Adj]

theorem sum_inside_eq_zero (f : V → V → M) (hf : ∀ u v, f u v = f v u) (A : Finset V) :
    ∑ v ∈ A, ∑ u ∈ A with G.Adj v u, f v u = 0 := by
  have hprod : ∑ v ∈ A, ∑ u ∈ A with G.Adj v u, f v u =
      ∑ e ∈ A ×ˢ A with G.Adj e.1 e.2, f e.1 e.2 := by
    simp only [Finset.sum_filter,Finset.sum_product]
  rw [hprod]
  refine Finset.sum_involution (fun e _ => e.swap) ?_ ?_ ?_ ?_
  · intro e _
    rw [Prod.fst_swap,Prod.snd_swap,hf e.2 e.1]
    exact add_self _
  · intro e he _ heq
    have hadj := (Finset.mem_filter.mp he).2
    exact hadj.ne (congrArg Prod.snd heq)
  · intro e he
    simp only [Finset.mem_filter,Finset.mem_product,Prod.fst_swap,Prod.snd_swap] at he ⊢
    exact ⟨he.1.symm,he.2.symm⟩
  · intro e _
    exact Prod.swap_swap e

theorem sum_incident_eq_cut [Fintype V] [DecidableEq V] (f : V → V → M)
    (hf : ∀ u v, f u v = f v u) (A : Finset V) :
    ∑ v ∈ A, ∑ u with G.Adj v u, f v u = ∑ v ∈ A, ∑ u ∈ Aᶜ with G.Adj v u, f v u := by
  have hsplit (v : V) : ∑ u with G.Adj v u, f v u =
      (∑ u ∈ A with G.Adj v u, f v u) + ∑ u ∈ Aᶜ with G.Adj v u, f v u := by
    simp only [Finset.sum_filter]
    exact (Finset.sum_add_sum_compl A _).symm
  simp only [hsplit,Finset.sum_add_distrib,sum_inside_eq_zero G f hf A,zero_add]

end Cut
end XorGroup
