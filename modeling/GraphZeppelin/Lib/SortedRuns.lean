import Mathlib

namespace SortedRuns

variable {α β : Type*}

theorem lt_countP_iff {p : α → Bool} {l : List α} (h : l.Pairwise fun a b => p b = true → p a = true)
    {k : ℕ} (hk : k < l.length) : k < l.countP p ↔ p l[k] = true := by
  induction l generalizing k with
  | nil => exact absurd hk (Nat.not_lt_zero k)
  | cons a l ih =>
    obtain ⟨ha,hl⟩ := List.pairwise_cons.mp h
    cases hp : p a with
    | true =>
      rw [List.countP_cons_of_pos hp]
      cases k with
      | zero => simp [hp]
      | succ k => simpa using ih hl (Nat.lt_of_succ_lt_succ hk)
    | false =>
      have hnone : ∀ b ∈ l, ¬ p b = true := fun b hb hpb => by
        have hpa := ha b hb hpb
        rw [hp] at hpa
        cases hpa
      rw [List.countP_cons_of_neg (by simp [hp]),List.countP_eq_zero.mpr hnone]
      refine iff_of_false (Nat.not_lt_zero k) ?_
      cases k with
      | zero => simp [hp]
      | succ k => exact hnone _ (List.getElem_mem _)

variable [LinearOrder β] {f : α → β} {l : List α} {v w : β} {k : ℕ}

def Sorted (f : α → β) (l : List α) : Prop := l.Pairwise fun a b => f a ≤ f b

def lo (f : α → β) (l : List α) (v : β) : ℕ := l.countP fun a => decide (f a < v)

def hi (f : α → β) (l : List α) (v : β) : ℕ := l.countP fun a => decide (f a ≤ v)

theorem lt_lo_iff (h : Sorted f l) (hk : k < l.length) : k < lo f l v ↔ f l[k] < v := by
  rw [lo,lt_countP_iff (h.imp fun hab hb => ?_) hk,decide_eq_true_eq]
  rw [decide_eq_true_eq] at hb ⊢
  exact hab.trans_lt hb

theorem lt_hi_iff (h : Sorted f l) (hk : k < l.length) : k < hi f l v ↔ f l[k] ≤ v := by
  rw [hi,lt_countP_iff (h.imp fun hab hb => ?_) hk,decide_eq_true_eq]
  rw [decide_eq_true_eq] at hb ⊢
  exact hab.trans hb

theorem key_eq_iff (h : Sorted f l) (hk : k < l.length) :
    f l[k] = v ↔ lo f l v ≤ k ∧ k < hi f l v := by
  rw [lt_hi_iff h hk,← not_lt,lt_lo_iff h hk,not_lt,le_antisymm_iff,and_comm]

theorem hi_le_length (f : α → β) (l : List α) (v : β) : hi f l v ≤ l.length := List.countP_le_length

theorem hi_le_lo (f : α → β) (l : List α) (h : v < w) : hi f l v ≤ lo f l w :=
  List.countP_mono_left fun _ _ ha => decide_eq_true ((of_decide_eq_true ha).trans_lt h)

end SortedRuns
