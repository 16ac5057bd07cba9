import GraphZeppelin.Lib.SwapMerge
import GraphZeppelin.EdgeStore.Basic

namespace GraphZeppelin

variable {n : ℕ}

namespace SubgraphTaggedUpdate

def key (e : SubgraphTaggedUpdate n) : ℕ ×ₗ Fin n := toLex (e.subgraph,e.dst)

theorem key_injective : Function.Injective (key : SubgraphTaggedUpdate n → ℕ ×ₗ Fin n) := by
  intro a b h
  obtain ⟨s,d⟩ := a
  obtain ⟨s',d'⟩ := b
  have h' : (s,d) = (s',d') := toLex.injective h
  cases h'
  rfl

instance : LinearOrder (SubgraphTaggedUpdate n) := LinearOrder.lift' key key_injective

theorem lt_iff {a b : SubgraphTaggedUpdate n} : a < b ↔ a.lt b = true := by
  have h : a < b ↔ a.key < b.key := Iff.rfl
  rw [h,key,key,Prod.Lex.toLex_lt_toLex,lt]
  split
  · next heq => simp [heq]
  · next hne => simp [hne]

theorem gt_eq (a b : SubgraphTaggedUpdate n) : a.gt b = b.lt a := by
  rw [gt,lt]
  by_cases h : a.subgraph = b.subgraph
  · rw [if_pos h,if_pos h.symm]
  · rw [if_neg h,if_neg (Ne.symm h)]

end SubgraphTaggedUpdate

namespace EdgeStore

theorem mergeUpdates_eq (bs us : List (SubgraphTaggedUpdate n)) :
    mergeUpdates bs us = SwapMerge.merge bs us := by
  induction bs generalizing us with
  | nil => rw [mergeUpdates,SwapMerge.merge]
  | cons b bs ih =>
    cases us with
    | nil => rw [mergeUpdates,SwapMerge.merge]
    | cons u us =>
      rw [mergeUpdates,SwapMerge.merge,ih,ih,ih,SubgraphTaggedUpdate.gt_eq]
      simp only [SubgraphTaggedUpdate.lt_iff]

theorem mergeUpdates_mem {bs us : List (SubgraphTaggedUpdate n)} {e : SubgraphTaggedUpdate n}
    (he : e ∈ mergeUpdates bs us) : e ∈ bs ∨ e ∈ us := by
  rw [mergeUpdates_eq] at he
  exact SwapMerge.mem_of_mem_merge he

theorem mergeUpdates_countP (q : SubgraphTaggedUpdate n → Bool)
    (bs us : List (SubgraphTaggedUpdate n)) :
    ((mergeUpdates bs us).countP q : ZMod 2) = bs.countP q + us.countP q := by
  induction bs generalizing us with
  | nil => simp [mergeUpdates]
  | cons b bs ih =>
    cases us with
    | nil => simp [mergeUpdates]
    | cons u us =>
      rw [mergeUpdates]
      split
      · simp only [List.countP_cons,Nat.cast_add,ih]
        abel
      · next hg =>
        split
        · simp only [List.countP_cons,Nat.cast_add,ih]
          abel
        · next hl =>
          obtain rfl := SubgraphTaggedUpdate.eq_of_not_lt_gt (Bool.eq_false_of_not_eq_true hg)
            (Bool.eq_false_of_not_eq_true hl)
          rw [ih,List.countP_cons,List.countP_cons]
          push_cast
          rw [add_add_add_comm,CharTwo.add_self_eq_zero,add_zero]

theorem skipStale_eq {cur : ℕ} {l us : List (SubgraphTaggedUpdate n)}
    (hl : l.Pairwise fun a b => a.subgraph ≤ b.subgraph) (h : skipStale cur l = some us) :
    us = l.filter fun e => cur ≤ e.subgraph := by
  induction l with
  | nil => cases h
  | cons e l ih =>
    obtain ⟨hle,hl⟩ := List.pairwise_cons.mp hl
    rw [skipStale] at h
    split at h
    · next hlt => rw [ih hl h,List.filter_cons_of_neg (by simpa using hlt)]
    · next hge =>
      cases h
      refine (List.filter_eq_self.mpr fun e' he' => ?_).symm
      rw [decide_eq_true_eq]
      rcases List.mem_cons.mp he' with rfl | he'
      · exact not_lt.mp hge
      · exact (not_lt.mp hge).trans (hle e' he')

theorem mem_of_skipStale {cur : ℕ} {l us : List (SubgraphTaggedUpdate n)}
    {e : SubgraphTaggedUpdate n} (h : skipStale cur l = some us) (he : e ∈ us) : e ∈ l := by
  induction l with
  | nil => cases h
  | cons u l ih =>
    rw [skipStale] at h
    split at h
    · exact List.mem_cons_of_mem _ (ih h)
    · cases h
      exact he

theorem exists_skipStale {cur : ℕ} {l : List (SubgraphTaggedUpdate n)}
    (h : ∃ e ∈ l, cur ≤ e.subgraph) : ∃ us, skipStale cur l = some us := by
  induction l with
  | nil =>
    obtain ⟨e,he,_⟩ := h
    cases he
  | cons e l ih =>
    rw [skipStale]
    split
    · next hlt =>
      obtain ⟨e',he',hge⟩ := h
      rcases List.mem_cons.mp he' with rfl | he'
      · exact absurd hge (not_le.mpr hlt)
      · exact ih ⟨e',he',hge⟩
    · exact ⟨_,rfl⟩

theorem sortUpdates_perm (l : List (SubgraphTaggedUpdate n)) : (sortUpdates l).Perm l :=
  List.mergeSort_perm _ _

theorem not_lt_iff (a b : SubgraphTaggedUpdate n) : (!b.lt a) = true ↔
    a.subgraph < b.subgraph ∨ (a.subgraph = b.subgraph ∧ a.dst ≤ b.dst) := by
  unfold SubgraphTaggedUpdate.lt
  split
  · next h => simp [h]
  · next h =>
    simp only [Bool.not_eq_true',decide_eq_false_iff_not,not_lt]
    omega

theorem not_lt_trans {a b c : SubgraphTaggedUpdate n} (hab : (!b.lt a) = true)
    (hbc : (!c.lt b) = true) : (!c.lt a) = true := by
  rw [not_lt_iff] at hab hbc ⊢
  rcases hab with hab | ⟨hab,hab'⟩ <;> rcases hbc with hbc | ⟨hbc,hbc'⟩
  · exact .inl (hab.trans hbc)
  · exact .inl (hbc ▸ hab)
  · exact .inl (hab ▸ hbc)
  · exact .inr ⟨hab.trans hbc,hab'.trans hbc'⟩

theorem not_lt_total (a b : SubgraphTaggedUpdate n) : (!b.lt a || !a.lt b) = true := by
  rw [Bool.or_eq_true,not_lt_iff,not_lt_iff]
  rcases lt_trichotomy a.subgraph b.subgraph with h | h | h
  · exact .inl (.inl h)
  · rcases le_total a.dst b.dst with hd | hd
    · exact .inl (.inr ⟨h,hd⟩)
    · exact .inr (.inr ⟨h.symm,hd⟩)
  · exact .inr (.inl h)

theorem sortUpdates_ordered (l : List (SubgraphTaggedUpdate n)) :
    (sortUpdates l).Pairwise fun a b => (!b.lt a) = true :=
  List.pairwise_mergeSort (fun _ _ _ => not_lt_trans) not_lt_total l

theorem sortUpdates_pairwise (l : List (SubgraphTaggedUpdate n)) :
    (sortUpdates l).Pairwise fun a b => a.subgraph ≤ b.subgraph := by
  refine (sortUpdates_ordered l).imp fun {a b} hab => ?_
  rcases (not_lt_iff a b).mp hab with h | h
  · exact le_of_lt h
  · exact le_of_eq h.1

end EdgeStore
end GraphZeppelin
