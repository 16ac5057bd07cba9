import GraphZeppelin.EdgeStore.Merge

namespace GraphZeppelin.EdgeStore

variable {n : ℕ} {s : EdgeStore n} {src : Fin n} {batch : List (SubgraphTaggedUpdate n)}

def Increasing (l : List (SubgraphTaggedUpdate n)) : Prop := l.Pairwise fun a b => a.lt b = true

instance (l : List (SubgraphTaggedUpdate n)) : Decidable (Increasing l) :=
  inferInstanceAs (Decidable (List.Pairwise _ l))

structure Toggles (s : EdgeStore n) (src : Fin n) (batch : List (SubgraphTaggedUpdate n))
    (r : EdgeStore n × TaggedUpdateBatch n) : Prop where
  sorted : Increasing (r.1.adjlist src)
  mem : ∀ e, e ∈ r.1.adjlist src ↔ Xor (e ∈ s.adjlist src) (e ∈ batch)
  none : r.2.dstsData = []

def Undisplaced (buffer batch : List (SubgraphTaggedUpdate n)) : Prop :=
  ∀ u ∈ batch, ∀ w ∈ batch, u.lt w = true → (∃ e ∈ buffer, e.lt w = false) → u ∈ buffer

instance (buffer batch : List (SubgraphTaggedUpdate n)) : Decidable (Undisplaced buffer batch) :=
  inferInstanceAs (Decidable (∀ _ ∈ _, _))

theorem increasing_iff (l : List (SubgraphTaggedUpdate n)) :
    Increasing l ↔ l.Pairwise (· < ·) := by
  rw [Increasing]
  simp only [SubgraphTaggedUpdate.lt_iff]

theorem lt_false_iff {a b : SubgraphTaggedUpdate n} : a.lt b = false ↔ b ≤ a := by
  rw [← not_lt,SubgraphTaggedUpdate.lt_iff,Bool.not_eq_true]

theorem undisplaced_iff (buffer batch : List (SubgraphTaggedUpdate n)) :
    Undisplaced buffer batch ↔ SwapMerge.Orderly buffer batch := by
  unfold Undisplaced SwapMerge.Orderly
  simp only [SubgraphTaggedUpdate.lt_iff,lt_false_iff]

theorem sortUpdates_sorted (l : List (SubgraphTaggedUpdate n)) :
    (sortUpdates l).Pairwise (· ≤ ·) :=
  (sortUpdates_ordered l).imp fun h => lt_false_iff.mp (by simpa using h)

theorem sortUpdates_increasing (h : batch.Nodup) : Increasing (sortUpdates batch) := by
  have hnodup : (sortUpdates batch).Nodup := (sortUpdates_perm batch).nodup_iff.mpr h
  rw [increasing_iff]
  exact ((sortUpdates_sorted batch).and hnodup).imp fun {a b} ⟨hle,hne⟩ => lt_of_le_of_ne hle hne

theorem skipStale_of_le {cur : ℕ} {l : List (SubgraphTaggedUpdate n)} (hl : l ≠ [])
    (h : ∀ e ∈ l, cur ≤ e.subgraph) : skipStale cur l = some l := by
  cases l with
  | nil => exact absurd rfl hl
  | cons e l => rw [skipStale,if_neg (not_lt.mpr (h e List.mem_cons_self))]

theorem checkIfTooBig_adjlist (s : EdgeStore n) : s.checkIfTooBig.adjlist = s.adjlist := by
  unfold checkIfTooBig beginContraction
  split
  · rfl
  · split <;> rfl

-- the batch is handed back only to a caller that read an older subgraph number
theorem insertAdjEdges_at [NeZero n] (src : Fin n) (c : ℕ) (hm : s.trueMinSubgraph = s.curSubgraph)
    (hne : batch ≠ []) (htags : ∀ e ∈ batch, s.curSubgraph ≤ e.subgraph) :
    s.insertAdjEdges src c batch =
      .ok ((s.setBuffer src (mergeUpdates (s.adjlist src) (sortUpdates batch))).checkIfTooBig,
        ⟨src,s.curSubgraph - 1,s.curSubgraph,
          if c < s.curSubgraph then sortUpdates batch else []⟩) := by
  have hperm := sortUpdates_perm batch
  have hsort : sortUpdates batch ≠ [] := fun h => hne (by
    rw [h] at hperm
    exact hperm.symm.eq_nil)
  have hlt : ¬ s.trueMinSubgraph < s.curSubgraph := not_lt.mpr (ge_of_eq hm)
  have hskip := skipStale_of_le hsort fun e he => htags e (hperm.mem_iff.mp he)
  unfold insertAdjEdges insertLocked
  rw [if_neg hne]
  simp only [hlt,false_and,if_false,hskip]
  exact if_neg fun h => hlt h.2

theorem insertAdjEdges_settled [NeZero n] (src : Fin n) (batch : List (SubgraphTaggedUpdate n))
    (hm : s.trueMinSubgraph = s.curSubgraph) (hne : batch ≠ [])
    (htags : ∀ e ∈ batch, s.curSubgraph ≤ e.subgraph) :
    ∃ r, s.insertAdjEdges src s.curSubgraph batch = .ok r ∧ r.2.dstsData = [] ∧
      r.1.adjlist src = mergeUpdates (s.adjlist src) (sortUpdates batch) := by
  refine ⟨_,insertAdjEdges_at src s.curSubgraph hm hne htags,if_neg (lt_irrefl _),?_⟩
  rw [checkIfTooBig_adjlist]
  exact Function.update_self ..

theorem insert_toggles_iff [NeZero n] (hm : s.trueMinSubgraph = s.curSubgraph)
    (hbuffer : Increasing (s.adjlist src)) (hne : batch ≠ []) (hnodup : batch.Nodup)
    (htags : ∀ e ∈ batch, s.curSubgraph ≤ e.subgraph) :
    (∃ r, s.insertAdjEdges src s.curSubgraph batch = .ok r ∧ Toggles s src batch r) ↔
      Undisplaced (s.adjlist src) batch := by
  have hmem (e : SubgraphTaggedUpdate n) : e ∈ sortUpdates batch ↔ e ∈ batch :=
    (sortUpdates_perm batch).mem_iff
  have hsorted := (increasing_iff _).mp (sortUpdates_increasing hnodup)
  have hexact := SwapMerge.exact_merge_iff ((increasing_iff _).mp hbuffer) hsorted
  obtain ⟨r,hr,hnone,hadj⟩ := insertAdjEdges_settled src batch hm hne htags
  have hundisplaced : SwapMerge.Orderly (s.adjlist src) (sortUpdates batch) ↔
      Undisplaced (s.adjlist src) batch := by
    rw [undisplaced_iff]
    unfold SwapMerge.Orderly
    simp only [hmem]
  rw [← hundisplaced,← hexact,← mergeUpdates_eq,← hadj]
  constructor
  · rintro ⟨r',hr',h⟩
    rw [hr] at hr'
    cases hr'
    exact ⟨(increasing_iff _).mp h.sorted,fun e => (h.mem e).trans (by rw [hmem])⟩
  · rintro ⟨hinc,hset⟩
    exact ⟨r,hr,(increasing_iff _).mpr hinc,fun e => (hset e).trans (by rw [hmem]),hnone⟩

def storedEven : EdgeStore 4 := (new 4 100 0 0).setBuffer 0 [⟨0,0⟩,⟨0,2⟩]

theorem insert_toggles_iff_pair :
    ∃ r, storedEven.insertAdjEdges 0 0 [⟨0,3⟩,⟨0,1⟩] = .ok r ∧
      Toggles storedEven 0 [⟨0,3⟩,⟨0,1⟩] r :=
  (insert_toggles_iff (s := storedEven) rfl (by decide) (by decide) (by decide) (by decide)).mpr
    (by decide)

def storedPair : EdgeStore 4 := (new 4 100 0 0).setBuffer 0 [⟨0,2⟩,⟨0,3⟩]

theorem insert_misses_toggle :
    ¬ ∀ (n : ℕ) (_ : NeZero n) (s : EdgeStore n) (src : Fin n)
      (batch : List (SubgraphTaggedUpdate n)), s.trueMinSubgraph = s.curSubgraph →
      Increasing (s.adjlist src) → batch ≠ [] → batch.Nodup →
      (∀ e ∈ batch, s.curSubgraph ≤ e.subgraph) →
      ∃ r, s.insertAdjEdges src s.curSubgraph batch = .ok r ∧ Toggles s src batch r := by
  intro hclaim
  obtain ⟨r,hr,h⟩ := hclaim 4 inferInstance storedPair 0 [⟨0,1⟩,⟨0,3⟩] rfl (by decide) (by decide)
    (by decide) (by decide)
  obtain ⟨r',hr',_,hadj⟩ := insertAdjEdges_settled (s := storedPair) 0
    [⟨0,1⟩,⟨0,3⟩] rfl (by decide) (by decide)
  rw [hr] at hr'
  cases hr'
  have hsorted := h.sorted
  have hsort : sortUpdates ([⟨0,1⟩,⟨0,3⟩] : List (SubgraphTaggedUpdate 4)) = [⟨0,1⟩,⟨0,3⟩] :=
    List.mergeSort_of_pairwise (by decide)
  rw [hadj,hsort] at hsorted
  exact absurd hsorted (by decide)

end GraphZeppelin.EdgeStore
