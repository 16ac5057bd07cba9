import GraphZeppelin.EdgeStore.Balance
import GraphZeppelin.EdgeStore.MergeExact

namespace GraphZeppelin.EdgeStore

variable {n : ℕ} {s : EdgeStore n} {src : Fin n} {xs ys zs : List (SubgraphTaggedUpdate n)}

def getEdges (s : EdgeStore n) : List (Fin n × Fin n) :=
  (List.finRange n).flatMap fun src => (s.adjlist src).map fun data => (src,data.dst)

def Listed (s : EdgeStore n) (src : Fin n) : Prop :=
  ∀ e ∈ s.adjlist src, s.getEdges.count (src,e.dst) = 1

structure SameEdges (s : EdgeStore n) (src : Fin n) (zs : List (SubgraphTaggedUpdate n))
    (joint apart : EdgeStore n) : Prop where
  same : ∀ e, e ∈ joint.adjlist src ↔ e ∈ apart.adjlist src
  once : (joint.adjlist src).Nodup ∧ (apart.adjlist src).Nodup
  num : joint.numEdges = apart.numEdges
  toggled : ∀ e, e ∈ joint.adjlist src ↔ Odd ((s.adjlist src).count e + zs.count e)
  listed : (∀ a ∈ s.adjlist src ++ zs, ∀ b ∈ s.adjlist src ++ zs, a.dst = b.dst → a = b) →
    joint.Listed src ∧ apart.Listed src

def merged (s : EdgeStore n) (src : Fin n) (zs : List (SubgraphTaggedUpdate n)) : EdgeStore n :=
  s.setBuffer src (mergeUpdates (s.adjlist src) (sortUpdates zs))

theorem count_getEdges (s : EdgeStore n) (src d : Fin n) :
    s.getEdges.count (src,d) = (s.adjlist src).countP fun e => e.dst = d := by
  rw [getEdges,List.count_flatMap,← Fin.sum_univ_def,Finset.sum_eq_single src]
  · rw [Function.comp_apply,List.count,List.countP_map]
    refine List.countP_congr fun e _ => ?_
    simp
  · intro v _ hv
    rw [Function.comp_apply,List.count_eq_zero]
    intro hmem
    obtain ⟨e,_,heq⟩ := List.mem_map.mp hmem
    exact hv (Prod.mk.inj heq).1
  · intro h
    exact absurd (Finset.mem_univ src) h

theorem listed_of_nodup (hnodup : (s.adjlist src).Nodup)
    (htag : ∀ a ∈ s.adjlist src, ∀ b ∈ s.adjlist src, a.dst = b.dst → a = b) : s.Listed src := by
  intro e he
  rw [count_getEdges,← List.count_eq_one_of_mem hnodup he,List.count]
  refine List.countP_congr fun e' he' => ?_
  rw [decide_eq_true_eq,beq_iff_eq]
  exact ⟨fun h => htag e' he' e he h,fun h => congrArg _ h⟩

theorem merged_adjlist (s : EdgeStore n) (src : Fin n) (zs : List (SubgraphTaggedUpdate n)) :
    (s.merged src zs).adjlist src = SwapMerge.merge (s.adjlist src) (sortUpdates zs) := by
  rw [merged,setBuffer_adjlist_self,mergeUpdates_eq]

theorem merged_nodup_iff_settled : ((s.merged src zs).adjlist src).Nodup ↔
    SwapMerge.Settled (s.adjlist src) (sortUpdates zs) := by
  rw [merged_adjlist,SwapMerge.nodup_merge_iff_settled]

theorem merged_nodup_iff (hbuffer : (s.adjlist src).Nodup) :
    ((s.merged src zs).adjlist src).Nodup ↔ SwapMerge.Cancellable (s.adjlist src) zs := by
  have hperm := sortUpdates_perm zs
  rw [merged_adjlist,SwapMerge.nodup_merge_iff hbuffer (sortUpdates_sorted zs)]
  exact ⟨fun h => h.perm hperm,fun h => h.perm hperm.symm⟩

theorem merged_merged_nodup (hbuffer : (s.adjlist src).Nodup)
    (h : SwapMerge.Cancellable (s.adjlist src) (xs ++ ys)) :
    (((s.merged src xs).merged src ys).adjlist src).Nodup := by
  rw [merged_adjlist,merged_adjlist]
  exact SwapMerge.nodup_merge_merge hbuffer (sortUpdates_sorted xs) (sortUpdates_sorted ys)
    (h.perm ((sortUpdates_perm xs).symm.append (sortUpdates_perm ys).symm))

theorem count_merged (s : EdgeStore n) (src : Fin n) (zs : List (SubgraphTaggedUpdate n))
    (e : SubgraphTaggedUpdate n) :
    (((s.merged src zs).adjlist src).count e : ZMod 2) = (s.adjlist src).count e + zs.count e := by
  rw [merged,setBuffer_adjlist_self,List.count,mergeUpdates_countP,(sortUpdates_perm zs).countP_eq]

theorem mem_iff_odd {l : List (SubgraphTaggedUpdate n)} {k : ℕ} {e : SubgraphTaggedUpdate n}
    (hl : l.Nodup) (hk : (l.count e : ZMod 2) = k) : e ∈ l ↔ Odd k := by
  rw [← ZMod.natCast_eq_one_iff_odd,← hk]
  by_cases he : e ∈ l
  · simp [he,List.count_eq_one_of_mem hl he]
  · simp [he,List.count_eq_zero_of_not_mem he]

theorem merged_numEdges (s : EdgeStore n) (src : Fin n) (zs : List (SubgraphTaggedUpdate n)) :
    (s.merged src zs).numEdges = ((s.numEdges + ((s.merged src zs).adjlist src).length -
      (s.adjlist src).length : ℤ) % 2 ^ 64).toNat := by
  rw [merged,setBuffer_adjlist_self]
  rfl

theorem insertAdjEdges_merged [NeZero n] (src : Fin n) (c : ℕ) (hm : s.trueMinSubgraph = s.curSubgraph)
    (hne : zs ≠ []) (htags : ∀ e ∈ zs, s.curSubgraph ≤ e.subgraph) :
    ∃ b, s.insertAdjEdges src c zs = .ok ((s.merged src zs).checkIfTooBig,b) :=
  ⟨_,insertAdjEdges_at src c hm hne htags⟩

theorem checkIfTooBig_numEdges (s : EdgeStore n) : s.checkIfTooBig.numEdges = s.numEdges := by
  unfold checkIfTooBig beginContraction
  split
  · rfl
  · split <;> rfl

theorem checkIfTooBig_maxEdges (s : EdgeStore n) : s.checkIfTooBig.maxEdges = s.maxEdges := by
  unfold checkIfTooBig beginContraction
  split
  · rfl
  · split <;> rfl

theorem checkIfTooBig_of_small (h : s.checkIfTooBig.numEdges < s.checkIfTooBig.maxEdges) :
    s.checkIfTooBig = s := by
  rw [checkIfTooBig_numEdges,checkIfTooBig_maxEdges] at h
  rw [checkIfTooBig,if_pos h]

theorem merged_small [NeZero n] (c : ℕ) (hm : s.trueMinSubgraph = s.curSubgraph) (hne : zs ≠ [])
    (htags : ∀ e ∈ zs, s.curSubgraph ≤ e.subgraph) (hnum : (s.adjlist src).length ≤ s.numEdges)
    (hsize : s.numEdges + zs.length < s.maxEdges) (hmax : s.maxEdges ≤ 2 ^ 64)
    (r : EdgeStore n × TaggedUpdateBatch n) (hr : s.insertAdjEdges src c zs = .ok r) :
    r.1.numEdges < r.1.maxEdges := by
  obtain ⟨b,hb⟩ := insertAdjEdges_merged src c hm hne htags
  rw [hr] at hb
  cases hb
  have hle := SwapMerge.length_merge_le (s.adjlist src) (sortUpdates zs)
  rw [(sortUpdates_perm zs).length_eq,← merged_adjlist] at hle
  rw [checkIfTooBig_numEdges,checkIfTooBig_maxEdges,merged_numEdges]
  have hmax' : (s.merged src zs).maxEdges = s.maxEdges := rfl
  rw [hmax']
  omega

theorem SameEdges.check {joint apart : EdgeStore n} (h : SameEdges s src zs joint apart) :
    SameEdges s src zs joint.checkIfTooBig apart.checkIfTooBig := by
  obtain ⟨hsame,honce,hnum,htoggled,hlisted⟩ := h
  have hget (t : EdgeStore n) : t.checkIfTooBig.Listed src ↔ t.Listed src := by
    unfold Listed getEdges
    rw [checkIfTooBig_adjlist]
  rw [← checkIfTooBig_adjlist joint] at hsame honce htoggled
  rw [← checkIfTooBig_adjlist apart] at hsame honce
  rw [← checkIfTooBig_numEdges joint,← checkIfTooBig_numEdges apart] at hnum
  refine ⟨hsame,honce,hnum,htoggled,fun htag => ?_⟩
  rw [hget,hget]
  exact hlisted htag

theorem sameEdges_merged (hjoint : ((s.merged src (xs ++ ys)).adjlist src).Nodup)
    (hapart : (((s.merged src xs).merged src ys).adjlist src).Nodup) :
    SameEdges s src (xs ++ ys) (s.merged src (xs ++ ys)) ((s.merged src xs).merged src ys) := by
  have hmem (e : SubgraphTaggedUpdate n) : e ∈ (s.merged src (xs ++ ys)).adjlist src ↔
      Odd ((s.adjlist src).count e + (xs ++ ys).count e) :=
    mem_iff_odd hjoint (by rw [count_merged,Nat.cast_add])
  have hmem' (e : SubgraphTaggedUpdate n) : e ∈ ((s.merged src xs).merged src ys).adjlist src ↔
      Odd ((s.adjlist src).count e + (xs ++ ys).count e) :=
    mem_iff_odd hapart (by
      rw [count_merged,count_merged,List.count_append,Nat.cast_add,Nat.cast_add,add_assoc])
  have hsame (e : SubgraphTaggedUpdate n) := (hmem e).trans (hmem' e).symm
  have hlength := ((List.perm_ext_iff_of_nodup hjoint hapart).mpr hsame).length_eq
  refine ⟨hsame,⟨hjoint,hapart⟩,?_,hmem,fun htag => ?_⟩
  · rw [merged_numEdges,merged_numEdges (s.merged src xs),merged_numEdges s src xs,hlength]
    omega
  · have hold (e : SubgraphTaggedUpdate n)
        (ho : Odd ((s.adjlist src).count e + (xs ++ ys).count e)) :
        e ∈ s.adjlist src ++ (xs ++ ys) := by
      rw [← List.count_append] at ho
      exact List.count_pos_iff.mp ho.pos
    exact ⟨listed_of_nodup hjoint fun a ha b hb =>
        htag a (hold a ((hmem a).mp ha)) b (hold b ((hmem b).mp hb)),
      listed_of_nodup hapart fun a ha b hb =>
        htag a (hold a ((hmem' a).mp ha)) b (hold b ((hmem' b).mp hb))⟩

def SplitsAlike [NeZero n] (s : EdgeStore n) (src : Fin n) (c : ℕ)
    (xs ys : List (SubgraphTaggedUpdate n)) : Prop :=
  ∃ joint first apart, s.insertAdjEdges src c (xs ++ ys) = .ok joint ∧
    s.insertAdjEdges src c xs = .ok first ∧ first.1.insertAdjEdges src c ys = .ok apart ∧
    SameEdges s src (xs ++ ys) joint.1 apart.1

theorem splitsAlike_iff [NeZero n] (c : ℕ) (hm : s.trueMinSubgraph = s.curSubgraph)
    (hxs : xs ≠ []) (hys : ys ≠ []) (htags : ∀ e ∈ xs ++ ys, s.curSubgraph ≤ e.subgraph)
    (hsmall : ∀ r, s.insertAdjEdges src c xs = .ok r → r.1.numEdges < r.1.maxEdges) :
    SplitsAlike s src c xs ys ↔ ((s.merged src (xs ++ ys)).adjlist src).Nodup ∧
      (((s.merged src xs).merged src ys).adjlist src).Nodup := by
  obtain ⟨b,hjoint⟩ := insertAdjEdges_merged src c hm
    (fun h => hxs (List.append_eq_nil_iff.mp h).1) htags
  obtain ⟨b₁,hfirst⟩ := insertAdjEdges_merged src c hm hxs
    fun e he => htags e (List.mem_append_left _ he)
  have hcheck := checkIfTooBig_of_small (hsmall _ hfirst)
  obtain ⟨b₂,hapart⟩ := insertAdjEdges_merged (s := s.merged src xs) src c hm hys
    fun e he => htags e (List.mem_append_right _ he)
  constructor
  · rintro ⟨joint,first,apart,hj,hf,ha,hsame⟩
    cases hjoint.symm.trans hj
    cases hfirst.symm.trans hf
    rw [hcheck] at ha
    cases hapart.symm.trans ha
    have honce := hsame.once
    rwa [checkIfTooBig_adjlist,checkIfTooBig_adjlist] at honce
  · rintro ⟨hj,ha⟩
    rw [← hcheck] at hapart
    exact ⟨_,_,_,hjoint,hfirst,hapart,hcheck.symm ▸ (sameEdges_merged hj ha).check⟩

theorem split_batch_iff [NeZero n] (c : ℕ) (hm : s.trueMinSubgraph = s.curSubgraph)
    (hxs : xs ≠ []) (hys : ys ≠ []) (htags : ∀ e ∈ xs ++ ys, s.curSubgraph ≤ e.subgraph)
    (hsmall : ∀ r, s.insertAdjEdges src c xs = .ok r → r.1.numEdges < r.1.maxEdges) :
    (SplitsAlike s src c xs ys ↔
      SwapMerge.Settled (s.adjlist src) (sortUpdates (xs ++ ys)) ∧
        SwapMerge.Settled ((s.merged src xs).adjlist src) (sortUpdates ys)) ∧
    ((s.adjlist src).Nodup →
      (SplitsAlike s src c xs ys ↔ SwapMerge.Cancellable (s.adjlist src) (xs ++ ys))) := by
  have hiff := splitsAlike_iff c hm hxs hys htags hsmall
  refine ⟨?_,fun hbuffer => ?_⟩
  · rw [hiff,merged_nodup_iff_settled,merged_nodup_iff_settled]
  · rw [hiff,merged_nodup_iff hbuffer]
    exact ⟨fun h => h.1,fun h => ⟨h,merged_merged_nodup hbuffer h⟩⟩

-- what inserting 2 and then 0 and 1 leaves
def unsortedStore : EdgeStore 8 := (new 8 100 0 4).setBuffer 0 [⟨0,0⟩,⟨0,2⟩,⟨0,1⟩]

theorem split_batch_unsorted : SplitsAlike unsortedStore 0 0 [⟨0,5⟩] [⟨0,6⟩] := by
  have hnew : ∀ w ∈ ([⟨0,5⟩] ++ [⟨0,6⟩] : List (SubgraphTaggedUpdate 8)),
      w ∉ unsortedStore.adjlist 0 := by
    decide
  exact ((split_batch_iff 0 rfl (by decide) (by decide) (by decide)
    (merged_small 0 rfl (by decide) (by decide) (by decide) (by decide) (by decide))).2
      (by decide)).mpr ⟨by decide,by decide,fun w hw hwb => absurd hwb (hnew w hw)⟩

theorem joint_batch_keeps_both :
    ¬ ∀ (n : ℕ) (_ : NeZero n) (s : EdgeStore n) (src : Fin n) (c : ℕ)
      (xs ys : List (SubgraphTaggedUpdate n)), s.trueMinSubgraph = s.curSubgraph → xs ≠ [] →
      ys ≠ [] → (∀ e ∈ xs ++ ys, s.curSubgraph ≤ e.subgraph) →
      (∀ r, s.insertAdjEdges src c xs = .ok r → r.1.numEdges < r.1.maxEdges) →
      (∀ r, s.insertAdjEdges src c (xs ++ ys) = .ok r → r.1.numEdges < r.1.maxEdges) →
      SplitsAlike s src c xs ys := by
  intro hclaim
  have hsplit := hclaim 4 inferInstance (new 4 100 0 4) 0 0 [⟨0,1⟩] [⟨0,1⟩] rfl (by decide)
    (by decide) (by decide)
    (merged_small 0 rfl (by decide) (by decide) (by decide) (by decide) (by decide))
    (merged_small 0 rfl (by decide) (by decide) (by decide) (by decide) (by decide))
  obtain ⟨b,hb⟩ := insertAdjEdges_merged (s := new 4 100 0 4) 0 0 rfl
    (show ([⟨0,1⟩] ++ [⟨0,1⟩] : List (SubgraphTaggedUpdate 4)) ≠ [] by decide) (by decide)
  obtain ⟨joint,_,_,hj,_,_,hsame⟩ := hsplit
  rw [hb] at hj
  cases hj
  have honce := hsame.once.1
  rw [checkIfTooBig_adjlist] at honce
  have hcancel := (merged_nodup_iff (by decide)).mp honce
  exact absurd (hcancel.outside ⟨0,1⟩ (by decide) (by decide)) (by decide)

end GraphZeppelin.EdgeStore
