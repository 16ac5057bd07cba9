import GraphZeppelin.Lib.StridedLoop
import GraphZeppelin.Sketch.Basic

namespace GraphZeppelin.Sketch

variable {p : SketchParams} (xxh : XxHash)

def Hits (p : SketchParams) (b : Fin p.numBuckets) (idx : VecT) : Prop :=
  b = p.detBucket ∨ (b : ℕ) / p.bktPerCol < p.numColumns ∧
    Bucket.getIndexDepth xxh idx (p.columnSeed (b / p.bktPerCol)) p.bktPerCol = b % p.bktPerCol ∧
    0 < p.bktPerCol

instance (b : Fin p.numBuckets) (idx : VecT) : Decidable (Hits xxh p b idx) :=
  inferInstanceAs (Decidable (_ ∨ _))

def contribution (p : SketchParams) (idx : VecT) (b : Fin p.numBuckets) : Bucket :=
  if Hits xxh p b idx then Bucket.tag xxh p.checksumSeed idx else 0

theorem updateBucket_buckets (s : Sketch p) (b b' : Fin p.numBuckets) (idx : VecT) :
    (s.updateBucket b idx (Bucket.getIndexHash xxh idx p.checksumSeed)).buckets b' =
      s.buckets b' + if b' = b then Bucket.tag xxh p.checksumSeed idx else 0 := by
  by_cases h : b' = b
  · subst h
    simp [updateBucket,Bucket.update_eq_add]
  · simp [updateBucket,h]

theorem bucketId_ne_det (i : Fin p.numColumns) (j : Fin p.bktPerCol) :
    p.bucketId i j ≠ p.detBucket := by
  intro h
  have hv : (i : ℕ) * p.bktPerCol + j = p.numColumns * p.bktPerCol := congrArg Fin.val h
  have hi : ((i : ℕ) + 1) * p.bktPerCol ≤ p.numColumns * p.bktPerCol :=
    Nat.mul_le_mul_right _ i.isLt
  rw [Nat.add_mul] at hi
  omega

theorem bucketId_div (i : Fin p.numColumns) (j : Fin p.bktPerCol) :
    (p.bucketId i j : ℕ) / p.bktPerCol = i := by
  have hj := j.isLt
  change ((i : ℕ) * p.bktPerCol + j) / p.bktPerCol = i
  rw [Nat.mul_comm,Nat.mul_add_div (by omega),Nat.div_eq_of_lt hj,Nat.add_zero]

theorem bucketId_mod (i : Fin p.numColumns) (j : Fin p.bktPerCol) :
    (p.bucketId i j : ℕ) % p.bktPerCol = j := by
  change ((i : ℕ) * p.bktPerCol + j) % p.bktPerCol = j
  rw [Nat.mul_comm,Nat.mul_add_mod,Nat.mod_eq_of_lt j.isLt]

theorem eq_bucketId {b : Fin p.numBuckets} {i : Fin p.numColumns} {j : Fin p.bktPerCol}
    (hi : (b : ℕ) / p.bktPerCol = i) (hj : (b : ℕ) % p.bktPerCol = j) : b = p.bucketId i j := by
  refine Fin.ext ?_
  change (b : ℕ) = i * p.bktPerCol + j
  rw [← hi,← hj,Nat.mul_comm]
  exact (Nat.div_add_mod _ _).symm

theorem div_lt_of_ne_det {b : Fin p.numBuckets} (hb : b ≠ p.detBucket) :
    0 < p.bktPerCol ∧ (b : ℕ) / p.bktPerCol < p.numColumns := by
  have hlt : (b : ℕ) < p.numColumns * p.bktPerCol :=
    lt_of_le_of_ne (Nat.le_of_lt_succ b.isLt) fun h => hb (Fin.ext h)
  have hpos : 0 < p.bktPerCol := Nat.pos_of_ne_zero fun h => by simp [h] at hlt
  exact ⟨hpos,(Nat.div_lt_iff_lt_mul hpos).mpr hlt⟩

theorem updateColumn_buckets (s : Sketch p) (i : Fin p.numColumns) (b : Fin p.numBuckets)
    (idx : VecT) :
    (updateColumn xxh idx (Bucket.getIndexHash xxh idx p.checksumSeed) s i).buckets b =
      s.buckets b + if b ≠ p.detBucket ∧ (b : ℕ) / p.bktPerCol = i ∧ Hits xxh p b idx
        then Bucket.tag xxh p.checksumSeed idx else 0 := by
  by_cases h : Bucket.getIndexDepth xxh idx (p.columnSeed i) p.bktPerCol < p.bktPerCol
  · simp only [updateColumn,h,dif_pos]
    rw [updateBucket_buckets]
    congr 1
    refine if_congr ?_ rfl rfl
    constructor
    · rintro rfl
      refine ⟨bucketId_ne_det _ _,bucketId_div _ _,.inr ⟨?_,?_,by omega⟩⟩
      · rw [bucketId_div]
        exact i.isLt
      · rw [bucketId_div,bucketId_mod]
    · rintro ⟨hb,hi,hhit | ⟨_,hd,_⟩⟩
      · exact absurd hhit hb
      · rw [hi] at hd
        exact eq_bucketId hi hd.symm
  · simp only [updateColumn,h,dif_neg,not_false_eq_true]
    rw [if_neg,add_zero]
    rintro ⟨hb,hi,hhit | ⟨_,hd,hpos⟩⟩
    · exact hb hhit
    · rw [hi] at hd
      exact h (hd ▸ Nat.mod_lt _ hpos)

theorem foldl_updateColumn_buckets (l : List (Fin p.numColumns)) (hl : l.Nodup) (s : Sketch p)
    (b : Fin p.numBuckets) (idx : VecT) :
    (l.foldl (updateColumn xxh idx (Bucket.getIndexHash xxh idx p.checksumSeed)) s).buckets b =
      s.buckets b + if b ≠ p.detBucket ∧ (∃ i ∈ l, (b : ℕ) / p.bktPerCol = i) ∧ Hits xxh p b idx
        then Bucket.tag xxh p.checksumSeed idx else 0 := by
  induction l generalizing s with
  | nil => simp
  | cons i l ih =>
    obtain ⟨hi,hl⟩ := List.nodup_cons.mp hl
    rw [List.foldl_cons,ih hl,updateColumn_buckets,add_assoc]
    congr 1
    by_cases hb : b ≠ p.detBucket ∧ Hits xxh p b idx
    · by_cases hbi : (b : ℕ) / p.bktPerCol = i
      · have hnot : ¬ ∃ j ∈ l, (b : ℕ) / p.bktPerCol = j := by
          rintro ⟨j,hj,hbj⟩
          exact hi (Fin.ext (hbi.symm.trans hbj) ▸ hj)
        rw [if_pos ⟨hb.1,hbi,hb.2⟩,if_neg fun h => hnot h.2.1,add_zero,
          if_pos ⟨hb.1,⟨i,List.mem_cons_self,hbi⟩,hb.2⟩]
      · rw [if_neg fun h => hbi h.2.1,zero_add]
        refine if_congr (and_congr_right fun _ => and_congr_left fun _ => ?_) rfl rfl
        simp [hbi]
    · rw [if_neg fun h => hb ⟨h.1,h.2.2⟩,if_neg fun h => hb ⟨h.1,h.2.2⟩,
        if_neg fun h => hb ⟨h.1,h.2.2⟩,add_zero]

theorem update_buckets (s : Sketch p) (idx : VecT) :
    (s.update xxh idx).buckets = s.buckets + contribution xxh p idx := by
  funext b
  rw [update,foldl_updateColumn_buckets xxh _ (List.nodup_finRange _),updateBucket_buckets,
    Pi.add_apply,add_assoc,contribution]
  congr 1
  by_cases hb : b = p.detBucket
  · rw [if_pos hb,if_neg fun h => h.1 hb,add_zero,if_pos (.inl hb)]
  · rw [if_neg hb,zero_add]
    refine if_congr ⟨fun h => h.2.2,fun h => ⟨hb,?_,h⟩⟩ rfl rfl
    exact ⟨⟨_,(div_lt_of_ne_det hb).2⟩,List.mem_finRange _,rfl⟩

-- update counts the columns with an unsigned, which has 32 bits
theorem update_counts_columns (h : p.numColumns < 2 ^ 32) (s : Sketch p) (idx : VecT) :
    ∃ ids : List (Fin p.numColumns),
      StridedLoop.run (StridedLoop.unsigned 32) 1 p.numColumns (p.numColumns + 1) 0 =
        some (ids.map Fin.val) ∧
      s.update xxh idx = ids.foldl
        (updateColumn xxh idx (Bucket.getIndexHash xxh idx p.checksumSeed))
        (s.updateBucket p.detBucket idx (Bucket.getIndexHash xxh idx p.checksumSeed)) := by
  refine ⟨List.finRange p.numColumns,?_,rfl⟩
  rw [List.map_coe_finRange_eq_range]
  exact StridedLoop.run_range (StridedLoop.exact_unsigned h)

theorem update_sampleIdx (s : Sketch p) (idx : VecT) :
    (s.update xxh idx).sampleIdx = s.sampleIdx := by
  refine List.foldlRecOn (motive := fun t : Sketch p => t.sampleIdx = s.sampleIdx) _ _ rfl
    fun t ht i _ => ?_
  unfold updateColumn
  simp only
  split
  · exact ht
  · exact ht

theorem foldl_update_buckets (l : List VecT) (s : Sketch p) :
    (l.foldl (update xxh) s).buckets = s.buckets + (l.map (contribution xxh p)).sum := by
  induction l generalizing s with
  | nil => simp
  | cons i l ih => rw [List.foldl_cons,ih,update_buckets,List.map_cons,List.sum_cons,add_assoc]

@[simp] theorem mergeRawBucketBuffer_buckets (s : Sketch p) (raw : Fin p.numBuckets → Bucket) :
    (s.mergeRawBucketBuffer raw).buckets = s.buckets + raw := rfl

@[simp] theorem merge_buckets (s other : Sketch p) :
    (s.merge other).buckets = s.buckets + other.buckets := rfl

@[simp] theorem zeroContents_buckets (s : Sketch p) : s.zeroContents.buckets = 0 := rfl

@[simp] theorem resetSampleState_buckets (s : Sketch p) :
    s.resetSampleState.buckets = s.buckets := rfl

@[simp] theorem mergeRawBucketBuffer_sampleIdx (s : Sketch p) (raw : Fin p.numBuckets → Bucket) :
    (s.mergeRawBucketBuffer raw).sampleIdx = s.sampleIdx := rfl

def setBuckets (p : SketchParams) (S : Finset VecT) : Fin p.numBuckets → Bucket :=
  ∑ i ∈ S, contribution xxh p i

theorem setBuckets_apply (S : Finset VecT) (b : Fin p.numBuckets) :
    setBuckets xxh p S b = ∑ i ∈ S with Hits xxh p b i, Bucket.tag xxh p.checksumSeed i := by
  rw [setBuckets,Finset.sum_apply,Finset.sum_filter]
  rfl

theorem setBuckets_det (S : Finset VecT) :
    setBuckets xxh p S p.detBucket = ∑ i ∈ S, Bucket.tag xxh p.checksumSeed i := by
  rw [setBuckets_apply,Finset.filter_true_of_mem fun i _ => .inl rfl]

theorem foldl_update_odd (l : List VecT) (s : Sketch p) :
    (l.foldl (update xxh) s).buckets =
      s.buckets + setBuckets xxh p {i ∈ l.toFinset | Odd (l.count i)} := by
  rw [foldl_update_buckets,XorGroup.list_sum_eq_odd,setBuckets]

end GraphZeppelin.Sketch
