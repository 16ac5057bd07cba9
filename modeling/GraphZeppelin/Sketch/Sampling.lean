import GraphZeppelin.Sketch.Linear

namespace GraphZeppelin.Sketch

variable {p : SketchParams} {xxh : XxHash}

structure CollisionFree (xxh : XxHash) (p : SketchParams) (S : Finset VecT) : Prop where
  good : ∀ T ⊆ S, Bucket.isGood xxh (∑ i ∈ T, Bucket.tag xxh p.checksumSeed i) p.checksumSeed →
    ∃ i, T = {i}
  zero : ∀ T ⊆ S, T.Nonempty → ∑ i ∈ T, Bucket.tag xxh p.checksumSeed i ≠ 0

def Holds (xxh : XxHash) (s : Sketch p) (r : ℕ) (S : Finset VecT) : Prop :=
  ∀ b, b = p.detBucket ∨ InRange p r 1 b → s.buckets b = setBuckets xxh p S b

theorem inRange_of_mem_window {r : ℕ} (hr : r < p.numSamples) {b : Fin p.numBuckets}
    (hb : b ∈ window p r hr) : InRange p r 1 b := by
  simp only [window,List.mem_flatMap,List.mem_map,List.mem_finRange,true_and] at hb
  obtain ⟨i,j,rfl⟩ := hb
  have hi : ((i : ℕ) + 1) * p.bktPerCol ≤ p.colsPerSample * p.bktPerCol :=
    Nat.mul_le_mul_right _ i.isLt
  have hj := j.isLt
  have hv : (p.bucketId (p.windowColumn r hr i) j : ℕ) =
      i * p.bktPerCol + r * p.colsPerSample * p.bktPerCol + j := by
    change ((i : ℕ) + r * p.colsPerSample) * p.bktPerCol + j = _
    rw [Nat.add_mul]
  rw [Nat.add_mul] at hi
  unfold InRange
  rw [hv,Nat.one_mul]
  omega

theorem mem_of_isGood {S : Finset VecT} (hcf : CollisionFree xxh p S) {b : Fin p.numBuckets}
    (hb : (setBuckets xxh p S b).isGood xxh p.checksumSeed = true) :
    (setBuckets xxh p S b).alpha ∈ S := by
  rw [setBuckets_apply] at hb ⊢
  obtain ⟨i,hi⟩ := hcf.good _ (Finset.filter_subset _ S) hb
  have hmem : i ∈ {j ∈ S | Hits xxh p b j} := hi ▸ Finset.mem_singleton_self i
  rw [hi,Finset.sum_singleton]
  exact Finset.mem_of_mem_filter i hmem

theorem det_eq_zero_iff {S : Finset VecT} (hcf : CollisionFree xxh p S) :
    setBuckets xxh p S p.detBucket = 0 ↔ S = ∅ := by
  rw [setBuckets_det]
  constructor
  · intro h
    by_contra hS
    exact hcf.zero S Finset.Subset.rfl (Finset.nonempty_iff_ne_empty.mpr hS) h
  · rintro rfl
    exact Finset.sum_empty

theorem CollisionFree.mono {S S' : Finset VecT} (h : CollisionFree xxh p S') (hS : S ⊆ S') :
    CollisionFree xxh p S :=
  ⟨fun T hT => h.good T (hT.trans hS),fun T hT => h.zero T (hT.trans hS)⟩

theorem CollisionFree.of_subset_singleton {S : Finset VecT} {i : VecT} (hS : S ⊆ {i})
    (h0 : Bucket.isGood xxh 0 p.checksumSeed = false) (hi : Bucket.tag xxh p.checksumSeed i ≠ 0) :
    CollisionFree xxh p S := by
  refine ⟨fun T hT hgood => ?_,fun T hT hne => ?_⟩
  · rcases Finset.subset_singleton_iff.mp (hT.trans hS) with rfl | rfl
    · rw [Finset.sum_empty,h0] at hgood
      cases hgood
    · exact ⟨i,rfl⟩
  · rcases Finset.subset_singleton_iff.mp (hT.trans hS) with rfl | rfl
    · exact absurd rfl hne.ne_empty
    · rw [Finset.sum_singleton]
      exact hi

structure SampleSpec (S : Finset VecT) (smp : SketchSample) : Prop where
  zero_iff : smp.result = .zero ↔ S = ∅
  good_mem : smp.result = .good → smp.idx ∈ S

theorem sample_spec {S : Finset VecT} (hcf : CollisionFree xxh p S) {s : Sketch p}
    (hr : s.sampleIdx < p.numSamples) (hs : Holds xxh s s.sampleIdx S) :
    ∃ smp, s.sample xxh = .ok ({ s with sampleIdx := s.sampleIdx + 1 },smp) ∧ SampleSpec S smp := by
  have hdet : s.buckets p.detBucket = setBuckets xxh p S p.detBucket := hs _ (.inl rfl)
  unfold sample
  rw [dif_neg (Nat.not_le.mpr hr)]
  simp only [hdet,← Bucket.eq_zero_iff,det_eq_zero_iff hcf]
  by_cases hS : S = ∅
  · rw [if_pos hS]
    exact ⟨_,rfl,⟨fun _ => hS,fun _ => rfl⟩,fun h => by cases h⟩
  rw [if_neg hS]
  split
  · next hgood =>
    exact ⟨_,rfl,⟨(fun h => by cases h),fun h => absurd h hS⟩,fun _ => mem_of_isGood hcf hgood⟩
  · split
    · next b hb =>
      have hw := inRange_of_mem_window hr (List.mem_of_find?_eq_some hb)
      have hgood := List.find?_some hb
      rw [hs b (.inr hw)] at hgood ⊢
      exact ⟨_,rfl,⟨(fun h => by cases h),fun h => absurd h hS⟩,fun _ => mem_of_isGood hcf hgood⟩
    · exact ⟨_,rfl,⟨(fun h => by cases h),fun h => absurd h hS⟩,fun h => by cases h⟩

theorem sample_exhausted {s : Sketch p} (h : p.numSamples ≤ s.sampleIdx) :
    s.sample xxh = .error ⟨p.seed,p.numSamples,s.sampleIdx⟩ := by
  rw [sample,dif_pos h]

theorem sample_det_zero {s : Sketch p} (hidx : s.sampleIdx < p.numSamples)
    (h : s.buckets p.detBucket = 0) :
    s.sample xxh = .ok ({ s with sampleIdx := s.sampleIdx + 1 },⟨0,.zero⟩) := by
  rw [sample,dif_neg (not_le.mpr hidx)]
  simp only
  rw [h,if_pos ⟨rfl,rfl⟩]

theorem sample_supplied (xxh : XxHash) {s : Sketch p} (h : s.sampleIdx < p.numSamples) :
    ∃ smp, s.sample xxh = .ok ({ s with sampleIdx := s.sampleIdx + 1 },smp) := by
  unfold sample
  rw [dif_neg (not_le.mpr h)]
  simp only
  split
  · exact ⟨_,rfl⟩
  · split
    · exact ⟨_,rfl⟩
    · split
      · exact ⟨_,rfl⟩
      · exact ⟨_,rfl⟩

theorem find?_isGood_congr (xxh : XxHash) {s t : Sketch p} {l : List (Fin p.numBuckets)}
    (h : ∀ b ∈ l, s.buckets b = t.buckets b) :
    (l.find? fun b => (s.buckets b).isGood xxh p.checksumSeed) =
      l.find? fun b => (t.buckets b).isGood xxh p.checksumSeed := by
  induction l with
  | nil => rfl
  | cons b l ih =>
    rw [List.find?_cons,List.find?_cons,h b List.mem_cons_self,
      ih fun c hc => h c (List.mem_cons_of_mem _ hc)]

theorem sample_congr {s t : Sketch p} (hidx : s.sampleIdx = t.sampleIdx)
    (h : ∀ b, b = p.detBucket ∨ InRange p s.sampleIdx 1 b → s.buckets b = t.buckets b) :
    (s.sample xxh).map Prod.snd = (t.sample xxh).map Prod.snd := by
  obtain ⟨i,bs⟩ := s
  obtain ⟨j,bt⟩ := t
  simp only at hidx h
  subst hidx
  have hdet := h _ (.inl rfl)
  by_cases hi : p.numSamples ≤ i
  · simp only [sample,dif_pos hi]
  · have hwin : ∀ b ∈ window p i (Nat.lt_of_not_le hi), bs b = bt b :=
      fun b hb => h b (.inr (inRange_of_mem_window _ hb))
    have hfind := find?_isGood_congr xxh (s := ⟨i,bs⟩) (t := ⟨i,bt⟩) hwin
    simp only [sample,dif_neg hi,hdet]
    split
    · rfl
    · split
      · rfl
      · simp only at hfind
        rw [hfind]
        cases hb : (window p i (Nat.lt_of_not_le hi)).find?
            fun b => (bt b).isGood xxh p.checksumSeed with
        | none => rfl
        | some b => simp only [Except.map,hwin b (List.mem_of_find?_eq_some hb)]

theorem sample_buckets {s s' : Sketch p} {smp : SketchSample} (h : s.sample xxh = .ok (s',smp)) :
    s'.buckets = s.buckets ∧ s'.sampleIdx = s.sampleIdx + 1 := by
  unfold sample at h
  split at h
  · cases h
  · simp only at h
    split at h
    · cases h
      exact ⟨rfl,rfl⟩
    · split at h
      · cases h
        exact ⟨rfl,rfl⟩
      · split at h <;> cases h <;> exact ⟨rfl,rfl⟩

end GraphZeppelin.Sketch
