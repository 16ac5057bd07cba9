import GraphZeppelin.Sketch.Program
import GraphZeppelin.Sketch.Sampling

namespace GraphZeppelin.Sketch

variable {p : SketchParams} {xxh : XxHash} {S : Finset VecT} {s : Sketch p} {r : ℕ}

abbrev Cell (p : SketchParams) := Fin p.numColumns × Fin p.bktPerCol

def cells (p : SketchParams) (r : ℕ) (hr : r < p.numSamples) : List (Cell p) :=
  (List.finRange p.colsPerSample).flatMap fun i =>
    (List.finRange p.bktPerCol).map fun j => (p.windowColumn r hr i,j)

def lying (xxh : XxHash) (S : Finset VecT) (q : Cell p) : Finset VecT :=
  {i ∈ S | Bucket.getIndexDepth xxh i (p.columnSeed q.1) p.bktPerCol = q.2}

theorem window_eq_map (hr : r < p.numSamples) :
    window p r hr = (cells p r hr).map fun q => p.bucketId q.1 q.2 := by
  simp only [window,cells,List.map_flatMap,List.map_map]
  rfl

theorem isGood_sum_iff (hcf : CollisionFree xxh p S) {T : Finset VecT} (hT : T ⊆ S) :
    Bucket.isGood xxh (∑ i ∈ T, Bucket.tag xxh p.checksumSeed i) p.checksumSeed = true ↔
      T.card = 1 := by
  rw [Finset.card_eq_one]
  constructor
  · exact hcf.good T hT
  · rintro ⟨i,rfl⟩
    rw [Finset.sum_singleton]
    exact Bucket.isGood_tag xxh p.checksumSeed i

theorem isGood_bucketId_iff (hcf : CollisionFree xxh p S) (hs : s.buckets = setBuckets xxh p S)
    (q : Cell p) : (s.buckets (p.bucketId q.1 q.2)).isGood xxh p.checksumSeed = true ↔
      (lying xxh S q).card = 1 := by
  rw [hs,setBuckets_bucketId]
  exact isGood_sum_iff hcf (Finset.filter_subset _ S)

theorem alpha_bucketId (hs : s.buckets = setBuckets xxh p S) {q : Cell p} {i : VecT}
    (hq : lying xxh S q = {i}) : (s.buckets (p.bucketId q.1 q.2)).alpha = i := by
  have hsum : s.buckets (p.bucketId q.1 q.2) =
      ∑ j ∈ lying xxh S q, Bucket.tag xxh p.checksumSeed j := by
    rw [hs,setBuckets_bucketId]
    rfl
  rw [hsum,hq,Finset.sum_singleton]
  rfl

theorem find?_window (hcf : CollisionFree xxh p S) (hs : s.buckets = setBuckets xxh p S)
    (hr : r < p.numSamples) :
    (window p r hr).find? (fun b => (s.buckets b).isGood xxh p.checksumSeed) =
      ((cells p r hr).find? fun q => (lying xxh S q).card = 1).map fun q => p.bucketId q.1 q.2 := by
  have hgood : ∀ q : Cell p, (s.buckets (p.bucketId q.1 q.2)).isGood xxh p.checksumSeed =
      decide ((lying xxh S q).card = 1) := by
    intro q
    rw [Bool.eq_iff_iff,isGood_bucketId_iff hcf hs,decide_eq_true_eq]
  rw [window_eq_map,List.find?_map]
  simp only [Function.comp_def,hgood]

theorem mem_insertGood (xxh : XxHash) (s : Sketch p) (ret : Finset VecT) (b : Fin p.numBuckets)
    (i : VecT) : i ∈ s.insertGood xxh ret b ↔
      i ∈ ret ∨ (s.buckets b).isGood xxh p.checksumSeed = true ∧ (s.buckets b).alpha = i := by
  unfold insertGood
  split
  · rename_i hb
    rw [Finset.mem_insert,eq_comm,or_comm,and_iff_right hb]
  · rename_i hb
    exact (or_iff_left fun h => hb h.1).symm

theorem mem_foldl_insertGood (xxh : XxHash) (s : Sketch p) (l : List (Fin p.numBuckets))
    (ret : Finset VecT) (i : VecT) :
    i ∈ l.foldl (s.insertGood xxh) ret ↔
      i ∈ ret ∨ ∃ b ∈ l, (s.buckets b).isGood xxh p.checksumSeed = true ∧
        (s.buckets b).alpha = i := by
  induction l generalizing ret with
  | nil => simp
  | cons b l ih =>
    rw [List.foldl_cons,ih,mem_insertGood,or_assoc]
    simp only [List.mem_cons,exists_eq_or_imp]

theorem mem_isolated (hcf : CollisionFree xxh p S) (hs : s.buckets = setBuckets xxh p S)
    (hr : r < p.numSamples) (i : VecT) :
    i ∈ (window p r hr).foldl (s.insertGood xxh) ∅ ↔
      ∃ q ∈ cells p r hr, lying xxh S q = {i} := by
  rw [mem_foldl_insertGood,window_eq_map]
  simp only [Finset.notMem_empty,false_or,List.mem_map]
  constructor
  · rintro ⟨_,⟨q,hq,rfl⟩,hgood,halpha⟩
    obtain ⟨j,hj⟩ := Finset.card_eq_one.mp ((isGood_bucketId_iff hcf hs q).mp hgood)
    rw [alpha_bucketId hs hj] at halpha
    exact ⟨q,hq,halpha ▸ hj⟩
  · rintro ⟨q,hq,hi⟩
    refine ⟨_,⟨q,hq,rfl⟩,(isGood_bucketId_iff hcf hs q).mpr ?_,alpha_bucketId hs hi⟩
    rw [hi,Finset.card_singleton]

structure SampledAs (xxh : XxHash) (S : Finset VecT) (cs : List (Cell p)) (smp : SketchSample)
    (ex : ExhaustiveSketchSample) : Prop where
  code : ex.result = smp.result
  zero : smp.result = .zero ↔ S = ∅
  none : S = ∅ → ex.idxs = ∅
  single : ∀ i, S = {i} → smp = ⟨i,.good⟩ ∧ ex.idxs = {i}
  first : 2 ≤ S.card → ∀ q, cs.find? (fun q => (lying xxh S q).card = 1) = some q →
    lying xxh S q = {smp.idx} ∧ smp.result = .good
  fail : smp.result = .fail ↔ 2 ≤ S.card ∧ ∀ q ∈ cs, (lying xxh S q).card ≠ 1
  all : 2 ≤ S.card → ∀ i, i ∈ ex.idxs ↔ ∃ q ∈ cs, lying xxh S q = {i}

theorem sampledAs_empty (cs : List (Cell p)) : SampledAs xxh ∅ cs ⟨0,.zero⟩ ⟨∅,.zero⟩ := by
  refine ⟨rfl,⟨fun _ => rfl,fun _ => rfl⟩,fun _ => rfl,fun i h => ?_,fun h => ?_,⟨?_,?_⟩,fun h => ?_⟩
  · exact absurd h.symm (Finset.singleton_ne_empty i)
  · simp at h
  · exact fun h => by cases h
  · exact fun h => absurd h.1 (by simp)
  · simp at h

theorem sampledAs_single (cs : List (Cell p)) (i : VecT) :
    SampledAs xxh {i} cs ⟨i,.good⟩ ⟨{i},.good⟩ := by
  refine ⟨rfl,⟨(fun h => by cases h),fun h => ?_⟩,fun h => ?_,fun j h => ?_,fun h => ?_,⟨?_,?_⟩,
    fun h => ?_⟩
  · exact absurd h (Finset.singleton_ne_empty i)
  · exact absurd h (Finset.singleton_ne_empty i)
  · obtain rfl := Finset.singleton_injective h
    exact ⟨rfl,rfl⟩
  · simp at h
  · exact fun h => by cases h
  · exact fun h => absurd h.1 (by simp)
  · simp at h

theorem sampledAs_isolated {cs : List (Cell p)} {i : VecT} {ret : Finset VecT} (hS : 2 ≤ S.card)
    (hq : ∀ q, cs.find? (fun q => (lying xxh S q).card = 1) = some q → lying xxh S q = {i})
    (hex : ∃ q ∈ cs, (lying xxh S q).card = 1)
    (hret : ∀ i, i ∈ ret ↔ ∃ q ∈ cs, lying xxh S q = {i}) :
    SampledAs xxh S cs ⟨i,.good⟩ ⟨ret,.good⟩ := by
  refine ⟨rfl,⟨(fun h => by cases h),?_⟩,?_,?_,fun _ q h => ⟨hq q h,rfl⟩,⟨(fun h => by cases h),?_⟩,
    fun _ => hret⟩
  · rintro rfl
    simp at hS
  · rintro rfl
    simp at hS
  · rintro j rfl
    simp at hS
  · rintro ⟨_,hno⟩
    obtain ⟨q,hmem,hcard⟩ := hex
    exact absurd hcard (hno q hmem)

theorem sampledAs_fail {cs : List (Cell p)} (hS : 2 ≤ S.card)
    (hno : ∀ q ∈ cs, (lying xxh S q).card ≠ 1) : SampledAs xxh S cs ⟨0,.fail⟩ ⟨∅,.fail⟩ := by
  refine ⟨rfl,⟨(fun h => by cases h),?_⟩,fun _ => rfl,?_,?_,⟨fun _ => ⟨hS,hno⟩,fun _ => rfl⟩,?_⟩
  · rintro rfl
    simp at hS
  · rintro j rfl
    simp at hS
  · intro _ q hq
    have hcard := List.find?_some hq
    exact absurd (of_decide_eq_true hcard) (hno q (List.mem_of_find?_eq_some hq))
  · refine fun _ i => ⟨fun h => absurd h (Finset.notMem_empty i),?_⟩
    rintro ⟨q,hq,hi⟩
    exact absurd (hi ▸ Finset.card_singleton i) (hno q hq)

theorem sample_exhaustive_exact (hcf : CollisionFree xxh p S)
    (hs : s.buckets = setBuckets xxh p S) (hr : s.sampleIdx < p.numSamples) :
    ∃ smp ex, s.sample xxh = .ok ({ s with sampleIdx := s.sampleIdx + 1 },smp) ∧
      s.exhaustiveSample xxh = .ok ({ s with sampleIdx := s.sampleIdx + 1 },ex) ∧
      SampledAs xxh S (cells p s.sampleIdx hr) smp ex := by
  have hdet : s.buckets p.detBucket = ∑ i ∈ S, Bucket.tag xxh p.checksumSeed i := by
    rw [hs,setBuckets_det]
  have hzero : (s.buckets p.detBucket).alpha = 0 ∧ (s.buckets p.detBucket).gamma = 0 ↔ S = ∅ := by
    rw [← Bucket.eq_zero_iff,hs,det_eq_zero_iff hcf]
  have hgood : (s.buckets p.detBucket).isGood xxh p.checksumSeed = true ↔ S.card = 1 := by
    rw [hdet]
    exact isGood_sum_iff hcf (Finset.Subset.refl S)
  simp only [sample,exhaustiveSample,dif_neg (Nat.not_le.mpr hr)]
  by_cases hempty : S = ∅
  · rw [if_pos (hzero.mpr hempty),if_pos (hzero.mpr hempty)]
    subst hempty
    exact ⟨_,_,rfl,rfl,sampledAs_empty _⟩
  rw [if_neg (mt hzero.mp hempty),if_neg (mt hzero.mp hempty)]
  by_cases hone : S.card = 1
  · rw [if_pos (hgood.mpr hone),if_pos (hgood.mpr hone)]
    obtain ⟨i,rfl⟩ := Finset.card_eq_one.mp hone
    rw [hdet,Finset.sum_singleton]
    exact ⟨_,_,rfl,rfl,sampledAs_single _ i⟩
  rw [if_neg (mt hgood.mp hone),if_neg (mt hgood.mp hone)]
  have hS : 2 ≤ S.card := by
    have hpos := Finset.card_pos.mpr (Finset.nonempty_iff_ne_empty.mpr hempty)
    omega
  have hmem := mem_isolated hcf hs hr
  rw [find?_window hcf hs hr]
  cases hfind : (cells p s.sampleIdx hr).find? fun q => (lying xxh S q).card = 1 with
  | none =>
    have hno : ∀ q ∈ cells p s.sampleIdx hr, (lying xxh S q).card ≠ 1 := by
      intro q hq
      simpa using List.find?_eq_none.mp hfind q hq
    have hret : (window p s.sampleIdx hr).foldl (s.insertGood xxh) ∅ = ∅ := by
      refine Finset.eq_empty_of_forall_notMem fun i hi => ?_
      obtain ⟨q,hq,hqi⟩ := (hmem i).mp hi
      exact hno q hq (hqi ▸ Finset.card_singleton i)
    rw [hret,if_pos Finset.card_empty]
    exact ⟨_,_,rfl,rfl,sampledAs_fail hS hno⟩
  | some q =>
    have hq := List.mem_of_find?_eq_some hfind
    have hdec := List.find?_some hfind
    have hcard : (lying xxh S q).card = 1 := of_decide_eq_true hdec
    obtain ⟨i,hi⟩ := Finset.card_eq_one.mp hcard
    have hret : ((window p s.sampleIdx hr).foldl (s.insertGood xxh) ∅).card ≠ 0 :=
      Finset.card_ne_zero_of_mem ((hmem i).mpr ⟨q,hq,hi⟩)
    rw [if_neg hret]
    refine ⟨_,_,rfl,rfl,sampledAs_isolated hS (fun q' hq' => ?_) ⟨q,hq,hcard⟩ hmem⟩
    rw [hfind] at hq'
    cases hq'
    rw [alpha_bucketId hs hi,hi]

theorem exhaustiveSample_exhausted (xxh : XxHash) (h : p.numSamples ≤ s.sampleIdx) :
    s.exhaustiveSample xxh = .error ⟨p.seed,p.numSamples,s.sampleIdx⟩ := by
  rw [exhaustiveSample,dif_pos h]

theorem sample_specification (xxh : XxHash) (l : List VecT) {s : Sketch p}
    (hs : s.buckets = (l.foldl (update xxh) (empty p)).buckets)
    (hcf : CollisionFree xxh p {i ∈ l.toFinset | Odd (l.count i)}) :
    (∀ hr : s.sampleIdx < p.numSamples, ∃ smp ex,
      s.sample xxh = .ok ({ s with sampleIdx := s.sampleIdx + 1 },smp) ∧
      s.exhaustiveSample xxh = .ok ({ s with sampleIdx := s.sampleIdx + 1 },ex) ∧
      SampledAs xxh {i ∈ l.toFinset | Odd (l.count i)} (cells p s.sampleIdx hr) smp ex) ∧
    (s.sampleIdx < p.numSamples → ∀ i < p.colsPerSample, ∀ j < p.bktPerCol,
      (i + s.sampleIdx * p.colsPerSample) * p.bktPerCol + j < p.numBuckets) ∧
    (p.numSamples ≤ s.sampleIdx →
      s.sample xxh = .error ⟨p.seed,p.numSamples,s.sampleIdx⟩ ∧
      s.exhaustiveSample xxh = .error ⟨p.seed,p.numSamples,s.sampleIdx⟩) := by
  have hset : s.buckets = setBuckets xxh p {i ∈ l.toFinset | Odd (l.count i)} := by
    rw [hs,foldl_update_odd]
    exact zero_add _
  refine ⟨fun hr => sample_exhaustive_exact hcf hset hr,fun hr i hi j hj => ?_,fun h => ?_⟩
  · exact (p.bucketId (p.windowColumn s.sampleIdx hr ⟨i,hi⟩) ⟨j,hj⟩).isLt
  · exact ⟨sample_exhausted h,exhaustiveSample_exhausted xxh h⟩

theorem subset_pair_cases {a b : VecT} {T : Finset VecT} (h : T ⊆ {a,b}) :
    T = ∅ ∨ T = {a} ∨ T = {b} ∨ T = {a,b} := by
  have hset : (T : Set VecT) ⊆ {a,b} := by
    simpa using Finset.coe_subset.mpr h
  exact_mod_cast Set.subset_pair_iff_eq.mp hset

theorem CollisionFree.pair {a b : VecT} (h0 : Bucket.isGood xxh 0 p.checksumSeed = false)
    (ha : Bucket.tag xxh p.checksumSeed a ≠ 0) (hb : Bucket.tag xxh p.checksumSeed b ≠ 0)
    (hab : a ≠ b) (hgood : Bucket.isGood xxh (Bucket.tag xxh p.checksumSeed a +
      Bucket.tag xxh p.checksumSeed b) p.checksumSeed = false) : CollisionFree xxh p {a,b} := by
  have hsum : ∑ i ∈ {a,b}, Bucket.tag xxh p.checksumSeed i =
      Bucket.tag xxh p.checksumSeed a + Bucket.tag xxh p.checksumSeed b := Finset.sum_pair hab
  refine ⟨fun T hT h => ?_,fun T hT hne => ?_⟩
  · rcases subset_pair_cases hT with rfl | rfl | rfl | rfl
    · rw [Finset.sum_empty,h0] at h
      cases h
    · exact ⟨a,rfl⟩
    · exact ⟨b,rfl⟩
    · rw [hsum,hgood] at h
      cases h
  · rcases subset_pair_cases hT with rfl | rfl | rfl | rfl
    · exact absurd rfl hne.ne_empty
    · rw [Finset.sum_singleton]
      exact ha
    · rw [Finset.sum_singleton]
      exact hb
    · rw [hsum]
      exact fun h => hab (congrArg Bucket.alpha (XorGroup.eq_of_add_eq_zero h))

theorem CollisionFree.of_sublists {l : List VecT} (hl : l.Nodup)
    (hgood : ∀ m ∈ l.sublists, Bucket.isGood xxh (m.map (Bucket.tag xxh p.checksumSeed)).sum
      p.checksumSeed = true → m.length = 1)
    (hzero : ∀ m ∈ l.sublists, (m.map (Bucket.tag xxh p.checksumSeed)).sum = 0 → m = []) :
    CollisionFree xxh p l.toFinset := by
  have hsub {T : Finset VecT} (hT : T ⊆ l.toFinset) : ∃ m ∈ l.sublists, m.Nodup ∧ m.toFinset = T := by
    refine ⟨l.filter (· ∈ T),List.mem_sublists.mpr List.filter_sublist,hl.filter _,?_⟩
    ext i
    simp only [List.toFinset_filter,decide_eq_true_eq,Finset.mem_filter,and_iff_right_iff_imp]
    exact fun hi => hT hi
  refine ⟨fun T hT h => ?_,fun T hT hne h => ?_⟩
  · obtain ⟨m,hm,hnd,rfl⟩ := hsub hT
    rw [List.sum_toFinset _ hnd] at h
    obtain ⟨i,rfl⟩ := List.length_eq_one_iff.mp (hgood m hm h)
    exact ⟨i,by simp⟩
  · obtain ⟨m,hm,hnd,rfl⟩ := hsub hT
    rw [List.sum_toFinset _ hnd] at h
    rw [hzero m hm h] at hne
    exact absurd hne (by simp)

theorem sample_specification_pair :
    ∃ smp, ∃ ex : ExhaustiveSketchSample, Sketch.sample (fun x _ => 2 * x + 1)
        (([5,9,5,5] : List VecT).foldl (update fun x _ => 2 * x + 1) (empty ⟨0,2,1,3⟩)) =
      .ok ({ ([5,9,5,5] : List VecT).foldl (update fun x _ => 2 * x + 1) (empty ⟨0,2,1,3⟩) with
        sampleIdx := 1 },smp) ∧ smp.result = .fail ∧ ex.idxs = ∅ ∧ ex.result = smp.result := by
  have hS : {i ∈ ([5,9,5,5] : List VecT).toFinset | Odd (([5,9,5,5] : List VecT).count i)} =
      {5,9} := by decide
  have hcf : CollisionFree (fun x _ => 2 * x + 1) ⟨0,2,1,3⟩
      {i ∈ ([5,9,5,5] : List VecT).toFinset | Odd (([5,9,5,5] : List VecT).count i)} := by
    rw [hS]
    exact .pair rfl (by decide) (by decide) (by decide) rfl
  obtain ⟨smp,ex,hsmp,_,has⟩ :=
    (sample_specification (fun x _ => 2 * x + 1) [5,9,5,5] rfl hcf).1 (by decide)
  rw [hS] at has
  have hfail : smp.result = .fail := has.fail.mpr (by decide)
  refine ⟨smp,ex,hsmp,hfail,?_,has.code⟩
  refine Finset.eq_empty_of_forall_notMem fun i hi => ?_
  obtain ⟨q,hq,hqi⟩ := (has.all (by decide) i).mp hi
  exact (has.fail.mp hfail).2 q hq (hqi ▸ Finset.card_singleton i)

end GraphZeppelin.Sketch
