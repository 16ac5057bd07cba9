import GraphZeppelin.Sketch.RangeMerge
import GraphZeppelin.Sketch.SampleExact

namespace GraphZeppelin.Sketch

variable {p : SketchParams} {xxh : XxHash} {s s' : Sketch p}

def mergeBucket (other s : Sketch p) (bucketId : ℕ) : Option (Sketch p) :=
  if h : bucketId < p.numBuckets then
    let b := s.buckets ⟨bucketId,h⟩
    let o := other.buckets ⟨bucketId,h⟩
    some { s with
      buckets := Function.update s.buckets ⟨bucketId,h⟩ ⟨b.alpha ^^^ o.alpha,b.gamma ^^^ o.gamma⟩ }
  else none

-- none stands for an access past the bucket array
def rangeMergeLoop (s other : Sketch p) (startSample nSamples : BitVec 64) : Option (Sketch p) :=
  if p.numSamples < (startSample + nSamples).toNat then some { s with sampleIdx := p.numSamples }
  else
    let startBucketId := startSample.toNat * p.colsPerSample * p.bktPerCol
    let nBuckets := nSamples.toNat * p.colsPerSample * p.bktPerCol
    ((p.numBuckets - 1) :: (List.range nBuckets).map (startBucketId + ·)).foldlM (mergeBucket other)
      { s with sampleIdx := max s.sampleIdx startSample.toNat }

inductive Call (p : SketchParams) where
  | update (updateIdx : VecT)
  | merge (other : Sketch p)
  | rangeMerge (other : Sketch p) (startSample nSamples : BitVec 64)
  | mergeRawBucketBuffer (rawBuckets : Fin p.numBuckets → Bucket)
  | sample
  | exhaustiveSample

def afterSample {ε α : Type} (s : Sketch p) : Except ε (Sketch p × α) → Sketch p
  | .error _ => s
  | .ok r => r.1

def Call.exec (xxh : XxHash) (s : Sketch p) : Call p → Option (Sketch p)
  | .update updateIdx => some (s.update xxh updateIdx)
  | .merge other => some (s.merge other)
  | .rangeMerge other startSample nSamples => s.rangeMergeLoop other startSample nSamples
  | .mergeRawBucketBuffer rawBuckets => some (s.mergeRawBucketBuffer rawBuckets)
  | .sample => some (s.afterSample (s.sample xxh))
  | .exhaustiveSample => some (s.afterSample (s.exhaustiveSample xxh))

def consecutive (xxh : XxHash) : ℕ → Sketch p → Except OutOfSamplesException SketchSample
  | 0, s => (s.sample xxh).map Prod.snd
  | k + 1, s =>
    match s.sample xxh with
    | .error err => .error err
    | .ok r => consecutive xxh k r.1

section Loop

theorem foldlM_mergeBucket (other : Sketch p) (l : List ℕ) (hl : l.Nodup)
    (hb : ∀ i ∈ l, i < p.numBuckets) (s : Sketch p) :
    l.foldlM (mergeBucket other) s = some { s with
      buckets := fun b => if (b : ℕ) ∈ l then s.buckets b + other.buckets b else s.buckets b } := by
  induction l generalizing s with
  | nil => rfl
  | cons i l ih =>
    obtain ⟨hi,hl⟩ := List.nodup_cons.mp hl
    rw [List.foldlM_cons,mergeBucket,dif_pos (hb i List.mem_cons_self)]
    refine (ih hl (fun j hj => hb j (List.mem_cons_of_mem _ hj)) _).trans ?_
    refine congrArg some (congrArg (Sketch.mk _) (funext fun b => ?_))
    by_cases hbi : (b : ℕ) = i
    · subst hbi
      simp only [if_neg hi,List.mem_cons,true_or,if_true,Function.update_self]
      rfl
    · have hne : b ≠ ⟨i,hb i List.mem_cons_self⟩ := fun e => hbi (congrArg Fin.val e)
      simp only [Function.update_of_ne hne,List.mem_cons,hbi,false_or]

theorem window_le {a m : ℕ} (h : a + m ≤ p.numSamples) :
    a * p.colsPerSample * p.bktPerCol + m * p.colsPerSample * p.bktPerCol ≤ p.numBuckets - 1 := by
  have hmul := Nat.mul_le_mul_right p.bktPerCol (Nat.mul_le_mul_right p.colsPerSample h)
  rw [Nat.add_mul,Nat.add_mul] at hmul
  exact hmul

theorem rangeMergeLoop_eq (s other : Sketch p) {startSample nSamples : BitVec 64}
    (h : startSample.toNat + nSamples.toNat < 2 ^ 64) :
    s.rangeMergeLoop other startSample nSamples =
      some (s.rangeMerge other startSample.toNat nSamples.toNat) := by
  have hsum : (startSample + nSamples).toNat = startSample.toNat + nSamples.toNat := by
    rw [BitVec.toNat_add,Nat.mod_eq_of_lt h]
  rw [rangeMergeLoop,rangeMerge,hsum]
  split
  · rfl
  · next hle =>
    have hwin := window_le (p := p) (not_lt.mp hle)
    have hdet : p.numBuckets - 1 < p.numBuckets := Nat.lt_succ_self _
    have hmem (b : ℕ) : b ∈ (p.numBuckets - 1) ::
        (List.range (nSamples.toNat * p.colsPerSample * p.bktPerCol)).map
          (startSample.toNat * p.colsPerSample * p.bktPerCol + ·) ↔ b = p.numBuckets - 1 ∨
        startSample.toNat * p.colsPerSample * p.bktPerCol ≤ b ∧
          b < startSample.toNat * p.colsPerSample * p.bktPerCol +
            nSamples.toNat * p.colsPerSample * p.bktPerCol := by
      simp only [List.mem_cons,List.mem_map,List.mem_range]
      refine or_congr_right ⟨?_,fun hb => ⟨b - startSample.toNat * p.colsPerSample * p.bktPerCol,?_,?_⟩⟩
      · rintro ⟨k,hk,rfl⟩
        omega
      · omega
      · omega
    rw [foldlM_mergeBucket other]
    · refine congrArg some (congrArg (Sketch.mk _) (funext fun b => if_congr ?_ rfl rfl))
      rw [hmem]
      exact or_congr_left ⟨fun hb => Fin.ext hb,congrArg Fin.val⟩
    · refine List.nodup_cons.mpr ⟨fun hin => ?_,?_⟩
      · obtain ⟨k,hk,he⟩ := List.mem_map.mp hin
        have := List.mem_range.mp hk
        omega
      · exact List.nodup_range.map fun _ _ he => Nat.add_left_cancel he
    · intro i hi
      rcases (hmem i).mp hi with rfl | ⟨_,hlt⟩
      · exact hdet
      · omega

end Loop

section Shortcut

theorem consecutive_eq (k : ℕ) (s : Sketch p) (h : s.sampleIdx + k < p.numSamples) :
    consecutive xxh k s = (({ s with sampleIdx := s.sampleIdx + k }).sample xxh).map Prod.snd := by
  induction k generalizing s with
  | zero => rfl
  | succ k ih =>
    obtain ⟨smp,hsmp⟩ := sample_supplied xxh (s := s) (by omega)
    rw [consecutive,hsmp]
    simp only
    rw [ih _ (by simp only; omega)]
    simp only [Nat.add_right_comm,Nat.add_assoc]

theorem foldl_merge (ss : List (Sketch p)) (s : Sketch p) :
    (ss.foldl merge s).buckets = s.buckets + (ss.map (·.buckets)).sum ∧
      (ss.foldl merge s).sampleIdx = s.sampleIdx := by
  induction ss generalizing s with
  | nil => exact ⟨(add_zero _).symm,rfl⟩
  | cons t ss ih =>
    obtain ⟨hb,hi⟩ := ih (s.merge t)
    rw [List.foldl_cons,List.map_cons,List.sum_cons,hb,hi,merge_buckets,add_assoc]
    exact ⟨rfl,rfl⟩

theorem foldl_rangeMerge (ss : List (Sketch p)) {r : ℕ} (hr : r ≤ p.numSamples) (s : Sketch p)
    (hs : s.sampleIdx ≤ r) :
    (ss.foldl (fun s t => s.rangeMerge t r 1) s).buckets =
      s.buckets + clip p r (ss.map (·.buckets)).sum ∧
    (ss.foldl (fun s t => s.rangeMerge t r 1) s).sampleIdx = if ss = [] then s.sampleIdx else r := by
  induction ss generalizing s with
  | nil => exact ⟨by rw [List.map_nil,List.sum_nil,map_zero,add_zero]; rfl,rfl⟩
  | cons t ss ih =>
    have hidx := rangeMerge_sampleIdx t hr hs
    obtain ⟨hb,hi⟩ := ih (s.rangeMerge t r 1) (le_of_eq hidx)
    rw [List.foldl_cons,List.map_cons,List.sum_cons,hb,hi,rangeMerge_buckets,map_add,add_assoc,
      hidx,ite_self,if_neg (List.cons_ne_nil t ss)]
    exact ⟨rfl,rfl⟩

theorem foldlM_rangeMergeLoop {r : BitVec 64} (hr : r.toNat + 1 < 2 ^ 64) (ss : List (Sketch p))
    (s : Sketch p) : ss.foldlM (fun s t => s.rangeMergeLoop t r 1#64) s =
      some (ss.foldl (fun s t => s.rangeMerge t r.toNat 1) s) := by
  induction ss generalizing s with
  | nil => rfl
  | cons t ss ih =>
    rw [List.foldlM_cons,rangeMergeLoop_eq s t hr]
    exact ih _

theorem rangeMerge_sample (s₀ : Sketch p) (ss : List (Sketch p)) {r : ℕ} (hr : r < p.numSamples) :
    ((ss.foldl (fun s t => s.rangeMerge t r 1) s₀.zeroContents).sample xxh).map Prod.snd =
      consecutive xxh r (ss.foldl merge s₀.zeroContents) := by
  obtain ⟨hfull,hfidx⟩ := foldl_merge ss s₀.zeroContents
  obtain ⟨hpart,hpidx⟩ := foldl_rangeMerge ss (le_of_lt hr) s₀.zeroContents (Nat.zero_le r)
  have hidx : (ss.foldl merge s₀.zeroContents).sampleIdx = 0 := hfidx
  rw [consecutive_eq r _ (by rw [hidx,Nat.zero_add]; exact hr),hidx,Nat.zero_add]
  cases ss with
  | nil =>
    rw [sample_det_zero (Nat.zero_lt_of_lt hr) rfl,sample_det_zero hr rfl]
    rfl
  | cons t ss =>
    rw [if_neg (List.cons_ne_nil t ss)] at hpidx
    refine sample_congr hpidx fun b hb => ?_
    rw [hpidx] at hb
    simp only
    rw [hpart,hfull,Pi.add_apply,Pi.add_apply,clip_apply,if_pos ⟨hr,hb⟩]

end Shortcut

section Exhausted

theorem afterSample_exhausted {ε α : Type} {res : Except ε (Sketch p × α)} {err : ε}
    (h : res = .error err) : s.afterSample res = s := by
  rw [h]
  rfl

theorem foldlM_mergeBucket_sampleIdx (other : Sketch p) (l : List ℕ) (s : Sketch p)
    (h : l.foldlM (mergeBucket other) s = some s') : s'.sampleIdx = s.sampleIdx := by
  induction l generalizing s with
  | nil =>
    cases h
    rfl
  | cons i l ih =>
    rw [List.foldlM_cons] at h
    obtain ⟨s₁,hs₁,hrest⟩ := Option.bind_eq_some_iff.mp h
    rw [mergeBucket] at hs₁
    split at hs₁
    · cases hs₁
      exact (ih _ hrest).trans rfl
    · cases hs₁

theorem Call.exec_exhausted (h : p.numSamples ≤ s.sampleIdx) (c : Call p)
    (hc : c.exec xxh s = some s') : p.numSamples ≤ s'.sampleIdx := by
  cases c with
  | update updateIdx =>
    cases hc
    rw [update_sampleIdx]
    exact h
  | merge other =>
    cases hc
    exact h
  | rangeMerge other startSample nSamples =>
    simp only [Call.exec,rangeMergeLoop] at hc
    split at hc
    · cases hc
      exact le_rfl
    · rw [foldlM_mergeBucket_sampleIdx other _ _ hc]
      exact h.trans (le_max_left _ _)
  | mergeRawBucketBuffer rawBuckets =>
    cases hc
    exact h
  | sample =>
    cases hc
    rw [afterSample_exhausted (sample_exhausted h)]
    exact h
  | exhaustiveSample =>
    cases hc
    rw [afterSample_exhausted (exhaustiveSample_exhausted xxh h)]
    exact h

theorem run_exhausted (calls : List (Call p)) (h : p.numSamples ≤ s.sampleIdx)
    (hrun : calls.foldlM (Call.exec xxh) s = some s') : p.numSamples ≤ s'.sampleIdx := by
  induction calls generalizing s with
  | nil =>
    cases hrun
    exact h
  | cons c calls ih =>
    rw [List.foldlM_cons] at hrun
    obtain ⟨s₁,hc,hrest⟩ := Option.bind_eq_some_iff.mp hrun
    exact ih (c.exec_exhausted h hc) hrest

end Exhausted

theorem range_merge_faithful (xxh : XxHash) (hp : p.numSamples < 2 ^ 64) :
    (∀ (s₀ : Sketch p) (ss : List (Sketch p)) (r : BitVec 64), r.toNat < p.numSamples →
      ∃ s, ss.foldlM (fun s t => s.rangeMergeLoop t r 1#64) s₀.zeroContents = some s ∧
        (s.sample xxh).map Prod.snd =
          consecutive xxh r.toNat (ss.foldl merge s₀.zeroContents)) ∧
    ∀ (s other : Sketch p) (a m : BitVec 64), a.toNat + m.toNat < 2 ^ 64 →
      (a.toNat + m.toNat ≤ p.numSamples → ∃ s', s.rangeMergeLoop other a m = some s' ∧
        s'.sampleIdx = max s.sampleIdx a.toNat ∧
        ∀ b, s'.buckets b = if b = p.detBucket ∨ InRange p a.toNat m.toNat b
          then s.buckets b + other.buckets b else s.buckets b) ∧
      (p.numSamples < a.toNat + m.toNat → ∃ s', s.rangeMergeLoop other a m = some s' ∧
        s'.buckets = s.buckets ∧
        ∀ (calls : List (Call p)) (s'' : Sketch p), calls.foldlM (Call.exec xxh) s' = some s'' →
          s''.sample xxh = .error ⟨p.seed,p.numSamples,s''.sampleIdx⟩ ∧
          (0 < p.numSamples → ∃ res, s''.resetSampleState.sample xxh = .ok res)) := by
  refine ⟨fun s₀ ss r hr => ?_,fun s other a m h => ⟨fun hle => ?_,fun hlt => ?_⟩⟩
  · exact ⟨_,foldlM_rangeMergeLoop (by omega) ss _,rangeMerge_sample s₀ ss hr⟩
  · refine ⟨_,rangeMergeLoop_eq s other h,?_,fun b => ?_⟩
    · rw [rangeMerge,if_neg (not_lt.mpr hle)]
    · rw [rangeMerge,if_neg (not_lt.mpr hle)]
      rfl
  · refine ⟨_,rangeMergeLoop_eq s other h,?_,fun calls s'' hrun => ?_⟩
    · rw [rangeMerge,if_pos hlt]
    · have hex : p.numSamples ≤ (s.rangeMerge other a.toNat m.toNat).sampleIdx := by
        rw [rangeMerge,if_pos hlt]
      refine ⟨sample_exhausted (run_exhausted calls hex hrun),fun hpos => ?_⟩
      obtain ⟨smp,hsmp⟩ := sample_supplied xxh (s := s''.resetSampleState) hpos
      exact ⟨_,hsmp⟩

def oddXxh : XxHash := fun x _ => 2 * x + 1

def oneUpdate (idx : VecT) : Sketch ⟨0,2,1,3⟩ := (empty _).update oddXxh idx

theorem range_merge_faithful_two :
    (∃ s, [oneUpdate 5,oneUpdate 9].foldlM (fun s t => s.rangeMergeLoop t 1 1#64)
        (empty ⟨0,2,1,3⟩).zeroContents = some s ∧
      (s.sample oddXxh).map Prod.snd = consecutive oddXxh 1
        ([oneUpdate 5,oneUpdate 9].foldl merge (empty ⟨0,2,1,3⟩).zeroContents)) ∧
    (∃ s, (oneUpdate 5).rangeMergeLoop (oneUpdate 9) 1 1 = some s ∧ s.sampleIdx = 1 ∧
      s.buckets 6 = (oneUpdate 5).buckets 6 + (oneUpdate 9).buckets 6 ∧
      s.buckets 0 = (oneUpdate 5).buckets 0) ∧
    ∃ s, (oneUpdate 5).rangeMergeLoop (oneUpdate 9) 1 2 = some s ∧
      s.buckets = (oneUpdate 5).buckets ∧ s.sample oddXxh = .error ⟨0,2,s.sampleIdx⟩ ∧
      ∃ res, s.resetSampleState.sample oddXxh = .ok res := by
  obtain ⟨hwindow,hrange⟩ := range_merge_faithful (p := ⟨0,2,1,3⟩) oddXxh (by decide)
  obtain ⟨s,hs,hidx,hbuckets⟩ := (hrange (oneUpdate 5) (oneUpdate 9) 1 1 (by decide)).1 (by decide)
  obtain ⟨s',hs',hsame,hcalls⟩ := (hrange (oneUpdate 5) (oneUpdate 9) 1 2 (by decide)).2 (by decide)
  obtain ⟨herror,hreset⟩ := hcalls [] s' rfl
  refine ⟨hwindow (empty _) _ 1 (by decide),⟨s,hs,hidx,?_,?_⟩,s',hs',hsame,herror,hreset (by decide)⟩
  · rw [hbuckets]
    exact if_pos (.inl rfl)
  · rw [hbuckets]
    exact if_neg (by decide)

end GraphZeppelin.Sketch
