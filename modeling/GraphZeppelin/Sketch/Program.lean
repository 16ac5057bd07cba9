import GraphZeppelin.Sketch.Linear

namespace GraphZeppelin.Sketch

variable {p : SketchParams} {ι : Type*} [DecidableEq ι] {xxh : XxHash}

inductive Instr (ι : Type*) where
  | update (k : ι) (idx : VecT)
  | merge (k other : ι)
  | mergeRaw (k other : ι)

def exec (xxh : XxHash) (st : ι → Sketch p) : Instr ι → ι → Sketch p
  | .update k idx => Function.update st k ((st k).update xxh idx)
  | .merge k other => Function.update st k ((st k).merge (st other))
  | .mergeRaw k other => Function.update st k ((st k).mergeRawBucketBuffer (st other).buckets)

def run (xxh : XxHash) (st : ι → Sketch p) (prog : List (Instr ι)) : ι → Sketch p :=
  prog.foldl (exec xxh) st

def flow (m : ι → Multiset VecT) : Instr ι → ι → Multiset VecT
  | .update k idx => Function.update m k (idx ::ₘ m k)
  | .merge k other => Function.update m k (m k + m other)
  | .mergeRaw k other => Function.update m k (m k + m other)

def reaching (prog : List (Instr ι)) : ι → Multiset VecT := prog.foldl flow fun _ => 0

def parity (m : Multiset VecT) : Finset VecT := {i ∈ m.toFinset | Odd (m.count i)}

theorem sum_contribution (m : Multiset VecT) :
    (m.map (contribution xxh p)).sum = setBuckets xxh p (parity m) := by
  induction m using Quotient.inductionOn with
  | _ l =>
    rw [Multiset.quot_mk_to_coe,Multiset.map_coe,Multiset.sum_coe,XorGroup.list_sum_eq_odd]
    simp only [setBuckets,parity,Multiset.coe_count]
    rfl

theorem exec_flow {st : ι → Sketch p} {m : ι → Multiset VecT}
    (h : ∀ k, (st k).buckets = ((m k).map (contribution xxh p)).sum) (i : Instr ι) (k : ι) :
    (exec xxh st i k).buckets = ((flow m i k).map (contribution xxh p)).sum := by
  cases i with
  | update k' idx =>
    by_cases hk : k = k'
    · subst hk
      simp only [exec,flow,Function.update_self]
      rw [update_buckets,h,Multiset.map_cons,Multiset.sum_cons,add_comm]
    · simp only [exec,flow,Function.update_of_ne hk,h]
  | merge k' other =>
    by_cases hk : k = k'
    · subst hk
      simp only [exec,flow,Function.update_self]
      rw [merge_buckets,h,h,Multiset.map_add,Multiset.sum_add]
    · simp only [exec,flow,Function.update_of_ne hk,h]
  | mergeRaw k' other =>
    by_cases hk : k = k'
    · subst hk
      simp only [exec,flow,Function.update_self]
      rw [mergeRawBucketBuffer_buckets,h,h,Multiset.map_add,Multiset.sum_add]
    · simp only [exec,flow,Function.update_of_ne hk,h]

theorem foldl_exec_flow (prog : List (Instr ι)) {st : ι → Sketch p} {m : ι → Multiset VecT}
    (h : ∀ k, (st k).buckets = ((m k).map (contribution xxh p)).sum) (k : ι) :
    (prog.foldl (exec xxh) st k).buckets =
      ((prog.foldl flow m k).map (contribution xxh p)).sum := by
  induction prog generalizing st m with
  | nil => exact h k
  | cons i prog ih => exact ih (exec_flow h i)

theorem run_buckets (xxh : XxHash) (prog : List (Instr ι)) {st : ι → Sketch p} (h : ∀ k, (st k).buckets = 0)
    (k : ι) : (run xxh st prog k).buckets = setBuckets xxh p (parity (reaching prog k)) := by
  rw [← sum_contribution]
  exact foldl_exec_flow prog (fun k => (h k).trans Multiset.sum_zero.symm) k

theorem hits_bucketId (c : Fin p.numColumns) (j : Fin p.bktPerCol) (idx : VecT) :
    Hits xxh p (p.bucketId c j) idx ↔
      Bucket.getIndexDepth xxh idx (p.columnSeed c) p.bktPerCol = j := by
  rw [Hits,bucketId_div,bucketId_mod,or_iff_right (bucketId_ne_det c j)]
  exact ⟨fun h => h.2.1,fun h => ⟨c.isLt,h,Nat.zero_lt_of_lt j.isLt⟩⟩

theorem setBuckets_bucketId (S : Finset VecT) (c : Fin p.numColumns) (j : Fin p.bktPerCol) :
    setBuckets xxh p S (p.bucketId c j) =
      ∑ i ∈ S with Bucket.getIndexDepth xxh i (p.columnSeed c) p.bktPerCol = j,
        Bucket.tag xxh p.checksumSeed i := by
  rw [setBuckets_apply]
  exact Finset.sum_congr (Finset.filter_congr fun i _ => hits_bucketId c j i) fun _ _ => rfl

theorem equal_iff (s t : Sketch p) : s.equal t = true ↔ s.buckets = t.buckets := by
  rw [equal,dif_pos ⟨rfl,rfl⟩,List.all_eq_true]
  simp only [Bool.and_eq_true,beq_iff_eq,Fin.cast_eq_self]
  constructor
  · intro h
    funext b
    exact Bucket.eq_of_fields (h b (List.mem_finRange b)).1 (h b (List.mem_finRange b)).2
  · rintro h b -
    exact ⟨congrArg Bucket.alpha (congrFun h b),congrArg Bucket.gamma (congrFun h b)⟩

theorem sketch_linearity (xxh : XxHash) (hdepth : p.bktPerCol < 64) {st : ι → Sketch p}
    (hzero : ∀ k, (st k).buckets = 0) (prog : List (Instr ι)) (k : ι) :
    (run xxh st prog k).buckets p.detBucket =
      ∑ i ∈ parity (reaching prog k), Bucket.tag xxh p.checksumSeed i ∧
    (∀ (c : Fin p.numColumns) (j : Fin p.bktPerCol), (run xxh st prog k).buckets (p.bucketId c j) =
      ∑ i ∈ parity (reaching prog k) with
        Bucket.getIndexDepth xxh i (p.columnSeed c) p.bktPerCol = j,
        Bucket.tag xxh p.checksumSeed i) ∧
    (∀ b, b = p.detBucket ∨ ∃ c j, b = p.bucketId c j) ∧
    (∀ i (c : Fin p.numColumns),
      Bucket.getIndexDepth xxh i (p.columnSeed c) p.bktPerCol ≤ p.bktPerCol) ∧
    (∀ (st' : ι → Sketch p) (prog' : List (Instr ι)) k', (∀ k, (st' k).buckets = 0) →
      parity (reaching prog' k') = parity (reaching prog k) →
      (run xxh st' prog' k').equal (run xxh st prog k) = true) ∧
    (∀ idx, (run xxh st (prog ++ [.update k idx,.update k idx]) k).equal
      (run xxh st prog k) = true) ∧
    (run xxh st (prog ++ [.merge k k]) k).buckets = 0 := by
  have hrun := run_buckets xxh prog hzero
  refine ⟨?_,fun c j => ?_,fun b => ?_,fun i c => ?_,fun st' prog' k' hzero' h => ?_,fun idx => ?_,?_⟩
  · rw [hrun,setBuckets_det]
  · rw [hrun,setBuckets_bucketId]
  · by_cases hb : b = p.detBucket
    · exact .inl hb
    · obtain ⟨hpos,hlt⟩ := div_lt_of_ne_det hb
      exact .inr ⟨⟨_,hlt⟩,⟨_,Nat.mod_lt _ hpos⟩,eq_bucketId rfl rfl⟩
  · exact Bucket.getIndexDepth_le xxh i (p.columnSeed c) hdepth
  · rw [equal_iff,hrun,run_buckets xxh prog' hzero',h]
  · rw [equal_iff,run,List.foldl_append]
    simp only [List.foldl_cons,List.foldl_nil,exec,Function.update_self]
    rw [update_buckets,update_buckets]
    exact XorGroup.add_add_cancel _ _
  · rw [run,List.foldl_append]
    simp only [List.foldl_cons,List.foldl_nil,exec,Function.update_self]
    rw [merge_buckets]
    exact XorGroup.add_self _

theorem sketch_linearity_three :
    (run (fun x _ => x + 1) (fun _ : Fin 2 => empty ⟨0,2,1,3⟩)
      [.update 0 5,.update 1 9,.merge 0 1,.mergeRaw 0 1,.update 0 5,.update 0 7] 0).equal
    (run (fun x _ => x + 1) (fun _ : Fin 2 => empty ⟨0,2,1,3⟩) [.update 1 7] 1) = true :=
  (sketch_linearity (p := ⟨0,2,1,3⟩) (fun x _ => x + 1) (by decide) (fun _ => rfl)
    [.update (1 : Fin 2) 7] 1).2.2.2.2.1 _ _ 0 (fun _ => rfl) (by decide)

end GraphZeppelin.Sketch
