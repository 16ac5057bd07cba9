import GraphZeppelin.Gpu.Kernel

namespace GraphZeppelin.Gpu.Kernel

open FoldExcept StridedLoop

theorem bucketGetIndexDepth_eq (xxh : XxHash) (idx : VecT) (seed : BitVec 64) {maxDepth : ℕ}
    (h : maxDepth < 64) :
    bucketGetIndexDepth xxh idx seed maxDepth = Bucket.getIndexDepth xxh idx seed maxDepth := by
  have hle := Bucket.getIndexDepth_le xxh idx seed h
  unfold Bucket.getIndexDepth Bucket.ctzll at hle ⊢
  unfold bucketGetIndexDepth ffsll
  cases hfind : (List.range 64).find? ((xxh idx seed ||| (1#64 <<< maxDepth)).getLsbD ·) with
  | none =>
    rw [hfind,Option.getD_none] at hle
    omega
  | some k => rfl

theorem deviceConcatPairingFn_eq (i j : NodeId) :
    deviceConcatPairingFn i j = concatPairingFn i j := by
  unfold deviceConcatPairingFn concatPairingFn
  split <;> rfl

def Shared.at (m : Shared) (k : ℕ) : Bucket := ⟨m.bucketA k,m.bucketC k⟩

namespace SharedOp

def IsXor : SharedOp → Prop
  | .zeroA _ | .zeroC _ => False
  | .xorA _ _ | .xorC _ _ => True

def IsZero : SharedOp → Prop
  | .zeroA _ | .zeroC _ => True
  | .xorA _ _ | .xorC _ _ => False

def effect (k : ℕ) : SharedOp → Bucket
  | .zeroA _ | .zeroC _ => 0
  | .xorA i value => if k = i then ⟨value,0⟩ else 0
  | .xorC i value =>
    (if k = i then ⟨0,value.setWidth 32⟩ else 0) +
      if k = i + 1 then ⟨0,(value >>> 32).setWidth 32⟩ else 0

theorem apply_at (m : Shared) {op : SharedOp} (h : op.IsXor) (k : ℕ) :
    (op.apply m).at k = m.at k + op.effect k := by
  cases op with
  | zeroA i => cases h
  | zeroC i => cases h
  | xorA i value =>
    unfold apply effect Shared.at
    rcases eq_or_ne k i with rfl | hne
    · simp only [Function.update_self,if_pos]
      exact Bucket.eq_of_fields rfl BitVec.xor_zero.symm
    · simp only [Function.update_of_ne hne,if_neg hne,add_zero]
  | xorC i value =>
    unfold apply effect Shared.at
    rcases eq_or_ne k i with rfl | hne
    · have hne' : k ≠ k + 1 := Nat.ne_of_lt (Nat.lt_succ_self k)
      simp only [Function.update_of_ne hne',Function.update_self,if_pos,if_neg hne',add_zero]
      exact Bucket.eq_of_fields BitVec.xor_zero.symm rfl
    · rcases eq_or_ne k (i + 1) with rfl | hne'
      · simp only [Function.update_self,if_pos,if_neg hne,zero_add]
        exact Bucket.eq_of_fields BitVec.xor_zero.symm rfl
      · simp only [Function.update_of_ne hne',Function.update_of_ne hne,if_neg hne,if_neg hne',
          add_zero]

theorem foldl_apply_at {ops : List SharedOp} (h : ∀ op ∈ ops, op.IsXor) (m : Shared) (k : ℕ) :
    (ops.foldl apply m).at k = m.at k + (ops.map (effect k)).sum := by
  induction ops generalizing m with
  | nil => simp
  | cons op ops ih =>
    obtain ⟨hop,hops⟩ := List.forall_mem_cons.mp h
    rw [List.foldl_cons,ih hops,apply_at m hop,List.map_cons,List.sum_cons,add_assoc]

theorem foldl_zero {ops : List SharedOp} (h : ∀ op ∈ ops, op.IsZero) (m : Shared) {k : ℕ}
    (hA : .zeroA k ∈ ops ∨ m.bucketA k = 0) (hC : .zeroC k ∈ ops ∨ m.bucketC k = 0) :
    (ops.foldl apply m).at k = 0 := by
  induction ops generalizing m with
  | nil =>
    rcases hA with hA | hA
    · cases hA
    · rcases hC with hC | hC
      · cases hC
      · exact Bucket.eq_of_fields hA hC
  | cons op ops ih =>
    obtain ⟨hop,hops⟩ := List.forall_mem_cons.mp h
    rw [List.foldl_cons]
    cases op with
    | xorA i value => cases hop
    | xorC i value => cases hop
    | zeroA i =>
      apply ih hops
      · rcases eq_or_ne k i with rfl | hne
        · exact .inr (Function.update_self ..)
        · refine hA.imp (fun hmem => ?_) fun hm => (Function.update_of_ne hne ..).trans hm
          exact (List.mem_cons.mp hmem).resolve_left fun heq => hne (zeroA.inj heq)
      · exact hC.imp_left fun hmem => (List.mem_cons.mp hmem).resolve_left (by simp)
    | zeroC i =>
      apply ih hops
      · exact hA.imp_left fun hmem => (List.mem_cons.mp hmem).resolve_left (by simp)
      · rcases eq_or_ne k i with rfl | hne
        · exact .inr (Function.update_self ..)
        · refine hC.imp (fun hmem => ?_) fun hm => (Function.update_of_ne hne ..).trans hm
          exact (List.mem_cons.mp hmem).resolve_left fun heq => hne (zeroC.inj heq)

end SharedOp

theorem high_zero (hash : VecHash) : hash.setWidth 64 >>> 32 = 0 := by
  apply BitVec.eq_of_toNat_eq
  have hlt := hash.isLt
  have hzero : (0 : VecT).toNat = 0 := rfl
  simp only [hzero,BitVec.toNat_setWidth,BitVec.toNat_ushiftRight,Nat.shiftRight_eq_div_pow]
  omega

theorem low_setWidth (hash : VecHash) : (hash.setWidth 64).setWidth 32 = hash := by
  rw [BitVec.setWidth_setWidth_of_le _ (by decide),BitVec.setWidth_eq]

theorem bucketUpdate_isXor (i : ℕ) (idx : VecT) (hash : VecHash) :
    ∀ op ∈ bucketUpdate i idx hash, op.IsXor := by
  intro op hop
  simp only [bucketUpdate,List.mem_cons,List.not_mem_nil,or_false] at hop
  rcases hop with rfl | rfl
  · trivial
  · trivial

theorem bucketUpdate_effect (i : ℕ) (idx : VecT) (hash : VecHash) (k : ℕ) :
    ((bucketUpdate i idx hash).map (SharedOp.effect k)).sum =
      if k = i then ⟨idx,hash⟩ else 0 := by
  simp only [bucketUpdate,List.map_cons,List.map_nil,List.sum_cons,List.sum_nil,add_zero,
    SharedOp.effect,high_zero,low_setWidth]
  have hzero : (⟨0,BitVec.setWidth 32 (0 : VecT)⟩ : Bucket) = 0 := rfl
  rw [hzero,ite_self,add_zero]
  split
  · exact Bucket.eq_of_fields BitVec.xor_zero BitVec.zero_xor
  · rfl

section Update

variable {xxh : XxHash} {p : SketchParams} {extra : ℕ} {batches : Batches}

def edgeOf (batches : Batches) (batchId updateId : ℕ) : VecT :=
  concatPairingFn (batches.updateSrc batchId)
    (batches.edgeUpdates (batches.updateStartIndex batchId + updateId))

def columnEffect (xxh : XxHash) (p : SketchParams) (idx : VecT) (k columnId : ℕ) : Bucket :=
  (if columnId = 0 ∧ k = p.numBuckets - 1 then Bucket.tag xxh p.checksumSeed idx else 0) +
    if Bucket.getIndexDepth xxh idx (p.columnSeed columnId) p.bktPerCol < p.bktPerCol ∧
        k = columnId * p.bktPerCol +
          Bucket.getIndexDepth xxh idx (p.columnSeed columnId) p.bktPerCol then
      Bucket.tag xxh p.checksumSeed idx
    else 0

theorem updateOps_isXor (cudaXxh : XxHash) (batches : Batches) (p : SketchParams)
    (batchId id : ℕ) : ∀ op ∈ updateOps cudaXxh batches p batchId id, op.IsXor := by
  intro op hop
  unfold updateOps at hop
  rcases List.mem_append.mp hop with hop | hop
  · split at hop
    · exact bucketUpdate_isXor _ _ _ op hop
    · cases hop
  · split at hop
    · exact bucketUpdate_isXor _ _ _ op hop
    · cases hop

theorem columnSeed_eq (launch : Launch p extra) {columnId : ℕ} (hcol : columnId < p.numColumns)
    (hbkt : 0 < p.bktPerCol) :
    p.seed + (BitVec.ofNat 32 (columnId * 5)).signExtend 64 = p.columnSeed columnId := by
  have hshared := launch.sharedBytes
  unfold maxBytes at hshared
  have hle : p.numColumns ≤ p.numColumns * p.bktPerCol := Nat.le_mul_of_pos_right _ hbkt
  have hbuckets : p.numBuckets = p.numColumns * p.bktPerCol + 1 := rfl
  rw [signExtend_ofNat (by omega)]
  rfl

theorem updateOps_effect (launch : Launch p extra) (hbkt : p.bktPerCol < 64) (batchId : ℕ)
    {columnId : ℕ} (hcol : columnId < p.numColumns) (updateId k : ℕ) :
    ((updateOps xxh batches p batchId (updateId * p.numColumns + columnId)).map
        (SharedOp.effect k)).sum =
      columnEffect xxh p (edgeOf batches batchId updateId) k columnId := by
  have hmod : (updateId * p.numColumns + columnId) % p.numColumns = columnId := by
    rw [Nat.mul_comm,Nat.mul_add_mod,Nat.mod_eq_of_lt hcol]
  have hdiv : (updateId * p.numColumns + columnId) / p.numColumns = updateId := by
    rw [Nat.mul_comm,Nat.mul_add_div (by omega),Nat.div_eq_of_lt hcol,Nat.add_zero]
  unfold updateOps columnEffect
  simp only [hmod,hdiv,deviceConcatPairingFn_eq]
  rw [← edgeOf,bucketGetIndexDepth_eq _ _ _ hbkt,List.map_append,List.sum_append]
  congr 1
  · by_cases hzero : columnId = 0
    · rw [if_pos hzero,bucketUpdate_effect]
      exact if_congr (iff_and_self.mpr fun _ => hzero) rfl rfl
    · rw [if_neg hzero,if_neg fun h => hzero h.1]
      rfl
  · rcases Nat.eq_zero_or_pos p.bktPerCol with hnone | hpos
    · simp [hnone]
    · rw [columnSeed_eq launch hcol hpos]
      by_cases hdepth :
          Bucket.getIndexDepth xxh (edgeOf batches batchId updateId) (p.columnSeed columnId)
            p.bktPerCol < p.bktPerCol
      · rw [if_pos hdepth,bucketUpdate_effect]
        exact if_congr (iff_and_self.mpr fun _ => hdepth) rfl rfl
      · rw [if_neg hdepth,if_neg fun h => hdepth h.1]
        rfl

theorem sum_columnEffect (hcols : 0 < p.numColumns) (idx : VecT) (k : Fin p.numBuckets) :
    ∑ columnId ∈ Finset.range p.numColumns, columnEffect xxh p idx k columnId =
      Sketch.contribution xxh p idx k := by
  have hlast : (k : ℕ) = p.numBuckets - 1 ↔ k = p.detBucket :=
    ⟨fun h => Fin.ext h,fun h => h ▸ rfl⟩
  unfold columnEffect
  rw [Finset.sum_add_distrib,Finset.sum_eq_single 0 (fun c _ hc => if_neg fun h => hc h.1)
    (fun h => absurd (Finset.mem_range.mpr hcols) h)]
  by_cases hdet : k = p.detBucket
  · rw [if_pos ⟨rfl,hlast.mpr hdet⟩,Finset.sum_eq_zero,add_zero,Sketch.contribution,
      if_pos (.inl hdet)]
    intro c hc
    rw [if_neg]
    rintro ⟨hdepth,hk⟩
    have hbucket : k = p.bucketId ⟨c,Finset.mem_range.mp hc⟩ ⟨_,hdepth⟩ := Fin.ext hk
    exact Sketch.bucketId_ne_det _ _ (hbucket.symm.trans hdet)
  · obtain ⟨hpos,hcol⟩ := Sketch.div_lt_of_ne_det hdet
    rw [if_neg fun h => hdet (hlast.mp h.2),zero_add,
      Finset.sum_eq_single ((k : ℕ) / p.bktPerCol),Sketch.contribution]
    · refine if_congr ?_ rfl rfl
      have hk := Nat.div_add_mod (k : ℕ) p.bktPerCol
      rw [Nat.mul_comm] at hk
      constructor
      · rintro ⟨_,heq⟩
        exact .inr ⟨hcol,by omega,hpos⟩
      · rintro (h | ⟨_,hdepth,_⟩)
        · exact absurd h hdet
        · exact ⟨hdepth ▸ Nat.mod_lt _ hpos,by omega⟩
    · intro c _ hc
      rw [if_neg]
      rintro ⟨hdepth,hk⟩
      refine hc ?_
      rw [hk,Nat.mul_comm,Nat.mul_add_div hpos,Nat.div_eq_of_lt hdepth,Nat.add_zero]
    · intro h
      exact absurd (Finset.mem_range.mpr hcol) h

theorem sum_map_flatMap {α β M : Type*} [AddCommMonoid M] (l : List α) (f : α → List β) (e : β → M) :
    ((l.flatMap f).map e).sum = (l.map fun a => ((f a).map e).sum).sum := by
  induction l with
  | nil => rfl
  | cons a l ih =>
    rw [List.flatMap_cons,List.map_append,List.sum_append,ih,List.map_cons,List.sum_cons]

theorem sum_range {M : Type*} [AddCommMonoid M] (f : ℕ → M) (k : ℕ) :
    ((List.range k).map f).sum = ∑ i ∈ Finset.range k, f i := rfl

theorem sum_sketchOps (launch : Launch p extra) (hbkt : p.bktPerCol < 64) (hcols : 0 < p.numColumns)
    (batchId size : ℕ) (k : Fin p.numBuckets) :
    (((List.range (size * p.numColumns)).flatMap (updateOps xxh batches p batchId)).map
        (SharedOp.effect k)).sum =
      ∑ u ∈ Finset.range size, Sketch.contribution xxh p (edgeOf batches batchId u) k := by
  rw [sum_map_flatMap]
  induction size with
  | zero => simp
  | succ size ih =>
    rw [Nat.succ_mul,List.range_add,List.map_append,List.sum_append,ih,Finset.sum_range_succ,
      List.map_map,← sum_columnEffect hcols]
    congr 1
    rw [sum_range]
    refine Finset.sum_congr rfl fun c hc => ?_
    exact updateOps_effect launch hbkt batchId (Finset.mem_range.mp hc) size k

theorem deltaSketch_buckets (batchId : ℕ) (k : Fin p.numBuckets) :
    (deltaSketch xxh p batches batchId).buckets k =
      ∑ u ∈ Finset.range (batches.updateSizes batchId),
        Sketch.contribution xxh p (edgeOf batches batchId u) k := by
  have hfold : deltaSketch xxh p batches batchId =
      ((List.range (batches.updateSizes batchId)).map (edgeOf batches batchId)).foldl
        (Sketch.update xxh) (Sketch.empty p) := by
    rw [deltaSketch,dsts,List.foldl_map,List.foldl_map]
    rfl
  rw [hfold,Sketch.foldl_update_buckets,List.map_map,sum_range,Pi.add_apply,Finset.sum_apply]
  exact zero_add _

end Update

section Block

variable {xxh : XxHash} {p : SketchParams} {extra : ℕ} {launch : Launch p extra} {batches : Batches}

theorem blockLoop_perm (launch : Launch p extra) {bound : ℕ} (h : bound < 2 ^ 31) :
    ∃ ids, blockLoop launch bound = some ids ∧ ids.Perm (List.range bound) := by
  have hthreads := launch.threads
  exact runAll_perm (exact_signed (by decide) (by decide) (le_of_lt h) (by omega)) launch.pos

theorem numBuckets_lt (launch : Launch p extra) : p.numBuckets < 2 ^ 31 := by
  have hshared := launch.sharedBytes
  unfold maxBytes at hshared
  omega

theorem exists_blockEnds (launch : Launch p extra) (cudaXxh : XxHash) {b : ℕ}
    (hsize : batches.updateSizes b * p.numColumns < 2 ^ 31) :
    ∃ m, BlockEnds cudaXxh launch batches b m := by
  obtain ⟨ids,hids,_⟩ := blockLoop_perm launch (numBuckets_lt launch)
  obtain ⟨ids',hids',_⟩ := blockLoop_perm launch hsize
  have hclear : clearOps launch =
      some (ids.flatMap fun i => [SharedOp.zeroA i,.zeroC i]) := by rw [clearOps,hids]; rfl
  have hsketch : sketchOps cudaXxh launch batches b =
      some (ids'.flatMap (updateOps cudaXxh batches p b)) := by rw [sketchOps,hids']; rfl
  exact ⟨_,⟨fun _ => 0,fun _ => 0⟩,_,_,⟨_,hclear,.refl _⟩,⟨_,hsketch,.refl _⟩,rfl⟩

theorem eight_dvd_gammaAddr (p : SketchParams) (i : ℕ) : 8 ∣ gammaAddr p i ↔ Even i := by
  rw [gammaAddr,Nat.even_iff]
  omega

theorem numBuckets_eq (p : SketchParams) : p.numBuckets = p.numColumns * p.bktPerCol + 1 := rfl

theorem bucketUpdate_legal {i : ℕ} (hi : i < p.numBuckets) (idx : VecT) (hash : VecHash) :
    (∀ op ∈ bucketUpdate i idx hash, op.Legal p extra) ↔
      Even i ∧ (i = p.numBuckets - 1 → 4 ≤ extra) := by
  simp only [bucketUpdate,List.forall_mem_cons,List.not_mem_nil,false_implies,implies_true,and_true,
    SharedOp.Legal,eight_dvd_gammaAddr]
  unfold gammaAddr maxBytes
  constructor
  · rintro ⟨_,heven,hle⟩
    exact ⟨heven,fun hlast => by omega⟩
  · rintro ⟨heven,hlast⟩
    refine ⟨by omega,heven,?_⟩
    by_cases h : i = p.numBuckets - 1
    · have hextra := hlast h
      omega
    · omega

theorem bucket_lt_last {columnId depth : ℕ} (hcol : columnId < p.numColumns)
    (hdepth : depth < p.bktPerCol) : columnId * p.bktPerCol + depth < p.numBuckets - 1 := by
  have hle : (columnId + 1) * p.bktPerCol ≤ p.numColumns * p.bktPerCol :=
    Nat.mul_le_mul_right _ hcol
  rw [Nat.succ_mul] at hle
  rw [numBuckets_eq]
  omega

-- every bucket that an update falls on starts a 64-bit word of bucket_c, and the word ends inside
-- the shared memory
structure WordAligned (xxh : XxHash) (p : SketchParams) (extra : ℕ) (idx : VecT) : Prop where
  last : Even (p.numBuckets - 1)
  spare : 4 ≤ extra
  columns : ∀ c < p.numColumns,
    Bucket.getIndexDepth xxh idx (p.columnSeed c) p.bktPerCol < p.bktPerCol →
      Even (c * p.bktPerCol + Bucket.getIndexDepth xxh idx (p.columnSeed c) p.bktPerCol)

theorem updateOps_legal (launch : Launch p extra) (hbkt : p.bktPerCol < 64) (batchId : ℕ)
    {columnId : ℕ} (hcol : columnId < p.numColumns) (updateId : ℕ) :
    (∀ op ∈ updateOps xxh batches p batchId (updateId * p.numColumns + columnId),
        op.Legal p extra) ↔
      (columnId = 0 → Even (p.numBuckets - 1) ∧ 4 ≤ extra) ∧
      (Bucket.getIndexDepth xxh (edgeOf batches batchId updateId) (p.columnSeed columnId)
          p.bktPerCol < p.bktPerCol →
        Even (columnId * p.bktPerCol + Bucket.getIndexDepth xxh (edgeOf batches batchId updateId)
          (p.columnSeed columnId) p.bktPerCol)) := by
  have hmod : (updateId * p.numColumns + columnId) % p.numColumns = columnId := by
    rw [Nat.mul_comm,Nat.mul_add_mod,Nat.mod_eq_of_lt hcol]
  have hdiv : (updateId * p.numColumns + columnId) / p.numColumns = updateId := by
    rw [Nat.mul_comm,Nat.mul_add_div (by omega),Nat.div_eq_of_lt hcol,Nat.add_zero]
  have hlast : p.numBuckets - 1 < p.numBuckets := by
    rw [numBuckets_eq]
    omega
  unfold updateOps
  simp only [hmod,hdiv,deviceConcatPairingFn_eq]
  rw [← edgeOf,bucketGetIndexDepth_eq _ _ _ hbkt,List.forall_mem_append]
  refine and_congr ?_ ?_
  · by_cases hzero : columnId = 0
    · rw [if_pos hzero,bucketUpdate_legal hlast,forall_prop_of_true hzero,forall_prop_of_true rfl]
    · rw [if_neg hzero]
      exact iff_of_true (fun op hop => by cases hop) fun h => absurd h hzero
  · rcases Nat.eq_zero_or_pos p.bktPerCol with hnone | hpos
    · simp [hnone]
    · rw [columnSeed_eq launch hcol hpos]
      by_cases hdepth :
          Bucket.getIndexDepth xxh (edgeOf batches batchId updateId) (p.columnSeed columnId)
            p.bktPerCol < p.bktPerCol
      · have hlt := bucket_lt_last hcol hdepth
        rw [if_pos hdepth,forall_prop_of_true hdepth,bucketUpdate_legal (hlt.trans hlast)]
        exact and_iff_left fun h => absurd h (ne_of_lt hlt)
      · rw [if_neg hdepth]
        exact iff_of_true (fun op hop => by cases hop) fun h => absurd h hdepth

theorem sketchOps_legal (launch : Launch p extra) (hbkt : p.bktPerCol < 64) (hcols : 0 < p.numColumns)
    (batchId size : ℕ) :
    (∀ op ∈ (List.range (size * p.numColumns)).flatMap (updateOps xxh batches p batchId),
      op.Legal p extra) ↔ ∀ u < size, WordAligned xxh p extra (edgeOf batches batchId u) := by
  have hids : (∀ op ∈ (List.range (size * p.numColumns)).flatMap (updateOps xxh batches p batchId),
      op.Legal p extra) ↔ ∀ u < size, ∀ c < p.numColumns,
        ∀ op ∈ updateOps xxh batches p batchId (u * p.numColumns + c), op.Legal p extra := by
    simp only [List.mem_flatMap,List.mem_range]
    constructor
    · intro h u hu c hc op hop
      refine h op ⟨_,?_,hop⟩
      have hle : (u + 1) * p.numColumns ≤ size * p.numColumns := Nat.mul_le_mul_right _ hu
      rw [Nat.succ_mul] at hle
      omega
    · rintro h op ⟨id,hid,hop⟩
      refine h (id / p.numColumns) (Nat.div_lt_of_lt_mul (by rwa [Nat.mul_comm]))
        (id % p.numColumns) (Nat.mod_lt _ hcols) op ?_
      rwa [Nat.mul_comm,Nat.div_add_mod]
  rw [hids]
  refine forall₂_congr fun u hu => ⟨fun h => ?_,fun h c hc => ?_⟩
  · obtain ⟨hlast,hspare⟩ := ((updateOps_legal launch hbkt batchId hcols u).mp (h 0 hcols)).1 rfl
    exact ⟨hlast,hspare,fun c hc => ((updateOps_legal launch hbkt batchId hc u).mp (h c hc)).2⟩
  · exact (updateOps_legal launch hbkt batchId hc u).mpr ⟨fun _ => ⟨h.last,h.spare⟩,h.columns c hc⟩

theorem clear_legal {clears l : List SharedOp} (hl : clearOps launch = some l)
    (hperm : clears.Perm l) : ∀ op ∈ clears, op.Legal p extra := by
  obtain ⟨ids,hids,hrange⟩ := blockLoop_perm launch (numBuckets_lt launch)
  rw [clearOps,hids] at hl
  cases hl
  intro op hop
  obtain ⟨i,hi,hop⟩ := List.mem_flatMap.mp (hperm.mem_iff.mp hop)
  have hlt := List.mem_range.mp (hrange.mem_iff.mp hi)
  simp only [List.mem_cons,List.not_mem_nil,or_false] at hop
  rcases hop with rfl | rfl
  · simp only [SharedOp.Legal,maxBytes]
    omega
  · simp only [SharedOp.Legal,gammaAddr,maxBytes]
    omega

theorem clear_spec {clears l : List SharedOp} (hl : clearOps launch = some l) (hperm : clears.Perm l)
    (before : Shared) {k : ℕ} (hk : k < p.numBuckets) :
    (clears.foldl SharedOp.apply before).at k = 0 := by
  obtain ⟨ids,hids,hrange⟩ := blockLoop_perm launch (numBuckets_lt launch)
  rw [clearOps,hids] at hl
  cases hl
  have hmem : k ∈ ids := hrange.mem_iff.mpr (List.mem_range.mpr hk)
  apply SharedOp.foldl_zero
  · intro op hop
    obtain ⟨i,_,hop⟩ := List.mem_flatMap.mp (hperm.mem_iff.mp hop)
    simp only [List.mem_cons,List.not_mem_nil,or_false] at hop
    rcases hop with rfl | rfl
    · trivial
    · trivial
  · exact .inl (hperm.mem_iff.mpr (List.mem_flatMap.mpr ⟨k,hmem,List.mem_cons_self⟩))
  · exact .inl (hperm.mem_iff.mpr (List.mem_flatMap.mpr ⟨k,hmem,
      List.mem_cons_of_mem _ List.mem_cons_self⟩))

def Aligned (xxh : XxHash) (p : SketchParams) (extra : ℕ) (batches : Batches) (b : ℕ) : Prop :=
  ∀ u < batches.updateSizes b, WordAligned xxh p extra (edgeOf batches b u)

theorem blockEnds_cases (hbkt : p.bktPerCol < 64) (hcols : 0 < p.numColumns) {b : ℕ}
    (hsize : batches.updateSizes b * p.numColumns < 2 ^ 31) {r : Option Shared}
    (h : BlockEnds xxh launch batches b r) :
    (Aligned xxh p extra batches b ∧ ∃ m, r = some m ∧
      ∀ k : Fin p.numBuckets, m.at k = (deltaSketch xxh p batches b).buckets k) ∨
    (¬ Aligned xxh p extra batches b ∧ r = none) := by
  obtain ⟨before,clears,ops,⟨l,hl,hclears⟩,⟨l',hl',hops⟩,rfl⟩ := h
  obtain ⟨ids,hids,hrange⟩ := blockLoop_perm launch hsize
  rw [sketchOps,hids] at hl'
  cases hl'
  have hperm : ops.Perm ((List.range (batches.updateSizes b * p.numColumns)).flatMap
      (updateOps xxh batches p b)) := hops.trans (hrange.flatMap_right _)
  have hlegal : (∀ op ∈ ops, op.Legal p extra) ↔ Aligned xxh p extra batches b := by
    rw [Aligned,← sketchOps_legal launch hbkt hcols]
    simp only [hperm.mem_iff]
  have hcleared : clears.foldlM (SharedOp.exec p extra) before =
      some (clears.foldl SharedOp.apply before) :=
    (foldlM_guarded _ _ _ _).trans (if_pos (clear_legal hl hclears))
  have hrun (m : Shared) : ops.foldlM (SharedOp.exec p extra) m =
      if ∀ op ∈ ops, op.Legal p extra then some (ops.foldl SharedOp.apply m) else none :=
    foldlM_guarded _ _ _ _
  rw [hcleared,Option.bind_some,hrun]
  by_cases ha : Aligned xxh p extra batches b
  · rw [if_pos (hlegal.mpr ha)]
    refine .inl ⟨ha,_,rfl,fun k => ?_⟩
    have hxor : ∀ op ∈ ops, op.IsXor := by
      intro op hop
      obtain ⟨id,_,hop⟩ := List.mem_flatMap.mp (hops.mem_iff.mp hop)
      exact updateOps_isXor _ _ _ _ _ op hop
    rw [SharedOp.foldl_apply_at hxor,clear_spec hl hclears before k.isLt,zero_add,
      (hperm.map _).sum_eq,sum_sketchOps launch hbkt hcols,deltaSketch_buckets]
  · rw [if_neg fun h => ha (hlegal.mp h)]
    exact .inr ⟨ha,rfl⟩

end Block

namespace GlobalOp

def IsStore : GlobalOp → Prop
  | .storeAlpha _ _ | .storeGamma _ _ => True
  | .xorAlpha _ _ | .xorGamma _ _ => False

def IsXor : GlobalOp → Prop
  | .storeAlpha _ _ | .storeGamma _ _ => False
  | .xorAlpha _ _ | .xorGamma _ _ => True

def effect (k : ℕ) : GlobalOp → Bucket
  | .storeAlpha _ _ | .storeGamma _ _ => 0
  | .xorAlpha i value => if k = i then ⟨value,0⟩ else 0
  | .xorGamma i value =>
    (if k = i then ⟨0,value.setWidth 32⟩ else 0) + if k = i + 1 then ⟨value >>> 32,0⟩ else 0

theorem apply_xor (g : ℕ → Bucket) {op : GlobalOp} (h : op.IsXor) (k : ℕ) :
    op.apply g k = g k + op.effect k := by
  cases op with
  | storeAlpha i value => cases h
  | storeGamma i value => cases h
  | xorAlpha i value =>
    unfold apply effect
    rcases eq_or_ne k i with rfl | hne
    · simp only [Function.update_self,if_pos]
      exact Bucket.eq_of_fields rfl BitVec.xor_zero.symm
    · simp only [Function.update_of_ne hne,if_neg hne,add_zero]
  | xorGamma i value =>
    unfold apply effect
    rcases eq_or_ne k i with rfl | hne
    · have hne' : k ≠ k + 1 := Nat.ne_of_lt (Nat.lt_succ_self k)
      simp only [Function.update_of_ne hne',Function.update_self,if_pos,if_neg hne',add_zero]
      exact Bucket.eq_of_fields BitVec.xor_zero.symm rfl
    · rcases eq_or_ne k (i + 1) with rfl | hne'
      · simp only [Function.update_self,if_pos,if_neg hne,zero_add]
        exact Bucket.eq_of_fields rfl BitVec.xor_zero.symm
      · simp only [Function.update_of_ne hne',Function.update_of_ne hne,if_neg hne,if_neg hne',
          add_zero]

theorem foldl_xor {ops : List GlobalOp} (h : ∀ op ∈ ops, op.IsXor) (g : ℕ → Bucket) (k : ℕ) :
    ops.foldl apply g k = g k + (ops.map (effect k)).sum := by
  induction ops generalizing g with
  | nil => simp
  | cons op ops ih =>
    obtain ⟨hop,hops⟩ := List.forall_mem_cons.mp h
    rw [List.foldl_cons,ih hops,apply_xor g hop,List.map_cons,List.sum_cons,add_assoc]

-- stores to one address may come in any order when they all carry the same value
theorem foldl_storeAlpha {ops : List GlobalOp} (h : ∀ op ∈ ops, op.IsStore) (g : ℕ → Bucket)
    {k : ℕ} {value : VecT} (hmem : .storeAlpha k value ∈ ops ∨ (g k).alpha = value)
    (hone : ∀ value', .storeAlpha k value' ∈ ops → value' = value) :
    (ops.foldl apply g k).alpha = value := by
  induction ops generalizing g with
  | nil => exact hmem.resolve_left List.not_mem_nil
  | cons op ops ih =>
    obtain ⟨hop,hops⟩ := List.forall_mem_cons.mp h
    rw [List.foldl_cons]
    refine ih hops _ ?_ fun value' hv => hone value' (List.mem_cons_of_mem _ hv)
    cases op with
    | xorAlpha i v => cases hop
    | xorGamma i v => cases hop
    | storeAlpha i v =>
      rcases eq_or_ne k i with rfl | hne
      · refine .inr ?_
        rw [apply,Function.update_self]
        exact hone v List.mem_cons_self
      · refine hmem.imp (fun hin => ?_) fun hg => ?_
        · exact (List.mem_cons.mp hin).resolve_left fun heq => hne (storeAlpha.inj heq).1
        · rw [apply,Function.update_of_ne hne,hg]
    | storeGamma i v =>
      refine hmem.imp (fun hin => (List.mem_cons.mp hin).resolve_left (by simp)) fun hg => ?_
      rcases eq_or_ne k i with rfl | hne
      · rw [apply,Function.update_self,hg]
      · rw [apply,Function.update_of_ne hne,hg]

theorem foldl_storeGamma {ops : List GlobalOp} (h : ∀ op ∈ ops, op.IsStore) (g : ℕ → Bucket)
    {k : ℕ} {value : VecHash} (hmem : .storeGamma k value ∈ ops ∨ (g k).gamma = value)
    (hone : ∀ value', .storeGamma k value' ∈ ops → value' = value) :
    (ops.foldl apply g k).gamma = value := by
  induction ops generalizing g with
  | nil => exact hmem.resolve_left List.not_mem_nil
  | cons op ops ih =>
    obtain ⟨hop,hops⟩ := List.forall_mem_cons.mp h
    rw [List.foldl_cons]
    refine ih hops _ ?_ fun value' hv => hone value' (List.mem_cons_of_mem _ hv)
    cases op with
    | xorAlpha i v => cases hop
    | xorGamma i v => cases hop
    | storeGamma i v =>
      rcases eq_or_ne k i with rfl | hne
      · refine .inr ?_
        rw [apply,Function.update_self]
        exact hone v List.mem_cons_self
      · refine hmem.imp (fun hin => ?_) fun hg => ?_
        · exact (List.mem_cons.mp hin).resolve_left fun heq => hne (storeGamma.inj heq).1
        · rw [apply,Function.update_of_ne hne,hg]
    | storeAlpha i v =>
      refine hmem.imp (fun hin => (List.mem_cons.mp hin).resolve_left (by simp)) fun hg => ?_
      rcases eq_or_ne k i with rfl | hne
      · rw [apply,Function.update_self,hg]
      · rw [apply,Function.update_of_ne hne,hg]

end GlobalOp

section Launch

variable {xxh : XxHash} {p : SketchParams} {extra : ℕ} {launch : Launch p extra} {batches : Batches}
  {batchIds : List ℕ}

theorem mapM_of_some {α β : Type} {f : α → Option β} {g : α → β} {l : List α}
    (h : ∀ a ∈ l, f a = some (g a)) : l.mapM f = some (l.map g) := by
  induction l with
  | nil => rfl
  | cons a l ih =>
    obtain ⟨ha,hl⟩ := List.forall_mem_cons.mp h
    rw [List.mapM_cons,ha,ih hl]
    rfl

theorem slot_inj {nb b b' i i' : ℕ} (hi : i < nb) (hi' : i' < nb)
    (h : b * nb + i = b' * nb + i') : b = b' ∧ i = i' := by
  have hdiv (c j : ℕ) (hj : j < nb) : (c * nb + j) / nb = c := by
    rw [Nat.mul_comm,Nat.mul_add_div (by omega),Nat.div_eq_of_lt hj,Nat.add_zero]
  have hb : b = b' := by rw [← hdiv b i hi,h,hdiv b' i' hi']
  subst hb
  exact ⟨rfl,by omega⟩

theorem exists_run (launch : Launch p extra) (cudaXxh : XxHash)
    (hsize : ∀ b ∈ batchIds, batches.updateSizes b * p.numColumns < 2 ^ 31)
    {writeBack : Shared → ℕ → Option (List GlobalOp)}
    (hwrite : ∀ m b, ∃ l, writeBack m b = some l) :
    Nonempty (Run cudaXxh launch batches writeBack batchIds) := by
  have hends (b : ℕ) : ∃ m, b ∈ batchIds → BlockEnds cudaXxh launch batches b m := by
    by_cases hb : b ∈ batchIds
    · exact (exists_blockEnds launch cudaXxh (hsize b hb)).imp fun m hm _ => hm
    · exact ⟨none,fun h => absurd h hb⟩
  choose shared hshared using hends
  have hops (b : ℕ) : ∃ l, (shared b).elim (some []) (writeBack · b) = some l := by
    cases shared b with
    | none => exact ⟨[],rfl⟩
    | some m => exact hwrite m b
  choose ops hops using hops
  exact ⟨shared,(batchIds.map ops).flatten,hshared,_,mapM_of_some fun b _ => hops b,.refl _⟩

section Result

variable {writeBack : Shared → ℕ → Option (List GlobalOp)}

theorem Run.faults (hbkt : p.bktPerCol < 64) (hcols : 0 < p.numColumns)
    (hsize : ∀ b ∈ batchIds, batches.updateSizes b * p.numColumns < 2 ^ 31)
    (run : Run xxh launch batches writeBack batchIds) {b : ℕ} (hb : b ∈ batchIds)
    (h : ¬ Aligned xxh p extra batches b) (total : ℕ) (g : ℕ → Bucket) :
    run.result total g = none := by
  refine if_neg fun hsome => ?_
  rcases blockEnds_cases hbkt hcols (hsize b hb) (run.ends b hb) with ⟨ha,_⟩ | ⟨_,hnone⟩
  · exact h ha
  · have hb' := hsome b hb
    rw [hnone] at hb'
    cases hb'

theorem Run.aligned (hbkt : p.bktPerCol < 64) (hcols : 0 < p.numColumns)
    (hsize : ∀ b ∈ batchIds, batches.updateSizes b * p.numColumns < 2 ^ 31)
    (hwrite : ∀ m b, ∃ l, writeBack m b = some l)
    (run : Run xxh launch batches writeBack batchIds)
    (h : ∀ b ∈ batchIds, Aligned xxh p extra batches b) :
    ∃ (shared : ℕ → Shared) (written : ℕ → List GlobalOp),
      (∀ b ∈ batchIds, ∀ k : Fin p.numBuckets,
        (shared b).at k = (deltaSketch xxh p batches b).buckets k) ∧
      (∀ b, writeBack (shared b) b = some (written b)) ∧
      run.ops.Perm (batchIds.flatMap written) ∧
      ∀ total g, run.result total g = if ∀ op ∈ run.ops, op.Legal total then
        some (run.ops.foldl GlobalOp.apply g) else none := by
  have hends (b : ℕ) : ∃ m, b ∈ batchIds → run.shared b = some m ∧
      ∀ k : Fin p.numBuckets, m.at k = (deltaSketch xxh p batches b).buckets k := by
    by_cases hb : b ∈ batchIds
    · rcases blockEnds_cases hbkt hcols (hsize b hb) (run.ends b hb) with ⟨_,m,hm⟩ | ⟨hno,_⟩
      · exact ⟨m,fun _ => hm⟩
      · exact absurd (h b hb) hno
    · exact ⟨⟨fun _ => 0,fun _ => 0⟩,fun hb' => absurd hb' hb⟩
  choose shared hshared using hends
  choose written hwritten using fun b => hwrite (shared b) b
  obtain ⟨ls,hls,hperm⟩ := run.order
  rw [mapM_of_some (g := written) fun b hb => by
    rw [(hshared b hb).1]
    exact hwritten b] at hls
  cases hls
  refine ⟨shared,written,fun b hb => (hshared b hb).2,hwritten,hperm,fun total g => ?_⟩
  refine (if_pos fun b hb => ?_).trans (foldlM_guarded _ _ _ _)
  rw [(hshared b hb).1]
  rfl

end Result

theorem exists_storeOps (launch : Launch p extra) (m : Shared) (slot : ℕ) :
    ∃ l, storeOps launch m slot = some l := by
  obtain ⟨ids,hids,_⟩ := blockLoop_perm launch (numBuckets_lt launch)
  exact ⟨_,by rw [storeOps,hids]; rfl⟩

theorem exists_xorOps (launch : Launch p extra) (m : Shared) (slot : ℕ) :
    ∃ l, xorOps launch m slot = some l := by
  obtain ⟨ids,hids,_⟩ := blockLoop_perm launch (numBuckets_lt launch)
  exact ⟨_,by rw [xorOps,hids]; rfl⟩

theorem storeOps_mem {m : Shared} {slot : ℕ} {l : List GlobalOp}
    (h : storeOps launch m slot = some l) (op : GlobalOp) :
    op ∈ l ↔ ∃ i < p.numBuckets, op = .storeAlpha (slot * p.numBuckets + i) (m.bucketA i) ∨
      op = .storeGamma (slot * p.numBuckets + i) (m.bucketC i) := by
  obtain ⟨ids,hids,hrange⟩ := blockLoop_perm launch (numBuckets_lt launch)
  rw [storeOps,hids] at h
  cases h
  simp only [List.mem_flatMap,hrange.mem_iff,List.mem_range,List.mem_cons,List.not_mem_nil,or_false]

theorem store_result (hbkt : p.bktPerCol < 64) (hcols : 0 < p.numColumns)
    (hsize : ∀ b ∈ batchIds, batches.updateSizes b * p.numColumns < 2 ^ 31) {total : ℕ}
    (htotal : ∀ b ∈ batchIds, b * p.numBuckets + p.numBuckets ≤ total)
    (run : Run xxh launch batches (storeOps launch) batchIds)
    (h : ∀ b ∈ batchIds, Aligned xxh p extra batches b) (g : ℕ → Bucket) :
    ∃ g', run.result total g = some g' ∧ ∀ b ∈ batchIds, ∀ k : Fin p.numBuckets,
      g' (b * p.numBuckets + k) = (deltaSketch xxh p batches b).buckets k := by
  obtain ⟨shared,written,hshared,hwritten,hperm,hresult⟩ :=
    run.aligned hbkt hcols hsize (exists_storeOps launch) h
  have hmem (op : GlobalOp) : op ∈ run.ops ↔ ∃ b ∈ batchIds, ∃ i < p.numBuckets,
      op = .storeAlpha (b * p.numBuckets + i) ((shared b).bucketA i) ∨
        op = .storeGamma (b * p.numBuckets + i) ((shared b).bucketC i) := by
    rw [hperm.mem_iff,List.mem_flatMap]
    simp only [storeOps_mem (hwritten _)]
  have hstores : ∀ op ∈ run.ops, op.IsStore ∧ op.Legal total := by
    intro op hop
    obtain ⟨b,hb,i,hi,heq⟩ := (hmem op).mp hop
    have hle := htotal b hb
    have hlt : b * p.numBuckets + i < total := by omega
    rcases heq with rfl | rfl
    · exact ⟨trivial,hlt⟩
    · exact ⟨trivial,hlt⟩
  rw [hresult,if_pos fun op hop => (hstores op hop).2]
  refine ⟨_,rfl,fun b hb k => ?_⟩
  rw [← hshared b hb k]
  apply Bucket.eq_of_fields
  · refine GlobalOp.foldl_storeAlpha (fun op hop => (hstores op hop).1) g
      (.inl ((hmem _).mpr ⟨b,hb,k,k.isLt,.inl rfl⟩)) fun value hvalue => ?_
    obtain ⟨b',_,i,hi,heq | heq⟩ := (hmem _).mp hvalue
    · obtain ⟨haddr,rfl⟩ := GlobalOp.storeAlpha.inj heq
      obtain ⟨rfl,rfl⟩ := slot_inj k.isLt hi haddr
      rfl
    · cases heq
  · refine GlobalOp.foldl_storeGamma (fun op hop => (hstores op hop).1) g
      (.inl ((hmem _).mpr ⟨b,hb,k,k.isLt,.inr rfl⟩)) fun value hvalue => ?_
    obtain ⟨b',_,i,hi,heq | heq⟩ := (hmem _).mp hvalue
    · cases heq
    · obtain ⟨haddr,rfl⟩ := GlobalOp.storeGamma.inj heq
      obtain ⟨rfl,rfl⟩ := slot_inj k.isLt hi haddr
      rfl

theorem xorOps_isXor {m : Shared} {slot : ℕ} {l : List GlobalOp}
    (h : xorOps launch m slot = some l) : ∀ op ∈ l, op.IsXor := by
  obtain ⟨ids,hids,_⟩ := blockLoop_perm launch (numBuckets_lt launch)
  rw [xorOps,hids] at h
  cases h
  intro op hop
  obtain ⟨i,_,hop⟩ := List.mem_flatMap.mp hop
  simp only [List.mem_cons,List.not_mem_nil,or_false] at hop
  rcases hop with rfl | rfl
  · trivial
  · trivial

theorem xorPair_effect (k i : ℕ) (a : VecT) (c : VecHash) :
    (([.xorAlpha i a,.xorGamma i (c.setWidth 64)] : List GlobalOp).map (GlobalOp.effect k)).sum =
      if k = i then ⟨a,c⟩ else 0 := by
  simp only [List.map_cons,List.map_nil,List.sum_cons,List.sum_nil,add_zero,GlobalOp.effect,
    high_zero,low_setWidth]
  have hzero : (⟨0,0⟩ : Bucket) = 0 := rfl
  rw [hzero,ite_self,add_zero]
  split
  · exact Bucket.eq_of_fields BitVec.xor_zero BitVec.zero_xor
  · rfl

theorem xorOps_effect {m : Shared} {slot : ℕ} {l : List GlobalOp}
    (h : xorOps launch m slot = some l) (v : ℕ) (k : Fin p.numBuckets) :
    (l.map (GlobalOp.effect (v * p.numBuckets + k))).sum = if slot = v then m.at k else 0 := by
  obtain ⟨ids,hids,hrange⟩ := blockLoop_perm launch (numBuckets_lt launch)
  rw [xorOps,hids] at h
  cases h
  rw [sum_map_flatMap,(hrange.map _).sum_eq,sum_range]
  simp only [xorPair_effect]
  split
  · next heq =>
    subst heq
    rw [Finset.sum_eq_single (k : ℕ)]
    · exact if_pos rfl
    · intro i hi hne
      exact if_neg fun haddr => hne (slot_inj (Finset.mem_range.mp hi) k.isLt haddr.symm).2
    · intro hk
      exact absurd (Finset.mem_range.mpr k.isLt) hk
  · next hne =>
    refine Finset.sum_eq_zero fun i hi => if_neg fun haddr => hne ?_
    exact (slot_inj (Finset.mem_range.mp hi) k.isLt haddr.symm).1

theorem xor_legal (hcols : 0 < p.numColumns) {m : Shared} {slot total : ℕ} {l : List GlobalOp}
    (h : xorOps launch m slot = some l) :
    (∀ op ∈ l, op.Legal total) ↔ p.bktPerCol = 0 ∧ Even slot ∧ slot + 2 ≤ total := by
  obtain ⟨ids,hids,hrange⟩ := blockLoop_perm launch (numBuckets_lt launch)
  rw [xorOps,hids] at h
  cases h
  have hlegal : (∀ op ∈ ids.flatMap fun i =>
      [GlobalOp.xorAlpha (slot * p.numBuckets + i) (m.bucketA i),
        .xorGamma (slot * p.numBuckets + i) ((m.bucketC i).setWidth 64)], op.Legal total) ↔
      ∀ i < p.numBuckets, Even (slot * p.numBuckets + i) ∧
        slot * p.numBuckets + i + 2 ≤ total := by
    simp only [List.mem_flatMap,forall_exists_index,and_imp,forall_comm (α := GlobalOp),
      List.forall_mem_cons,List.not_mem_nil,false_implies,implies_true,and_true,hrange.mem_iff,
      List.mem_range,GlobalOp.Legal,Nat.even_iff]
    refine forall₂_congr fun i _ => ⟨fun h => by omega,fun h => by omega⟩
  rw [hlegal]
  constructor
  · intro h
    have hnone : p.bktPerCol = 0 := by
      by_contra hbkt
      have hpos := Nat.mul_pos hcols (Nat.pos_of_ne_zero hbkt)
      have hfirst := (h 0 (Nat.succ_pos _)).1
      have hsecond := (h 1 (Nat.succ_lt_succ hpos)).1
      rw [Nat.even_iff] at hfirst hsecond
      omega
    have hone : p.numBuckets = 1 := by rw [numBuckets_eq,hnone,Nat.mul_zero]
    obtain ⟨heven,hle⟩ := h 0 (Nat.succ_pos _)
    rw [hone,Nat.mul_one] at heven hle
    exact ⟨hnone,heven,hle⟩
  · rintro ⟨hnone,heven,hle⟩ i hi
    have hone : p.numBuckets = 1 := by rw [numBuckets_eq,hnone,Nat.mul_zero]
    rw [hone] at hi
    obtain rfl : i = 0 := by omega
    rw [hone,Nat.mul_one]
    exact ⟨heven,hle⟩

-- the write back of a vertex sketch runs over consecutive packed buckets, every other one of which
-- starts in the middle of a 64-bit word
def WritesWords (p : SketchParams) (total : ℕ) (batches : Batches) (b : ℕ) : Prop :=
  p.bktPerCol = 0 ∧ Even (batches.updateSrc b).toNat ∧ (batches.updateSrc b).toNat + 2 ≤ total

def HoldsDeltas (xxh : XxHash) (p : SketchParams) (batches : Batches) (numBatches : ℕ)
    (g : ℕ → Bucket) : Prop :=
  ∀ b < numBatches, ∀ k : Fin p.numBuckets,
    g (b * p.numBuckets + k) = (deltaSketch xxh p batches b).buckets k

def AddsDeltas (xxh : XxHash) (p : SketchParams) (batches : Batches) (numBatches : ℕ)
    (before g : ℕ → Bucket) : Prop :=
  ∀ (v : NodeId) (k : Fin p.numBuckets), g (v.toNat * p.numBuckets + k) =
    before (v.toNat * p.numBuckets + k) +
      ∑ b ∈ Finset.range numBatches with batches.updateSrc b = v,
        (deltaSketch xxh p batches b).buckets k

theorem xor_result (hbkt : p.bktPerCol < 64) (hcols : 0 < p.numColumns) {numBlocks : ℕ}
    (hsize : ∀ b ∈ List.range numBlocks, batches.updateSizes b * p.numColumns < 2 ^ 31)
    (run : sketchUpdateUVMKernel xxh launch batches numBlocks)
    (h : ∀ b ∈ List.range numBlocks, Aligned xxh p extra batches b) (total : ℕ) (g : ℕ → Bucket) :
    (∃ g', Run.result run total g = some g' ∧ AddsDeltas xxh p batches numBlocks g g') ↔
      ∀ b < numBlocks, WritesWords p total batches b := by
  obtain ⟨shared,written,hshared,hwritten,hperm,hresult⟩ :=
    run.aligned hbkt hcols hsize (fun m b => exists_xorOps launch m _) h
  have hlegal : (∀ op ∈ run.ops, op.Legal total) ↔ ∀ b < numBlocks, WritesWords p total batches b := by
    simp only [hperm.mem_iff,List.mem_flatMap,forall_exists_index,and_imp]
    constructor
    · intro h b hb
      exact (xor_legal hcols (hwritten b)).mp fun op hop => h op b (List.mem_range.mpr hb) hop
    · intro h op b hb hop
      exact (xor_legal hcols (hwritten b)).mpr (h b (List.mem_range.mp hb)) op hop
  have hxor : ∀ op ∈ run.ops, op.IsXor := by
    intro op hop
    obtain ⟨b,_,hop⟩ := List.mem_flatMap.mp (hperm.mem_iff.mp hop)
    exact xorOps_isXor (hwritten b) op hop
  rw [hresult,← hlegal]
  constructor
  · rintro ⟨g',hg',_⟩
    by_contra hno
    rw [if_neg hno] at hg'
    cases hg'
  · intro hwords
    rw [if_pos hwords]
    refine ⟨_,rfl,fun v k => ?_⟩
    rw [GlobalOp.foldl_xor hxor,(hperm.map _).sum_eq]
    congr 1
    rw [sum_map_flatMap,sum_range,Finset.sum_filter]
    refine Finset.sum_congr rfl fun b hb => ?_
    rw [xorOps_effect (hwritten b),hshared b (List.mem_range.mpr (Finset.mem_range.mp hb)) k]
    exact if_congr ⟨fun h => BitVec.eq_of_toNat_eq h,fun h => h ▸ rfl⟩ rfl rfl

theorem store_iff (hbkt : p.bktPerCol < 64) (hcols : 0 < p.numColumns) {numBatches total : ℕ}
    (hids : ∀ b, b ∈ batchIds ↔ b < numBatches)
    (hsize : ∀ b < numBatches, batches.updateSizes b * p.numColumns < 2 ^ 31)
    (htotal : numBatches * p.numBuckets ≤ total)
    (run : Run xxh launch batches (storeOps launch) batchIds) (g : ℕ → Bucket) :
    (∃ g', run.result total g = some g' ∧ HoldsDeltas xxh p batches numBatches g') ↔
      ∀ b < numBatches, Aligned xxh p extra batches b := by
  have hsize' (b : ℕ) (hb : b ∈ batchIds) := hsize b ((hids b).mp hb)
  constructor
  · rintro ⟨g',hg',_⟩ b hb
    by_contra ha
    rw [run.faults hbkt hcols hsize' ((hids b).mpr hb) ha] at hg'
    cases hg'
  · intro h
    have htotal' (b : ℕ) (hb : b ∈ batchIds) : b * p.numBuckets + p.numBuckets ≤ total := by
      have hle : (b + 1) * p.numBuckets ≤ numBatches * p.numBuckets :=
        Nat.mul_le_mul_right _ ((hids b).mp hb)
      rw [Nat.succ_mul] at hle
      exact hle.trans htotal
    obtain ⟨g',hg',hslots⟩ := store_result hbkt hcols hsize' htotal' run
      (fun b hb => h b ((hids b).mp hb)) g
    exact ⟨g',hg',fun b hb k => hslots b ((hids b).mpr hb) k⟩

-- without spare bytes the last bucket's 64-bit word ends outside of the shared memory
theorem aligned_zero (b : ℕ) : Aligned xxh p 0 batches b ↔ batches.updateSizes b = 0 := by
  constructor
  · intro h
    by_contra hsize
    have hspare := (h 0 (Nat.pos_of_ne_zero hsize)).spare
    omega
  · intro hsize u hu
    rw [hsize] at hu
    exact absurd hu (Nat.not_lt_zero u)

theorem xor_iff {launch : Launch p 0} (hbkt : p.bktPerCol < 64) (hcols : 0 < p.numColumns)
    {numBlocks : ℕ} (hsize : ∀ b < numBlocks, batches.updateSizes b * p.numColumns < 2 ^ 31)
    (run : sketchUpdateUVMKernel xxh launch batches numBlocks) (total : ℕ) (g : ℕ → Bucket) :
    (∃ g', Run.result run total g = some g' ∧ AddsDeltas xxh p batches numBlocks g g') ↔
      ∀ b < numBlocks, batches.updateSizes b = 0 ∧ WritesWords p total batches b := by
  have hsize' (b : ℕ) (hb : b ∈ List.range numBlocks) := hsize b (List.mem_range.mp hb)
  by_cases ha : ∀ b < numBlocks, batches.updateSizes b = 0
  · rw [xor_result hbkt hcols hsize' run
      (fun b hb => (aligned_zero b).mpr (ha b (List.mem_range.mp hb))) total g]
    exact forall₂_congr fun b hb => (and_iff_right (ha b hb)).symm
  · push Not at ha
    obtain ⟨b,hb,hne⟩ := ha
    refine iff_of_false ?_ fun h => hne (h b hb).1
    rintro ⟨g',hg',_⟩
    rw [Run.faults hbkt hcols hsize' run (List.mem_range.mpr hb) fun h => hne ((aligned_zero b).mp h)]
      at hg'
    cases hg'

theorem kernels_compute_delta_iff {cudaXxh : XxHash}
    (hxxh : ∀ idx seed, cudaXxh idx seed = xxh idx seed) (p : SketchParams) (batches : Batches)
    (hbkt : p.bktPerCol < 64) (hcols : 0 < p.numColumns) (numBatches total : ℕ)
    (hsize : ∀ b < numBatches, batches.updateSizes b * p.numColumns < 2 ^ 31) :
    (∀ launch : Launch p 0, numBatches * p.numBuckets ≤ total →
      Nonempty (sketchUpdateDefaultKernel cudaXxh launch batches numBatches) ∧
      ∀ (run : sketchUpdateDefaultKernel cudaXxh launch batches numBatches) g,
        (∃ g', Run.result run total g = some g' ∧ HoldsDeltas xxh p batches numBatches g') ↔
          ∀ b < numBatches, batches.updateSizes b = 0) ∧
    (∀ batchSize (launch : Launch p (batchSize * 4)) numDeviceBlocks, 1 ≤ numDeviceBlocks →
      numBatches + numDeviceBlocks ≤ 2 ^ 64 → numBatches * p.numBuckets ≤ total →
      Nonempty (singleSketchUpdateDefaultKernel cudaXxh launch batches numDeviceBlocks numBatches) ∧
      ∀ (run : singleSketchUpdateDefaultKernel cudaXxh launch batches numDeviceBlocks numBatches) g,
        (∃ g', Run.result run.2 total g = some g' ∧ HoldsDeltas xxh p batches numBatches g') ↔
          ∀ b < numBatches, Aligned xxh p (batchSize * 4) batches b) ∧
    (∀ launch : Launch p 0,
      Nonempty (sketchUpdateUVMKernel cudaXxh launch batches numBatches) ∧
      ∀ (run : sketchUpdateUVMKernel cudaXxh launch batches numBatches) g,
        (∃ g', Run.result run total g = some g' ∧ AddsDeltas xxh p batches numBatches g g') ↔
          ∀ b < numBatches, batches.updateSizes b = 0 ∧ WritesWords p total batches b) := by
  obtain rfl : cudaXxh = xxh := funext₂ hxxh
  have hsize' (b : ℕ) (hb : b ∈ List.range numBatches) := hsize b (List.mem_range.mp hb)
  refine ⟨fun launch htotal => ⟨?_,?_⟩,fun batchSize launch numDeviceBlocks hpos hwrap htotal =>
    ⟨?_,?_⟩,fun launch => ⟨?_,?_⟩⟩
  · exact exists_run launch cudaXxh hsize' (exists_storeOps launch)
  · intro run g
    rw [store_iff hbkt hcols (fun b => List.mem_range) hsize htotal run g]
    exact forall₂_congr fun b _ => aligned_zero b
  · obtain ⟨ids,hids,hperm⟩ := runAll_perm (exact_unsigned hwrap) hpos
    obtain ⟨run⟩ := exists_run launch cudaXxh
      (fun b hb => hsize' b (hperm.mem_iff.mp hb)) (exists_storeOps launch)
    exact ⟨⟨ids,hids⟩,run⟩
  · rintro ⟨⟨ids,hids⟩,run⟩ g
    obtain ⟨ids',hids',hperm⟩ := runAll_perm (exact_unsigned hwrap) hpos
    rw [hids] at hids'
    cases hids'
    exact store_iff hbkt hcols (fun b => hperm.mem_iff.trans List.mem_range) hsize htotal run g
  · exact exists_run launch cudaXxh hsize' fun m b => exists_xorOps launch m _
  · intro run g
    exact xor_iff hbkt hcols hsize run total g

def sumXxh : XxHash := fun x s => x + s

def warpParams : SketchParams := ⟨7,2,1,2⟩

def warpLaunch (batchSize : ℕ) (h : batchSize ≤ 32) : Launch warpParams (batchSize * 4) where
  blockDim := 32
  pos := Nat.le_of_ble_eq_true rfl
  threads := Nat.le_of_ble_eq_true rfl
  sharedBytes := by
    have hbuckets : warpParams.numBuckets = 5 := rfl
    rw [maxBytes,hbuckets]
    omega

def evenUpdates : Batches where
  updateSrc b := BitVec.ofNat 32 b
  updateSizes _ := 2
  updateStartIndex b := 2 * b
  edgeUpdates u := BitVec.ofNat 32 (4 * u + 4)

theorem kernels_compute_delta_warp :
    ∃ run : singleSketchUpdateDefaultKernel sumXxh (warpLaunch 2 (by decide)) evenUpdates 2 2, ∃ g',
      Run.result run.2 10 (fun _ => 0) = some g' ∧ HoldsDeltas sumXxh warpParams evenUpdates 2 g' ∧
        g' 4 = ⟨12,4⟩ := by
  have haligned : ∀ b < 2, Aligned sumXxh warpParams (2 * 4) evenUpdates b := by
    intro b hb u hu
    refine ⟨by decide,by decide,?_⟩
    revert b u
    decide
  obtain ⟨⟨run⟩,hrun⟩ := (kernels_compute_delta_iff (fun _ _ => rfl) warpParams evenUpdates
    (by decide) (by decide) 2 10 (by decide)).2.1 2
    (warpLaunch 2 (by decide)) 2 (by decide) (by decide) (by decide)
  obtain ⟨g',hg',hslots⟩ := (hrun run fun _ => 0).mpr haligned
  refine ⟨run,g',hg',hslots,?_⟩
  exact (hslots 0 (by decide) 4).trans (by decide)

def oddUpdate : Batches where
  updateSrc _ := 1
  updateSizes _ := 1
  updateStartIndex _ := 0
  edgeUpdates _ := 2

theorem kernels_fault_odd_update :
    (Nonempty (sketchUpdateDefaultKernel sumXxh (warpLaunch 0 (by decide)) oddUpdate 1) ∧
      ∀ (run : sketchUpdateDefaultKernel sumXxh (warpLaunch 0 (by decide)) oddUpdate 1) total g,
        Run.result run total g = none) ∧
    (Nonempty (singleSketchUpdateDefaultKernel sumXxh (warpLaunch 1 (by decide)) oddUpdate 1 1) ∧
      ∀ (run : singleSketchUpdateDefaultKernel sumXxh (warpLaunch 1 (by decide)) oddUpdate 1 1)
        total g, Run.result run.2 total g = none) ∧
    (Nonempty (sketchUpdateUVMKernel sumXxh (warpLaunch 0 (by decide)) oddUpdate 1) ∧
      ∀ (run : sketchUpdateUVMKernel sumXxh (warpLaunch 0 (by decide)) oddUpdate 1) total g,
        Run.result run total g = none) := by
  have hsize (b : ℕ) : oddUpdate.updateSizes b * warpParams.numColumns < 2 ^ 31 :=
    Nat.le_of_ble_eq_true rfl
  have hpast : ¬ Aligned sumXxh warpParams (0 * 4) oddUpdate 0 := fun h => by
    have hspare := (h 0 (by decide)).spare
    omega
  have hodd : ¬ Aligned sumXxh warpParams (1 * 4) oddUpdate 0 := fun h =>
    absurd ((h 0 (by decide)).columns 1 (by decide)) (by decide)
  have hmem : 0 ∈ List.range 1 := List.mem_singleton_self 0
  have hexact : Exact (unsigned 64) 1 1 := exact_unsigned (by decide)
  obtain ⟨ids,hids,hperm⟩ := runAll_perm hexact (le_refl 1)
  refine ⟨⟨?_,fun run total g => ?_⟩,⟨?_,fun run total g => ?_⟩,⟨?_,fun run total g => ?_⟩⟩
  · exact exists_run _ _ (fun b _ => hsize b) (exists_storeOps _)
  · exact Run.faults (by decide) (by decide) (fun b _ => hsize b) run hmem hpast total g
  · obtain ⟨run⟩ := exists_run (warpLaunch 1 (by decide)) sumXxh (fun b (_ : b ∈ ids) => hsize b)
      (exists_storeOps (warpLaunch 1 (by decide)))
    exact ⟨⟨ids,hids⟩,run⟩
  · obtain ⟨⟨ids',hids'⟩,run⟩ := run
    rw [hids'] at hids
    cases hids
    exact Run.faults (by decide) (by decide) (fun b _ => hsize b) run (hperm.mem_iff.mpr hmem) hodd
      total g
  · exact exists_run _ _ (fun b _ => hsize b) fun m b => exists_xorOps _ m _
  · exact Run.faults (by decide) (by decide) (fun b _ => hsize b) run hmem hpast total g

end Launch

end GraphZeppelin.Gpu.Kernel
