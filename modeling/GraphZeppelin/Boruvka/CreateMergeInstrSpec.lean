import GraphZeppelin.Boruvka.CreateMergeInstr

namespace GraphZeppelin.Boruvka
open Dsu FetchAdd

variable {n T : ℕ} {fl : Rounding}

abbrev owner (fl : Rounding) (n T x : ℕ) : ℕ := Partition.owner (cuts fl n T) T x

theorem mem_indices {lo hi : ℕ} {i : Fin n} : i ∈ indices lo hi ↔ lo ≤ (i : ℕ) ∧ (i : ℕ) < hi := by
  simp only [indices,List.mem_filterMap,List.mem_range'_1,Option.dite_none_right_eq_some,
    Option.some.injEq]
  constructor
  · rintro ⟨k,hk,_,rfl⟩
    simp only
    omega
  · intro h
    exact ⟨i,by omega,i.isLt,rfl⟩

theorem mem_partition (hT : Tiling fl n T) {t : Fin T} {i : Fin n} :
    i ∈ partition fl n t ↔ owner fl n T i = t := by
  rw [partition,mem_indices,hT.owner_eq_iff i.isLt,and_iff_right t.isLt]
  rfl

theorem nodup_indices (lo hi : ℕ) : (indices lo hi : List (Fin n)).Nodup := by
  refine List.Nodup.filterMap (fun a b k ha hb => ?_) List.nodup_range'
  simp only [Option.mem_def,Option.dite_none_right_eq_some,Option.some.injEq] at ha hb
  obtain ⟨_,rfl⟩ := ha
  obtain ⟨_,hb⟩ := hb
  exact (congrArg Fin.val hb).symm

theorem nodup_partition (fl : Rounding) (t : Fin T) : (partition fl n t).Nodup := nodup_indices _ _

theorem indices_succ (lo : ℕ) (i : Fin n) (hlo : lo ≤ i) :
    (indices lo (i + 1) : List (Fin n)) = indices lo i ++ [i] := by
  have he : (i : ℕ) + 1 - lo = (i - lo) + 1 := by omega
  have hi : lo + 1 * (i - lo) = i := by omega
  rw [indices,he,List.range'_concat,List.filterMap_append,hi]
  simp [indices]

section Roots

theorem foldl_group (roots : Fin n → Fin n) (instr : Fin n → MergeInstr n) (l : List (Fin n))
    (ccs : Fin n → List (Fin n)) (R : Fin n) :
    l.foldl (fun ccs i => Function.update ccs (roots i) (ccs (roots i) ++ [(instr i).child])) ccs R =
      ccs R ++ (l.filter fun i => roots i = R).map fun i => (instr i).child := by
  induction l generalizing ccs with
  | nil => simp
  | cons i l ih =>
    rw [List.foldl_cons,ih]
    by_cases hR : roots i = R
    · subst hR
      simp
    · simp [hR,Ne.symm hR]

theorem localCcs_eq (roots : Fin n → Fin n) (instr : Fin n → MergeInstr n) (t : Fin T) (R : Fin n) :
    localCcs fl roots instr t R =
      ((partition fl n t).filter fun i => roots i = R).map fun i => (instr i).child :=
  foldl_group roots instr _ _ R

theorem length_localCcs (hT : Tiling fl n T)
    (roots : Fin n → Fin n) (instr : Fin n → MergeInstr n) (t : Fin T) (R : Fin n) :
    (localCcs fl roots instr t R).length =
      (Finset.univ.filter fun i => roots i = R ∧ owner fl n T i = t).card := by
  rw [localCcs_eq,List.length_map,← List.toFinset_card_of_nodup ((nodup_partition fl t).filter _)]
  refine congrArg Finset.card (Finset.ext fun i => ?_)
  simp [mem_partition hT,and_comm]

theorem sum_length_localCcs (hT : Tiling fl n T) (roots : Fin n → Fin n)
    (instr : Fin n → MergeInstr n) (R : Fin n) : ∑ t : Fin T, (localCcs fl roots instr t R).length =
      (Finset.univ.filter fun i => roots i = R).card := by
  simp only [length_localCcs hT]
  rw [Finset.card_eq_sum_card_fiberwise (f := fun i : Fin n =>
    (⟨owner fl n T i,hT.owner_lt i.isLt⟩ : Fin T)) (t := Finset.univ) (by simp)]
  refine Finset.sum_congr rfl fun t _ => congrArg Finset.card (Finset.ext fun i => ?_)
  simp [Fin.ext_iff]

end Roots

section Prefix

def segment (lo : ℕ) (i : Fin n) : Finset (Fin n) :=
  Finset.univ.filter fun k => lo ≤ (k : ℕ) ∧ k ≤ i

theorem segment_self {lo : ℕ} {i : Fin n} (h : lo = i) : segment lo i = {i} := by
  ext k
  simp only [segment,Finset.mem_filter,Finset.mem_univ,true_and,Finset.mem_singleton,Fin.le_def,
    Fin.ext_iff]
  omega

theorem sum_segment_succ (f : Fin n → ℕ) {lo : ℕ} {i j : Fin n} (hij : (i : ℕ) + 1 = j)
    (hlo : lo ≤ i) : ∑ k ∈ segment lo j, f k = f j + ∑ k ∈ segment lo i, f k := by
  have hins : segment lo j = insert j (segment lo i) := by
    ext k
    simp only [segment,Finset.mem_filter,Finset.mem_univ,true_and,Finset.mem_insert,Fin.le_def,
      Fin.ext_iff]
    omega
  have hj : j ∉ segment lo i := by
    simp only [segment,Finset.mem_filter,Finset.mem_univ,true_and,Fin.le_def]
    omega
  rw [hins,Finset.sum_insert hj]

theorem foldl_prefixAt (pre : Fin n → ℕ) (lo hi : ℕ) (hhi : hi ≤ n) (i : Fin n) :
    (indices (lo + 1) hi).foldl prefixAt pre i =
      if lo ≤ i ∧ (i : ℕ) < hi then ∑ k ∈ segment lo i, pre k else pre i := by
  induction hi generalizing i with
  | zero => simp [indices]
  | succ hi ih =>
    rcases Nat.lt_or_ge lo hi with hlt | hge
    · have hstep := indices_succ (lo + 1) (⟨hi,hhi⟩ : Fin n) hlt
      simp only at hstep
      rw [hstep,List.foldl_append,List.foldl_cons,List.foldl_nil,prefixAt]
      have ih' := ih (by omega)
      by_cases he : i = ⟨hi,hhi⟩
      · subst he
        rw [Function.update_self,ih',ih',if_neg (by simp),if_pos (by simp only; omega),
          if_pos (by simp only; omega),← sum_segment_succ pre (by simp only; omega) (by simp only; omega)]
      · have hne : (i : ℕ) ≠ hi := fun e => he (Fin.ext e)
        rw [Function.update_of_ne he,ih']
        refine if_congr ?_ rfl rfl
        omega
    · have hnil : (indices (lo + 1) (hi + 1) : List (Fin n)) = [] := by
        rw [indices,show hi + 1 - (lo + 1) = 0 by omega]
        rfl
      rw [hnil,List.foldl_nil]
      split
      · next h =>
        rw [segment_self (by omega),Finset.sum_singleton]
      · rfl

theorem prefixPartition_apply (hT : Tiling fl n T) (pre : Fin n → ℕ) (t : Fin T) (i : Fin n) :
    prefixPartition fl pre t i = if owner fl n T i = t
      then ∑ k ∈ segment (cuts fl n T t) i, pre k else pre i := by
  rw [prefixPartition,getIthPartition_eq,foldl_prefixAt _ _ _ (hT.le t.isLt)]
  refine if_congr ?_ rfl rfl
  rw [hT.owner_eq_iff i.isLt,and_iff_right t.isLt]

theorem foldl_prefixPartition (hT : Tiling fl n T) (l : List (Fin T)) (hl : l.Nodup)
    (pre : Fin n → ℕ) (i : Fin n) : l.foldl (prefixPartition fl) pre i =
      if ∃ t ∈ l, owner fl n T i = (t : Fin T)
      then ∑ k ∈ segment (cuts fl n T (owner fl n T i)) i, pre k else pre i := by
  induction l generalizing pre with
  | nil => simp
  | cons t l ih =>
    obtain ⟨ht,hl⟩ := List.nodup_cons.mp hl
    rw [List.foldl_cons,ih hl]
    by_cases hit : owner fl n T i = (t : ℕ)
    · have hnot : ¬ ∃ u ∈ l, owner fl n T i = (u : Fin T) := by
        rintro ⟨u,hu,he⟩
        exact ht (Fin.ext (hit.symm.trans he) ▸ hu)
      rw [if_neg hnot,if_pos ⟨t,List.mem_cons_self,hit⟩,prefixPartition_apply hT,if_pos hit,hit]
    · have hiff : (∃ u ∈ t :: l, owner fl n T i = (u : Fin T)) ↔
          ∃ u ∈ l, owner fl n T i = (u : Fin T) := by simp [hit]
      simp only [hiff,prefixPartition_apply hT,if_neg hit]
      split
      · refine Finset.sum_congr rfl fun k hk => if_neg fun he => hit ?_
        obtain ⟨hlo,hhi⟩ := (Finset.mem_filter.mp hk).2
        have hle : owner fl n T k ≤ owner fl n T i := Partition.owner_mono (Fin.le_def.mp hhi)
        have hge : ¬ owner fl n T k < owner fl n T i := by
          intro hlt
          have hk' : (k : ℕ) < cuts fl n T (owner fl n T k + 1) :=
            ((hT.owner_eq_iff k.isLt).mp rfl).2.2
          have hc : cuts fl n T (owner fl n T k + 1) ≤ cuts fl n T (owner fl n T i) :=
            hT.mono (Nat.succ_le_of_lt hlt) (le_of_lt (hT.owner_lt i.isLt))
          omega
        omega
      · rfl

def before (f : Fin n → ℕ) (m : ℕ) : ℕ :=
  ∑ k ∈ Finset.univ.filter fun k : Fin n => (k : ℕ) < m, f k

theorem before_zero (f : Fin n → ℕ) : before f 0 = 0 := by simp [before]

theorem before_succ (f : Fin n → ℕ) (i : Fin n) : before f (i + 1) = before f i + f i := by
  have hins : (Finset.univ.filter fun k : Fin n => (k : ℕ) < i + 1) =
      insert i (Finset.univ.filter fun k : Fin n => (k : ℕ) < i) := by
    ext k
    simp only [Finset.mem_filter,Finset.mem_univ,true_and,Finset.mem_insert,Fin.ext_iff]
    omega
  rw [before,hins,Finset.sum_insert (by simp),add_comm,before]

theorem before_mono (f : Fin n → ℕ) {m m' : ℕ} (h : m ≤ m') : before f m ≤ before f m' := by
  refine Finset.sum_le_sum_of_subset fun k hk => ?_
  simp only [Finset.mem_filter,Finset.mem_univ,true_and] at hk ⊢
  omega

theorem before_add_segment (f : Fin n → ℕ) {lo : ℕ} {i : Fin n} (hlo : lo ≤ i) :
    before f lo + ∑ k ∈ segment lo i, f k = before f (i + 1) := by
  rw [before,segment,← Finset.sum_union]
  · refine Finset.sum_congr (Finset.ext fun k => ?_) fun _ _ => rfl
    simp only [Finset.mem_union,Finset.mem_filter,Finset.mem_univ,true_and,Fin.le_def]
    omega
  · rw [Finset.disjoint_filter]
    omega

theorem prefixPartitions_apply (hT : Tiling fl n T) (pre : Fin n → ℕ) (i : Fin n) :
    prefixPartitions fl T pre i =
      ∑ k ∈ segment (cuts fl n T (owner fl n T i)) i, pre k := by
  rw [prefixPartitions,foldl_prefixPartition hT _ (List.nodup_finRange T)]
  exact if_pos ⟨⟨_,hT.owner_lt i.isLt⟩,List.mem_finRange _,rfl⟩

-- the sums that an empty range counts again: its last index is that of an earlier range
def recounted (fl : Rounding) (T : ℕ) (pre : Fin n → ℕ) : ℕ → ℕ
  | 0 => 0
  | t + 1 =>
    (if h : cuts fl n T t = cuts fl n T (t + 1) ∧ cuts fl n T (t + 1) - 1 < n
      then prefixPartitions fl T pre ⟨cuts fl n T (t + 1) - 1,h.2⟩ else 0) + recounted fl T pre t

theorem rangeSums_eq (hT : Tiling fl n T) (hn : 0 < n) (pre : Fin n → ℕ) (t : ℕ) (ht : t ≤ T) :
    rangeSums fl T (prefixPartitions fl T pre) t =
      before pre (cuts fl n T t) + recounted fl T pre t := by
  induction t with
  | zero => rw [rangeSums,hT.first,before_zero,recounted]
  | succ t ih =>
    have hpos := hT.cut_pos hn ht
    have hle := hT.le ht
    have hcur : cuts fl n T (t + 1) - 1 < n := by omega
    rw [rangeSums,getIthPartition_eq,recounted]
    simp only
    rw [dif_pos hcur,ih (by omega)]
    rcases Nat.eq_or_lt_of_le (hT.le_succ t ht) with he | hlt
    · have hbefore : before pre (cuts fl n T t) = before pre (cuts fl n T (t + 1)) :=
        congrArg _ he
      rw [dif_pos ⟨he,hcur⟩]
      omega
    · have hlt : cuts fl n T t < cuts fl n T (t + 1) := hlt
      have hpart : owner fl n T (cuts fl n T (t + 1) - 1) = t :=
        (hT.owner_eq_iff hcur).mpr ⟨ht,by omega,by omega⟩
      have hlo : cuts fl n T t ≤ cuts fl n T (t + 1) - 1 := by omega
      have hseg := before_add_segment pre (i := ⟨cuts fl n T (t + 1) - 1,hcur⟩) hlo
      simp only [Nat.sub_add_cancel hpos] at hseg
      rw [dif_neg fun h => absurd h.1 (Nat.ne_of_lt hlt),prefixPartitions_apply hT,hpart]
      omega

theorem foldl_addAll (c : ℕ) (l : List (Fin n)) (hl : l.Nodup) (pre : Fin n → ℕ) (i : Fin n) :
    l.foldl (fun pre i => Function.update pre i (pre i + c)) pre i =
      pre i + if i ∈ l then c else 0 := by
  induction l generalizing pre with
  | nil => simp
  | cons j l ih =>
    obtain ⟨hj,hl⟩ := List.nodup_cons.mp hl
    rw [List.foldl_cons,ih hl]
    by_cases hij : i = j
    · subst hij
      simp [hj]
    · simp [hij]

theorem addRangeSum_apply (hT : Tiling fl n T) {sums : ℕ → ℕ} (hz : sums 0 = 0)
    (pre : Fin n → ℕ) (t : Fin T) (i : Fin n) :
    addRangeSum fl sums pre t i = pre i + if owner fl n T i = t then sums t else 0 := by
  unfold addRangeSum
  split
  · rw [foldl_addAll _ _ (nodup_partition fl t)]
    simp only [mem_partition hT]
  · next h =>
    have ht : (t : ℕ) = 0 := by omega
    rw [ht,hz,ite_self,add_zero]

theorem foldl_addRangeSum (hT : Tiling fl n T) {sums : ℕ → ℕ} (hz : sums 0 = 0)
    (l : List (Fin T)) (hl : l.Nodup) (pre : Fin n → ℕ) (i : Fin n) :
    l.foldl (addRangeSum fl sums) pre i =
      pre i + if ∃ t ∈ l, owner fl n T i = (t : Fin T) then sums (owner fl n T i)
        else 0 := by
  induction l generalizing pre with
  | nil => simp
  | cons t l ih =>
    obtain ⟨ht,hl⟩ := List.nodup_cons.mp hl
    rw [List.foldl_cons,ih hl,addRangeSum_apply hT hz]
    by_cases hit : owner fl n T i = (t : ℕ)
    · have hnot : ¬ ∃ u ∈ l, owner fl n T i = (u : Fin T) := by
        rintro ⟨u,hu,he⟩
        exact ht (Fin.ext (hit.symm.trans he) ▸ hu)
      rw [if_neg hnot,if_pos hit,if_pos ⟨t,List.mem_cons_self,hit⟩,hit,add_zero]
    · simp [hit]

theorem finishPrefix_apply (hT : Tiling fl n T) (pre : Fin n → ℕ) (i : Fin n) :
    finishPrefix fl T pre i = before pre (i + 1) + recounted fl T pre (owner fl n T i) := by
  have hpart := hT.owner_lt i.isLt
  have hcut : cuts fl n T (owner fl n T i) ≤ i := hT.owner_le i
  have hseg := before_add_segment pre hcut
  rw [finishPrefix,foldl_addRangeSum hT rfl _ (List.nodup_finRange T),
    if_pos ⟨⟨_,hpart⟩,List.mem_finRange _,rfl⟩,
    rangeSums_eq hT (Nat.zero_lt_of_lt i.isLt) _ _ (le_of_lt hpart),prefixPartitions_apply hT,← hseg]
  ring

def shift (fl : Rounding) (T : ℕ) (pre : Fin n → ℕ) (R : Fin n) : ℕ :=
  recounted fl T pre (owner fl n T (R - 1))

theorem placement_eq (hT : Tiling fl n T) (idx : Fin T × Fin n → ℕ) (pre : Fin n → ℕ)
    (x : Fin T × Fin n) :
    placement idx (finishPrefix fl T pre) x = idx x + before pre x.2 + shift fl T pre x.2 := by
  unfold placement shift
  split
  · next h =>
    rw [finishPrefix_apply hT]
    simp only
    rw [Nat.sub_add_cancel h,Nat.add_assoc]
  · next h =>
    have hz : (x.2 : ℕ) = 0 := by omega
    have hown : owner fl n T 0 = 0 := hT.owner_zero (Nat.zero_lt_of_lt x.2.isLt)
    rw [hz,before_zero,Nat.zero_sub,hown]
    rfl

theorem recounted_of_nonempty (hT : ∀ i < T, cuts fl n T i < cuts fl n T (i + 1)) (pre : Fin n → ℕ)
    {t : ℕ} (ht : t ≤ T) : recounted fl T pre t = 0 := by
  induction t with
  | zero => rfl
  | succ t ih =>
    rw [recounted,ih (by omega),dif_neg fun h => absurd h.1 (Nat.ne_of_lt (hT t ht))]

end Prefix

section Scatter

variable {ccs : Fin T → Fin n → List (Fin n)} {order : List (Fin T × Fin n)}
  {place : Fin T × Fin n → ℕ}

theorem mem_present {x : Fin T × Fin n} :
    x ∈ present ccs order ↔ x ∈ order ∧ ccs x.1 x.2 ≠ [] := by
  simp [present]

theorem mem_writes {w : ℕ × MergeInstr n} : w ∈ writes ccs place order ↔
    ∃ x ∈ present ccs order, ∃ j, ∃ h : j < (ccs x.1 x.2).length,
      w = (place x + j,⟨x.2,(ccs x.1 x.2)[j]⟩) := by
  simp only [writes,List.mem_flatMap,List.mem_map,Prod.exists,List.mem_zipIdx_iff_getElem?,
    List.getElem?_eq_some_iff]
  constructor
  · rintro ⟨t,R,hx,v,j,hv,rfl⟩
    obtain ⟨hj,hv⟩ := hv
    exact ⟨t,R,hx,j,hj,by rw [hv]⟩
  · rintro ⟨t,R,hx,j,hj,rfl⟩
    exact ⟨t,R,hx,_,j,⟨hj,rfl⟩,rfl⟩

structure Separated (ccs : Fin T → Fin n → List (Fin n)) (order : List (Fin T × Fin n))
    (place : Fin T × Fin n → ℕ) : Prop where
  apart : ∀ x ∈ present ccs order, ∀ y ∈ present ccs order, x ≠ y →
    place x + (ccs x.1 x.2).length ≤ place y ∨ place y + (ccs y.1 y.2).length ≤ place x
  bound : ∀ x ∈ present ccs order, place x + (ccs x.1 x.2).length ≤ n

theorem Separated.eq_of_key (h : Separated ccs order place) {w w' : ℕ × MergeInstr n}
    (hw : w ∈ writes ccs place order) (hw' : w' ∈ writes ccs place order) (hk : w.1 = w'.1) :
    w = w' := by
  obtain ⟨x,hx,j,hj,rfl⟩ := mem_writes.mp hw
  obtain ⟨y,hy,k,hk',rfl⟩ := mem_writes.mp hw'
  simp only at hk
  by_cases hxy : x = y
  · subst hxy
    have hjk : j = k := by omega
    subst hjk
    rfl
  · rcases h.apart x hx y hy hxy with hlt | hlt <;> omega

theorem foldlM_writeAt (l : List (ℕ × MergeInstr n)) (hb : ∀ w ∈ l, w.1 < n)
    (instr : Fin n → MergeInstr n) :
    ∃ instr', l.foldlM writeAt instr = some instr' ∧
      ∀ i, (instr' i = instr i ∧ ∀ w ∈ l, w.1 ≠ i) ∨ ((i : ℕ),instr' i) ∈ l := by
  induction l generalizing instr with
  | nil => exact ⟨instr,rfl,fun i => .inl ⟨rfl,fun w hw => by cases hw⟩⟩
  | cons w l ih =>
    have hw := hb w List.mem_cons_self
    obtain ⟨instr',hrun,hspec⟩ := ih (fun w' hw' => hb w' (List.mem_cons_of_mem _ hw'))
      (Function.update instr ⟨w.1,hw⟩ w.2)
    refine ⟨instr',?_,fun i => ?_⟩
    · rw [List.foldlM_cons,writeAt,dif_pos hw]
      exact hrun
    · rcases hspec i with ⟨he,hno⟩ | hmem
      · by_cases hi : i = ⟨w.1,hw⟩
        · subst hi
          rw [Function.update_self] at he
          rw [he]
          exact .inr List.mem_cons_self
        · rw [Function.update_of_ne hi] at he
          refine .inl ⟨he,fun w' hw' e => ?_⟩
          rcases List.mem_cons.mp hw' with rfl | hw'
          · exact hi (Fin.ext e.symm)
          · exact hno w' hw' e
      · exact .inr (List.mem_cons_of_mem _ hmem)

theorem Separated.scatter (h : Separated ccs order place) (instr : Fin n → MergeInstr n) :
    ∃ instr', (writes ccs place order).foldlM writeAt instr = some instr' ∧
      ∀ w ∈ writes ccs place order, ∃ hk : w.1 < n, instr' ⟨w.1,hk⟩ = w.2 := by
  have hb : ∀ w ∈ writes ccs place order, w.1 < n := by
    intro w hw
    obtain ⟨x,hx,j,hj,rfl⟩ := mem_writes.mp hw
    have := h.bound x hx
    simp only
    omega
  obtain ⟨instr',hrun,hspec⟩ := foldlM_writeAt _ hb instr
  refine ⟨instr',hrun,fun w hw => ⟨hb w hw,?_⟩⟩
  rcases hspec ⟨w.1,hb w hw⟩ with ⟨_,hno⟩ | hmem
  · exact absurd rfl (hno w hw)
  · exact congrArg Prod.snd (h.eq_of_key hmem hw rfl)

end Scatter

section Spec

variable (fl) (o : CaptureOrder n T) (roots : Fin n → Fin n) (instr : Fin n → MergeInstr n)

theorem captures_tiled : Tiled Prod.snd (fun x => (localCcs fl roots instr x.1 x.2).length)
    (present (localCcs (T := T) fl roots instr) o.order)
    (captures (localCcs (T := T) fl roots instr) o.order) :=
  tiled_run (o.nodup.filter _)

theorem captures_total (hT : Tiling fl n T) (R : Fin n) :
    (captures (localCcs (T := T) fl roots instr) o.order).total R =
      (Finset.univ.filter fun i => roots i = R).card := by
  have hsub : ∑ x ∈ (present (localCcs (T := T) fl roots instr) o.order).toFinset with x.2 = R,
      (localCcs fl roots instr x.1 x.2).length =
      ∑ x : Fin T × Fin n with x.2 = R, (localCcs fl roots instr x.1 x.2).length := by
    refine Finset.sum_subset (Finset.filter_subset_filter _ (Finset.subset_univ _)) fun x hx hx' => ?_
    simp only [Finset.mem_filter,Finset.mem_univ,true_and,List.mem_toFinset,mem_present,o.all,
      not_and] at hx hx'
    rw [List.length_eq_zero_iff]
    by_contra hne
    exact hx' hne hx
  rw [(captures_tiled fl o roots instr).total R,hsub,← sum_length_localCcs hT roots instr R,
    Finset.sum_filter,Fintype.sum_prod_type]
  refine Finset.sum_congr rfl fun t _ => ?_
  simp

theorem before_captures (hT : Tiling fl n T) :
    before (captures (localCcs (T := T) fl roots instr) o.order).total n = n := by
  have hall : (Finset.univ.filter fun k : Fin n => (k : ℕ) < n) = Finset.univ := by
    simp
  rw [before,hall]
  simp only [captures_total fl o roots instr hT]
  rw [← Finset.card_eq_sum_card_fiberwise (f := roots) (by simp),Finset.card_univ,Fintype.card_fin]

abbrev placed (x : Fin T × Fin n) : ℕ :=
  placement (captures (localCcs fl roots instr) o.order).offset
    (finishPrefix fl T (captures (localCcs fl roots instr) o.order).total) x

def Unshifted : Prop := ∀ x ∈ present (localCcs (T := T) fl roots instr) o.order,
  shift fl T (captures (localCcs (T := T) fl roots instr) o.order).total x.2 = 0

theorem placed_lo (hT : Tiling fl n T) (x : Fin T × Fin n) :
    before (captures (localCcs (T := T) fl roots instr) o.order).total x.2 ≤
      placed fl o roots instr x := by
  rw [placed,placement_eq hT]
  omega

variable {fl o roots instr}

theorem Unshifted.placed_hi (hz : Unshifted fl o roots instr) (hT : Tiling fl n T)
    {x : Fin T × Fin n} (hx : x ∈ present (localCcs (T := T) fl roots instr) o.order) :
    placed fl o roots instr x + (localCcs fl roots instr x.1 x.2).length ≤
      before (captures (localCcs (T := T) fl roots instr) o.order).total (x.2 + 1) := by
  have hfits := (captures_tiled fl o roots instr).fits x hx
  rw [placed,placement_eq hT,before_succ,hz x hx]
  omega

theorem Unshifted.separated (hz : Unshifted fl o roots instr) (hT : Tiling fl n T) :
    Separated (localCcs (T := T) fl roots instr) o.order (placed fl o roots instr) where
  apart x hx y hy hxy := by
    have across {x y : Fin T × Fin n} (hx : x ∈ present (localCcs (T := T) fl roots instr) o.order)
        (hlt : (x.2 : ℕ) < y.2) :
        placed fl o roots instr x + (localCcs fl roots instr x.1 x.2).length ≤
          placed fl o roots instr y :=
      (hz.placed_hi hT hx).trans ((before_mono _ hlt).trans (placed_lo fl o roots instr hT y))
    rcases lt_trichotomy (x.2 : ℕ) y.2 with hlt | he | hlt
    · exact .inl (across hx hlt)
    · have hapart := (captures_tiled fl o roots instr).apart x hx y hy hxy (Fin.ext he)
      rw [placed,placed,placement_eq hT,placement_eq hT,hz x hx,hz y hy,he]
      omega
    · exact .inr (across hy hlt)
  bound x hx := by
    refine (hz.placed_hi hT hx).trans ?_
    exact (before_mono _ x.2.isLt).trans_eq (before_captures fl o roots instr hT)

structure GroupedBy (d : DisjointSetUnionMT n) (instr : Fin n → MergeInstr n) : Prop where
  child : Function.Bijective fun i => (instr i).child
  root : ∀ i, (instr i).root = d.rep (instr i).child
  sorted : SortedByRoot instr

theorem Unshifted.written (hz : Unshifted fl o roots instr) (hT : Tiling fl n T) (i : Fin n) :
    ∃ w ∈ writes (localCcs (T := T) fl roots instr) (placed fl o roots instr) o.order,
      w.2 = ⟨roots i,(instr i).child⟩ ∧
      before (captures (localCcs (T := T) fl roots instr) o.order).total (roots i) ≤ w.1 ∧
      w.1 < before (captures (localCcs (T := T) fl roots instr) o.order).total (roots i + 1) := by
  obtain ⟨t,ht⟩ : ∃ t : Fin T, owner fl n T i = t := ⟨⟨_,hT.owner_lt i.isLt⟩,rfl⟩
  have hmem : (instr i).child ∈ localCcs fl roots instr t (roots i) := by
    rw [localCcs_eq]
    exact List.mem_map.mpr ⟨i,List.mem_filter.mpr ⟨(mem_partition hT).mpr ht,by simp⟩,rfl⟩
  have hx : (t,roots i) ∈ present (localCcs (T := T) fl roots instr) o.order :=
    mem_present.mpr ⟨o.all _,List.ne_nil_of_mem hmem⟩
  obtain ⟨j,hj,hv⟩ := List.mem_iff_getElem.mp hmem
  refine ⟨_,mem_writes.mpr ⟨(t,roots i),hx,j,hj,rfl⟩,by rw [hv],?_,?_⟩
  · exact (placed_lo fl o roots instr hT (t,roots i)).trans (Nat.le_add_right _ _)
  · refine lt_of_lt_of_le ?_ (hz.placed_hi hT hx)
    exact Nat.add_lt_add_left hj _

structure Scattered (fl : Rounding) (o : CaptureOrder n T) (d : DisjointSetUnionMT n)
    (instr instr' : Fin n → MergeInstr n) : Prop extends GroupedBy d instr' where
  written : ∀ w ∈ writes (localCcs (T := T) fl (findRoots d instr).2 instr)
    (placed fl o (findRoots d instr).2 instr) o.order, ∃ hk : w.1 < n, instr' ⟨w.1,hk⟩ = w.2

theorem Unshifted.scattered {d : DisjointSetUnionMT n}
    (hz : Unshifted fl o (findRoots d instr).2 instr)
    (hT : Tiling fl n T) (hc : Function.Bijective fun i => (instr i).child) :
    ∃ d' instr', createMergeInstructions fl o d instr = some (d',instr') ∧
      (∀ x, d'.rep x = d.rep x) ∧ Scattered fl o d instr instr' := by
  obtain ⟨instr',hrun,hspec⟩ := (hz.separated hT).scatter instr
  refine ⟨(findRoots d instr).1,instr',?_,DisjointSetUnionMT.rep_findEach d _,?_⟩
  · rw [createMergeInstructions,if_pos fun t ht => ⟨hT.le ht,fun hn => hT.cut_pos hn ht⟩]
    simp only
    rw [hrun]
    rfl
  · have hq (i : Fin n) : ∃ q : Fin n, instr' q = ⟨d.rep (instr i).child,(instr i).child⟩ ∧
        before (captures (localCcs (T := T) fl (findRoots d instr).2 instr) o.order).total
          (d.rep (instr i).child) ≤ q ∧
        q < before (captures (localCcs (T := T) fl (findRoots d instr).2 instr) o.order).total
          (d.rep (instr i).child + 1) := by
      obtain ⟨w,hw,hval,hlo,hhi⟩ := hz.written hT i
      obtain ⟨hk,he⟩ := hspec w hw
      rw [findRoots,DisjointSetUnionMT.findEach_snd] at hval hlo hhi
      exact ⟨⟨w.1,hk⟩,he.trans hval,hlo,hhi⟩
    choose q hval hlo hhi using hq
    have hinj : Function.Injective q := by
      intro i j he
      have hij := (hval i).symm.trans ((congrArg instr' he).trans (hval j))
      injection hij with _ hchild
      exact hc.1 hchild
    have hsurj : Function.Surjective q := Finite.surjective_of_injective hinj
    refine ⟨⟨Finite.surjective_iff_bijective.mp fun c => ?_,fun k => ?_,fun k k' hkk => ?_⟩,hspec⟩
    · obtain ⟨i,rfl⟩ := hc.2 c
      exact ⟨q i,by simp only [hval]⟩
    · obtain ⟨i,rfl⟩ := hsurj k
      rw [hval]
    · obtain ⟨i,rfl⟩ := hsurj k
      obtain ⟨j,rfl⟩ := hsurj k'
      rw [hval,hval]
      by_contra hlt
      have hle := before_mono (captures (localCcs (T := T) fl (findRoots d instr).2 instr)
        o.order).total (Nat.succ_le_of_lt (not_le.mp hlt))
      have h1 := hlo i
      have h2 := hhi j
      rw [Fin.le_def] at hkk
      simp only [Nat.succ_eq_add_one] at hle
      omega

theorem Unshifted.grouped {d : DisjointSetUnionMT n} (hz : Unshifted fl o (findRoots d instr).2 instr)
    (hT : Tiling fl n T) (hc : Function.Bijective fun i => (instr i).child) :
    ∃ d' instr', createMergeInstructions fl o d instr = some (d',instr') ∧
      (∀ x, d'.rep x = d.rep x) ∧ GroupedBy d instr' := by
  obtain ⟨d',instr',hrun,hrep,hs⟩ := hz.scattered hT hc
  exact ⟨d',instr',hrun,hrep,hs.toGroupedBy⟩

theorem createMergeInstructions_spec (o : CaptureOrder n T) (d : DisjointSetUnionMT n)
    (instr : Fin n → MergeInstr n) (h : Consistent fl n T)
    (hc : Function.Bijective fun i => (instr i).child) :
    ∃ d' instr', createMergeInstructions fl o d instr = some (d',instr') ∧
      (∀ x, d'.rep x = d.rep x) ∧ GroupedBy d instr' := by
  have hz : Unshifted fl o (findRoots d instr).2 instr := fun x _ =>
    recounted_of_nonempty h.nonempty _ (Nat.findGreatest_le T)
  exact hz.grouped h.tiles hc

end Spec

end GraphZeppelin.Boruvka
