import GraphZeppelin.Boruvka.CreateMergeInstrSpec

namespace GraphZeppelin.Boruvka
open Dsu FetchAdd

variable {n T : ℕ}

theorem owner_exact (hT : 0 < T) {x : ℕ} (hx : x < n) : owner .exact n T x = Partition.part n T x :=
  (Partition.part_eq_owner hT hx).symm

section Recounted

variable {pre : Fin n → ℕ}

theorem prefixPartitions_single (hT : 0 < T) (hn : n ≤ T) (i : Fin n) :
    prefixPartitions .exact T pre i = pre i := by
  rw [prefixPartitions_apply (exact_tiling hT),owner_exact hT i.isLt,
    show cuts .exact n T = Partition.cut n T from rfl,
    Partition.cut_part hT hn i.isLt,segment_self rfl,
    Finset.sum_singleton]

theorem recounted_ne_zero_iff (hT : 0 < T) (t : ℕ) (ht : t ≤ T) : recounted .exact T pre t ≠ 0 ↔
    ∃ k : Fin n, pre k ≠ 0 ∧ ∃ s < t, cuts .exact n T s = k + 1 ∧ cuts .exact n T (s + 1) = k + 1 := by
  induction t with
  | zero => simp [recounted]
  | succ t ih =>
    have ih := ih (Nat.le_of_succ_le ht)
    have hsplit : recounted .exact T pre (t + 1) ≠ 0 ↔ (∃ k : Fin n, pre k ≠ 0 ∧
        cuts .exact n T t = k + 1 ∧ cuts .exact n T (t + 1) = k + 1) ∨
        recounted .exact T pre t ≠ 0 := by
      rw [recounted]
      split
      · next h =>
        obtain ⟨hempty,hcur⟩ := h
        have hnT : n ≤ T := by
          by_contra hlt
          have hne : cuts .exact n T t < cuts .exact n T (t + 1) :=
            Partition.cut_lt_succ hT (le_of_not_ge hlt) t
          omega
        have hpos : 0 < cuts .exact n T (t + 1) := Partition.cut_pos hT (Nat.zero_lt_of_lt hcur) t
        rw [prefixPartitions_single hT hnT]
        constructor
        · intro h
          by_cases hz : recounted .exact T pre t = 0
          · refine .inl ⟨⟨_,hcur⟩,by omega,?_,?_⟩ <;> simp only <;> omega
          · exact .inr hz
        · rintro (⟨k,hk,_,hcut⟩ | h)
          · obtain rfl : k = ⟨cuts .exact n T (t + 1) - 1,hcur⟩ := Fin.ext (by simp only; omega)
            omega
          · omega
      · next h =>
        rw [Nat.zero_add]
        refine ⟨.inr,fun hor => hor.resolve_left ?_⟩
        rintro ⟨k,_,hlo,hhi⟩
        exact h ⟨hlo.trans hhi.symm,by have := k.isLt; omega⟩
    rw [hsplit,ih]
    constructor
    · rintro (⟨k,hk,hcut⟩ | ⟨k,hk,s,hs,hcut⟩)
      · exact ⟨k,hk,t,Nat.lt_succ_self t,hcut⟩
      · exact ⟨k,hk,s,Nat.lt_succ_of_lt hs,hcut⟩
    · rintro ⟨k,hk,s,hs,hcut⟩
      rcases Nat.lt_succ_iff_lt_or_eq.mp hs with hs | rfl
      · exact .inr ⟨k,hk,s,hs,hcut⟩
      · exact .inl ⟨k,hk,hcut⟩

theorem shift_ne_zero_iff (hT : 0 < T) (R : Fin n) : shift .exact T pre R ≠ 0 ↔
    ∃ k : Fin n, pre k ≠ 0 ∧ (k : ℕ) + 1 < R ∧
      ∃ s < T, getIthPartition .exact n s T = ((k : ℕ) + 1,(k : ℕ) + 1) := by
  have hR : (R : ℕ) - 1 < n := pred_lt R
  have hle : owner .exact n T (R - 1) < T := (exact_tiling hT).owner_lt hR
  rw [shift,recounted_ne_zero_iff hT _ (le_of_lt hle)]
  simp only [getIthPartition_eq,Prod.mk.injEq]
  refine exists_congr fun k => and_congr_right fun _ => ?_
  constructor
  · rintro ⟨s,hs,hcut⟩
    have hlo : cuts .exact n T (s + 1) ≤ R - 1 :=
      ((exact_tiling hT).lt_owner_iff (hs.trans hle)).mp hs
    exact ⟨by omega,s,hs.trans hle,hcut⟩
  · rintro ⟨hk,s,hs,hcut⟩
    have hlo : cuts .exact n T (s + 1) ≤ R - 1 := by omega
    exact ⟨s,((exact_tiling hT).lt_owner_iff hs).mpr hlo,hcut⟩

end Recounted

section Scatter

variable {o : CaptureOrder n T} {d : DisjointSetUnionMT n} {roots : Fin n → Fin n}
  {instr : Fin n → MergeInstr n}

theorem foldlM_writeAt_none {l : List (ℕ × MergeInstr n)} {w : ℕ × MergeInstr n} (hw : w ∈ l)
    (hout : n ≤ w.1) (instr : Fin n → MergeInstr n) : l.foldlM writeAt instr = none := by
  induction l generalizing instr with
  | nil => cases hw
  | cons w' l ih =>
    rw [List.foldlM_cons,writeAt]
    split
    · next hlt =>
      rcases List.mem_cons.mp hw with rfl | hw
      · omega
      · exact ih hw _
    · rfl

theorem exists_present {R : Fin n}
    (h : (captures (localCcs (T := T) .exact roots instr) o.order).total R ≠ 0) :
    ∃ x ∈ present (localCcs (T := T) .exact roots instr) o.order, x.2 = R ∧
      (captures (localCcs (T := T) .exact roots instr) o.order).offset x +
        (localCcs .exact roots instr x.1 x.2).length =
      (captures (localCcs (T := T) .exact roots instr) o.order).total R :=
  (reached_run (o.nodup.filter _) R).resolve_left h

theorem total_ne_zero_of_present {x : Fin T × Fin n}
    (hx : x ∈ present (localCcs (T := T) .exact roots instr) o.order) :
    (captures (localCcs (T := T) .exact roots instr) o.order).total x.2 ≠ 0 := by
  have hfits := (captures_tiled .exact o roots instr).fits x hx
  have hlen := List.length_pos_iff.mpr (mem_present.mp hx).2
  omega

-- the last captured group of the largest root ends past the array by the shift
theorem shifted_write (hT : 0 < T) {R : Fin n}
    (hR : (captures (localCcs (T := T) .exact roots instr) o.order).total R ≠ 0)
    (hshift : shift .exact T (captures (localCcs (T := T) .exact roots instr) o.order).total R ≠ 0) :
    ∃ w ∈ writes (localCcs (T := T) .exact roots instr) (placed .exact o roots instr) o.order,
      n ≤ w.1 := by
  obtain ⟨M,hM,hmax⟩ := Finset.exists_max_image (Finset.univ.filter fun R : Fin n =>
    (captures (localCcs (T := T) .exact roots instr) o.order).total R ≠ 0) (fun R => R)
    ⟨R,by simpa using hR⟩
  simp only [Finset.mem_filter,Finset.mem_univ,true_and] at hM hmax
  have hMshift :
      shift .exact T (captures (localCcs (T := T) .exact roots instr) o.order).total M ≠ 0 := by
    obtain ⟨k,hk,hkR,hs⟩ := (shift_ne_zero_iff hT R).mp hshift
    have hRM := Fin.le_def.mp (hmax R hR)
    exact (shift_ne_zero_iff hT M).mpr ⟨k,hk,by omega,hs⟩
  have hend : before (captures (localCcs (T := T) .exact roots instr) o.order).total (M + 1) = n := by
    refine Eq.trans ?_ (before_captures .exact o roots instr (exact_tiling hT))
    refine Finset.sum_subset (fun k hk => ?_) fun k _ hk => ?_
    · simp
    · by_contra hne
      have := Fin.le_def.mp (hmax k hne)
      simp only [Finset.mem_filter,Finset.mem_univ,true_and] at hk
      omega
  obtain ⟨x,hx,rfl,hlast⟩ := exists_present hM
  have hlen := List.length_pos_iff.mpr (mem_present.mp hx).2
  refine ⟨_,mem_writes.mpr ⟨x,hx,(localCcs .exact roots instr x.1 x.2).length - 1,by omega,rfl⟩,?_⟩
  rw [before_succ] at hend
  simp only [placed,placement_eq (exact_tiling hT)]
  omega

end Scatter

section ThreadCount

variable (o : CaptureOrder n T) (d : DisjointSetUnionMT n) (instr : Fin n → MergeInstr n)

def Groups : Prop := ∃ d' instr', createMergeInstructions .exact o d instr = some (d',instr') ∧
  (∀ x, d'.rep x = d.rep x) ∧ GroupedBy d instr'

def NoEmptyPartitionAfterRoot (d : DisjointSetUnionMT n) (T : ℕ) : Prop :=
  ∀ k r : Fin n, d.rep k = k → d.rep r = r → (k : ℕ) + 1 < r →
    ∀ t < T, getIthPartition .exact n t T ≠ ((k : ℕ) + 1,(k : ℕ) + 1)

theorem total_ne_zero_iff (hT : 0 < T) (hc : Function.Bijective fun i => (instr i).child) (R : Fin n) :
    (captures (localCcs (T := T) .exact (findRoots d instr).2 instr) o.order).total R ≠ 0 ↔
      d.rep R = R := by
  have hroots (i : Fin n) : (findRoots d instr).2 i = d.rep (instr i).child := by
    rw [findRoots,DisjointSetUnionMT.findEach_snd]
  simp only [captures_total .exact o _ instr (exact_tiling hT),Finset.card_ne_zero,hroots]
  constructor
  · rintro ⟨i,hi⟩
    have hi : d.rep (instr i).child = R := by simpa using hi
    rw [← hi]
    exact PointerForest.root_root d.climbs _
  · intro hR
    obtain ⟨i,rfl⟩ := hc.2 R
    exact ⟨i,by simpa using hR⟩

theorem unshifted_iff (hT : 0 < T) (hc : Function.Bijective fun i => (instr i).child) :
    Unshifted .exact o (findRoots d instr).2 instr ↔ NoEmptyPartitionAfterRoot d T := by
  constructor
  · intro hz k r hk hr hkr t ht hempty
    obtain ⟨x,hx,rfl,_⟩ := exists_present ((total_ne_zero_iff o d instr hT hc r).mpr hr)
    refine (shift_ne_zero_iff hT x.2).mpr ?_ (hz x hx)
    exact ⟨k,(total_ne_zero_iff o d instr hT hc k).mpr hk,hkr,t,ht,hempty⟩
  · intro h x hx
    by_contra hne
    obtain ⟨k,hk,hkr,t,ht,hempty⟩ := (shift_ne_zero_iff hT x.2).mp hne
    have hr := (total_ne_zero_iff o d instr hT hc x.2).mp (total_ne_zero_of_present hx)
    exact h k x.2 ((total_ne_zero_iff o d instr hT hc k).mp hk) hr hkr t ht hempty

theorem create_merge_instructions_groups_iff (hT : 0 < T)
    (hc : Function.Bijective fun i => (instr i).child) :
    Groups o d instr ↔ NoEmptyPartitionAfterRoot d T := by
  rw [← unshifted_iff o d instr hT hc]
  constructor
  · rintro ⟨d',instr',hrun,_⟩ x hx
    by_contra hne
    obtain ⟨w,hw,hout⟩ := shifted_write hT (total_ne_zero_of_present hx) hne
    have hnone := foldlM_writeAt_none hw hout instr
    rw [createMergeInstructions] at hrun
    simp only [hnone,Option.map_none,ite_self,reduceCtorEq] at hrun
  · exact fun hz => hz.grouped (exact_tiling hT) hc

def identityInstr (n : ℕ) (i : Fin n) : MergeInstr n := ⟨i,i⟩

def captureAll (n T : ℕ) : CaptureOrder n T where
  order := (List.finRange T).product (List.finRange n)
  nodup := (List.nodup_finRange T).product (List.nodup_finRange n)
  all _ := List.pair_mem_product.mpr ⟨List.mem_finRange _,List.mem_finRange _⟩

def pairedDsu : DisjointSetUnionMT 3 :=
  ((DisjointSetUnionMT.fresh fun _ => 0).merge ⟨0,Nat.zero_lt_succ 2⟩
    ⟨1,Nat.succ_lt_succ (Nat.zero_lt_succ 1)⟩).1

theorem six_threads_overrun : ¬ Groups (captureAll 3 6) pairedDsu (identityInstr 3) := by
  rintro ⟨d',instr',hrun,_⟩
  have hnone : createMergeInstructions .exact (captureAll 3 6) pairedDsu (identityInstr 3) = none := by
    decide +kernel
  cases hnone.symm.trans hrun

theorem four_threads_group : Groups (captureAll 3 4) pairedDsu (identityInstr 3) := by
  have hparts : ∀ k r : Fin 3, (k : ℕ) + 1 < r →
      ∀ t < 4, getIthPartition .exact 3 t 4 ≠ ((k : ℕ) + 1,(k : ℕ) + 1) := by
    decide +kernel
  exact (create_merge_instructions_groups_iff (captureAll 3 4) pairedDsu (identityInstr 3)
    (Nat.zero_lt_succ 3) Function.bijective_id).mpr fun k r _ _ => hparts k r

end ThreadCount

end GraphZeppelin.Boruvka
