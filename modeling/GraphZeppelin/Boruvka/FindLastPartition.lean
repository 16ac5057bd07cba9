import GraphZeppelin.Boruvka.MergeInstr

namespace GraphZeppelin.Boruvka.Word

-- merge instructions over any node ids, with the indices as 32-bit words
structure MergeInstr where
  root : NodeId
  child : NodeId
deriving DecidableEq, Repr

def MergeInstr.lt (m oth : MergeInstr) : Bool :=
  if m.root = oth.root then decide (m.child < oth.child) else decide (m.root < oth.root)

def searchLoop (mergeInstr : List MergeInstr) (target : MergeInstr) :
    ℕ → NodeId → NodeId → Option NodeId
  | 0, _, _ => none
  | fuel + 1, min, max =>
    if min < max then
      let mid := min + (max - min) / 2#32
      match mergeInstr[mid.toNat]? with
      | none => none
      | some m =>
        if m.lt target then searchLoop mergeInstr target fuel (mid + 1#32) max
        else searchLoop mergeInstr target fuel min mid
    else some min

def Asserted (mergeInstr : List MergeInstr) (root min : NodeId) : Prop :=
  (∃ m, mergeInstr[min.toNat]? = some m ∧ m.root = root) ∧
    (min.toNat = mergeInstr.length - 1 ∨
      ∃ m, mergeInstr[min.toNat + 1]? = some m ∧ root < m.root)

instance (mergeInstr : List MergeInstr) (root min : NodeId) :
    Decidable (Asserted mergeInstr root min) :=
  haveI : Decidable (∃ m, mergeInstr[min.toNat]? = some m ∧ m.root = root) :=
    decidable_of_iff ((mergeInstr[min.toNat]?).map (·.root) = some root)
      (by simp [Option.map_eq_some_iff])
  haveI : Decidable (∃ m, mergeInstr[min.toNat + 1]? = some m ∧ root < m.root) :=
    decidable_of_iff (((mergeInstr[min.toNat + 1]?).any fun m => root < m.root) = true)
      (by simp [Option.any_eq_true])
  inferInstanceAs (Decidable (_ ∧ (_ ∨ _)))

-- none stands for an access out of bounds, a failed assertion or a loop that did not end
def findLastPartitionOfRoot (fl : Rounding) (mergeInstr : List MergeInstr) (root minHint : NodeId)
    (numThreads : ℕ) : Option NodeId :=
  let max := BitVec.ofNat 32 (mergeInstr.length - 1)
  match searchLoop mergeInstr ⟨root,-1#32⟩ mergeInstr.length minHint max with
  | none => none
  | some min =>
    match mergeInstr[min.toNat]? with
    | none => none
    | some m =>
      let min := if m.root ≠ root then min - 1#32 else min
      if Asserted mergeInstr root min then
        some (BitVec.ofNat 32 (getPartitionIdx fl mergeInstr.length min.toNat numThreads))
      else none

structure LastAt (mergeInstr : List MergeInstr) (root : NodeId) (last : ℕ) : Prop where
  lt : last < mergeInstr.length
  found : mergeInstr[last].root = root
  later : ∀ j (hj : j < mergeInstr.length), last < j → mergeInstr[j].root ≠ root

structure Sorted (mergeInstr : List MergeInstr) : Prop where
  pairwise : mergeInstr.Pairwise fun m m' => m.root ≤ m'.root
  child : ∀ m ∈ mergeInstr, m.child < -1#32

variable {mergeInstr : List MergeInstr} {root : NodeId} {last : ℕ}

theorem LastAt.root_le_iff (h : LastAt mergeInstr root last) (hs : Sorted mergeInstr) {i : ℕ}
    (hi : i < mergeInstr.length) : mergeInstr[i].root.toNat ≤ root.toNat ↔ i ≤ last := by
  have hfound := congrArg BitVec.toNat h.found
  have hmono {i j : ℕ} (hi : i < mergeInstr.length) (hj : j < mergeInstr.length) (hij : i < j) :
      mergeInstr[i].root.toNat ≤ mergeInstr[j].root.toNat :=
    List.pairwise_iff_getElem.mp hs.pairwise i j hi hj hij
  constructor
  · intro hle
    by_contra hlt
    have hge := hmono h.lt hi (not_le.mp hlt)
    rw [hfound] at hge
    exact h.later i hi (not_le.mp hlt) (BitVec.eq_of_toNat_eq (le_antisymm hle hge))
  · intro hle
    rcases Nat.eq_or_lt_of_le hle with rfl | hlt
    · exact le_of_eq hfound
    · exact (hmono hi h.lt hlt).trans_eq hfound

theorem lt_target_iff (root : NodeId) (hs : Sorted mergeInstr) {m : MergeInstr}
    (hm : m ∈ mergeInstr) :
    m.lt ⟨root,-1#32⟩ = true ↔ m.root.toNat ≤ root.toNat := by
  have hchild := hs.child m hm
  rw [MergeInstr.lt]
  simp only
  split
  · next he =>
    rw [he,decide_eq_true_eq]
    exact ⟨fun _ => le_rfl,fun _ => hchild⟩
  · next hne =>
    have hne : m.root.toNat ≠ root.toNat := fun e => hne (BitVec.eq_of_toNat_eq e)
    rw [decide_eq_true_eq,BitVec.lt_def]
    omega

theorem mid_toNat {min max : NodeId} (h : min < max) :
    (min + (max - min) / 2#32).toNat = min.toNat + (max.toNat - min.toNat) / 2 := by
  have hlt : min.toNat < max.toNat := h
  have hmax := max.isLt
  have hsub : (max - min).toNat = max.toNat - min.toNat := BitVec.toNat_sub_of_le (le_of_lt hlt)
  rw [BitVec.toNat_add,BitVec.toNat_udiv,hsub,Nat.mod_eq_of_lt]
  · rfl
  · have : (max.toNat - min.toNat) / (2#32).toNat ≤ max.toNat - min.toNat := Nat.div_le_self _ _
    omega

-- the loop keeps the last position of the root at most one before min and at most max
theorem searchLoop_spec (h : LastAt mergeInstr root last) (hs : Sorted mergeInstr)
    (hlen : mergeInstr.length < 2 ^ 32) (fuel : ℕ) (min max : NodeId)
    (hfuel : max.toNat - min.toNat < fuel) (hmm : min.toNat ≤ max.toNat)
    (hmax : max.toNat < mergeInstr.length) (hlo : min.toNat ≤ last + 1)
    (hhi : last < max.toNat ∨ max.toNat = mergeInstr.length - 1) :
    ∃ m, searchLoop mergeInstr ⟨root,-1#32⟩ fuel min max = some m ∧ m.toNat < mergeInstr.length ∧
      (m.toNat = last ∨ m.toNat = last + 1) := by
  induction fuel generalizing min max with
  | zero => omega
  | succ fuel ih =>
    have hll := h.lt
    rw [searchLoop]
    split
    · next hlt =>
      have hlt' : min.toNat < max.toNat := hlt
      have hmid := mid_toNat hlt
      have hmidlt : (min + (max - min) / 2#32).toNat < mergeInstr.length := by omega
      have hget := List.getElem?_eq_getElem hmidlt
      have hlast := h.root_le_iff hs hmidlt
      have hcmp := lt_target_iff root hs (List.getElem_mem hmidlt)
      simp only [hget]
      split
      · next hb =>
        have hle := hlast.mp (hcmp.mp hb)
        have hsucc : (min + (max - min) / 2#32 + 1#32).toNat =
            (min + (max - min) / 2#32).toNat + 1 := by
          rw [BitVec.toNat_add]
          exact Nat.mod_eq_of_lt (by simp only [BitVec.toNat_ofNat]; omega)
        exact ih _ _ (by omega) (by omega) hmax (by omega) hhi
      · next hb =>
        have hgt := hlast.not.mp (hcmp.not.mp hb)
        exact ih _ _ (by omega) (by omega) hmidlt hlo (.inl (by omega))
    · next hge =>
      have hge' : ¬ min.toNat < max.toNat := hge
      refine ⟨min,rfl,by omega,?_⟩
      omega

theorem last_asserted (h : LastAt mergeInstr root last) (hs : Sorted mergeInstr)
    {m : NodeId} (hm : m.toNat = last) : Asserted mergeInstr root m := by
  have hll := h.lt
  rw [Asserted,hm]
  refine ⟨⟨_,List.getElem?_eq_getElem h.lt,h.found⟩,?_⟩
  rcases Nat.lt_or_ge (last + 1) mergeInstr.length with hlt | hge
  · refine .inr ⟨_,List.getElem?_eq_getElem hlt,?_⟩
    have hle := (h.root_le_iff hs hlt).not
    rw [BitVec.lt_def]
    omega
  · exact .inl (by omega)

theorem findLastPartitionOfRoot_eq (fl : Rounding) (h : LastAt mergeInstr root last)
    (hs : Sorted mergeInstr) (hlen : mergeInstr.length < 2 ^ 32) {minHint : NodeId} (hhint : minHint.toNat ≤ last)
    (numThreads : ℕ) : findLastPartitionOfRoot fl mergeInstr root minHint numThreads =
      some (BitVec.ofNat 32 (getPartitionIdx fl mergeInstr.length last numThreads)) := by
  have hll := h.lt
  have hmax : (BitVec.ofNat 32 (mergeInstr.length - 1)).toNat = mergeInstr.length - 1 := by
    rw [BitVec.toNat_ofNat]
    exact Nat.mod_eq_of_lt (by omega)
  obtain ⟨m,hm,hmlt,hmlast⟩ := searchLoop_spec h hs hlen mergeInstr.length minHint
    (BitVec.ofNat 32 (mergeInstr.length - 1)) (by omega) (by omega) (by omega) (by omega)
    (.inr hmax)
  have hget := List.getElem?_eq_getElem hmlt
  have hback : (if mergeInstr[m.toNat].root ≠ root then m - 1#32 else m).toNat = last := by
    rcases hmlast with he | he
    · have hroot : mergeInstr[m.toNat].root = root := by
        simp only [he]
        exact h.found
      rw [if_neg (not_not.mpr hroot),he]
    · have hroot := h.later m.toNat hmlt (by omega)
      have hone : (1#32).toNat ≤ m.toNat := by
        simp only [BitVec.toNat_ofNat]
        omega
      rw [if_pos hroot,BitVec.toNat_sub_of_le hone,he]
      rfl
  have hassert := last_asserted h hs hback
  simp only [findLastPartitionOfRoot,hm,hget]
  rw [if_pos hassert,hback]

section Vertices

variable {n T : ℕ} {instr : Fin n → Boruvka.MergeInstr n} {R lastPos hint : Fin n}

def ofVertices (instr : Fin n → Boruvka.MergeInstr n) : List MergeInstr :=
  List.ofFn fun i => ⟨nodeId (instr i).root,nodeId (instr i).child⟩

theorem ofVertices_sorted (hn : n < 2 ^ 32) (hs : SortedByRoot instr) : Sorted (ofVertices instr) := by
  refine ⟨?_,fun m hm => ?_⟩
  · rw [ofVertices,List.pairwise_ofFn]
    intro i j hij
    rw [BitVec.le_def,nodeId_toNat hn,nodeId_toNat hn]
    exact hs i j (le_of_lt hij)
  · obtain ⟨i,rfl⟩ := (List.mem_ofFn' _ _).mp hm
    have hc := (instr i).child.isLt
    rw [BitVec.lt_def,nodeId_toNat hn]
    change ((instr i).child : ℕ) < 2 ^ 32 - 1
    omega

theorem ofVertices_lastAt (hn : n < 2 ^ 32) (h : IsLastPos instr R lastPos) :
    LastAt (ofVertices instr) (nodeId R) lastPos := by
  have hlen : (ofVertices instr).length = n := List.length_ofFn
  have hget (j : ℕ) (hj : j < (ofVertices instr).length) :
      (ofVertices instr)[j].root = nodeId (instr ⟨j,hlen ▸ hj⟩).root := by
    simp [ofVertices]
  refine ⟨hlen.symm ▸ lastPos.isLt,?_,fun j hj hlt he => ?_⟩
  · rw [hget,Fin.eta,h.1]
  · rw [hget] at he
    refine h.2 ⟨j,hlen ▸ hj⟩ hlt (Fin.ext ?_)
    rw [← nodeId_toNat hn,he,nodeId_toNat hn]

-- on vertex ids the words compute what the search over positions does
theorem findLastPartitionOfRoot_ofVertices (fl : Rounding) (hn : n < 2 ^ 32) (hs : SortedByRoot instr)
    (h : IsLastPos instr R lastPos) (hhint : hint ≤ lastPos) :
    findLastPartitionOfRoot fl (ofVertices instr) (nodeId R) (nodeId hint) T =
      some (BitVec.ofNat 32 (Boruvka.findLastPartitionOfRoot fl T instr R hint)) := by
  have hlen : (ofVertices instr).length = n := List.length_ofFn
  rw [findLastPartitionOfRoot_eq fl (ofVertices_lastAt hn h) (ofVertices_sorted hn hs) (hlen.symm ▸ hn)
    (by rw [nodeId_toNat hn]; exact hhint),hlen]
  simp only [Boruvka.findLastPartitionOfRoot,lastPosOfRoot_spec hn hs h hhint]

end Vertices

structure Tiles (length divisions : ℕ) : Prop where
  first : (getIthPartition .exact length 0 divisions).1 = 0
  last : (getIthPartition .exact length (divisions - 1) divisions).2 = length
  ordered : ∀ i,
    (getIthPartition .exact length i divisions).1 ≤ (getIthPartition .exact length i divisions).2
  joined : ∀ i, (getIthPartition .exact length i divisions).2 =
    (getIthPartition .exact length (i + 1) divisions).1
  idx : ∀ x < length, getPartitionIdx .exact length x divisions < divisions ∧
    ∀ i, getPartitionIdx .exact length x divisions = i ↔
      (getIthPartition .exact length i divisions).1 ≤ x ∧
        x < (getIthPartition .exact length i divisions).2

theorem tiles (length divisions : ℕ) (h : 0 < divisions) : Tiles length divisions where
  first := Partition.cut_zero _ _
  last := by
    rw [getIthPartition_eq,Nat.sub_add_cancel h]
    exact Partition.cut_last h
  ordered i := Partition.cut_mono h (Nat.le_succ i)
  joined _ := rfl
  idx _ hx := ⟨Partition.part_lt h hx,fun _ => Partition.part_eq_iff h hx⟩

theorem find_last_partition_of_root_exact (divisions : ℕ) (hpos : 0 < divisions) :
    (∀ length, 1 ≤ length → Tiles length divisions) ∧
    (divisions ≤ 2 ^ 32 → ∀ (mergeInstr : List MergeInstr) (root : NodeId) (last : ℕ)
      (minHint : NodeId), mergeInstr.length < 2 ^ 32 → Sorted mergeInstr →
      LastAt mergeInstr root last → minHint.toNat ≤ last →
      ∃ t, findLastPartitionOfRoot .exact mergeInstr root minHint divisions = some t ∧
        (getIthPartition .exact mergeInstr.length t.toNat divisions).1 ≤ last ∧
        last < (getIthPartition .exact mergeInstr.length t.toNat divisions).2) := by
  refine ⟨fun length _ => tiles length divisions hpos,?_⟩
  intro hdiv mergeInstr root last minHint hlen hs h hhint
  obtain ⟨hlt,hidx⟩ := (tiles mergeInstr.length divisions hpos).idx last h.lt
  refine ⟨_,findLastPartitionOfRoot_eq .exact h hs hlen hhint divisions,?_⟩
  rw [BitVec.toNat_ofNat,Nat.mod_eq_of_lt (by omega)]
  exact (hidx _).mp rfl

theorem find_last_partition_of_root_three :
    ∃ t, findLastPartitionOfRoot .exact [⟨0,2⟩,⟨0,0⟩,⟨3,3⟩] 0 0 5 = some t ∧
      (getIthPartition .exact 3 t.toNat 5).1 ≤ 1 ∧ 1 < (getIthPartition .exact 3 t.toNat 5).2 := by
  have hlast : LastAt [⟨0,2⟩,⟨0,0⟩,⟨3,3⟩] 0 1 := ⟨by decide,rfl,by decide⟩
  exact (find_last_partition_of_root_exact 5 (by decide)).2 (by decide) [⟨0,2⟩,⟨0,0⟩,⟨3,3⟩] 0 1 0
    (by decide) ⟨by decide,by decide⟩ hlast (by decide)

end GraphZeppelin.Boruvka.Word
