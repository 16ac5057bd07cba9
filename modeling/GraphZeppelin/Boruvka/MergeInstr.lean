import GraphZeppelin.Lib.Partition
import GraphZeppelin.Lib.RoundEven
import GraphZeppelin.Graph.Pairing

namespace GraphZeppelin.Boruvka

variable {n T : ℕ}

structure MergeInstr (n : ℕ) where
  root : Fin n
  child : Fin n
deriving DecidableEq, Repr

def MergeInstr.before (m : MergeInstr n) (root child : ℕ) : Bool :=
  if (m.root : ℕ) = root then decide ((m.child : ℕ) < child) else decide ((m.root : ℕ) < root)

-- what a floating point operation makes of its exact result
abbrev Rounding := ℚ → ℚ

def Rounding.exact : Rounding := id

def Rounding.double : Rounding := RoundEven.double

def getIthPartition (fl : Rounding) (length i divisions : ℕ) : ℕ × ℕ :=
  let divFactor := fl (length / divisions)
  (⌈fl (divFactor * i)⌉₊,⌈fl (divFactor * (i + 1 : ℕ))⌉₊)

def getPartitionIdx (fl : Rounding) (length idx divisions : ℕ) : ℕ :=
  let divFactor := fl (length / divisions)
  ⌊fl (idx / divFactor)⌋₊

abbrev cuts (fl : Rounding) (length divisions i : ℕ) : ℕ := (getIthPartition fl length i divisions).1

theorem getIthPartition_eq (fl : Rounding) (length i divisions : ℕ) :
    getIthPartition fl length i divisions =
      (cuts fl length divisions i,cuts fl length divisions (i + 1)) := rfl

-- no range starts or ends outside an array of that length, and no index is given to a range
-- that does not exist
structure InBounds (fl : Rounding) (length divisions : ℕ) : Prop where
  start : ∀ i < divisions, cuts fl length divisions i < length
  stop_pos : ∀ i < divisions, 0 < cuts fl length divisions (i + 1)
  stop_le : ∀ i < divisions, cuts fl length divisions (i + 1) ≤ length
  idx : ∀ x < length, getPartitionIdx fl length x divisions < divisions

instance (fl : Rounding) (length divisions : ℕ) : Decidable (InBounds fl length divisions) :=
  decidable_of_iff ((∀ i < divisions, cuts fl length divisions i < length) ∧
    (∀ i < divisions, 0 < cuts fl length divisions (i + 1)) ∧
    (∀ i < divisions, cuts fl length divisions (i + 1) ≤ length) ∧
    ∀ x < length, getPartitionIdx fl length x divisions < divisions)
    ⟨fun ⟨h₁,h₂,h₃,h₄⟩ => ⟨h₁,h₂,h₃,h₄⟩,fun ⟨h₁,h₂,h₃,h₄⟩ => ⟨h₁,h₂,h₃,h₄⟩⟩

abbrev Tiling (fl : Rounding) (length divisions : ℕ) : Prop :=
  Partition.Tiles (cuts fl length divisions) length divisions

-- the ranges tile [0, length) without an empty one, and get_partition_idx is their inverse
structure Consistent (fl : Rounding) (length divisions : ℕ) : Prop where
  tiles : Tiling fl length divisions
  nonempty : ∀ i < divisions, cuts fl length divisions i < cuts fl length divisions (i + 1)
  inverse : ∀ x < length, getPartitionIdx fl length x divisions =
    Partition.owner (cuts fl length divisions) divisions x

instance (fl : Rounding) (length divisions : ℕ) : Decidable (Consistent fl length divisions) :=
  decidable_of_iff (Tiling fl length divisions ∧
    (∀ i < divisions, cuts fl length divisions i < cuts fl length divisions (i + 1)) ∧
    ∀ x < length, getPartitionIdx fl length x divisions =
      Partition.owner (cuts fl length divisions) divisions x)
    ⟨fun ⟨h₁,h₂,h₃⟩ => ⟨h₁,h₂,h₃⟩,fun ⟨h₁,h₂,h₃⟩ => ⟨h₁,h₂,h₃⟩⟩

theorem Consistent.inBounds {fl : Rounding} {length divisions : ℕ}
    (h : Consistent fl length divisions) :
    InBounds fl length divisions where
  start i hi := (h.nonempty i hi).trans_le (h.tiles.le hi)
  stop_pos i hi := Nat.zero_lt_of_lt (h.nonempty i hi)
  stop_le _ hi := h.tiles.le hi
  idx x hx := h.inverse x hx ▸ h.tiles.owner_lt hx

theorem Consistent.le_cut {fl : Rounding} {length divisions : ℕ} (h : Consistent fl length divisions)
    {i : ℕ} (hi : i ≤ divisions) : i ≤ cuts fl length divisions i := by
  induction i with
  | zero => exact Nat.zero_le _
  | succ i ih => exact Nat.succ_le_of_lt ((ih (by omega)).trans_lt (h.nonempty i hi))

theorem Consistent.divisions_le {fl : Rounding} {length divisions : ℕ}
    (h : Consistent fl length divisions) : divisions ≤ length :=
  (h.le_cut le_rfl).trans_eq h.tiles.last

theorem exact_tiling {length divisions : ℕ} (hpos : 0 < divisions) : Tiling .exact length divisions :=
  Partition.exact_tiles hpos

theorem exact_consistent {length divisions : ℕ} (hpos : 0 < divisions) (hle : divisions ≤ length) :
    Consistent .exact length divisions where
  tiles := exact_tiling hpos
  nonempty i _ := Partition.cut_lt_succ hpos hle i
  inverse _ hx := Partition.part_eq_owner hpos hx

def lastPosLoop (instr : Fin n → MergeInstr n) (root : Fin n) : ℕ → Fin n → Fin n → Fin n
  | 0, min, _ => min
  | fuel + 1, min, max =>
    if h : min < max then
      let mid : Fin n := ⟨min + (max - min) / 2,by omega⟩
      if (instr mid).before root (2 ^ 32 - 1) then
        lastPosLoop instr root fuel ⟨mid + 1,by simp only [mid]; omega⟩ max
      else lastPosLoop instr root fuel min mid
    else min

def stepBack (instr : Fin n → MergeInstr n) (root min : Fin n) : Fin n :=
  if (instr min).root ≠ root then ⟨min - 1,by omega⟩ else min

def lastPosOfRoot (instr : Fin n → MergeInstr n) (root minHint : Fin n) : Fin n :=
  stepBack instr root (lastPosLoop instr root n minHint ⟨n - 1,by have := minHint.isLt; omega⟩)

def findLastPartitionOfRoot (fl : Rounding) (T : ℕ) (instr : Fin n → MergeInstr n)
    (root minHint : Fin n) : ℕ :=
  getPartitionIdx fl n (lastPosOfRoot instr root minHint) T

def SortedByRoot (instr : Fin n → MergeInstr n) : Prop :=
  ∀ i j, i ≤ j → (instr i).root ≤ (instr j).root

def IsLastPos (instr : Fin n → MergeInstr n) (root i : Fin n) : Prop :=
  (instr i).root = root ∧ ∀ j, i < j → (instr j).root ≠ root

theorem before_sentinel (hn : n < 2 ^ 32) (m : MergeInstr n) (root : Fin n) :
    m.before root (2 ^ 32 - 1) = true ↔ m.root ≤ root := by
  have hc := m.child.isLt
  unfold MergeInstr.before
  split
  · next h =>
    have hr : m.root ≤ root := Nat.le_of_eq h
    simp only [hr,iff_true,decide_eq_true_eq]
    omega
  · next h =>
    rw [decide_eq_true_eq,Fin.le_def]
    omega

theorem lastPosLoop_spec (hn : n < 2 ^ 32) {instr : Fin n → MergeInstr n} {root : Fin n}
    (fuel : ℕ) (min max : Fin n) (hf : max - min ≤ fuel)
    (hmm : min ≤ max) (hlo : ∀ i, i < min → (instr i).root ≤ root)
    (hhi : ∀ i, max ≤ i → (i : ℕ) < n - 1 → root < (instr i).root)
    (hs : SortedByRoot instr) :
    (∀ i, i < lastPosLoop instr root fuel min max → (instr i).root ≤ root) ∧
    (∀ i, lastPosLoop instr root fuel min max ≤ i → (i : ℕ) < n - 1 → root < (instr i).root) := by
  induction fuel generalizing min max with
  | zero =>
    have he : min = max := by
      refine Fin.ext ?_
      have hle : (min : ℕ) ≤ max := hmm
      omega
    subst he
    exact ⟨hlo,hhi⟩
  | succ fuel ih =>
    rw [lastPosLoop]
    split
    · next hlt =>
      have hlt' : (min : ℕ) < max := hlt
      simp only
      split
      · next hb =>
        rw [before_sentinel hn] at hb
        refine ih _ _ ?_ ?_ ?_ hhi
        · simp only
          omega
        · simp only [Fin.le_def]
          omega
        · intro i hi
          refine (hs i _ ?_).trans hb
          simp only [Fin.lt_def] at hi
          simp only [Fin.le_def]
          omega
      · next hb =>
        rw [before_sentinel hn,not_le] at hb
        refine ih _ _ ?_ ?_ hlo ?_
        · simp only
          omega
        · simp only [Fin.le_def]
          omega
        · intro i hi _
          exact lt_of_lt_of_le hb (hs _ _ hi)
    · next hlt =>
      have he : min = max := le_antisymm hmm (not_lt.mp hlt)
      subst he
      exact ⟨hlo,hhi⟩

theorem stepBack_spec {instr : Fin n → MergeInstr n} {root m last : Fin n}
    (hs : SortedByRoot instr) (hlast : IsLastPos instr root last)
    (hlo : ∀ i, i < m → (instr i).root ≤ root)
    (hhi : ∀ i, m ≤ i → (i : ℕ) < n - 1 → root < (instr i).root) :
    stepBack instr root m = last := by
  have hll := last.isLt
  have hle : last ≤ m := by
    by_contra hm
    have hm' : (m : ℕ) < last := not_le.mp hm
    have h := hhi m le_rfl (by omega)
    have hml := hs m last (le_of_lt (not_le.mp hm))
    rw [hlast.1] at hml
    exact absurd hml (not_le.mpr h)
  unfold stepBack
  by_cases hr : (instr m).root = root
  · rw [if_neg (not_not.mpr hr)]
    refine le_antisymm ?_ hle
    by_contra hm
    exact hlast.2 m (not_le.mp hm) hr
  · rw [if_pos hr]
    have hlt : last < m := lt_of_le_of_ne hle fun e => hr (e ▸ hlast.1)
    have hlt' : (last : ℕ) < m := hlt
    refine Fin.ext ?_
    by_contra hne
    have hne' : (m : ℕ) - 1 ≠ last := hne
    have hmid : last < ⟨m - 1,by omega⟩ := by
      simp only [Fin.lt_def]
      omega
    refine hlast.2 ⟨m - 1,by omega⟩ hmid (le_antisymm (hlo _ ?_) ?_)
    · simp only [Fin.lt_def]
      omega
    · exact hlast.1.symm.le.trans (hs _ _ (le_of_lt hmid))

theorem lastPosOfRoot_spec (hn : n < 2 ^ 32) {instr : Fin n → MergeInstr n} {root minHint : Fin n}
    (hs : SortedByRoot instr) {last : Fin n} (hlast : IsLastPos instr root last)
    (hhint : minHint ≤ last) : lastPosOfRoot instr root minHint = last := by
  have hll := last.isLt
  have hhl : (minHint : ℕ) ≤ last := hhint
  obtain ⟨hlo,hhi⟩ := lastPosLoop_spec hn n minHint ⟨n - 1,by omega⟩
    (by simp only; omega) (by simp only [Fin.le_def]; omega)
    (fun i hi => (hs i last ((le_of_lt hi).trans hhint)).trans_eq hlast.1)
    (fun i hi hi' => by simp only [Fin.le_def] at hi; omega) hs
  exact stepBack_spec hs hlast hlo hhi

end GraphZeppelin.Boruvka
