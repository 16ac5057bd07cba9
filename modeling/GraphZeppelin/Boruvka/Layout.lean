import GraphZeppelin.Boruvka.Round

namespace GraphZeppelin.Boruvka.RoundInput

variable {n T : ℕ} {p : SketchParams} (I : RoundInput n T p)

def owner (j : Fin n) : Fin T := ⟨getPartitionIdx I.fl n j T,I.inBounds.idx j j.isLt⟩

class Tiled : Prop where
  consistent : Consistent I.fl n T

def Spans (t : Fin T) (R : Fin n) : Prop := ∃ j, I.owner j = t ∧ I.rootAt j = R

structure IsBlock (R a b : Fin n) : Prop where
  le : a ≤ b
  iff : ∀ j, I.rootAt j = R ↔ a ≤ j ∧ j ≤ b

section Block

variable {I} {R a b : Fin n}

theorem exists_block (hs : SortedByRoot I.mergeInstr) (j : Fin n) :
    ∃ a b, I.IsBlock (I.rootAt j) a b := by
  have hne : (Finset.univ.filter fun i => I.rootAt i = I.rootAt j).Nonempty := ⟨j,by simp⟩
  refine ⟨Finset.min' _ hne,Finset.max' _ hne,Finset.min'_le_max' _ hne,fun i => ⟨fun hi => ?_,?_⟩⟩
  · exact ⟨Finset.min'_le _ _ (by simp [hi]),Finset.le_max' _ _ (by simp [hi])⟩
  · rintro ⟨hlo,hhi⟩
    have hmin := (Finset.mem_filter.mp (Finset.min'_mem _ hne)).2
    have hmax := (Finset.mem_filter.mp (Finset.max'_mem _ hne)).2
    exact le_antisymm ((hs _ _ hhi).trans_eq hmax) (hmin.symm.le.trans (hs _ _ hlo))

namespace IsBlock

theorem root_first (h : I.IsBlock R a b) : I.rootAt a = R := (h.iff a).mpr ⟨le_rfl,h.le⟩
theorem root_last (h : I.IsBlock R a b) : I.rootAt b = R := (h.iff b).mpr ⟨h.le,le_rfl⟩

theorem unique (h : I.IsBlock R a b) {a' b' : Fin n} (h' : I.IsBlock R a' b') :
    a = a' ∧ b = b' := by
  have ha := (h'.iff a).mp h.root_first
  have ha' := (h.iff a').mp h'.root_first
  have hb := (h'.iff b).mp h.root_last
  have hb' := (h.iff b').mp h'.root_last
  exact ⟨le_antisymm ha'.1 ha.1,le_antisymm hb.2 hb'.2⟩

theorem lastPos (h : I.IsBlock R a b) : IsLastPos I.mergeInstr R b :=
  ⟨h.root_last,fun j hj he => absurd ((h.iff j).mp he).2 (not_le.mpr hj)⟩

theorem findLast (h : I.IsBlock R a b) (hs : SortedByRoot I.mergeInstr) {t : Fin T}
    (ht : I.start t ≤ b) :
    I.lastPartitionOfRoot R (I.start t) = I.owner b := by
  refine Fin.ext ?_
  simp only [lastPartitionOfRoot,findLastPartitionOfRoot,owner,
    lastPosOfRoot_spec I.vertices_lt hs h.lastPos ht]

end IsBlock

end Block

theorem threads_le [hI : I.Tiled] : T ≤ n := hI.consistent.divisions_le

variable [hI : I.Tiled]

theorem start_lt_stop (t : Fin T) : I.start t < I.stop t := hI.consistent.nonempty t t.isLt

theorem owner_val (j : Fin n) : (I.owner j : ℕ) = Partition.owner (cuts I.fl n T) T j :=
  hI.consistent.inverse j j.isLt

theorem owner_eq_iff {j : Fin n} {t : Fin T} :
    I.owner j = t ↔ I.start t ≤ j ∧ (j : ℕ) < I.stop t := by
  rw [Fin.ext_iff,owner_val,hI.consistent.tiles.owner_eq_iff j.isLt]
  exact and_iff_right t.isLt

theorem owner_start (t : Fin T) : I.owner (I.start t) = t :=
  I.owner_eq_iff.mpr ⟨le_rfl,I.start_lt_stop t⟩

theorem owner_mono {i j : Fin n} (h : i ≤ j) : I.owner i ≤ I.owner j := by
  rw [Fin.le_def,owner_val,owner_val]
  exact Partition.owner_mono h

theorem start_mono {t u : Fin T} (h : t ≤ u) : I.start t ≤ I.start u :=
  hI.consistent.tiles.mono h (le_of_lt u.isLt)

theorem owner_lt_iff {j : Fin n} {t : Fin T} : I.owner j < t ↔ j < I.start t := by
  constructor
  · intro h
    by_contra hj
    have hle := I.owner_mono (not_lt.mp hj)
    rw [owner_start] at hle
    exact absurd h (not_lt.mpr hle)
  · intro h
    refine lt_of_le_of_ne ?_ fun e => ?_
    · exact (I.owner_mono (le_of_lt h)).trans_eq (I.owner_start t)
    · exact absurd (I.owner_eq_iff.mp e).1 (not_le.mpr h)

theorem lt_owner_iff {j : Fin n} {t : Fin T} : t < I.owner j ↔ I.stop t ≤ j := by
  have hs := I.start_lt_stop t
  constructor
  · intro h
    by_contra hj
    rcases lt_or_ge j (I.start t) with hlt | hge
    · exact absurd (I.owner_lt_iff.mpr hlt) (not_lt.mpr (le_of_lt h))
    · have he := I.owner_eq_iff.mpr ⟨hge,not_le.mp hj⟩
      exact absurd h (he ▸ lt_irrefl _)
  · intro h
    have hge : I.start t ≤ j := by
      rw [Fin.le_def]
      omega
    refine lt_of_le_of_ne ?_ fun e => ?_
    · exact (I.owner_start t).symm.trans_le (I.owner_mono hge)
    · have := (I.owner_eq_iff.mp e.symm).2
      omega

variable {I} {R a b : Fin n}

namespace IsBlock

theorem start_mem (h : I.IsBlock R a b) {t : Fin T} (ha : I.owner a < t) (hb : t ≤ I.owner b) :
    I.rootAt (I.start t) = R := by
  refine (h.iff _).mpr ⟨le_of_lt (I.owner_lt_iff.mp ha),?_⟩
  exact (I.start_mono hb).trans (I.owner_eq_iff.mp rfl).1

theorem spans_iff (h : I.IsBlock R a b) {t : Fin T} :
    I.Spans t R ↔ I.owner a ≤ t ∧ t ≤ I.owner b := by
  constructor
  · rintro ⟨j,rfl,hj⟩
    obtain ⟨hlo,hhi⟩ := (h.iff j).mp hj
    exact ⟨I.owner_mono hlo,I.owner_mono hhi⟩
  · rintro ⟨hlo,hhi⟩
    rcases lt_or_eq_of_le hlo with hlt | rfl
    · exact ⟨I.start t,I.owner_start t,h.start_mem hlt hhi⟩
    · exact ⟨a,rfl,h.root_first⟩

theorem slot_root (h : I.IsBlock R a b) (hab : I.owner a < I.owner b) :
    I.rootAt (I.start (I.owner b)) = R := h.start_mem hab le_rfl

theorem slot_unique (h : I.IsBlock R a b) (hab : I.owner a < I.owner b) {R' a' b' : Fin n}
    (h' : I.IsBlock R' a' b') (hab' : I.owner a' < I.owner b') (hg : I.owner b = I.owner b') :
    R = R' := by
  rw [← h.slot_root hab,hg,h'.slot_root hab']

theorem left_iff (h : I.IsBlock R a b) {t : Fin T} (ht : t ≤ I.owner b) :
    (0 < (I.start t : ℕ) ∧ ∃ j : Fin n, (j : ℕ) + 1 = I.start t ∧ I.rootAt j = R) ↔
      I.owner a < t := by
  rw [I.owner_lt_iff]
  constructor
  · rintro ⟨_,j,hj,hR⟩
    have hle := ((h.iff j).mp hR).1
    rw [Fin.le_def] at hle
    rw [Fin.lt_def]
    omega
  · intro ha
    have hb : I.start t ≤ b := (I.start_mono ht).trans (I.owner_eq_iff.mp rfl).1
    rw [Fin.lt_def] at ha
    rw [Fin.le_def] at hb
    refine ⟨by omega,⟨I.start t - 1,by omega⟩,by simp only; omega,(h.iff _).mpr ?_⟩
    simp only [Fin.le_def]
    omega

end IsBlock
end GraphZeppelin.Boruvka.RoundInput
