import GraphZeppelin.Boruvka.Layout
import GraphZeppelin.Sketch.RangeMerge

namespace GraphZeppelin.Boruvka.RoundInput
open Sketch

variable {n T : ℕ} {p : SketchParams} (I : RoundInput n T p)

def gain (j : Fin n) : Fin p.numBuckets → Bucket :=
  clip p I.curRound (I.sketches (I.childAt j)).buckets

def upTo (t : Fin T) (pos : ℕ) (R : Fin n) : Fin p.numBuckets → Bucket :=
  ∑ j with I.start t ≤ j ∧ (j : ℕ) < pos ∧ I.rootAt j = R, I.gain j

def piece (t : Fin T) (R : Fin n) : Fin p.numBuckets → Bucket := I.upTo t (I.stop t) R

def total (R : Fin n) : Fin p.numBuckets → Bucket := ∑ j with I.rootAt j = R, I.gain j

theorem clip_upTo (t : Fin T) (pos : ℕ) (R : Fin n) :
    clip p I.curRound (I.upTo t pos R) = I.upTo t pos R := by
  rw [upTo,map_sum]
  exact Finset.sum_congr rfl fun j _ => clip_clip _ _

theorem upTo_start (t : Fin T) (R : Fin n) : I.upTo t (I.start t) R = 0 := by
  refine Finset.sum_eq_zero fun j hj => ?_
  obtain ⟨hlo,hhi,_⟩ := (Finset.mem_filter.mp hj).2
  rw [Fin.le_def] at hlo
  omega

theorem upTo_succ {t : Fin T} {j : Fin n} (hj : I.start t ≤ j) :
    I.upTo t (j + 1) (I.rootAt j) = I.upTo t j (I.rootAt j) + I.gain j := by
  have hset : (Finset.univ.filter fun i : Fin n =>
        I.start t ≤ i ∧ (i : ℕ) < j + 1 ∧ I.rootAt i = I.rootAt j) =
      insert j (Finset.univ.filter fun i : Fin n =>
        I.start t ≤ i ∧ (i : ℕ) < j ∧ I.rootAt i = I.rootAt j) := by
    ext i
    simp only [Finset.mem_filter,Finset.mem_univ,true_and,Finset.mem_insert]
    constructor
    · rintro ⟨hlo,hhi,hR⟩
      rcases Nat.lt_succ_iff_lt_or_eq.mp hhi with hlt | he
      · exact .inr ⟨hlo,hlt,hR⟩
      · exact .inl (Fin.ext he)
    · rintro (rfl | ⟨hlo,hhi,hR⟩)
      · exact ⟨hj,by omega,rfl⟩
      · exact ⟨hlo,by omega,hR⟩
  rw [upTo,hset,Finset.sum_insert (by simp),add_comm]
  rfl

variable {I} {R a b : Fin n}

theorem IsBlock.upTo_eq_piece (h : I.IsBlock R a b) {t : Fin T} {pos : ℕ} (hpos : pos ≤ I.stop t)
    (hb : (b : ℕ) < pos ∨ pos = I.stop t) : I.upTo t pos R = I.piece t R := by
  refine Finset.sum_congr (Finset.filter_congr fun j _ => ?_) fun _ _ => rfl
  refine and_congr_right fun _ => and_congr_left fun hR => ?_
  have hjb := ((h.iff j).mp hR).2
  rw [Fin.le_def] at hjb
  omega

theorem IsBlock.upTo_eq_zero (h : I.IsBlock R a b) {t : Fin T} {pos : ℕ} (ha : pos ≤ a) :
    I.upTo t pos R = 0 := by
  refine Finset.sum_eq_zero fun j hj => ?_
  obtain ⟨_,hhi,hR⟩ := (Finset.mem_filter.mp hj).2
  have hja := ((h.iff j).mp hR).1
  rw [Fin.le_def] at hja
  omega

theorem piece_eq [I.Tiled] (t : Fin T) (R : Fin n) :
    I.piece t R = ∑ j with I.rootAt j = R ∧ I.owner j = t, I.gain j := by
  rw [piece,upTo]
  refine Finset.sum_congr (Finset.filter_congr fun j _ => ?_) fun _ _ => rfl
  rw [I.owner_eq_iff]
  tauto

theorem IsBlock.sum_piece [I.Tiled] (h : I.IsBlock R a b) :
    ∑ t ∈ Finset.Icc (I.owner a) (I.owner b), I.piece t R = I.total R := by
  rw [total,← Finset.sum_fiberwise_of_maps_to (g := I.owner) (t := Finset.Icc _ _) fun j hj => ?_]
  · refine Finset.sum_congr rfl fun t _ => ?_
    rw [piece_eq,Finset.filter_filter]
  · obtain ⟨hlo,hhi⟩ := (h.iff j).mp (Finset.mem_filter.mp hj).2
    exact Finset.mem_Icc.mpr ⟨I.owner_mono hlo,I.owner_mono hhi⟩

theorem IsBlock.piece_alone [I.Tiled] (h : I.IsBlock R a b) (hab : I.owner a = I.owner b) :
    I.piece (I.owner a) R = I.total R := by
  rw [← h.sum_piece,← hab,Finset.Icc_self,Finset.sum_singleton]

end GraphZeppelin.Boruvka.RoundInput
