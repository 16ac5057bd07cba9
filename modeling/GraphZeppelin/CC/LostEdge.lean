import GraphZeppelin.Boruvka.UnmodifiedRound
import GraphZeppelin.CC.FailedQuery

open SpanningForest

namespace GraphZeppelin.CC
open Dsu Boruvka QueryState Sketch CCSketchAlg PointerForest

section Partitions

-- (double)36 / 28, rounded, times i
def lostCuts (i : ℕ) : ℕ :=
  [0,2,3,4,6,7,8,9,11,12,13,15,16,17,18,20,21,22,24,25,26,28,29,30,31,33,34,35,36].getD i 0

theorem lost_cuts : ∀ i ≤ 28, cuts .double 36 28 i = lostCuts i := by decide +kernel

theorem lost_idx : ∀ i < 36, getPartitionIdx .double 36 i 28 < 28 := by decide +kernel

-- position 9 starts range 7 and position 18 range 14
theorem lost_idx_wrong :
    getPartitionIdx .double 36 9 28 = 6 ∧ getPartitionIdx .double 36 18 28 = 13 := by
  decide +kernel

theorem lost_not_consistent : ¬ Consistent .double 36 28 := by
  intro h
  have hinv := h.inverse 9 (by decide)
  rw [lost_idx_wrong.1] at hinv
  have hown := (h.tiles.owner_eq_iff (by decide)).mp hinv.symm
  rw [lost_cuts 7 (by decide)] at hown
  exact absurd hown.2.2 (by decide)

theorem lost_inBounds : InBounds .double 36 28 where
  start i hi := by
    rw [lost_cuts i (Nat.le_of_lt hi)]
    revert i
    decide
  stop_pos i hi := by
    rw [lost_cuts (i + 1) hi]
    revert i
    decide
  stop_le i hi := by
    rw [lost_cuts (i + 1) hi]
    revert i
    decide
  idx := lost_idx

theorem lost_nonempty : ∀ i < 28, cuts .double 36 28 i < cuts .double 36 28 (i + 1) := by
  intro i hi
  rw [lost_cuts i (Nat.le_of_lt hi),lost_cuts (i + 1) hi]
  revert i
  decide

theorem lost_tiling : Tiling .double 36 28 where
  first := lost_cuts 0 (by decide)
  last := lost_cuts 28 (by decide)
  le_succ i hi := (lost_nonempty i hi).le
  pos _ := by
    rw [lost_cuts 1 (by decide)]
    decide

end Partitions

section Round

-- round zero joins 8 with 9 and 17 with 18
def lostSide (v : ℕ) : ℕ := if v = 9 then 8 else if v = 18 then 17 else v

structure PairedUp (d : DisjointSetUnionMT 36) : Prop where
  rep : ∀ u v : Fin 36, d.rep u = d.rep v ↔ lostSide u = lostSide v

variable {d : DisjointSetUnionMT 36}

theorem lostSide_mono {u v : ℕ} (h : u ≤ v) : lostSide u ≤ lostSide v := by
  unfold lostSide
  split_ifs <;> omega

theorem lostSide_least {u v : ℕ} (h : u < v) (h9 : v ≠ 9) (h18 : v ≠ 18) :
    lostSide u ≠ lostSide v := by
  unfold lostSide
  rw [if_neg h9,if_neg h18]
  split_ifs <;> omega

theorem lostSide_succ {u : ℕ} (h : lostSide u = lostSide (u + 1)) : u = 8 ∨ u = 17 := by
  by_contra hne
  push Not at hne
  exact lostSide_least (Nat.lt_succ_self u) (by omega) (by omega) h

theorem PairedUp.mono (h : PairedUp d) : Monotone d.rep := by
  intro u v huv
  have hself (v : Fin 36) : lostSide (d.rep v) = lostSide v :=
    (h.rep _ _).mp (root_root d.climbs v)
  by_contra hlt
  have hle := lostSide_mono (Fin.le_def.mp (not_le.mp hlt).le)
  rw [hself,hself] at hle
  have heq := (h.rep u v).mpr (le_antisymm (lostSide_mono huv) hle)
  exact hlt heq.le

-- the vertices keep their places in merge_instr
theorem PairedUp.instr (h : PairedUp d) {instr : Fin 36 → MergeInstr 36}
    (hs : Scattered .double (captureAll 36 28) d (identityInstr 36) instr) (i : Fin 36) :
    instr i = ⟨d.rep i,i⟩ := by
  have hleast (i : Fin 36) (h9 : i ≠ 9) (h18 : i ≠ 18) : instr i = ⟨d.rep i,i⟩ :=
    hs.least lost_tiling lost_nonempty h.mono fun j hj hrep =>
      lostSide_least hj (Fin.val_ne_of_ne h9) (Fin.val_ne_of_ne h18) ((h.rep j i).mp hrep)
  have hapart (u v : Fin 36) (huv : u ≤ v) (hside : lostSide u ≠ lostSide v) :
      ¬ d.rep v ≤ d.rep u := fun hle => hside ((h.rep u v).mp (le_antisymm (h.mono huv) hle))
  have hplace (i : Fin 36) (hi : (instr i).child = i) : instr i = ⟨d.rep i,i⟩ := by
    have hroot := hs.root i
    rw [hi] at hroot
    exact congrArg₂ MergeInstr.mk hroot hi
  have hchild (i : Fin 36) (hi : i = 9 ∨ i = 18) : ∃ k, (k = 9 ∨ k = 18) ∧ (instr k).child = i := by
    obtain ⟨k,hk⟩ := hs.child.2 i
    refine ⟨k,?_,hk⟩
    by_contra hne
    push Not at hne
    simp only [hleast k hne.1 hne.2] at hk
    subst hk
    exact hi.elim hne.1 hne.2
  by_cases h9 : i = 9
  · subst h9
    obtain ⟨k,rfl | rfl,hk⟩ := hchild 9 (.inl rfl)
    · exact hplace 9 hk
    · have hle := hs.sorted 17 18 (by decide)
      rw [hleast 17 (by decide) (by decide),hs.root 18,hk] at hle
      exact absurd hle (hapart 9 17 (by decide) (by decide))
  by_cases h18 : i = 18
  · subst h18
    obtain ⟨k,rfl | rfl,hk⟩ := hchild 18 (.inr rfl)
    · have hle := hs.sorted 9 10 (by decide)
      rw [hleast 10 (by decide) (by decide),hs.root 9,hk] at hle
      exact absurd hle (hapart 10 18 (by decide) (by decide))
    · exact hplace 18 hk
  exact hleast i h9 h18

variable {E : QueryEnv 36 28} {p : SketchParams} {e : Emulation 36 28 p}

-- the state in which round one starts
structure LostRound (E : QueryEnv 36 28) (e : Emulation 36 28 p) : Prop where
  fl : E.fl = .double
  paired : PairedUp e.query.dsu
  instr : ∀ i, e.mergeInstr i = ⟨e.query.dsu.rep i,i⟩

theorem LostRound.start (h : LostRound E e) (hb : InBounds E.fl 36 28) (t : Fin 28) :
    ((roundInput E hb e).start t : ℕ) = lostCuts t := by
  refine Eq.trans ?_ (lost_cuts t t.isLt.le)
  rw [← h.fl]
  rfl

theorem LostRound.stop (h : LostRound E e) (hb : InBounds E.fl 36 28) (t : Fin 28) :
    (roundInput E hb e).stop t = lostCuts (t + 1) := by
  refine Eq.trans ?_ (lost_cuts (t + 1) t.isLt)
  rw [← h.fl]
  rfl

theorem LostRound.root_eq_iff (h : LostRound E e) (hb : InBounds E.fl 36 28) (i j : Fin 36) :
    (roundInput E hb e).rootAt i = (roundInput E hb e).rootAt j ↔ lostSide i = lostSide j := by
  have hroot (i : Fin 36) : (roundInput E hb e).rootAt i = e.query.dsu.rep i :=
    congrArg MergeInstr.root (h.instr i)
  rw [hroot,hroot]
  exact h.paired.rep i j

theorem LostRound.neighbours (h : LostRound E e) (hb : InBounds E.fl 36 28) {i j : Fin 36}
    (hij : (i : ℕ) + 1 = j)
    (hroot : (roundInput E hb e).rootAt i = (roundInput E hb e).rootAt j) :
    (i : ℕ) = 8 ∨ (i : ℕ) = 17 := by
  have hside := (h.root_eq_iff hb i j).mp hroot
  rw [← hij] at hside
  exact lostSide_succ hside

theorem lostCuts_start : ∀ t : Fin 28,
    (0 < lostCuts t ∧ lostSide (lostCuts t - 1) = lostSide (lostCuts t)) ↔ t = 7 ∨ t = 14 := by
  decide

theorem lostCuts_stop : ∀ t : Fin 28, (lostCuts (t + 1) < 36 ∧
    lostSide (lostCuts (t + 1) - 1) = lostSide (lostCuts (t + 1))) ↔ t = 6 ∨ t = 13 := by
  decide

theorem lostCuts_lt : ∀ t : Fin 28, lostCuts t < lostCuts (t + 1) := by decide

theorem lostCuts_range : ∀ t u : Fin 28, lostCuts t ≤ lostCuts u →
    lostCuts u < lostCuts (t + 1) → t = u := by
  decide

theorem LostRound.fromLeft (h : LostRound E e) (hb : InBounds E.fl 36 28) (t : Fin 28) :
    (roundInput E hb e).rootFromLeft t = true ↔ t = 7 ∨ t = 14 := by
  rw [← lostCuts_start,← h.start hb]
  unfold RoundInput.rootFromLeft
  split
  · next hpos => rw [decide_eq_true_iff,h.root_eq_iff hb,and_iff_right hpos]
  · next hpos => exact iff_of_false Bool.false_ne_true fun hx => hpos hx.1

theorem LostRound.exitsRight (h : LostRound E e) (hb : InBounds E.fl 36 28) (t : Fin 28) :
    (roundInput E hb e).rootExitsRight t = true ↔ t = 6 ∨ t = 13 := by
  rw [← lostCuts_stop,← h.stop hb]
  unfold RoundInput.rootExitsRight
  split
  · next hlt => rw [decide_eq_true_iff,h.root_eq_iff hb,and_iff_right hlt]
  · next hlt => exact iff_of_false Bool.false_ne_true fun hx => hlt hx.1

-- what is asked for the range of the last position names the range before it
theorem LostRound.lastPartition (h : LostRound E e) (hb : InBounds E.fl 36 28)
    (hs : SortedByRoot e.mergeInstr) {t : Fin 28} {i j : Fin 36}
    (hi : (i : ℕ) + 1 = lostCuts (t + 1)) (hij : (i : ℕ) + 1 = j) (ht : t = 6 ∨ t = 13) :
    (roundInput E hb e).lastPartitionOfRoot ((roundInput E hb e).rootAt i)
      ((roundInput E hb e).start t) = t := by
  have hcases : (i : ℕ) = 8 ∧ (t : ℕ) = 6 ∨ (i : ℕ) = 17 ∧ (t : ℕ) = 13 := by
    rcases ht with rfl | rfl
    · exact .inl ⟨Nat.succ.inj hi,rfl⟩
    · exact .inr ⟨Nat.succ.inj hi,rfl⟩
  have hstart := h.start hb t
  have hlast : IsLastPos e.mergeInstr ((roundInput E hb e).rootAt i) j := by
    refine ⟨(h.root_eq_iff hb j i).mpr ?_,fun k hk hroot => ?_⟩
    · rcases hcases with ⟨hi,_⟩ | ⟨hi,_⟩
      · rw [← hij,hi]
        rfl
      · rw [← hij,hi]
        rfl
    · have hside := (h.root_eq_iff hb k i).mp hroot
      rw [Fin.lt_def,← hij] at hk
      unfold lostSide at hside
      split_ifs at hside <;> omega
  have hhint : (roundInput E hb e).start t ≤ j := by
    rw [Fin.le_def,hstart]
    have hlt := lostCuts_lt t
    omega
  refine Fin.ext ?_
  have hpos := lastPosOfRoot_spec E.vertices_lt hs hlast hhint
  rw [RoundInput.lastPartitionOfRoot]
  change getPartitionIdx E.fl 36 (lastPosOfRoot e.mergeInstr _ _) 28 = t
  rw [hpos,h.fl,← hij]
  rcases hcases with ⟨hi,ht⟩ | ⟨hi,ht⟩
  · rw [hi,ht]
    exact lost_idx_wrong.1
  · rw [hi,ht]
    exact lost_idx_wrong.2

theorem LostRound.shortRuns (h : LostRound E e) (hb : InBounds E.fl 36 28)
    (hs : SortedByRoot e.mergeInstr) : (roundInput E hb e).ShortRuns where
  nonempty t := by
    rw [h.start hb,h.stop hb]
    exact lostCuts_lt t
  single t i j hi hij hj hroot := by
    rw [Fin.le_def,h.start hb] at hi
    rw [h.stop hb,← hij] at hj
    have hcut : ∀ t : Fin 28, ¬ (lostCuts t ≤ 8 ∧ 8 + 1 < lostCuts (t + 1)) ∧
        ¬ (lostCuts t ≤ 17 ∧ 17 + 1 < lostCuts (t + 1)) := by
      decide
    rcases h.neighbours hb hij hroot with h8 | h17
    · rw [h8] at hi hj
      exact (hcut t).1 ⟨hi,hj⟩
    · rw [h17] at hi hj
      exact (hcut t).2 ⟨hi,hj⟩
  own t i hexit hi := by
    rw [h.stop hb] at hi
    have ht := (h.exitsRight hb t).mp hexit
    have hlt : (i : ℕ) + 1 < 36 := by
      rw [hi]
      exact ((lostCuts_stop t).mpr ht).1
    exact h.lastPartition hb hs hi (j := ⟨i + 1,hlt⟩) rfl ht
  once t hleft := by
    have ht := (h.fromLeft hb t).mp hleft
    have hlong : ∀ t : Fin 28, t = 7 ∨ t = 14 →
        lostCuts t + 1 < lostCuts (t + 1) ∧ ¬ (t = 6 ∨ t = 13) := by
      decide
    rw [h.start hb,h.stop hb,← Bool.not_eq_true,h.exitsRight hb]
    exact hlong t ht

end Round

section Graph

def lostEdges : List (Edge 36) :=
  [⟨⟨8,by decide⟩,⟨9,by decide⟩⟩,⟨⟨9,by decide⟩,⟨18,by decide⟩⟩,⟨⟨17,by decide⟩,⟨18,by decide⟩⟩]

abbrev lostGraph : SimpleGraph (Fin 36) := currentGraph lostEdges

-- what calc_cc_samples and calc_bkt_per_col give for 36 vertices
def lostParams : SketchParams := ⟨2#64,18,1,11⟩

abbrev lostEdge89 : VecT := 0x800000009#64
abbrev lostEdge918 : VecT := 0x900000012#64
abbrev lostEdge1718 : VecT := 0x1100000012#64

theorem lost_adj : ∀ u v : Fin 36, lostGraph.Adj u v ↔
    (u = 8 ∧ v = 9) ∨ (u = 9 ∧ v = 8) ∨ (u = 9 ∧ v = 18) ∨ (u = 18 ∧ v = 9) ∨
      (u = 17 ∧ v = 18) ∨ (u = 18 ∧ v = 17) := by
  decide

theorem lost_cut (A : Finset (Fin 36)) :
    cutEdges lostGraph A ⊆ {lostEdge89,lostEdge918,lostEdge1718} := by
  intro i hi
  obtain ⟨u,v,_,_,huv,rfl⟩ := (mem_cutEdges lostGraph).mp hi
  rcases (lost_adj u v).mp huv with ⟨rfl,rfl⟩ | ⟨rfl,rfl⟩ | ⟨rfl,rfl⟩ | ⟨rfl,rfl⟩ | ⟨rfl,rfl⟩ |
    ⟨rfl,rfl⟩ <;> decide

theorem lost_collisionFree (A : Finset (Fin 36)) :
    CollisionFree xxh3 lostParams (cutEdges lostGraph A) := by
  have hcf : CollisionFree xxh3 lostParams [lostEdge89,lostEdge918,lostEdge1718].toFinset :=
    .of_sublists (by decide) (by decide) (by decide)
  exact hcf.mono (lost_cut A)

theorem lost_absorbed {q : QueryState 36} (hq : PairedUp q.dsu) {v : Fin 36} (h9 : v ≠ 9)
    (h18 : v ≠ 18) : Absorbed lostGraph q v := by
  have hadj (w : Fin 36) (hw : lostGraph.Adj v w) : v = 8 ∧ w = 9 ∨ v = 17 ∧ w = 18 := by
    have hcases := (lost_adj v w).mp hw
    tauto
  refine ⟨Finset.card_le_one.mpr fun i hi j hj => ?_,fun w hw => ?_⟩
  · obtain ⟨u,x,hu,_,hux,rfl⟩ := (mem_cutEdges lostGraph).mp hi
    obtain ⟨u',y,hu',_,huy,rfl⟩ := (mem_cutEdges lostGraph).mp hj
    obtain rfl := Finset.mem_singleton.mp hu
    obtain rfl := Finset.mem_singleton.mp hu'
    rcases hadj x hux with ⟨rfl,rfl⟩ | ⟨rfl,rfl⟩
    · rcases hadj y huy with ⟨_,rfl⟩ | ⟨h,_⟩
      · rfl
      · exact absurd h (by decide)
    · rcases hadj y huy with ⟨h,_⟩ | ⟨_,rfl⟩
      · exact absurd h (by decide)
      · rfl
  · rw [hq.rep]
    rcases hadj w hw with ⟨rfl,rfl⟩ | ⟨rfl,rfl⟩ <;> rfl

theorem LostRound.unmodified {E : QueryEnv 36 28} {e : Emulation 36 28 lostParams}
    (h : LostRound E e) (hxxh : E.xxh = xxh3) (h1 : e.roundNum = 1)
    (hsk : Sketches E.xxh lostGraph e.sketches) (hs : SortedByRoot e.mergeInstr) :
    Unmodified E e := by
  have hb : InBounds E.fl 36 28 := h.fl.symm ▸ lost_inBounds
  have hcf (A : Finset (Fin 36)) : CollisionFree E.xxh lostParams (cutEdges lostGraph A) :=
    hxxh.symm ▸ lost_collisionFree A
  refine round_unmodified hb (by omega) (by rw [h1]; decide) hsk hcf (h.shortRuns hb hs)
    fun t j hlo hhi hfirst => ?_
  rw [h.instr j]
  rw [Fin.le_def,h.start hb] at hlo
  rw [h.stop hb] at hhi
  have hrange (i : Fin 36) (u : Fin 28) (hu : u = 7 ∨ u = 14) (hi : (i : ℕ) = lostCuts u)
      (hj : j = i) : False := by
    subst hj
    obtain rfl : t = u := lostCuts_range t u (hlo.trans_eq hi) (hi.symm.trans_lt hhi)
    have heq : j = (roundInput E hb e).start t := Fin.ext (hi.trans (h.start hb t).symm)
    exact Bool.false_ne_true ((hfirst heq).symm.trans ((h.fromLeft hb t).mpr hu))
  exact lost_absorbed h.paired (fun h9 => hrange 9 7 (.inl rfl) rfl h9)
    fun h18 => hrange 18 14 (.inr rfl) rfl h18

def lostSketch (v : Fin 36) : Sketch lostParams :=
  ⟨0,setBuckets xxh3 lostParams (incident lostGraph v)⟩

-- in column 0 the three edges have one depth
theorem lostSketch_sample : ∀ v : Fin 36, ((lostSketch v).sample xxh3).map Prod.snd =
    if v = 8 then .ok ⟨lostEdge89,.good⟩ else if v = 17 then .ok ⟨lostEdge1718,.good⟩
    else if v = 9 ∨ v = 18 then .ok ⟨0,.fail⟩ else .ok ⟨0,.zero⟩ := by
  decide

theorem lostSketch_sampledEdge (v : Fin 36) :
    (sampledEdge xxh3 (lostSketch v) : SimpleGraph (Fin 36)) =
      if v = 8 then SimpleGraph.edge 8 9 else if v = 17 then SimpleGraph.edge 17 18 else ⊥ := by
  rw [sampledEdge,lostSketch_sample]
  split_ifs <;> rfl

def drawnGraph : SimpleGraph (Fin 36) := SimpleGraph.edge 8 9 ⊔ SimpleGraph.edge 17 18

theorem drawnGraph_reachable (u v : Fin 36) :
    drawnGraph.Reachable u v ↔ lostSide u = lostSide v := by
  constructor
  · intro h
    refine reachable_of_adj (R := fun x y : Fin 36 => lostSide x = lostSide y)
      ⟨fun _ => rfl,Eq.symm,Eq.trans⟩ (fun x y hxy => ?_) h
    rcases hxy with hxy | hxy
    · rcases (SimpleGraph.edge_adj ..).mp hxy with ⟨⟨rfl,rfl⟩ | ⟨rfl,rfl⟩,_⟩ <;> rfl
    · rcases (SimpleGraph.edge_adj ..).mp hxy with ⟨⟨rfl,rfl⟩ | ⟨rfl,rfl⟩,_⟩ <;> rfl
  · intro h
    have h89 : drawnGraph.Adj 8 9 := .inl ((SimpleGraph.edge_adj ..).mpr ⟨.inl ⟨rfl,rfl⟩,by decide⟩)
    have h1718 : drawnGraph.Adj 17 18 :=
      .inr ((SimpleGraph.edge_adj ..).mpr ⟨.inl ⟨rfl,rfl⟩,by decide⟩)
    have hcases : u = v ∨ (u = 8 ∧ v = 9) ∨ (u = 9 ∧ v = 8) ∨ (u = 17 ∧ v = 18) ∨
        (u = 18 ∧ v = 17) := by
      simp only [Fin.ext_iff]
      unfold lostSide at h
      change (u : ℕ) = v ∨ ((u : ℕ) = 8 ∧ (v : ℕ) = 9) ∨ ((u : ℕ) = 9 ∧ (v : ℕ) = 8) ∨
        ((u : ℕ) = 17 ∧ (v : ℕ) = 18) ∨ ((u : ℕ) = 18 ∧ (v : ℕ) = 17)
      split_ifs at h <;> omega
    rcases hcases with rfl | ⟨rfl,rfl⟩ | ⟨rfl,rfl⟩ | ⟨rfl,rfl⟩ | ⟨rfl,rfl⟩
    · exact .rfl
    · exact h89.reachable
    · exact h89.symm.reachable
    · exact h1718.reachable
    · exact h1718.symm.reachable

def lostSchedule : Schedule 36 28 where
  roundZero := List.finRange 36
  roundZero_perm := .refl _
  workers _ := (List.finRange 28).flatMap fun t => List.replicate 113 t
  workers_fair _ t := by
    rw [List.count_flatMap,← Fin.sum_univ_def,Finset.sum_eq_single t]
    · exact List.count_replicate_self.symm.le
    · intro u _ hu
      exact List.count_eq_zero.mpr fun hmem => hu (List.eq_of_mem_replicate hmem).symm
    · exact fun h => absurd (Finset.mem_univ t) h
  captures _ := captureAll 36 28

theorem thirtySix_lt_two_pow : 36 < 2 ^ 32 := by norm_num

def lostRun : QueryRun 36 28 where
  xxh := xxh3
  schedule _ := lostSchedule
  order _ := ascendingOrder 36
  fl := .double
  threads_pos := Nat.succ_pos 27
  vertices_lt := thirtySix_lt_two_pow

theorem lost_reachable : lostGraph.Reachable 9 18 := by
  have hadj : lostGraph.Adj 9 18 := (lost_adj 9 18).mpr (by tauto)
  exact hadj.reachable

theorem drawn_sup : (⊥ ⊔ ⨆ skt ∈ (List.finRange 36).reverse.map lostSketch,
    sampledEdge xxh3 skt : SimpleGraph (Fin 36)) = drawnGraph := by
  have hmem (v : Fin 36) : (sampledEdge xxh3 (lostSketch v) : SimpleGraph (Fin 36)) ≤
      ⨆ skt ∈ (List.finRange 36).reverse.map lostSketch, sampledEdge xxh3 skt :=
    le_iSup₂_of_le (lostSketch v) (List.mem_map.mpr ⟨v,by simp,rfl⟩) le_rfl
  rw [bot_sup_eq]
  refine le_antisymm (iSup₂_le fun skt hskt => ?_) (sup_le ?_ ?_)
  · obtain ⟨v,_,rfl⟩ := List.mem_map.mp hskt
    rw [lostSketch_sampledEdge]
    split_ifs
    · exact le_sup_left
    · exact le_sup_right
    · exact bot_le
  · have h8 := hmem 8
    rw [lostSketch_sampledEdge,if_pos rfl] at h8
    exact h8
  · have h17 := hmem 17
    rw [lostSketch_sampledEdge,if_neg (by decide),if_pos rfl] at h17
    exact h17

variable (dsu : DisjointSetUnionMT 36)

abbrev lostStart : Emulation 36 28 lostParams := startEmulation 28 lostSketch dsu

abbrev lostDrawn : Emulation 36 28 lostParams :=
  (performBoruvkaRound (lostRun.env 0) (lostStart dsu)).1

theorem lostStart_inv : EmulationInv (lostRun.env 0) lostGraph (lostStart dsu) :=
  start_inv (fun _ => rfl) dsu

theorem lostDrawn_paired : PairedUp (lostDrawn dsu).query.dsu := by
  have hrep := after_represents xxh3 (DisjointSetUnionMT.represents_fresh dsu.priority)
    (q := (lostStart dsu).query) (roundSketches (lostRun.env 0) lost_inBounds (lostStart dsu))
  have hafter := (performBoruvkaRound_after (E := lostRun.env 0) lost_inBounds (lostStart dsu)).1
  have hdrawn := drawn_sup ▸ hafter ▸ hrep
  exact ⟨fun u v => (hdrawn u v).trans (drawnGraph_reachable u v)⟩

theorem lostDrawn_next : (performBoruvkaRound (lostRun.env 0) (lostStart dsu)).2 = .ok true := by
  have hsup : Supplied (lostStart dsu) := fun _ => Nat.succ_pos 17
  obtain ⟨m,hm,_,hcorrect⟩ := (lostStart_inv dsu).zero_ok lost_collisionFree rfl hsup
  cases m with
  | true => exact hm
  | false =>
    have hrep := ((hcorrect rfl).rep 9 18).mpr lost_reachable
    exact absurd (((lostDrawn_paired dsu).rep 9 18).mp hrep) (by decide)

theorem lostDrawn_forest : ForestInv lostGraph (lostDrawn dsu).query := by
  have hsup : Supplied (lostStart dsu) := fun _ => Nat.succ_pos 17
  obtain ⟨_,_,hforest,_⟩ := (lostStart_inv dsu).zero_ok lost_collisionFree rfl hsup
  exact hforest

theorem lost_unshifted (roots : Fin 36 → Fin 36) (instr : Fin 36 → MergeInstr 36) :
    Unshifted .double (captureAll 36 28) roots instr := fun _ _ =>
  recounted_of_nonempty lost_nonempty _ (Nat.findGreatest_le 28)

theorem lost_reaches (fuel : ℕ) : ∃ e : Emulation 36 28 lostParams,
    boruvkaLoop (lostRun.env 0) (fuel + 1) (lostStart dsu) = boruvkaLoop (lostRun.env 0) fuel e ∧
      LostRound (lostRun.env 0) e ∧ SortedByRoot e.mergeInstr ∧ e.roundNum = 1 ∧
      Sketches xxh3 lostGraph e.sketches ∧
      e.query.spanningForest = (lostDrawn dsu).query.spanningForest := by
  have hpaired := lostDrawn_paired dsu
  obtain ⟨d,instr,hrun,hrep,hs⟩ := (lost_unshifted (findRoots (lostDrawn dsu).query.dsu
    (identityInstr 36)).2 (identityInstr 36)).scattered lost_tiling Function.bijective_id
  have hnext := @boruvkaLoop_next _ _ _ _ _ fuel _ _ (lostDrawn_next dsu) hrun
  have hpair (u v : Fin 36) : d.rep u = d.rep v ↔ lostSide u = lostSide v := by
    rw [hrep,hrep]
    exact hpaired.rep u v
  have hinstr (i : Fin 36) : instr i = ⟨d.rep i,i⟩ := by
    rw [hrep]
    exact hpaired.instr hs i
  refine ⟨_,hnext,⟨rfl,⟨hpair⟩,hinstr⟩,hs.sorted,rfl,fun v => ?_,rfl⟩
  exact ((performBoruvkaRound_frame (lostRun.env 0) (e := lostStart dsu)).buckets v).trans rfl

theorem lost_emulation :
    (Boruvka.boruvkaEmulation (lostRun.env 0) lostSketch dsu).2 = .returned ∧
    ¬ (forestGraph (Boruvka.boruvkaEmulation (lostRun.env 0) lostSketch dsu).1.query.spanningForest).Reachable
      9 18 := by
  obtain ⟨e,hloop,hround,hsorted,h1,hsk,hforest⟩ := lost_reaches dsu 18
  have hun := hround.unmodified rfl h1 hsk hsorted
  rw [Boruvka.boruvkaEmulation]
  change (boruvkaLoop _ (18 + 1) (lostStart dsu)).2 = _ ∧
    ¬ (forestGraph (boruvkaLoop _ (18 + 1) (lostStart dsu)).1.query.spanningForest).Reachable 9 18
  rw [hloop,boruvkaLoop_returned hun.ended]
  refine ⟨rfl,fun hreach => ?_⟩
  rw [hun.forest,hforest,← (lostDrawn_forest dsu).rep] at hreach
  exact absurd (((lostDrawn_paired dsu).rep 9 18).mp hreach) (by decide)

end Graph

section Query

theorem calcSpanningForest_returned {n w T : ℕ} {p : SketchParams} {E : QueryEnv n T}
    {a : CCSketchAlg n w p} (hv : a.sharedDsuValid = false)
    (hret : (Boruvka.boruvkaEmulation E a.sketches a.query.dsu).2 = .returned)
    (o : ForestOrder n) : (a.calcSpanningForest E o).2 = .ok (.ofForest o
      (Boruvka.boruvkaEmulation E a.sketches a.query.dsu).1.query.spanningForest) := by
  simp only [calcSpanningForest,connectedComponents,hv,refresh,CCSketchAlg.boruvkaEmulation,hret]
  rfl

theorem calcDisjointSpanningForests_one {n w T : ℕ} {p : SketchParams} {Q : QueryRun n T}
    {a : CCSketchAlg n w p} {sf : SpanningForest n}
    (hok : (a.calcSpanningForest (Q.env 0) (Q.order 0)).2 = .ok sf) :
    (a.calcDisjointSpanningForests Q 1).2 = .ok [sf] := by
  simp only [calcDisjointSpanningForests,deleteForests,hok]
  rfl

def closingEdge : Edge 36 := ⟨⟨0,by decide⟩,⟨1,by decide⟩⟩

def lostFull : CCSketchAlg 36 1 lostParams :=
  (new 1 lostParams fun _ => 0).updateEdges xxh3 .insert (closingEdge :: lostEdges)

-- deleting an edge of the cached forest drops the cache
def lostAlg : CCSketchAlg 36 1 lostParams := lostFull.updateEdges xxh3 .delete [closingEdge]

theorem lostFull_sketches : Sketches xxh3 (toggled ⊥ (closingEdge :: lostEdges)) lostFull.sketches :=
  sketches_updateEdges thirtySix_lt_two_pow (fun _ => rfl) _ rfl _

theorem lostGraph_eq :
    lostGraph = toggled (toggled ⊥ (closingEdge :: lostEdges)) [closingEdge] :=
  (toggled_undone closingEdge lostEdges).symm

theorem lostAlg_sketches : lostAlg.sketches = lostSketch := by
  funext v
  have hbkt := sketches_updateEdges thirtySix_lt_two_pow lostFull_sketches [closingEdge]
    lostGraph_eq .delete v
  have hidx : (lostAlg.sketches v).sampleIdx = 0 := by
    rw [lostAlg,updateEdges_sampleIdx,lostFull,updateEdges_sampleIdx]
    rfl
  cases hs : lostAlg.sketches v
  rw [lostAlg] at hs
  rw [hs] at hbkt
  rw [lostAlg,hs] at hidx
  rw [lostSketch]
  exact congrArg₂ Sketch.mk hidx hbkt

theorem lostAlg_reachable : Reachable xxh3 lostAlg :=
  ((Reachable.new _).updateEdges _ _).updateEdges _ _

theorem lostAlg_invalid : lostAlg.sharedDsuValid = false := by decide

theorem lostAlg_eager : lostAlg.EagerInv lostGraph := by
  have hflags : lostAlg.sharedDsuValid = lostAlg.dsuValid := lostAlg_reachable.flagsAgree
  exact ⟨hflags,fun h => absurd (hflags.trans h) (by rw [lostAlg_invalid]; decide)⟩

theorem lostAlg_forest (o : ForestOrder 36) : ∃ sf,
    (lostAlg.calcSpanningForest (lostRun.env 0) o).2 = .ok sf ∧ ¬ sf.graph.Reachable 9 18 := by
  obtain ⟨hret,hreach⟩ := lost_emulation lostAlg.query.dsu
  rw [← lostAlg_sketches] at hret hreach
  exact ⟨_,calcSpanningForest_returned lostAlg_invalid hret o,
    (SpanningForest.graph_ofForest o _).symm ▸ hreach⟩

theorem lost_edge_not_spanning : Reachable xxh3 lostAlg ∧
    Sketches xxh3 lostGraph lostAlg.sketches ∧ lostAlg.EagerInv lostGraph ∧
    ∃ sf, (lostAlg.calcDisjointSpanningForests lostRun 1).2 = .ok [sf] ∧
      (∀ j A, CollisionFree xxh3 lostParams (cutEdges (residual lostGraph ([sf].take j)) A)) ∧
      ¬ IsSpanningForest lostGraph sf.graph := by
  obtain ⟨sf,hok,hapart⟩ := lostAlg_forest (lostRun.order 0)
  refine ⟨lostAlg_reachable,lostAlg_sketches.symm ▸ fun _ => rfl,lostAlg_eager,sf,?_,?_,?_⟩
  · exact calcDisjointSpanningForests_one hok
  · intro j A
    exact (lost_collisionFree A).mono (cutEdges_residual_subset _ _ A)
  · intro h
    exact hapart ((h.spans 9 18).mpr lost_reachable)

end Query
end GraphZeppelin.CC
