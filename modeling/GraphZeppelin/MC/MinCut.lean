import GraphZeppelin.CC.Certificate
import GraphZeppelin.MC.KForests

open SpanningForest CutCertificate

namespace GraphZeppelin.MC
open Dsu Boruvka Sketch CC

variable {n g T : ℕ} {p : SketchParams} {xxh : XxHash}

structure MinCut (n : ℕ) where
  leftVertices : Finset (Fin n)
  rightVertices : Finset (Fin n)
  value : ℕ

structure VieCut (n : ℕ) where
  performMinimumCut : List (Edge n) → ℕ
  getNodeInCut : List (Edge n) → Fin n → Bool

namespace VieCut

def Returns (V : VieCut n) (edges : List (Edge n)) : Prop :=
  ∃ A, CutCertificate.Proper A ∧ crossCount A edges = V.performMinimumCut edges

def Exact (V : VieCut n) (edges : List (Edge n)) : Prop :=
  ∀ A, CutCertificate.Proper A → V.performMinimumCut edges ≤ crossCount A edges

end VieCut

def calcMinimumCut (V : VieCut n) (edges : List (Edge n)) : MinCut n where
  leftVertices := Finset.univ.filter fun i => V.getNodeInCut edges i
  rightVertices := Finset.univ.filter fun i => ¬ V.getNodeInCut edges i
  value := V.performMinimumCut edges

namespace MCSketchAlg

def findMinCut (R : ℕ → QueryRun n T) (V : VieCut n) (adjlistEdges : List (Edge n)) (k : ℕ) :
    List ℕ → MCSketchAlg n g p → MCSketchAlg n g p × Option (ℕ × MinCut n)
  | [], a => (a,none)
  | graphId :: graphIds, a =>
    if h : graphId < g then
      let r := a.calcDisjointSpanningForests (R graphId) ⟨graphId,h⟩ k
      let mc := calcMinimumCut V (sfsEdges r.2)
      if mc.value < k then (r.1,some (graphId,mc))
      else findMinCut R V adjlistEdges k graphIds r.1
    else (a,some (graphId,calcMinimumCut V adjlistEdges))

section Frame

variable {Q : QueryRun n T} {graphId graphId' : Fin g}

theorem calcSpanningForest_sketches_ne (E : QueryEnv n T) (o : ForestOrder n)
    (a : MCSketchAlg n g p) (h : graphId' ≠ graphId) :
    (a.calcSpanningForest E o graphId).1.sketches graphId' = a.sketches graphId' := by
  simp only [calcSpanningForest,kBoruvkaEmulation]
  split <;> exact Function.update_of_ne h ..

theorem deleteForests_sketches_ne (h : graphId' ≠ graphId) (SFs : List (SpanningForest n))
    (a : MCSketchAlg n g p) :
    (SFs.foldl (fun a sf => a.deleteForest xxh graphId sf) a).sketches graphId' =
      a.sketches graphId' := by
  induction SFs generalizing a with
  | nil => rfl
  | cons sf SFs ih =>
    rw [List.foldl_cons,ih]
    exact Function.update_of_ne h ..

theorem forestLoop_sketches_ne (h : graphId' ≠ graphId) (a : MCSketchAlg n g p) (k : ℕ) :
    (a.forestLoop Q graphId k).alg.sketches graphId' = a.sketches graphId' := by
  induction k with
  | zero => rfl
  | succ k ih =>
    rw [forestLoop_succ,ForestLoop.step]
    exact (Function.update_of_ne h ..).trans ((calcSpanningForest_sketches_ne _ _ _ h).trans ih)

theorem calcDisjointSpanningForests_sketches_ne (h : graphId' ≠ graphId) (a : MCSketchAlg n g p)
    (k : ℕ) : (a.calcDisjointSpanningForests Q graphId k).1.sketches graphId' =
      a.sketches graphId' :=
  (deleteForests_sketches_ne h _ _).trans (forestLoop_sketches_ne h a k)

theorem calcDisjointSpanningForests_all_sketches {Gs : ℕ → SimpleGraph (Fin n)}
    [∀ g, DecidableRel (Gs g).Adj] {a : MCSketchAlg n g p}
    (h : ∀ g' : Fin g, Sketches Q.xxh (Gs g') (a.sketches g')) (graphId g' : Fin g) (k : ℕ) :
    Sketches Q.xxh (Gs g') ((a.calcDisjointSpanningForests Q graphId k).1.sketches g') := by
  by_cases hg : g' = graphId
  · subst hg
    exact calcDisjointSpanningForests_sketches (h g') k
  · rw [calcDisjointSpanningForests_sketches_ne hg]
    exact h g'

end Frame

theorem Serves.certifies {Q : QueryRun n T} {G : SimpleGraph (Fin n)} [DecidableRel G.Adj]
    {a : MCSketchAlg n g p} {graphId : Fin g} {k : ℕ} (h : Serves Q graphId k a)
    (hE : Q.Consistent) (hs : Sketches Q.xxh G (a.sketches graphId))
    (hcf : ∀ A, CollisionFree Q.xxh p (cutEdges G A)) :
    Certifies G k (sfsEdges (a.calcDisjointSpanningForests Q graphId k).2) := by
  have hspan : Stepwise Spanning G (a.forestLoop Q graphId k).SFs := by
    refine (stepwise_forestLoop k).mpr fun i hi => ?_
    have hspec := nextForest_spec (.inl hE) hs hcf (h.unused (Nat.zero_lt_of_lt hi)) i hi
    refine ⟨hspec.extracted.1,hspec.spanning.mpr fun e hrounds => ?_⟩
    exact (h.round i _ e hi (reaches_iff.mpr ⟨rfl,hrounds⟩)).imp_right fun hleft => hleft.2.2
  have hlen := forestLoop_length (Q := Q) a graphId k
  have hcert := hspan.certifies
  rw [hlen] at hcert
  exact hcert

section Loop

variable {R : ℕ → QueryRun n T} {V : VieCut n} {adjlistEdges : List (Edge n)} {k : ℕ}
  {a : MCSketchAlg n g p}

def beforeGraph (R : ℕ → QueryRun n T) (k : ℕ) (a : MCSketchAlg n g p) : ℕ → MCSketchAlg n g p
  | 0 => a
  | j + 1 =>
    if h : j < g then
      ((beforeGraph R k a j).calcDisjointSpanningForests (R j) ⟨j,h⟩ k).1
    else beforeGraph R k a j

def certificateEdges (R : ℕ → QueryRun n T) (k : ℕ) (a : MCSketchAlg n g p) (j : Fin g) :
    List (Edge n) :=
  sfsEdges ((beforeGraph R k a j).calcDisjointSpanningForests (R j) j k).2

structure Skipped (R : ℕ → QueryRun n T) (V : VieCut n) (k : ℕ) (a : MCSketchAlg n g p)
    (j : ℕ) : Prop where
  sketched : j < g
  large : k ≤ V.performMinimumCut (certificateEdges R k a ⟨j,sketched⟩)

inductive Found (R : ℕ → QueryRun n T) (V : VieCut n) (adjlistEdges : List (Edge n)) (k : ℕ)
    (a : MCSketchAlg n g p) : ℕ → MinCut n → Prop
  | sketched (j : Fin g) :
      V.performMinimumCut (certificateEdges R k a j) < k →
      Found R V adjlistEdges k a j (calcMinimumCut V (certificateEdges R k a j))
  | adjlist (j : ℕ) : g ≤ j → Found R V adjlistEdges k a j (calcMinimumCut V adjlistEdges)

def LoopOutcome (R : ℕ → QueryRun n T) (V : VieCut n) (adjlistEdges : List (Edge n)) (k : ℕ)
    (a : MCSketchAlg n g p) (i m : ℕ) : Option (ℕ × MinCut n) → Prop
  | none => ∀ j, i ≤ j → j < i + m → Skipped R V k a j
  | some (graphId,mc) => graphId < i + m ∧ (∀ j, i ≤ j → j < graphId → Skipped R V k a j) ∧
    Found R V adjlistEdges k a graphId mc

theorem LoopOutcome.skip {i m : ℕ} {r : Option (ℕ × MinCut n)} (hi : Skipped R V k a i)
    (h : LoopOutcome R V adjlistEdges k a (i + 1) m r) :
    LoopOutcome R V adjlistEdges k a i (m + 1) r := by
  have hall {hi' : ℕ} (h : ∀ j, i + 1 ≤ j → j < hi' → Skipped R V k a j) (j : ℕ) (hj : i ≤ j)
      (hj' : j < hi') : Skipped R V k a j := by
    rcases Nat.eq_or_lt_of_le hj with rfl | hlt
    · exact hi
    · exact h j hlt hj'
  rw [LoopOutcome.eq_def,Nat.add_right_comm] at h
  rw [LoopOutcome.eq_def,← Nat.add_assoc]
  cases r with
  | none => exact hall h
  | some r => exact ⟨h.1,hall h.2.1,h.2.2⟩

theorem findMinCut_range' (R : ℕ → QueryRun n T) (V : VieCut n) (adjlistEdges : List (Edge n))
    (k : ℕ) (a : MCSketchAlg n g p) (m i : ℕ) :
    LoopOutcome R V adjlistEdges k a i m
      ((beforeGraph R k a i).findMinCut R V adjlistEdges k (List.range' i m)).2 := by
  induction m generalizing i with
  | zero => exact fun j hj hj' => absurd hj' (not_lt.mpr hj)
  | succ m ih =>
    have hnone (j : ℕ) (hj : i ≤ j) (hj' : j < i) : Skipped R V k a j :=
      absurd hj' (not_lt.mpr hj)
    rw [List.range'_succ,findMinCut]
    by_cases h : i < g
    · rw [dif_pos h]
      dsimp only
      split
      · next hlt => exact ⟨by omega,hnone,.sketched ⟨i,h⟩ hlt⟩
      · next hge =>
        have hnext : beforeGraph R k a (i + 1) =
            ((beforeGraph R k a i).calcDisjointSpanningForests (R i) ⟨i,h⟩ k).1 := dif_pos h
        exact .skip ⟨h,not_lt.mp hge⟩ (hnext ▸ ih (i + 1))
    · rw [dif_neg h]
      exact ⟨by omega,hnone,.adjlist i (not_lt.mp h)⟩

theorem beforeGraph_sketches {Gs : ℕ → SimpleGraph (Fin n)} [∀ g, DecidableRel (Gs g).Adj]
    (hR : ∀ j, (R j).xxh = xxh) (h : ∀ g' : Fin g, Sketches xxh (Gs g') (a.sketches g'))
    (j : ℕ) (g' : Fin g) : Sketches xxh (Gs g') ((beforeGraph R k a j).sketches g') := by
  induction j generalizing g' with
  | zero => exact h g'
  | succ j ih =>
    rw [beforeGraph]
    split
    · rw [← hR j] at ih ⊢
      exact calcDisjointSpanningForests_all_sketches ih _ g' k
    · exact ih g'

theorem certificateEdges_certifies {Gs : ℕ → SimpleGraph (Fin n)} [∀ g, DecidableRel (Gs g).Adj]
    (hR : ∀ j, (R j).xxh = xxh) (h : ∀ g' : Fin g, Sketches xxh (Gs g') (a.sketches g'))
    (hcf : ∀ (j : Fin g) A, CollisionFree xxh p (cutEdges (Gs j) A)) (j : Fin g)
    (hE : (R j).Consistent) (hsup : Serves (R j) j k (beforeGraph R k a j)) :
    Certifies (Gs j) k (certificateEdges R k a j) := by
  have hs := beforeGraph_sketches (k := k) hR h j j
  rw [← hR j] at hs hcf
  exact hsup.certifies hE hs (hcf j)

end Loop

structure Estimate (R : ℕ → QueryRun n T) (V : VieCut n) (adjlistEdges : List (Edge n)) (k : ℕ)
    (a : MCSketchAlg n g p) (Gs : ℕ → SimpleGraph (Fin n)) (graphId : ℕ) (mc : MinCut n) :
    Prop where
  skipped : ∀ j < graphId, ∃ hj : j < g, V.Exact (certificateEdges R k a ⟨j,hj⟩) →
    ∀ A, CutCertificate.Proper A → k ≤ cutValue (Gs j) A
  attained : graphId < g → mc.value < k ∧
    ∃ A, CutCertificate.Proper A ∧ cutValue (Gs graphId) A = mc.value
  minimum : ∀ h : graphId < g, V.Exact (certificateEdges R k a ⟨graphId,h⟩) →
    IsMinCut (Gs graphId) mc.value
  adjlist : g ≤ graphId → graphId = g ∧ mc = calcMinimumCut V adjlistEdges

def Answer (R : ℕ → QueryRun n T) (V : VieCut n) (adjlistEdges : List (Edge n)) (k : ℕ)
    (a : MCSketchAlg n g p) (Gs : ℕ → SimpleGraph (Fin n)) (numGraphs : ℕ) :
    Option (ℕ × MinCut n) → Prop
  | none => numGraphs ≤ g ∧ ∀ j < numGraphs, ∃ hj : j < g,
    V.Exact (certificateEdges R k a ⟨j,hj⟩) →
      ∀ A, CutCertificate.Proper A → k ≤ cutValue (Gs j) A
  | some (graphId,mc) => graphId < numGraphs ∧ Estimate R V adjlistEdges k a Gs graphId mc

theorem findMinCut_answer (R : ℕ → QueryRun n T) (V : VieCut n) (adjlistEdges : List (Edge n))
    (k numGraphs : ℕ) (Gs : ℕ → SimpleGraph (Fin n)) [∀ j, DecidableRel (Gs j).Adj]
    (hR : ∀ j, (R j).xxh = xxh) (hE : ∀ j, (R j).Consistent) {a : MCSketchAlg n g p}
    (hs : ∀ j : Fin g, Sketches xxh (Gs j) (a.sketches j))
    (hcf : ∀ (j : Fin g) A, CollisionFree xxh p (cutEdges (Gs j) A))
    (hsup : ∀ j : Fin g, (∀ i < j.val, Skipped R V k a i) →
      Serves (R j) j k (beforeGraph R k a j))
    (hreturns : ∀ edges, V.Returns edges) :
    Answer R V adjlistEdges k a Gs numGraphs
      (a.findMinCut R V adjlistEdges k (List.range numGraphs)).2 := by
  have hcert (j : Fin g) (h : ∀ i < j.val, Skipped R V k a i) :=
    certificateEdges_certifies hR hs hcf j (hE j) (hsup j h)
  have hskip {m : ℕ} (hall : ∀ j < m, Skipped R V k a j) : ∀ j < m, ∃ hj : j < g,
      V.Exact (certificateEdges R k a ⟨j,hj⟩) →
        ∀ A, CutCertificate.Proper A → k ≤ cutValue (Gs j) A := by
    intro j hj
    obtain ⟨hg,hlarge⟩ := hall j hj
    refine ⟨hg,fun hexact A hA => hlarge.trans ((hexact A hA).trans ?_)⟩
    exact ((hcert ⟨j,hg⟩ fun i hi => hall i (hi.trans hj)).cuts A).2
  have hrun : LoopOutcome R V adjlistEdges k a 0 numGraphs
      (a.findMinCut R V adjlistEdges k (List.range numGraphs)).2 := by
    rw [List.range_eq_range']
    exact findMinCut_range' R V adjlistEdges k a numGraphs 0
  rw [LoopOutcome.eq_def,zero_add] at hrun
  rw [Answer.eq_def]
  cases hr : (a.findMinCut R V adjlistEdges k (List.range numGraphs)).2 with
  | none =>
    rw [hr] at hrun
    refine ⟨?_,hskip fun j hj => hrun j (Nat.zero_le j) hj⟩
    by_contra hlt
    exact absurd (hrun g (Nat.zero_le g) (not_le.mp hlt)).sketched (lt_irrefl g)
  | some r =>
    obtain ⟨graphId,mc⟩ := r
    rw [hr] at hrun
    obtain ⟨hlt,hall,hfound⟩ := hrun
    have hall (j : ℕ) (hj : j < graphId) := hall j (Nat.zero_le j) hj
    cases hfound with
    | sketched j hk =>
      have hj := hcert j hall
      have hattained : ∃ A, CutCertificate.Proper A ∧
          cutValue (Gs j) A = V.performMinimumCut (certificateEdges R k a j) := by
        obtain ⟨A,hA,hval⟩ := hreturns (certificateEdges R k a j)
        exact ⟨A,hA,(hj.cut_eq (hval.symm ▸ hk)).symm.trans hval⟩
      exact ⟨hlt,hskip hall,fun _ => ⟨hk,hattained⟩,
        fun _ hexact => ⟨hattained,fun A hA => (hexact A hA).trans (hj.cuts A).2⟩,
        fun hg => absurd j.isLt (not_lt.mpr hg)⟩
    | adjlist _ hle =>
      refine ⟨hlt,hskip hall,fun hg => absurd hg (not_lt.mpr hle),
        fun hg => absurd hg (not_lt.mpr hle),fun _ => ⟨le_antisymm ?_ hle,rfl⟩⟩
      by_contra hlt
      exact absurd (hall g (not_le.mp hlt)).sketched (lt_irrefl g)

end MCSketchAlg
end GraphZeppelin.MC
