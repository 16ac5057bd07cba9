import GraphZeppelin.Boruvka.Supernode

namespace GraphZeppelin.Boruvka
open Dsu QueryState SpanningForest

variable {n : ℕ} {G H : SimpleGraph (Fin n)} {q q' : QueryState n}

def classOf (q : QueryState n) (R : Fin n) : Finset (Fin n) :=
  Finset.univ.filter fun v => q.dsu.rep v = R

structure Correct (G : SimpleGraph (Fin n)) (q : QueryState n) : Prop where
  rep : q.dsu.Represents G
  forest : IsSpanningForest G (forestGraph q.spanningForest)
  keyed : Keyed q.spanningForest

theorem correct_of_cuts [DecidableRel G.Adj] (h : ForestInv G q)
    (hcut : ∀ v, cutEdges G (classOf q (q.dsu.rep v)) = ∅) : Correct G q := by
  have hrep : q.dsu.Represents G := by
    intro u v
    constructor
    · intro huv
      exact ((h.rep u v).mp huv).mono h.sub
    · intro huv
      refine reachable_of_adj (R := fun x y => q.dsu.rep x = q.dsu.rep y)
        ⟨fun _ => rfl,Eq.symm,Eq.trans⟩ (fun x y hxy => ?_) huv
      have hy := (cutEdges_eq_empty_iff G).mp (hcut x) x (by simp [classOf]) y hxy
      simp only [classOf,Finset.mem_filter,Finset.mem_univ,true_and] at hy
      exact hy.symm
  exact ⟨hrep,⟨h.sub,h.acyclic,fun u v => (h.rep u v).symm.trans (hrep u v)⟩,h.keyed⟩

namespace Correct

theorem of_forest (h : Correct G q)
    (hf : q'.spanningForest = q.spanningForest) (hrep : ∀ x, q'.dsu.rep x = q.dsu.rep x)
    (hH : IsSpanningForest H (forestGraph q.spanningForest)) : Correct H q' := by
  refine ⟨fun u v => ?_,hf ▸ hH,hf ▸ h.keyed⟩
  rw [hrep,hrep,h.rep u v,← h.forest.spans,hH.spans]

theorem merged_iff (h : Correct G q)
    (src dst : Fin n) : (q.mergeEdge src dst).2 = true ↔ ¬ G.Reachable src dst := by
  rw [mergeEdge_snd,h.rep.merged_iff]

theorem bridge (h : Correct G q)
    {src dst : Fin n} (hm : (q.mergeEdge src dst).2 = true) :
    Correct (symmDiff G (SimpleGraph.edge src dst)) (q.mergeEdge src dst).1 := by
  have hr := (h.merged_iff src dst).mp hm
  have hf := mergeEdge_of_merged hm
  have hne : src ≠ dst := fun e => hr (e ▸ .refl src)
  rw [symmDiff_edge_of_not_adj fun hadj => hr hadj.reachable]
  refine ⟨?_,?_,?_⟩
  · rw [mergeEdge_dsu]
    exact h.rep.merge src dst
  · rw [hf,forestGraph_insertEdge]
    exact h.forest.insert_bridge hr
  · rw [hf]
    exact keyed_insertEdge h.keyed hne

theorem inside (h : Correct G q)
    {src dst : Fin n} (hm : (q.mergeEdge src dst).2 = false)
    (hF : ¬ (forestGraph q.spanningForest).Adj src dst) :
    Correct (symmDiff G (SimpleGraph.edge src dst)) (q.mergeEdge src dst).1 := by
  have hr : G.Reachable src dst := by
    by_contra hr
    exact Bool.false_ne_true (hm.symm.trans ((h.merged_iff src dst).mpr hr))
  refine h.of_forest (mergeEdge_of_not_merged hm) (mergeEdge_rep hm) ?_
  by_cases hadj : G.Adj src dst
  · rw [symmDiff_edge_of_adj hadj]
    exact h.forest.shrink (le_sdiff_edge h.forest.sub hF) sdiff_le
  · rw [symmDiff_edge_of_not_adj hadj]
    exact h.forest.insert_inside hr

end Correct
end GraphZeppelin.Boruvka
