import GraphZeppelin.CC.EagerDsu

namespace GraphZeppelin.CC
open Dsu Boruvka Sketch

namespace CCSketchAlg

variable {n w T : ℕ} {p : SketchParams} {E : QueryEnv n T} {G : SimpleGraph (Fin n)}
  [DecidableRel G.Adj] {a : CCSketchAlg n w p}

theorem refresh_buckets (E : QueryEnv n T) (a : CCSketchAlg n w p) (v : Fin n) :
    ((a.refresh E).1.sketches v).buckets = (a.sketches v).buckets := by
  have hbkt := boruvkaLoop_buckets (E := E) (p.numSamples + 1)
    (startEmulation T a.sketches a.query.dsu) v
  simp only [refresh,boruvkaEmulation,Boruvka.boruvkaEmulation]
  split <;> exact hbkt

theorem refresh_correct (hE : E.Consistent ∨ G = ⊥) (hs : Sketches E.xxh G a.sketches)
    (hcf : ∀ A, CollisionFree E.xxh p (cutEdges G A)) (hnone : (a.refresh E).2 = none) :
    (a.refresh E).1.dsuValid = true ∧ (a.refresh E).1.sharedDsuValid = true ∧
      Correct G (a.refresh E).1.query := by
  have hspec := boruvkaLoop_spec hE hcf (p.numSamples + 1) (start_inv hs a.query.dsu)
    (Nat.le_add_right _ _)
  simp only [refresh,boruvkaEmulation,Boruvka.boruvkaEmulation] at hnone ⊢
  rcases hspec with ⟨err,herr⟩ | ⟨hret,hc⟩
  · rw [herr] at hnone
    cases hnone
  · simp only [hret]
    exact ⟨rfl,rfl,hc⟩

theorem connectedComponents_buckets (E : QueryEnv n T) (a : CCSketchAlg n w p) (v : Fin n) :
    ((a.connectedComponents E).1.sketches v).buckets = (a.sketches v).buckets := by
  by_cases hv : a.sharedDsuValid = true
  · rw [connectedComponents_cached hv]
    rfl
  · have hbkt := refresh_buckets E a v
    simp only [connectedComponents,hv]
    split <;> exact hbkt

omit [DecidableRel G.Adj] in
theorem components_correct {a : CCSketchAlg n w p} (hc : Correct G a.query) :
    Correct G a.components.1.query ∧
      ∀ u v, a.components.2.isConnected u v = true ↔ G.Reachable u v :=
  ⟨hc.of_forest rfl (DisjointSetUnionMT.rep_findEach _ _) hc.forest,
    fun u v => (ConnectedComponents.isConnected_ofDsu _ u v).trans (hc.rep u v)⟩

theorem EagerInv.afterQuery (h : a.EagerInv G)
    (hE : a.sharedDsuValid = true ∨ E.Consistent ∨ G = ⊥)
    (hs : a.sharedDsuValid = true ∨ Sketches E.xxh G a.sketches)
    (hcf : ∀ A, CollisionFree E.xxh p (cutEdges G A)) {cc : ConnectedComponents n}
    (hok : (a.connectedComponents E).2 = .ok cc) :
    (a.connectedComponents E).1.EagerInv G ∧ Correct G (a.connectedComponents E).1.query ∧
      ∀ u v, cc.isConnected u v = true ↔ G.Reachable u v := by
  by_cases hv : a.sharedDsuValid = true
  · obtain ⟨hc,hconn⟩ := components_correct (h.correct (h.shared ▸ hv))
    rw [connectedComponents_cached hv] at hok ⊢
    cases hok
    exact ⟨⟨h.shared,fun _ => hc⟩,hc,hconn⟩
  · simp only [CCSketchAlg.connectedComponents,hv] at hok ⊢
    split at hok
    · cases hok
    · next hnone =>
      obtain ⟨hd,hsh,hc⟩ := refresh_correct (hE.resolve_left hv) (hs.resolve_left hv) hcf hnone
      obtain ⟨hc,hconn⟩ := components_correct hc
      cases hok
      exact ⟨⟨hsh.trans hd.symm,fun _ => hc⟩,hc,hconn⟩

end CCSketchAlg
end GraphZeppelin.CC
