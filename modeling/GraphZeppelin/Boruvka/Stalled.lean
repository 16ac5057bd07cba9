import GraphZeppelin.Boruvka.SampledRounds
import GraphZeppelin.Sketch.SampleExact

namespace GraphZeppelin.Boruvka
open Dsu Sketch

variable {n T : ℕ} {p : SketchParams} {xxh : XxHash} {G : SimpleGraph (Fin n)} [DecidableRel G.Adj]
  {sk : Fin n → Sketch p}

structure Stalled (xxh : XxHash) (p : SketchParams) (S : Finset VecT) : Prop where
  card : S.card ≠ 1
  lying : ∀ q : Cell p, (lying xxh S q).card ≠ 1

theorem stalled_empty (xxh : XxHash) (p : SketchParams) : Stalled xxh p ∅ :=
  ⟨by decide,fun q => by simp [Sketch.lying]⟩

theorem stalled_pair {i j : VecT} (hij : i ≠ j)
    (h : ∀ c : Fin p.numColumns, Bucket.getIndexDepth xxh i (p.columnSeed c) p.bktPerCol =
      Bucket.getIndexDepth xxh j (p.columnSeed c) p.bktPerCol) : Stalled xxh p {i,j} := by
  refine ⟨by simp [Finset.card_pair hij],fun q => ?_⟩
  rw [Sketch.lying,Finset.filter_insert,Finset.filter_singleton,h q.1]
  split
  · simp [Finset.card_pair hij]
  · simp

theorem Stalled.sampledEdge {S : Finset VecT} (h : Stalled xxh p S) (hcf : CollisionFree xxh p S)
    {s : Sketch p} (hs : s.buckets = setBuckets xxh p S) :
    (sampledEdge xxh s : SimpleGraph (Fin n)) = ⊥ := by
  rw [Boruvka.sampledEdge]
  by_cases hr : s.sampleIdx < p.numSamples
  · obtain ⟨smp,ex,hsmp,_,hspec⟩ := sample_exhaustive_exact hcf hs hr
    rw [hsmp]
    have hres : smp.result = .zero ∨ smp.result = .fail := by
      by_cases hS : S = ∅
      · exact .inl (hspec.zero.mpr hS)
      · have hpos := Finset.card_pos.mpr (Finset.nonempty_iff_ne_empty.mpr hS)
        have hcard := h.card
        exact .inr (hspec.fail.mpr ⟨by omega,fun q _ => h.lying q⟩)
    simp only [Except.map,drawnEdge]
    rcases hres with hres | hres
    · rw [hres]
    · rw [hres]
  · rw [sample_exhausted (not_lt.mp hr)]
    rfl

theorem sampledGraph_stalled (hn : n < 2 ^ 32) (hsk : Sketches xxh G sk)
    (hcf : ∀ A, CollisionFree xxh p (cutEdges G A)) {r r' : ℕ}
    (h : ∀ v, Stalled xxh p (cutEdges G (component (sampledGraph xxh sk r) v))) (hr : r ≤ r') :
    sampledGraph xxh sk r' = sampledGraph xxh sk r := by
  induction r', hr using Nat.le_induction with
  | base => rfl
  | succ r' _ ih =>
    rw [sampledGraph,ih]
    refine sup_eq_left.mpr (iSup_le fun v => ?_)
    have hsum := hsk.sum hn (component (sampledGraph xxh sk r) v)
    rw [(h v).sampledEdge (hcf _) hsum]
    exact bot_le

theorem boruvkaEmulation_stalled {E : QueryEnv n T} (hE : E.Consistent) (hsk : Sketches E.xxh G sk)
    (hcf : ∀ A, CollisionFree E.xxh p (cutEdges G A))
    (hidx : ∀ v, (sk v).sampleIdx < p.numSamples) {r : ℕ} (hr : r < p.numSamples)
    (h : ∀ v, Stalled E.xxh p (cutEdges G (component (sampledGraph E.xxh sk r) v)))
    {u v : Fin n} (huv : G.Reachable u v) (hnot : ¬ (sampledGraph E.xxh sk r).Reachable u v)
    (dsu : DisjointSetUnionMT n) : (boruvkaEmulation E sk dsu).2 ≠ .returned := by
  intro hret
  obtain ⟨_,hc⟩ := (boruvkaEmulation_ran hE hcf hsk hidx dsu).returned.mp hret
  rw [sampledGraph_stalled E.vertices_lt hsk hcf h (Nat.le_sub_one_of_lt hr)] at hc
  exact hnot ((complete_iff E.vertices_lt hsk hcf).mp hc u v huv)

-- one thread that runs every loop in index order
def soloSchedule (n : ℕ) : Schedule n 1 where
  roundZero := List.finRange n
  roundZero_perm := .refl _
  workers _ := List.replicate (3 * n + 5) ⟨0,Nat.zero_lt_one⟩
  workers_fair _ t := by
    rw [Fin.fin_one_eq_zero t]
    exact le_of_eq List.count_replicate_self.symm
  captures _ := {
    order := (List.finRange n).map fun r => (⟨0,Nat.zero_lt_one⟩,r)
    nodup := (List.nodup_finRange n).map fun _ _ h => (Prod.ext_iff.mp h).2
    all := fun x => List.mem_map.mpr ⟨x.2,List.mem_finRange _,Prod.ext (Subsingleton.elim _ _) rfl⟩ }

end GraphZeppelin.Boruvka
