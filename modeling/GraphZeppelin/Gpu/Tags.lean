import GraphZeppelin.EdgeStore.MergeExact
import GraphZeppelin.Gpu.Pipeline

namespace GraphZeppelin

namespace Gpu.MCGPUSketchAlg

variable {n : ℕ}

def storeTag (p : MCGPUParams) (src dst : Fin n) : ℕ :=
  Bucket.getIndexDepth p.xxh (edgeIdx src dst) p.seed p.numSubgraphs

def sketchTag (p : MCGPUParams) (src dst : Fin n) : ℕ :=
  Bucket.getIndexDepth p.xxh (edgeIdx src dst) p.seed (p.numSubgraphs - 1)

theorem tagUpdates_store (p : MCGPUParams) (src dst : Fin n) :
    EdgeStore.tagUpdates p.xxh p.seed p.numSubgraphs src [dst] = [⟨storeTag p src dst,dst⟩] := rfl

theorem tagUpdates_sketch (p : MCGPUParams) (src dst : Fin n) :
    EdgeStore.tagUpdates p.xxh p.seed (p.numSubgraphs - 1) src [dst] =
      [⟨sketchTag p src dst,dst⟩] := rfl

-- the edge was stored while there was no sketch subgraph and is toggled again later
def ToggleRemoves [NeZero n] (p : MCGPUParams) (src dst : Fin n) : Prop :=
  ∀ s : EdgeStore n, s.trueMinSubgraph = s.curSubgraph → s.curSubgraph ≤ sketchTag p src dst →
    s.adjlist src = EdgeStore.tagUpdates p.xxh p.seed p.numSubgraphs src [dst] →
    ∃ r, s.insertAdjEdges src s.curSubgraph
      (EdgeStore.tagUpdates p.xxh p.seed (p.numSubgraphs - 1) src [dst]) = .ok r ∧
      r.1.adjlist src = []

structure TagsAgree [NeZero n] (p : MCGPUParams) (u v : Fin n) : Prop where
  forward : storeTag p u v = sketchTag p u v
  backward : storeTag p v u = sketchTag p v u
  endpoints : storeTag p u v = sketchTag p v u
  toggleForward : ToggleRemoves p u v
  toggleBackward : ToggleRemoves p v u

theorem tags_eq_iff {p : MCGPUParams} (hlo : 1 ≤ p.numSubgraphs) (hhi : p.numSubgraphs < 64)
    (u v : Fin n) : storeTag p u v = sketchTag p u v ↔
      ∃ i < p.numSubgraphs, (p.xxh (edgeIdx u v) p.seed).getLsbD i = true := by
  have hbits := Bucket.le_ctzll_iff (p.xxh (edgeIdx u v) p.seed) (le_of_lt hhi)
  rw [storeTag,sketchTag,Bucket.getIndexDepth_eq_min _ _ _ hhi,
    Bucket.getIndexDepth_eq_min _ _ _ (show p.numSubgraphs - 1 < 64 by omega)]
  constructor
  · intro heq
    by_contra hnone
    have hle := hbits.mpr fun i hi => Bool.eq_false_of_not_eq_true fun hbit => hnone ⟨i,hi,hbit⟩
    omega
  · rintro ⟨i,hi,hbit⟩
    have hlt : ¬ p.numSubgraphs ≤ Bucket.ctzll (p.xxh (edgeIdx u v) p.seed) := fun hle => by
      rw [hbits.mp hle i hi] at hbit
      cases hbit
    omega

theorem toggle_removes [NeZero n] {p : MCGPUParams} {src dst : Fin n}
    (h : storeTag p src dst = sketchTag p src dst) : ToggleRemoves p src dst := by
  intro s hm hcur hadj
  rw [tagUpdates_store,h] at hadj
  rw [tagUpdates_sketch]
  obtain ⟨r,hr,_,hmerge⟩ := EdgeStore.insertAdjEdges_settled src
    [⟨sketchTag p src dst,dst⟩] hm (List.cons_ne_nil _ _)
    (fun e he => List.mem_singleton.mp he ▸ hcur)
  refine ⟨r,hr,?_⟩
  rw [hmerge,hadj,EdgeStore.sortUpdates,List.mergeSort_singleton,EdgeStore.mergeUpdates_eq,
    SwapMerge.merge_eq]
  rfl

theorem tags_agree_iff [NeZero n] (p : MCGPUParams) (hlo : 1 ≤ p.numSubgraphs)
    (hhi : p.numSubgraphs < 64) (u v : Fin n) :
    TagsAgree p u v ↔ ∃ i < p.numSubgraphs, (p.xxh (edgeIdx u v) p.seed).getLsbD i = true := by
  have hcomm : edgeIdx v u = edgeIdx u v := edgeIdx_comm v u
  have hstore : storeTag p v u = storeTag p u v := by rw [storeTag,hcomm,storeTag]
  have hsketch : sketchTag p v u = sketchTag p u v := by rw [sketchTag,hcomm,sketchTag]
  rw [← tags_eq_iff hlo hhi u v]
  refine ⟨fun h => h.forward,fun h => ?_⟩
  have hback : storeTag p v u = sketchTag p v u := by rw [hstore,hsketch,h]
  exact ⟨h,hback,by rw [hsketch,h],toggle_removes h,toggle_removes hback⟩

def evenHash : MCGPUParams := ⟨fun _ _ => 0#64,0,1,1,16⟩

def oddHash : MCGPUParams := ⟨fun _ _ => 1#64,0,1,1,16⟩

theorem tags_agree_oddHash : TagsAgree oddHash (0 : Fin 2) 1 :=
  (tags_agree_iff oddHash (by decide) (by decide) 0 1).mpr ⟨0,by decide,by decide⟩

theorem tags_differ : ¬ ∀ (n : ℕ) (_ : NeZero n) (p : MCGPUParams), 1 ≤ p.numSubgraphs →
    p.numSubgraphs < 64 → ∀ u v : Fin n, TagsAgree p u v := by
  intro hclaim
  have h := (hclaim 2 inferInstance evenHash (by decide) (by decide) 0 1).forward
  exact absurd h (by decide)

end Gpu.MCGPUSketchAlg
end GraphZeppelin
