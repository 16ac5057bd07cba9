import GraphZeppelin.Dsu.Basic
import GraphZeppelin.Graph.Pairing

namespace GraphZeppelin.Boruvka
open Dsu SpanningForest Sketch

variable {n : ℕ} {p : SketchParams}

structure QueryState (n : ℕ) where
  dsu : DisjointSetUnionMT n
  spanningForest : Fin n → Finset (Fin n)

inductive QueryError where
  | outOfSamples (e : OutOfSamplesException)
  | outOfBounds
deriving DecidableEq, Repr

structure Sampled (n : ℕ) (p : SketchParams) where
  query : QueryState n
  skt : Sketch p
  modified : Bool
  err : Option QueryError

def QueryState.insertEdge (q : QueryState n) (src dst : Fin n) : QueryState n :=
  { q with
    spanningForest := Function.update q.spanningForest (min src dst)
      (insert (max src dst) (q.spanningForest (min src dst))) }

def QueryState.mergeEdge (q : QueryState n) (src dst : Fin n) : QueryState n × Bool :=
  let mret := q.dsu.merge src dst
  let q' : QueryState n := { q with dsu := mret.1 }
  if mret.2.merged then (q'.insertEdge src dst,true) else (q',false)

def sampleSupernode (xxh : XxHash) (q : QueryState n) (skt : Sketch p) : Sampled n p :=
  match skt.sample xxh with
  | .error e => ⟨q,skt,false,some (.outOfSamples e)⟩
  | .ok (skt',smp) =>
    let e := invConcatPairingFn smp.idx
    match smp.result with
    | .fail => ⟨q,skt',true,none⟩
    | .zero => ⟨q,skt',false,none⟩
    | .good =>
      if h : e.1.toNat < n ∧ e.2.toNat < n then
        let m := q.mergeEdge ⟨e.1.toNat,h.1⟩ ⟨e.2.toNat,h.2⟩
        ⟨m.1,skt',m.2,none⟩
      else ⟨q,skt',false,some .outOfBounds⟩

def forestGraph (F : Fin n → Finset (Fin n)) : SimpleGraph (Fin n) :=
  SimpleGraph.fromRel fun a b => b ∈ F a

theorem forestGraph_adj {F : Fin n → Finset (Fin n)} {a b : Fin n} :
    (forestGraph F).Adj a b ↔ a ≠ b ∧ (b ∈ F a ∨ a ∈ F b) :=
  SimpleGraph.fromRel_adj _ _ _

def Keyed (F : Fin n → Finset (Fin n)) : Prop := ∀ a b, b ∈ F a → a < b

theorem forestGraph_empty : forestGraph (fun _ : Fin n => ∅) = ⊥ := by
  ext a b
  simp [forestGraph_adj]

namespace QueryState

variable {q : QueryState n} {G : SimpleGraph (Fin n)} {src dst : Fin n}

theorem mem_insertEdge {a b : Fin n} : b ∈ (q.insertEdge src dst).spanningForest a ↔
    b ∈ q.spanningForest a ∨ (a = min src dst ∧ b = max src dst) := by
  unfold insertEdge
  by_cases ha : a = min src dst
  · subst ha
    simp only [Function.update_self,Finset.mem_insert,true_and]
    exact or_comm
  · simp [ha]

theorem forestGraph_insertEdge : forestGraph (q.insertEdge src dst).spanningForest =
    forestGraph q.spanningForest ⊔ SimpleGraph.edge src dst := by
  ext a b
  simp only [forestGraph_adj,mem_insertEdge,SimpleGraph.sup_adj,SimpleGraph.edge_adj]
  rcases le_total src dst with h | h
  · rw [min_eq_left h,max_eq_right h]
    tauto
  · rw [min_eq_right h,max_eq_left h]
    tauto

theorem keyed_insertEdge (h : Keyed q.spanningForest) (hne : src ≠ dst) :
    Keyed (q.insertEdge src dst).spanningForest := by
  intro a b hb
  rcases mem_insertEdge.mp hb with hb | ⟨rfl,rfl⟩
  · exact h a b hb
  · exact min_lt_max.mpr hne

structure ForestInv (G : SimpleGraph (Fin n)) (q : QueryState n) : Prop where
  keyed : Keyed q.spanningForest
  sub : forestGraph q.spanningForest ≤ G
  acyclic : (forestGraph q.spanningForest).IsAcyclic
  rep : q.dsu.Represents (forestGraph q.spanningForest)

theorem forestInv_reset (dsu : DisjointSetUnionMT n) : ForestInv G ⟨dsu.reset,fun _ => ∅⟩ := by
  refine ⟨fun a b hb => ?_,?_,?_,?_⟩
  · cases hb
  · simp only [forestGraph_empty]
    exact bot_le
  · simp only [forestGraph_empty]
    exact SimpleGraph.isAcyclic_bot
  · simp only [forestGraph_empty]
    exact DisjointSetUnionMT.represents_fresh _

theorem mergeEdge_snd : (q.mergeEdge src dst).2 = (q.dsu.merge src dst).2.merged := by
  unfold mergeEdge
  simp only
  split
  · next h => exact h.symm
  · next h => exact (Bool.eq_false_of_not_eq_true h).symm

theorem mergeEdge_dsu : (q.mergeEdge src dst).1.dsu = (q.dsu.merge src dst).1 := by
  unfold mergeEdge
  simp only
  split <;> rfl

theorem mergeEdge_of_merged (h : (q.mergeEdge src dst).2 = true) :
    (q.mergeEdge src dst).1.spanningForest = (q.insertEdge src dst).spanningForest := by
  rw [mergeEdge_snd] at h
  unfold mergeEdge
  simp only [h,if_true]
  rfl

theorem mergeEdge_of_not_merged (h : (q.mergeEdge src dst).2 = false) :
    (q.mergeEdge src dst).1.spanningForest = q.spanningForest := by
  rw [mergeEdge_snd] at h
  unfold mergeEdge
  simp [h]

theorem ForestInv.merged_iff (h : ForestInv G q) :
    (q.mergeEdge src dst).2 = true ↔ q.dsu.rep src ≠ q.dsu.rep dst := by
  rw [mergeEdge_snd,h.rep.merged_iff,← h.rep src dst]

theorem ForestInv.mergeEdge (h : ForestInv G q) (hG : G.Adj src dst) :
    ForestInv G (q.mergeEdge src dst).1 := by
  have hrep := h.rep.merge src dst
  rcases Bool.eq_false_or_eq_true (q.mergeEdge src dst).2 with hm | hm
  · have hf := mergeEdge_of_merged hm
    have hnr : ¬ (forestGraph q.spanningForest).Reachable src dst := by
      rw [← h.rep src dst]
      exact h.merged_iff.mp hm
    refine ⟨?_,?_,?_,?_⟩
    · rw [hf]
      exact keyed_insertEdge h.keyed hG.ne
    · rw [hf,forestGraph_insertEdge]
      exact sup_le h.sub ((SimpleGraph.edge_le_iff (G := G)).mpr (.inr hG))
    · rw [hf,forestGraph_insertEdge]
      exact h.acyclic.sup_edge_of_not_reachable hnr
    · rw [hf,forestGraph_insertEdge,mergeEdge_dsu]
      exact hrep
  · have hf := mergeEdge_of_not_merged hm
    have hr : (forestGraph q.spanningForest).Reachable src dst := by
      rw [← h.rep src dst]
      by_contra hne
      exact Bool.false_ne_true (hm.symm.trans (h.merged_iff.mpr hne))
    refine ⟨hf ▸ h.keyed,hf ▸ h.sub,hf ▸ h.acyclic,fun u v => ?_⟩
    rw [hf,mergeEdge_dsu,hrep u v,reachable_sup_edge_of_reachable hr]

theorem mergeEdge_rep (hm : (q.mergeEdge src dst).2 = false) (x : Fin n) :
    (q.mergeEdge src dst).1.dsu.rep x = q.dsu.rep x := by
  rw [mergeEdge_dsu]
  rcases q.dsu.merge_cases src dst with ⟨_,_,hs⟩ | ⟨_,hmt,_⟩
  · exact hs x
  · rw [mergeEdge_snd,hmt] at hm
    cases hm

end QueryState

section Sample

open QueryState

variable {xxh : XxHash} {q : QueryState n} {skt : Sketch p} {G : SimpleGraph (Fin n)}
  [DecidableRel G.Adj] {A : Finset (Fin n)}

structure Ready (xxh : XxHash) (G : SimpleGraph (Fin n)) [DecidableRel G.Adj]
    (A : Finset (Fin n)) (skt : Sketch p) : Prop where
  idx : skt.sampleIdx < p.numSamples
  holds : Holds xxh skt skt.sampleIdx (cutEdges G A)

theorem sampleSupernode_exhausted (h : p.numSamples ≤ skt.sampleIdx) :
    (sampleSupernode xxh q skt).err.isSome = true := by
  unfold sampleSupernode
  rw [sample_exhausted h]
  rfl

theorem sampleSupernode_buckets (xxh : XxHash) (q : QueryState n) (skt : Sketch p) :
    (sampleSupernode xxh q skt).skt.buckets = skt.buckets := by
  unfold sampleSupernode
  split
  · rfl
  · next skt' smp h =>
    have hb := (sample_buckets h).1
    simp only
    split
    · exact hb
    · exact hb
    · split
      · exact hb
      · exact hb

theorem sampled_edge (hn : n < 2 ^ 32) {i : VecT} (hi : i ∈ cutEdges G A) :
    ∃ h : (invConcatPairingFn i).1.toNat < n ∧ (invConcatPairingFn i).2.toNat < n,
      G.Adj ⟨_,h.1⟩ ⟨_,h.2⟩ ∧
      ((⟨_,h.1⟩ ∈ A ∧ (⟨_,h.2⟩ : Fin n) ∉ A) ∨ ((⟨_,h.1⟩ : Fin n) ∉ A ∧ ⟨_,h.2⟩ ∈ A)) := by
  obtain ⟨u,v,hu,hv,huv,rfl⟩ := (mem_cutEdges G).mp hi
  have hin := nodeId_toNat hn
  rcases inv_concat (nodeId u) (nodeId v) with he | he
  · have h1 : (invConcatPairingFn (edgeIdx u v)).1.toNat = u := by rw [edgeIdx,he]; exact hin u
    have h2 : (invConcatPairingFn (edgeIdx u v)).2.toNat = v := by rw [edgeIdx,he]; exact hin v
    refine ⟨⟨h1 ▸ u.isLt,h2 ▸ v.isLt⟩,?_⟩
    simp only [h1,h2,Fin.eta]
    exact ⟨huv,.inl ⟨hu,hv⟩⟩
  · have h1 : (invConcatPairingFn (edgeIdx u v)).1.toNat = v := by rw [edgeIdx,he]; exact hin v
    have h2 : (invConcatPairingFn (edgeIdx u v)).2.toNat = u := by rw [edgeIdx,he]; exact hin u
    refine ⟨⟨h1 ▸ v.isLt,h2 ▸ u.isLt⟩,?_⟩
    simp only [h1,h2,Fin.eta]
    exact ⟨huv.symm,.inr ⟨hv,hu⟩⟩

structure SupernodeSpec (G : SimpleGraph (Fin n)) [DecidableRel G.Adj] (A : Finset (Fin n))
    (q : QueryState n) (r : Sampled n p) : Prop where
  err : r.err = none
  inv : ForestInv G r.query
  rep : r.modified = false → ∀ x, r.query.dsu.rep x = q.dsu.rep x
  cut : r.modified = false → cutEdges G A = ∅ ∨ ∃ u v, u ∈ A ∧ v ∉ A ∧ q.dsu.rep u = q.dsu.rep v

theorem sampleSupernode_spec (hn : n < 2 ^ 32) (hq : ForestInv G q)
    (hcf : CollisionFree xxh p (cutEdges G A)) (hs : Ready xxh G A skt) :
    SupernodeSpec G A q (sampleSupernode xxh q skt) := by
  obtain ⟨smp,hsmp,hspec⟩ := sample_spec hcf hs.idx hs.holds
  unfold sampleSupernode
  rw [hsmp]
  simp only
  split
  · exact ⟨rfl,hq,(fun h => by cases h),fun h => by cases h⟩
  · next hz => exact ⟨rfl,hq,fun _ _ => rfl,fun _ => .inl (hspec.zero_iff.mp hz)⟩
  · next hg =>
    obtain ⟨hlt,hadj,hA⟩ := sampled_edge hn (hspec.good_mem hg)
    rw [dif_pos hlt]
    refine ⟨rfl,hq.mergeEdge hadj,fun hm => mergeEdge_rep hm,fun hm => .inr ?_⟩
    have hrep : q.dsu.rep ⟨_,hlt.1⟩ = q.dsu.rep ⟨_,hlt.2⟩ := by
      by_contra hne
      exact Bool.false_ne_true (hm.symm.trans (hq.merged_iff.mpr hne))
    rcases hA with ⟨h1,h2⟩ | ⟨h1,h2⟩
    · exact ⟨_,_,h1,h2,hrep⟩
    · exact ⟨_,_,h2,h1,hrep.symm⟩

theorem sampleSupernode_err (q q' : QueryState n) :
    (sampleSupernode xxh q skt).err = (sampleSupernode xxh q' skt).err := by
  unfold sampleSupernode
  split
  · rfl
  · simp only
    split
    · rfl
    · rfl
    · split <;> rfl

-- a sketch of edges of the graph fails to be sampled only when it has no sample left
theorem sampleSupernode_outOfSamples (hn : n < 2 ^ 32) (hcf : CollisionFree xxh p (cutEdges G A))
    (hs : p.numSamples ≤ skt.sampleIdx ∨ Ready xxh G A skt) {err : QueryError}
    (herr : (sampleSupernode xxh q skt).err = some err) : ∃ ex, err = .outOfSamples ex := by
  rcases hs with hidx | hready
  · unfold sampleSupernode at herr
    rw [sample_exhausted hidx] at herr
    cases herr
    exact ⟨_,rfl⟩
  · have hnone := (sampleSupernode_spec hn (forestInv_reset (G := G) q.dsu) hcf hready).err
    rw [sampleSupernode_err _ q,herr] at hnone
    cases hnone

end Sample
end GraphZeppelin.Boruvka
