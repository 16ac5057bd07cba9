import GraphZeppelin.CC.KForests
import GraphZeppelin.Lib.CutCertificate

open SpanningForest CutCertificate

namespace GraphZeppelin.CC
open Dsu Boruvka Sketch

variable {n w T : ℕ} {p : SketchParams} {G : SimpleGraph (Fin n)} {SFs : List (SpanningForest n)}
  {A : Finset (Fin n)}

theorem cutEdges_mono {G H : SimpleGraph (Fin n)} [DecidableRel G.Adj] [DecidableRel H.Adj]
    (h : G ≤ H) (A : Finset (Fin n)) : cutEdges G A ⊆ cutEdges H A := by
  intro i hi
  obtain ⟨u,v,hu,hv,huv,hi⟩ := (mem_cutEdges G).mp hi
  exact (mem_cutEdges H).mpr ⟨u,v,hu,hv,h huv,hi⟩

def sfsEdges (SFs : List (SpanningForest n)) : List (Edge n) := SFs.flatMap (·.edges)

def crosses (A : Finset (Fin n)) (e : Edge n) : Bool := decide (e.src ∈ A) != decide (e.dst ∈ A)

def crossCount (A : Finset (Fin n)) (es : List (Edge n)) : ℕ := es.countP (crosses A)

theorem crosses_iff {e : Edge n} :
    crosses A e = true ↔ (e.src ∈ A ∧ e.dst ∉ A) ∨ (e.src ∉ A ∧ e.dst ∈ A) := by
  rw [crosses,bne_iff_ne,ne_eq,decide_eq_decide]
  tauto

def leaving (A : Finset (Fin n)) (e : Edge n) : Fin n × Fin n :=
  if e.src ∈ A then (e.src,e.dst) else (e.dst,e.src)

namespace SpanningForest

theorem Proper.leaving_injOn {sf : SpanningForest n} (h : sf.Proper) (A : Finset (Fin n)) :
    ∀ e ∈ sf.edges, ∀ e' ∈ sf.edges, leaving A e = leaving A e' → e = e' := by
  rintro ⟨s,d⟩ he ⟨s',d'⟩ he' heq
  have ho := h.oriented _ he
  have ho' := h.oriented _ he'
  unfold leaving at heq
  simp only at heq ho ho'
  split at heq
  · split at heq
    · exact congrArg (fun x => Edge.mk x.1 x.2) heq
    · obtain ⟨rfl,rfl⟩ := Prod.mk.inj heq
      exact absurd ho (lt_asymm ho')
  · split at heq
    · obtain ⟨rfl,rfl⟩ := Prod.mk.inj heq
      exact absurd ho (lt_asymm ho')
    · exact congrArg (fun x => Edge.mk x.2 x.1) heq

theorem crossing_graph (sf : SpanningForest n) (A : Finset (Fin n)) :
    crossing sf.graph A = {x | ∃ e ∈ sf.edges, crosses A e = true ∧ leaving A e = x} := by
  ext ⟨x,y⟩
  constructor
  · rintro ⟨hx,hy,hxy⟩
    obtain ⟨⟨s,d⟩,he,⟨rfl,rfl⟩ | ⟨rfl,rfl⟩⟩ := (graph_adj_iff hxy.ne).mp hxy
    · exact ⟨_,he,crosses_iff.mpr (.inl ⟨hx,hy⟩),if_pos hx⟩
    · exact ⟨_,he,crosses_iff.mpr (.inr ⟨hy,hx⟩),if_neg hy⟩
  · rintro ⟨e,he,hc,hl⟩
    rcases crosses_iff.mp hc with ⟨hs,hd⟩ | ⟨hs,hd⟩
    · rw [leaving,if_pos hs] at hl
      obtain ⟨rfl,rfl⟩ := Prod.mk.inj hl
      exact ⟨hs,hd,(graph_adj_iff (ne_of_mem_of_not_mem hs hd)).mpr ⟨e,he,.inl ⟨rfl,rfl⟩⟩⟩
    · rw [leaving,if_neg hs] at hl
      obtain ⟨rfl,rfl⟩ := Prod.mk.inj hl
      exact ⟨hd,hs,(graph_adj_iff (ne_of_mem_of_not_mem hd hs)).mpr ⟨e,he,.inr ⟨rfl,rfl⟩⟩⟩

theorem Proper.cutValue_graph {sf : SpanningForest n} (h : sf.Proper) (A : Finset (Fin n)) :
    cutValue sf.graph A = crossCount A sf.edges := by
  have hnodup : ((sf.edges.filter (crosses A)).map (leaving A)).Nodup := by
    refine List.Nodup.map_on (fun e he e' he' => ?_) (h.nodup.filter _)
    exact h.leaving_injOn A e (List.mem_filter.mp he).1 e' (List.mem_filter.mp he').1
  have hset : crossing sf.graph A = ((sf.edges.filter (crosses A)).map (leaving A)).toFinset := by
    rw [crossing_graph]
    ext x
    simp [and_assoc]
  rw [cutValue,hset,Set.ncard_coe_finset,List.toFinset_card_of_nodup hnodup,List.length_map,
    crossCount,List.countP_eq_length_filter]

theorem Proper.length_lt {sf : SpanningForest n} (h : sf.Proper) (hac : sf.graph.IsAcyclic)
    (hn : 0 < n) : sf.edges.length < n := by
  have : Nonempty (Fin n) := ⟨⟨0,hn⟩⟩
  obtain ⟨T,hle,-,hT⟩ := SimpleGraph.connected_top.exists_isTree_le_of_le_of_isAcyclic le_top hac
  have hcard : Nat.card T.edgeSet + 1 = n := by
    rw [(SimpleGraph.isTree_iff_connected_and_card.mp hT).2,Nat.card_fin]
  have hnodup : (sf.edges.map fun e => s(e.src,e.dst)).Nodup := by
    refine List.Nodup.map_on (fun e he e' he' heq => ?_) h.nodup
    obtain ⟨src,dst⟩ := e
    rcases Sym2.eq_iff.mp heq with ⟨rfl,rfl⟩ | ⟨hs,hd⟩
    · rfl
    · have ho := h.oriented _ he
      rw [hs,hd] at ho
      exact absurd ho (lt_asymm (h.oriented e' he'))
  have hsub : ((sf.edges.map fun e => s(e.src,e.dst)).toFinset : Set (Sym2 (Fin n))) ⊆
      T.edgeSet := by
    intro x hx
    obtain ⟨e,he,rfl⟩ := List.mem_map.mp (List.mem_toFinset.mp hx)
    exact hle ((graph_adj_iff (h.oriented e he).ne).mpr ⟨e,he,.inl ⟨rfl,rfl⟩⟩)
  have hlen := Set.ncard_le_ncard hsub (Set.toFinite _)
  rw [Set.ncard_coe_finset,List.toFinset_card_of_nodup hnodup,List.length_map,
    ← Nat.card_coe_set_eq] at hlen
  omega

end SpanningForest

structure Certifies (G : SimpleGraph (Fin n)) (k : ℕ) (es : List (Edge n)) : Prop where
  nodup : es.Nodup
  edges : ∀ e ∈ es, e.src < e.dst ∧ G.Adj e.src e.dst
  sparse : es.length ≤ k * (n - 1)
  cuts : ∀ A, min k (cutValue G A) ≤ crossCount A es ∧ crossCount A es ≤ cutValue G A
  connectivity : ∀ u v, (SpanningForest.mk es).graph.IsEdgeReachable k u v ↔ G.IsEdgeReachable k u v

namespace Certifies

variable {k : ℕ} {es : List (Edge n)}

theorem cut_eq (h : Certifies G k es) (hA : crossCount A es < k) :
    crossCount A es = cutValue G A := by
  have := h.cuts A
  omega

end Certifies

namespace Stepwise

theorem rest_graphs (h : Stepwise Extracted G SFs) :
    rest G (SFs.map (·.graph)) = residual G SFs := by
  induction SFs using List.reverseRecOn with
  | nil => exact (residual_nil G).symm
  | append_singleton SFs sf ih =>
    obtain ⟨hp,hproper,hsub⟩ := concat_iff.mp h
    rw [residual_concat hproper hsub,toggled,hproper.currentGraph,symmDiff_of_ge hsub,← ih hp,
      List.map_append,rest,List.foldl_append]
    rfl

theorem peeled (h : Stepwise Spanning G SFs) : Peeled G (SFs.map (·.graph)) := by
  induction SFs using List.reverseRecOn with
  | nil => trivial
  | append_singleton SFs sf ih =>
    obtain ⟨hp,_,hspan⟩ := concat_iff.mp h
    rw [List.map_append,List.map_singleton,peeled_concat,hp.extracted.rest_graphs]
    exact ⟨ih hp,hspan⟩

theorem crossCount_eq (h : Stepwise Spanning G SFs) (A : Finset (Fin n)) :
    crossCount A (sfsEdges SFs) = cutValue (certificate (SFs.map (·.graph))) A := by
  have hcounts : SFs.map (fun sf => crossCount A sf.edges) =
      SFs.map fun sf => cutValue sf.graph A := by
    refine List.map_congr_left fun sf hsf => ?_
    obtain ⟨i,hi,rfl⟩ := List.mem_iff_getElem.mp hsf
    exact ((h i hi).1.cutValue_graph A).symm
  rw [h.peeled.cutValue_certificate,List.map_map,crossCount,sfsEdges,List.countP_flatMap]
  exact congrArg List.sum hcounts

theorem edges_nodup (h : Stepwise Extracted G SFs) : (sfsEdges SFs).Nodup := by
  refine List.nodup_flatMap.mpr ⟨fun sf hsf => ?_,List.pairwise_iff_getElem.mpr ?_⟩
  · obtain ⟨i,hi,rfl⟩ := List.mem_iff_getElem.mp hsf
    exact (h i hi).1.nodup
  · intro i j hi hj hij e he he'
    exact h.disjoint hj hij e he e he' (.inl ⟨rfl,rfl⟩)

theorem edges_sub (h : Stepwise Extracted G SFs) :
    ∀ e ∈ sfsEdges SFs, e.src < e.dst ∧ G.Adj e.src e.dst := by
  intro e he
  obtain ⟨sf,hsf,he⟩ := List.mem_flatMap.mp he
  obtain ⟨i,hi,rfl⟩ := List.mem_iff_getElem.mp hsf
  have hlt := (h i hi).1.oriented e he
  have hadj := (h i hi).2 ((SpanningForest.graph_adj_iff hlt.ne).mpr ⟨e,he,.inl ⟨rfl,rfl⟩⟩)
  exact ⟨hlt,hadj.1⟩

theorem graph_sfsEdges (SFs : List (SpanningForest n)) :
    (SpanningForest.mk (sfsEdges SFs)).graph = certificate (SFs.map (·.graph)) := by
  ext a b
  rw [certificate_adj]
  constructor
  · intro hab
    obtain ⟨e,he,hj⟩ := (SpanningForest.graph_adj_iff hab.ne).mp hab
    obtain ⟨sf,hsf,he⟩ := List.mem_flatMap.mp he
    exact ⟨_,List.mem_map_of_mem hsf,(SpanningForest.graph_adj_iff hab.ne).mpr ⟨e,he,hj⟩⟩
  · rintro ⟨F,hF,hab⟩
    obtain ⟨sf,hsf,rfl⟩ := List.mem_map.mp hF
    obtain ⟨e,he,hj⟩ := (SpanningForest.graph_adj_iff hab.ne).mp hab
    exact (SpanningForest.graph_adj_iff hab.ne).mpr ⟨e,List.mem_flatMap.mpr ⟨sf,hsf,he⟩,hj⟩

theorem length_sfsEdges (h : Stepwise Spanning G SFs) :
    (sfsEdges SFs).length ≤ SFs.length * (n - 1) := by
  rcases Nat.eq_zero_or_pos n with rfl | hn
  · have hnil : sfsEdges SFs = [] := List.eq_nil_iff_forall_not_mem.mpr fun e _ => e.src.elim0
    simp [hnil]
  · rw [sfsEdges,List.length_flatMap,← List.length_map (fun sf : SpanningForest n => sf.edges.length)]
    refine List.sum_le_card_nsmul _ _ fun x hx => ?_
    obtain ⟨sf,hsf,rfl⟩ := List.mem_map.mp hx
    obtain ⟨i,hi,rfl⟩ := List.mem_iff_getElem.mp hsf
    exact Nat.le_sub_one_of_lt ((h i hi).1.length_lt (h i hi).2.acyclic hn)

theorem certifies (h : Stepwise Spanning G SFs) : Certifies G SFs.length (sfsEdges SFs) where
  nodup := h.extracted.edges_nodup
  edges := h.extracted.edges_sub
  sparse := h.length_sfsEdges
  cuts A := by
    rw [h.crossCount_eq,← List.length_map (·.graph)]
    exact ⟨h.peeled.le_cutValue A,cutValue_mono h.peeled.certificate_le A⟩
  connectivity u v := by
    rw [graph_sfsEdges,← List.length_map (·.graph)]
    exact h.peeled.isEdgeReachable_iff

end Stepwise

namespace CCSketchAlg

variable {Q : QueryRun n T} {a a' : CCSketchAlg n w p} {k : ℕ} [DecidableRel G.Adj]

theorem Good.calcDisjointSpanningForests (hE : PartitionsServe Q G k a) (h : a.Good Q.xxh G)
    (hrun : a.calcDisjointSpanningForests Q k = (a',.ok SFs))
    (hcf : ∀ A, CollisionFree Q.xxh p (cutEdges G A)) :
    a'.Good Q.xxh G ∧ SFs.length = k ∧ Stepwise Spanning G SFs := by
  rw [CCSketchAlg.calcDisjointSpanningForests] at hrun
  split at hrun
  · cases hrun
  · next maxRounds SFs' hok =>
    cases hrun
    have hdel : a.deleteForests Q k 0 0 [] = ((a.deleteForests Q k 0 0 []).1,.ok (maxRounds,SFs)) :=
      Prod.ext rfl hok
    obtain ⟨new,hnew,hlen⟩ := deleteForests_extends _ _ _ _ _ hdel
    have hstart : a.Good Q.xxh (residual G []) := by
      refine ⟨fun v => (h.sketches v).trans ?_,(residual_nil G).symm ▸ h.eager⟩
      congr! 2
      exact (residual_nil G).symm
    obtain ⟨hg,hspan⟩ := hstart.deleteForests _ _ _ _ ((residual_nil G).symm ▸ hE) .nil hdel fun j A =>
      (hcf A).mono (cutEdges_residual_subset G _ A)
    have hback : G = toggled (residual G SFs) (SFs.flatMap (·.edges)) := by
      rw [hspan.extracted.residual_eq,toggled_twice]
    simp only [reinsertForests_eq]
    refine ⟨⟨?_,?_⟩,(congrArg List.length (show SFs = new from hnew)).trans hlen,hspan⟩
    · exact sketches_updateEdges Q.vertices_lt hg.sketches _ hback _
    · have heager : ((a.deleteForests Q k 0 0 []).1.updateEdges Q.xxh .insert
          (SFs.flatMap (·.edges))).EagerInv G := by
        rw [hback]
        exact hg.eager.updateEdges _ _
      exact ⟨heager.shared,heager.correct⟩

theorem certificate_of_disjoint_spanning_forests (Q : QueryRun n T) (hE : Q.Consistent)
    (G : SimpleGraph (Fin n)) [DecidableRel G.Adj] {a a' : CCSketchAlg n w p} {k : ℕ}
    {SFs : List (SpanningForest n)}
    (hs : Sketches Q.xxh G a.sketches) (he : a.EagerInv G)
    (hcf : ∀ A, CollisionFree Q.xxh p (cutEdges G A))
    (hrun : a.calcDisjointSpanningForests Q k = (a',.ok SFs)) :
    Certifies G k (sfsEdges SFs) := by
  obtain ⟨-,hlen,hspan⟩ := Good.calcDisjointSpanningForests (.inl hE) ⟨hs,he⟩ hrun hcf
  exact hlen ▸ hspan.certifies

theorem certificate_of_disjoint_spanning_forests_pair :
    Certifies (⊤ : SimpleGraph (Fin 2)) 2 [⟨0,1⟩] := by
  have hret : (pairAlg.calcDisjointSpanningForests pairRun 2).2 = .ok [⟨[⟨0,1⟩]⟩,⟨[]⟩] := by
    decide +kernel
  refine certificate_of_disjoint_spanning_forests pairRun pairRun_consistent ⊤ (a := pairAlg)
    (fun _ => rfl)
    ⟨rfl,fun h => absurd h (by decide)⟩ (fun A => ?_) (Prod.ext rfl hret)
  exact .of_subset_singleton (pair_cut A) (by decide) (by decide)

end CCSketchAlg
end GraphZeppelin.CC
