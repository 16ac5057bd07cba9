import GraphZeppelin.Verifier.Checks

open SpanningForest

namespace GraphZeppelin.Verifier
open Dsu CC

variable {n : ℕ}

def ends (es : List (Edge n)) : List (Fin n × Fin n) := es.map fun e => (e.src,e.dst)

theorem Linking.not_reachable {K : SimpleGraph (Fin n)} {es : List (Fin n × Fin n)}
    (h : Linking K es) : ∀ e ∈ es, ¬ K.Reachable e.1 e.2 := by
  induction es generalizing K with
  | nil => exact fun _ he => absurd he List.not_mem_nil
  | cons e es ih =>
    rintro e' (_ | ⟨_,he⟩)
    · exact h.1
    · exact fun hr => ih h.2 e' he (hr.mono le_sup_left)

theorem reachable_of_joins {K : SimpleGraph (Fin n)} {e e' : Edge n}
    (h : joins e e'.src e'.dst) : (K ⊔ SimpleGraph.edge e.src e.dst).Reachable e'.src e'.dst := by
  rcases h with ⟨hs,hd⟩ | ⟨hs,hd⟩
  · rw [← hs,← hd]
    exact reachable_edge _ _
  · rw [← hs,← hd]
    exact (reachable_edge _ _).symm

namespace GraphVerifier

def Present (adj : AdjMatrix n) (es : List (Edge n)) : Prop := ∀ e ∈ es, adj (.ofEdge e) = true

def Passes (K : SimpleGraph (Fin n)) (adj : AdjMatrix n) (es : List (Edge n)) : Prop :=
  Linking K (ends es) ∧ Present adj es

theorem flip_of_not_joins {adj : AdjMatrix n} {e e' : Edge n} (h : ¬ joins e e'.src e'.dst) :
    flip adj e (.ofEdge e') = adj (.ofEdge e') :=
  (flip_apply adj e e'.src e'.dst).trans (if_neg h)

theorem passes_cons {K : SimpleGraph (Fin n)} {adj : AdjMatrix n} {e : Edge n}
    {es : List (Edge n)} :
    Passes K adj (e :: es) ↔ ¬ K.Reachable e.src e.dst ∧ adj (.ofEdge e) = true ∧
      Passes (K ⊔ SimpleGraph.edge e.src e.dst) (flip adj e) es := by
  have hflip (hl : Linking (K ⊔ SimpleGraph.edge e.src e.dst) (ends es)) :
      ∀ e' ∈ es, flip adj e (.ofEdge e') = adj (.ofEdge e') := by
    intro e' he
    refine flip_of_not_joins fun hj => ?_
    exact Linking.not_reachable hl _ (List.mem_map_of_mem he) (reachable_of_joins hj)
  constructor
  · rintro ⟨⟨hr,hl⟩,hp⟩
    refine ⟨hr,hp e List.mem_cons_self,hl,fun e' he => ?_⟩
    rw [hflip hl e' he]
    exact hp e' (List.mem_cons_of_mem _ he)
  · rintro ⟨hr,he,hl,hp⟩
    refine ⟨⟨hr,hl⟩,List.forall_mem_cons.mpr ⟨he,fun e' he' => ?_⟩⟩
    rw [← hflip hl e' he']
    exact hp e' he'

def Touches (K : SimpleGraph (Fin n)) (adj : AdjMatrix n) (es : List (Edge n)) : Prop :=
  ∃ e ∈ es.head?, ¬ K.Reachable e.src e.dst ∧ adj (.ofEdge e) = true

structure EdgesOutcome (backup : AdjMatrix n) (es : List (Edge n)) (v : GraphVerifier n)
    (K : SimpleGraph (Fin n))
    (r : GraphVerifier n × Except VerifierError (DisjointSetUnion n)) : Prop where
  dsu : r.1.kruskalDsu = v.kruskalDsu
  ccs : r.1.kruskalCcs = v.kruskalCcs
  need : r.1.needQueryCompute = true ↔ v.needQueryCompute = true ∨ Touches K v.adjMatrix es
  result : (∃ f, r.2 = .ok f ∧ f.Represents (K ⊔ pairGraph (ends es)) ∧
      Passes K v.adjMatrix es ∧ r.1.adjMatrix = es.foldl flip v.adjMatrix) ∨
    ((∃ err, r.2 = .error err) ∧ ¬ Passes K v.adjMatrix es ∧ r.1.adjMatrix = backup)

theorem edgeUpdate_of_edge (v : GraphVerifier n) (e : Edge n) :
    v.edgeUpdate e.src e.dst =
      ({ v with adjMatrix := flip v.adjMatrix e,needQueryCompute := true },.ok ()) :=
  dif_pos ⟨e.src.isLt,e.dst.isLt⟩

theorem verifyEdges_rejected {backup : AdjMatrix n} {e : Edge n} {es : List (Edge n)}
    {v : GraphVerifier n} {K : SimpleGraph (Fin n)} {err : VerifierError}
    (h : ¬ (¬ K.Reachable e.src e.dst ∧ v.adjMatrix (.ofEdge e) = true)) :
    EdgesOutcome backup (e :: es) v K (v.restore backup,.error err) where
  dsu := rfl
  ccs := rfl
  need := by
    refine (or_iff_left ?_).symm
    rintro ⟨e',he,ht⟩
    cases Option.mem_some_iff.mp he
    exact h ht
  result := .inr ⟨⟨err,rfl⟩,fun hp => h ⟨(passes_cons.mp hp).1,(passes_cons.mp hp).2.1⟩,rfl⟩

theorem verifyEdges_spec (backup : AdjMatrix n) (es : List (Edge n)) (v : GraphVerifier n)
    {f : DisjointSetUnion n} {K : SimpleGraph (Fin n)} (hf : f.Represents K) :
    EdgesOutcome backup es v K (verifyEdges backup es v f) := by
  induction es generalizing v f K with
  | nil =>
    refine ⟨rfl,rfl,(or_iff_left ?_).symm,.inl ⟨f,rfl,?_,⟨trivial,?_⟩,rfl⟩⟩
    · rintro ⟨e,he,_⟩
      cases he
    · simpa [ends,pairGraph] using hf
    · exact fun _ he => absurd he List.not_mem_nil
  | cons e es ih =>
    rw [verifyEdges]
    cases hm : (f.merge e.src e.dst).2.merged with
    | false =>
      refine verifyEdges_rejected fun h => ?_
      exact Bool.noConfusion (hm.symm.trans ((hf.merged_iff _ _).mpr h.1))
    | true =>
      have hr := (hf.merged_iff e.src e.dst).mp hm
      rw [verifyEdge]
      cases ha : v.adjMatrix (.ofEdge e) with
      | false => exact verifyEdges_rejected fun h => Bool.noConfusion (ha.symm.trans h.2)
      | true =>
        have hrest := ih { v with adjMatrix := flip v.adjMatrix e,needQueryCompute := true }
          (hf.merge e.src e.dst)
        have htouch : Touches K v.adjMatrix (e :: es) := ⟨e,rfl,hr,ha⟩
        have hpass : Passes K v.adjMatrix (e :: es) ↔ _ := passes_cons
        have hgraph : K ⊔ SimpleGraph.edge e.src e.dst ⊔ pairGraph (ends es) =
            K ⊔ pairGraph (ends (e :: es)) := by
          rw [sup_assoc,sup_comm (SimpleGraph.edge e.src e.dst)]
          rfl
        simp only [Bool.not_true,Bool.false_eq_true,if_false,if_true,edgeUpdate_of_edge]
        refine ⟨hrest.dsu,hrest.ccs,iff_of_true (hrest.need.mpr (.inl rfl)) (.inr htouch),?_⟩
        rcases hrest.result with ⟨f',hok,hrep,hp,hadj⟩ | ⟨herr,hp,hadj⟩
        · exact .inl ⟨f',hok,hgraph ▸ hrep,hpass.mpr ⟨hr,ha,hp⟩,hadj⟩
        · exact .inr ⟨herr,fun h => hp (hpass.mp h).2.2,hadj⟩

theorem graph_foldl_flip {K : SimpleGraph (Fin n)} {adj : AdjMatrix n} {es : List (Edge n)}
    (h : Passes K adj es) {a b : Fin n} :
    (graph (es.foldl flip adj)).Adj a b ↔ (graph adj).Adj a b ∧ ∀ e ∈ es, ¬ joins e a b := by
  induction es generalizing K adj with
  | nil => simp
  | cons e es ih =>
    obtain ⟨_,he,hp⟩ := passes_cons.mp h
    rw [List.foldl_cons,ih hp,graph_flip_adj he,SimpleGraph.sdiff_adj,List.forall_mem_cons,
      and_assoc]
    refine and_congr_right fun hadj => and_congr_left fun _ => not_congr ?_
    exact edge_adj_iff_joins.trans (and_iff_left hadj.1)

end GraphVerifier
end GraphZeppelin.Verifier
