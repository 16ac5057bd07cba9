import GraphZeppelin.Verifier.Basic

open SpanningForest

namespace GraphZeppelin.Verifier
open Dsu CC

variable {n : ℕ}

namespace Cell

theorem ext_ends {c c' : Cell n} (hs : c.src = c'.src) (hd : c.dst = c'.dst) : c = c' := by
  obtain ⟨i,j⟩ := c
  obtain ⟨i',j'⟩ := c'
  obtain rfl : i = i' := hs
  have hj : j.val = j'.val := by
    have hd : i.val + j.val = i.val + j'.val := congrArg Fin.val hd
    omega
  rw [Fin.ext hj]

theorem src_ofEdge (e : Edge n) : (ofEdge e).src = min e.src e.dst := by
  rw [ofEdge]
  split
  · next h => exact (min_eq_right (le_of_lt h)).symm
  · next h => exact (min_eq_left (not_lt.mp h)).symm

theorem dst_ofLe {a b : Fin n} (h : a ≤ b) : (ofLe a b h).dst = b :=
  Fin.ext (Nat.add_sub_cancel' h)

theorem dst_ofEdge (e : Edge n) : (ofEdge e).dst = max e.src e.dst := by
  rw [ofEdge]
  split
  · next h => exact (dst_ofLe _).trans (max_eq_left (le_of_lt h)).symm
  · next h => exact (dst_ofLe _).trans (max_eq_right (not_lt.mp h)).symm

theorem src_le_dst (c : Cell n) : c.src ≤ c.dst := Nat.le_add_right _ _

theorem ofEdge_ends (c : Cell n) : ofEdge ⟨c.src,c.dst⟩ = c := by
  apply ext_ends
  · rw [src_ofEdge]
    exact min_eq_left c.src_le_dst
  · rw [dst_ofEdge]
    exact max_eq_right c.src_le_dst

theorem ofEdge_swap (a b : Fin n) : ofEdge ⟨a,b⟩ = ofEdge ⟨b,a⟩ := by
  apply ext_ends
  · rw [src_ofEdge,src_ofEdge,min_comm]
  · rw [dst_ofEdge,dst_ofEdge,max_comm]

theorem ofEdge_eq_iff {e : Edge n} {a b : Fin n} : ofEdge e = ofEdge ⟨a,b⟩ ↔ joins e a b := by
  constructor
  · intro h
    have hmin := congrArg src h
    have hmax := congrArg dst h
    rw [src_ofEdge,src_ofEdge] at hmin
    rw [dst_ofEdge,dst_ofEdge] at hmax
    unfold joins
    rcases le_total e.src e.dst with he | he
    · rw [min_eq_left he] at hmin
      rw [max_eq_right he] at hmax
      rcases le_total a b with hab | hab
      · exact .inl ⟨hmin.trans (min_eq_left hab),hmax.trans (max_eq_right hab)⟩
      · exact .inr ⟨hmin.trans (min_eq_right hab),hmax.trans (max_eq_left hab)⟩
    · rw [min_eq_right he] at hmin
      rw [max_eq_left he] at hmax
      rcases le_total a b with hab | hab
      · exact .inr ⟨hmax.trans (max_eq_right hab),hmin.trans (min_eq_left hab)⟩
      · exact .inl ⟨hmax.trans (max_eq_left hab),hmin.trans (min_eq_right hab)⟩
  · obtain ⟨src,dst⟩ := e
    rintro (⟨rfl,rfl⟩ | ⟨rfl,rfl⟩)
    · rfl
    · exact ofEdge_swap _ _

theorem mem_all (c : Cell n) : c ∈ all n :=
  List.mem_flatMap.mpr ⟨c.1,List.mem_finRange _,List.mem_map.mpr ⟨c.2,List.mem_finRange _,rfl⟩⟩

end Cell

-- the diagonal entries that edge_update(a, a) sets are no edges
def graph (adj : AdjMatrix n) : SimpleGraph (Fin n) where
  Adj a b := a ≠ b ∧ adj (.ofEdge ⟨a,b⟩) = true
  symm := ⟨fun a b h => ⟨h.1.symm,Cell.ofEdge_swap a b ▸ h.2⟩⟩
  loopless := ⟨fun _ h => h.1 rfl⟩

instance (adj : AdjMatrix n) : DecidableRel (graph adj).Adj :=
  fun a b => inferInstanceAs (Decidable (a ≠ b ∧ _))

namespace GraphVerifier

theorem graph_adj {adj : AdjMatrix n} {a b : Fin n} :
    (graph adj).Adj a b ↔ a ≠ b ∧ adj (.ofEdge ⟨a,b⟩) = true := .rfl

theorem flip_apply (adj : AdjMatrix n) (e : Edge n) (a b : Fin n) :
    flip adj e (.ofEdge ⟨a,b⟩) = if joins e a b then !adj (.ofEdge ⟨a,b⟩) else adj (.ofEdge ⟨a,b⟩) := by
  rw [flip]
  split
  · next h => rw [Cell.ofEdge_eq_iff.mpr h,Function.update_self]
  · next h => rw [Function.update_of_ne fun he => h (Cell.ofEdge_eq_iff.mp he.symm)]

theorem graph_flip_adj {adj : AdjMatrix n} {e : Edge n} (h : adj (.ofEdge e) = true) :
    graph (flip adj e) = graph adj \ SimpleGraph.edge e.src e.dst := by
  ext a b
  rw [SimpleGraph.sdiff_adj,edge_adj_iff_joins,graph_adj,graph_adj,flip_apply]
  split
  · next hj =>
    have hab : adj (.ofEdge ⟨a,b⟩) = true := Cell.ofEdge_eq_iff.mpr hj ▸ h
    simp only [hab,Bool.not_true,Bool.false_eq_true,and_false,false_iff]
    rintro ⟨⟨hne,_⟩,hno⟩
    exact hno ⟨hj,hne⟩
  · next hj => exact (and_iff_left fun he => hj he.1).symm

structure Describes (v : GraphVerifier n) (G : SimpleGraph (Fin n)) : Prop where
  dsu : v.kruskalDsu.Represents G
  ccs : v.kruskalCcs = Nat.card G.ConnectedComponent

def Fresh (v : GraphVerifier n) : Prop :=
  v.needQueryCompute = false → v.Describes (graph v.adjMatrix)

def Counts (st : DisjointSetUnion n × ℕ) (K : SimpleGraph (Fin n)) : Prop :=
  st.1.Represents K ∧ st.2 = Nat.card K.ConnectedComponent

theorem Counts.merge {st : DisjointSetUnion n × ℕ} {K : SimpleGraph (Fin n)} (h : Counts st K)
    (a b : Fin n) :
    Counts ((st.1.merge a b).1,if (st.1.merge a b).2.merged then st.2 - 1 else st.2)
      (K ⊔ SimpleGraph.edge a b) := by
  refine ⟨h.1.merge a b,?_⟩
  split
  · next hm =>
    have hcard := card_components_sup_edge ((h.1.merged_iff a b).mp hm)
    have hst := h.2
    simp only
    omega
  · next hm =>
    have hr : K.Reachable a b := not_not.mp ((h.1.merged_iff a b).not.mp hm)
    rw [h.2]
    exact card_components_congr fun _ _ => (reachable_sup_edge_of_reachable hr).symm

def scanned (adj : AdjMatrix n) (l : List (Cell n)) : SimpleGraph (Fin n) :=
  pairGraph ((l.filter adj).map fun c => (c.src,c.dst))

theorem Counts.foldl {adj : AdjMatrix n} (l : List (Cell n)) {st : DisjointSetUnion n × ℕ}
    {K : SimpleGraph (Fin n)} (h : Counts st K) :
    Counts (l.foldl (kruskalMerge adj) st) (K ⊔ scanned adj l) := by
  induction l generalizing st K with
  | nil => simpa [scanned,pairGraph] using h
  | cons c l ih =>
    rw [List.foldl_cons,kruskalMerge]
    cases hc : adj c with
    | false =>
      simp only [scanned,List.filter_cons,hc,Bool.false_eq_true,if_false]
      exact ih h
    | true =>
      have hstep := ih (h.merge c.src c.dst)
      rw [sup_assoc,sup_comm (SimpleGraph.edge c.src c.dst)] at hstep
      simpa only [scanned,List.filter_cons,hc,if_true,List.map_cons,pairGraph] using hstep

theorem scanned_all (adj : AdjMatrix n) : scanned adj (Cell.all n) = graph adj := by
  ext a b
  have hmem {x y : Fin n} : (x,y) ∈ ((Cell.all n).filter adj).map (fun c => (c.src,c.dst)) →
      adj (.ofEdge ⟨x,y⟩) = true := by
    intro h
    obtain ⟨c,hc,he⟩ := List.mem_map.mp h
    obtain ⟨rfl,rfl⟩ := Prod.mk.inj he
    rw [Cell.ofEdge_ends]
    exact (List.mem_filter.mp hc).2
  rw [scanned,pairGraph_adj,graph_adj]
  refine and_congr_right fun _ => ⟨?_,fun h => ?_⟩
  · rintro (h | h)
    · exact hmem h
    · exact Cell.ofEdge_swap a b ▸ hmem h
  · have hin := List.mem_map_of_mem (f := fun c => (c.src,c.dst))
      (List.mem_filter.mpr ⟨Cell.mem_all _,h⟩)
    simp only [Cell.src_ofEdge,Cell.dst_ofEdge] at hin
    rcases le_total a b with hab | hab
    · rw [min_eq_left hab,max_eq_right hab] at hin
      exact .inl hin
    · rw [min_eq_right hab,max_eq_left hab] at hin
      exact .inr hin

theorem kruskal_adjMatrix (v : GraphVerifier n) : v.kruskal.adjMatrix = v.adjMatrix := by
  rw [kruskal]
  split
  · rfl
  · rfl

theorem kruskal_needQueryCompute (v : GraphVerifier n) : v.kruskal.needQueryCompute = false := by
  rw [kruskal]
  split
  · rfl
  · next h => exact Bool.eq_false_of_not_eq_true h

theorem counts_reset (d : DisjointSetUnion n) : Counts (d.reset,n) ⊥ := by
  refine ⟨DisjointSetUnionMT.represents_fresh _,?_⟩
  rw [card_components_of_classes (f := id) (fun u v => by simp) fun _ => rfl]
  simp

theorem Fresh.kruskal {v : GraphVerifier n} (h : v.Fresh) :
    v.kruskal.Describes (graph v.adjMatrix) := by
  rw [GraphVerifier.kruskal]
  split
  · have hrun : Counts ((Cell.all n).foldl (kruskalMerge v.adjMatrix) (v.kruskalDsu.reset,n))
        (⊥ ⊔ scanned v.adjMatrix (Cell.all n)) := (counts_reset v.kruskalDsu).foldl (Cell.all n)
    rw [bot_sup_eq,scanned_all] at hrun
    exact ⟨hrun.1,hrun.2⟩
  · next hneed => exact h (Bool.eq_false_of_not_eq_true hneed)

theorem fresh_of_need {v : GraphVerifier n} (h : v.needQueryCompute = true) : v.Fresh :=
  fun hf => Bool.noConfusion (h.symm.trans hf)

theorem fresh_new (priority : Fin n → ℕ) (ccs : ℕ) : (new priority ccs).Fresh := fresh_of_need rfl

theorem fresh_copy (oth : GraphVerifier n) (ccs : ℕ) : (oth.copy ccs).Fresh := fresh_of_need rfl

theorem fresh_kruskal {v : GraphVerifier n} (h : v.Fresh) : v.kruskal.Fresh := by
  intro _
  rw [kruskal_adjMatrix]
  exact h.kruskal

theorem fresh_ofCumulative (priority : Fin n → ℕ) (ccs : ℕ) (stream : List (Edge n)) :
    (ofCumulative priority ccs stream).Fresh := fresh_kruskal (fresh_of_need rfl)

end GraphVerifier
end GraphZeppelin.Verifier
