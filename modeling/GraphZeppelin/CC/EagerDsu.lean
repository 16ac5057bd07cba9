import GraphZeppelin.Boruvka.EmulationSpec
import GraphZeppelin.CC.Alg

open SpanningForest

namespace GraphZeppelin.CC
open Dsu Boruvka QueryState

variable {n w T : ℕ} {p : SketchParams}

def joins (e : Edge n) (a b : Fin n) : Prop :=
  (e.src = a ∧ e.dst = b) ∨ (e.src = b ∧ e.dst = a)

instance (e : Edge n) (a b : Fin n) : Decidable (joins e a b) :=
  inferInstanceAs (Decidable (_ ∨ _))

theorem joins_comm {e : Edge n} {a b : Fin n} : joins e a b ↔ joins e b a := or_comm

theorem edge_adj_iff_joins {e : Edge n} {a b : Fin n} :
    (SimpleGraph.edge e.src e.dst).Adj a b ↔ joins e a b ∧ a ≠ b := by
  rw [SimpleGraph.edge_adj]
  refine and_congr_left fun _ => ?_
  unfold joins
  constructor
  · rintro (⟨rfl,rfl⟩ | ⟨rfl,rfl⟩)
    · exact .inl ⟨rfl,rfl⟩
    · exact .inr ⟨rfl,rfl⟩
  · rintro (⟨rfl,rfl⟩ | ⟨rfl,rfl⟩)
    · exact .inl ⟨rfl,rfl⟩
    · exact .inr ⟨rfl,rfl⟩

def toggles (es : List (Edge n)) (a b : Fin n) : ℕ := es.countP fun e => joins e a b

theorem toggles_comm (es : List (Edge n)) (a b : Fin n) : toggles es a b = toggles es b a := by
  simp only [toggles,joins_comm]

def currentGraph (es : List (Edge n)) : SimpleGraph (Fin n) where
  Adj a b := a ≠ b ∧ Odd (toggles es a b)
  symm := ⟨fun a b h => ⟨h.1.symm,toggles_comm es a b ▸ h.2⟩⟩
  loopless := ⟨fun _ h => h.1 rfl⟩

instance (es : List (Edge n)) : DecidableRel (currentGraph es).Adj :=
  fun a b => inferInstanceAs (Decidable (a ≠ b ∧ Odd _))

theorem currentGraph_nil : currentGraph ([] : List (Edge n)) = ⊥ := by
  ext a b
  simp [currentGraph,toggles]

theorem currentGraph_concat (es : List (Edge n)) (e : Edge n) :
    currentGraph (es ++ [e]) = symmDiff (currentGraph es) (SimpleGraph.edge e.src e.dst) := by
  ext a b
  have hcount : toggles (es ++ [e]) a b = toggles es a b + if joins e a b then 1 else 0 := by
    rw [toggles,List.countP_append,List.countP_singleton]
    simp [toggles]
  simp only [symmDiff,SimpleGraph.sup_adj,SimpleGraph.sdiff_adj,edge_adj_iff_joins]
  change (a ≠ b ∧ Odd (toggles (es ++ [e]) a b)) ↔ _
  rw [hcount]
  change _ ↔ ((a ≠ b ∧ Odd (toggles es a b)) ∧ _) ∨ (_ ∧ ¬ (a ≠ b ∧ Odd (toggles es a b)))
  by_cases hj : joins e a b
  · simp only [hj,if_true,Nat.odd_add_one]
    tauto
  · simp only [hj,if_false,Nat.add_zero]
    tauto

theorem edge_min_max (a b : Fin n) :
    SimpleGraph.edge (min a b) (max a b) = SimpleGraph.edge a b := by
  rcases le_total a b with h | h
  · rw [min_eq_left h,max_eq_right h]
  · rw [min_eq_right h,max_eq_left h]
    exact SimpleGraph.edge_comm b a

namespace ConnectedComponents

theorem isConnected_ofDsu (d : DisjointSetUnionMT n) (u v : Fin n) :
    (ofDsu d).2.isConnected u v = true ↔ d.rep u = d.rep v := by
  simp only [isConnected,ofDsu,DisjointSetUnionMT.findEach_snd,decide_eq_true_eq,id]

theorem size_ofDsu {d : DisjointSetUnionMT n} {G : SimpleGraph (Fin n)} (h : d.Represents G) :
    (ofDsu d).2.size = Nat.card G.ConnectedComponent := by
  rw [card_components_of_classes h fun u => PointerForest.root_root d.climbs u]
  simp only [size,ofDsu,DisjointSetUnionMT.findEach_snd,id]
  rw [List.countP_eq_length_filter,← List.toFinset_card_of_nodup
    ((List.nodup_finRange n).filter _),← Set.ncard_coe_finset]
  congr 1
  ext x
  simp

end ConnectedComponents

namespace CCSketchAlg

structure EagerInv (G : SimpleGraph (Fin n)) (a : CCSketchAlg n w p) : Prop where
  shared : a.sharedDsuValid = a.dsuValid
  correct : a.dsuValid = true → Correct G a.query

theorem EagerInv.preInsert {G : SimpleGraph (Fin n)} {a : CCSketchAlg n w p} (h : EagerInv G a)
    (upd : GraphUpdate n) :
    EagerInv (symmDiff G (SimpleGraph.edge upd.edge.src upd.edge.dst)) (a.preInsert upd) := by
  unfold CCSketchAlg.preInsert
  split
  · next hv =>
    have hc := h.correct hv
    simp only
    rw [← edge_min_max upd.edge.src upd.edge.dst]
    have hle : min upd.edge.src upd.edge.dst ≤ max upd.edge.src upd.edge.dst := min_le_max
    generalize min upd.edge.src upd.edge.dst = src at hle
    generalize max upd.edge.src upd.edge.dst = dst at hle
    split
    · next hm => exact ⟨h.shared,fun _ => hc.bridge hm⟩
    · next hm =>
      have hm := Bool.eq_false_of_not_eq_true hm
      split
      · exact ⟨rfl,fun hf => by cases hf⟩
      · next hF =>
        rw [mergeEdge_of_not_merged hm] at hF
        refine ⟨h.shared,fun _ => hc.inside hm fun hadj => ?_⟩
        rcases (forestGraph_adj.mp hadj).2 with hmem | hmem
        · exact hF hmem
        · exact absurd (hc.keyed _ _ hmem) (not_lt.mpr hle)
  · next hv => exact ⟨h.shared,fun ht => absurd ht hv⟩

def rebuild (a : CCSketchAlg n w p) (q : QueryState n) : CCSketchAlg n w p :=
  { a with query := q,dsuValid := true,sharedDsuValid := true }

inductive Reach (w : ℕ) (p : SketchParams) : List (Edge n) → CCSketchAlg n w p → Prop
  | new (priority : Fin n → ℕ) : Reach w p [] (new w p priority)
  | preInsert {es : List (Edge n)} {a : CCSketchAlg n w p} (upd : GraphUpdate n) :
      Reach w p es a → Reach w p (es ++ [upd.edge]) (a.preInsert upd)
  | rebuild {es : List (Edge n)} {a : CCSketchAlg n w p} {q : QueryState n} :
      Reach w p es a → Correct (currentGraph es) q → Reach w p es (a.rebuild q)

theorem correct_new (priority : Fin n → ℕ) : Correct (⊥ : SimpleGraph (Fin n))
    ⟨.fresh priority,fun _ => ∅⟩ := by
  refine ⟨DisjointSetUnionMT.represents_fresh priority,?_,fun a b hb => ?_⟩
  · simp only [forestGraph_empty]
    exact isSpanningForest_bot
  · cases hb

theorem Reach.inv {es : List (Edge n)} {a : CCSketchAlg n w p} (h : Reach w p es a) :
    EagerInv (currentGraph es) a := by
  induction h with
  | new priority =>
    refine ⟨rfl,fun _ => ?_⟩
    rw [currentGraph_nil]
    exact correct_new priority
  | preInsert upd _ ih =>
    rw [currentGraph_concat]
    exact ih.preInsert upd
  | rebuild _ hq => exact ⟨rfl,fun _ => hq⟩

theorem connectedComponents_cached {a : CCSketchAlg n w p} (hv : a.sharedDsuValid = true)
    (E : QueryEnv n T) : a.connectedComponents E = (a.components.1,.ok a.components.2) := by
  simp [CCSketchAlg.connectedComponents,hv]

theorem EagerInv.connectedComponents {G : SimpleGraph (Fin n)} {a : CCSketchAlg n w p}
    (h : EagerInv G a) (hv : a.sharedDsuValid = true) (E : QueryEnv n T) :
    ∃ a' cc, a.connectedComponents E = (a',.ok cc) ∧
      (∀ u v, cc.isConnected u v = true ↔ G.Reachable u v) ∧
      cc.size = Nat.card G.ConnectedComponent := by
  have hc := h.correct (h.shared ▸ hv)
  refine ⟨_,_,connectedComponents_cached hv E,fun u v => ?_,?_⟩
  · exact (ConnectedComponents.isConnected_ofDsu _ u v).trans (hc.rep u v)
  · exact ConnectedComponents.size_ofDsu hc.rep

theorem EagerInv.pointQuery {G : SimpleGraph (Fin n)} {a : CCSketchAlg n w p} (h : EagerInv G a)
    (hv : a.dsuValid = true) (E : QueryEnv n T) (u v : Fin n) :
    ∃ a' b, a.pointQuery E u v = (a',.ok b) ∧ (b = true ↔ G.Reachable u v) := by
  have hc := h.correct hv
  simp only [CCSketchAlg.pointQuery,hv,if_true]
  refine ⟨_,_,rfl,?_⟩
  rw [decide_eq_true_eq,DisjointSetUnionMT.findRoot_snd,DisjointSetUnionMT.findRoot_snd,
    DisjointSetUnionMT.rep_findRoot]
  exact hc.rep u v

theorem eager_dsu_correct {es : List (Edge n)} {a : CCSketchAlg n w p} (h : Reach w p es a) :
    a.dsuValid = a.sharedDsuValid ∧
    (a.dsuValid = true →
      (∀ u v, (a.query.dsu.findRoot u).2 = (a.query.dsu.findRoot v).2 ↔
        (currentGraph es).Reachable u v) ∧
      IsSpanningForest (currentGraph es) (forestGraph a.query.spanningForest) ∧
      ∀ src dst, dst ∈ a.query.spanningForest src → src < dst) ∧
    (a.hasCachedQuery .connectivity = true → ∀ (T : ℕ) (E : QueryEnv n T),
      (∃ a' cc, a.connectedComponents E = (a',.ok cc) ∧
        (∀ u v, cc.isConnected u v = true ↔ (currentGraph es).Reachable u v) ∧
        cc.size = Nat.card (currentGraph es).ConnectedComponent) ∧
      ∀ u v, ∃ a' b, a.pointQuery E u v = (a',.ok b) ∧
        (b = true ↔ (currentGraph es).Reachable u v)) := by
  have hinv := h.inv
  refine ⟨hinv.shared.symm,fun hv => ?_,fun hv T E => ?_⟩
  · have hc := hinv.correct hv
    refine ⟨fun u v => ?_,hc.forest,hc.keyed⟩
    rw [DisjointSetUnionMT.findRoot_snd,DisjointSetUnionMT.findRoot_snd]
    exact hc.rep u v
  · exact ⟨hinv.connectedComponents hv E,hinv.pointQuery (hinv.shared ▸ hv) E⟩

theorem eager_dsu_correct_pair :
    (∃ a : CCSketchAlg 2 1 pairParams, Reach 1 pairParams [⟨1,0⟩,⟨0,1⟩] a ∧
      a.dsuValid = false ∧ a.dsuValid = a.sharedDsuValid) ∧
    ∃ a : CCSketchAlg 3 1 pairParams, Reach 1 pairParams [⟨1,0⟩,⟨1,2⟩] a ∧ a.dsuValid = true ∧
      a.query.spanningForest 0 = {1} ∧ a.query.spanningForest 1 = {2} ∧
      IsSpanningForest (currentGraph [⟨1,0⟩,⟨1,2⟩]) (forestGraph a.query.spanningForest) ∧
      ((a.query.dsu.findRoot 0).2 = (a.query.dsu.findRoot 2).2 ↔
        (currentGraph [(⟨1,0⟩ : Edge 3),⟨1,2⟩]).Reachable 0 2) := by
  have hpair : Reach 1 pairParams [] (new 1 pairParams fun _ : Fin 2 => 0) := .new _
  have htriple : Reach 1 pairParams [] (new 1 pairParams fun _ : Fin 3 => 0) := .new _
  have hdeleted := (hpair.preInsert ⟨⟨1,0⟩,.insert⟩).preInsert ⟨⟨0,1⟩,.delete⟩
  have hpath := (htriple.preInsert ⟨⟨1,0⟩,.insert⟩).preInsert ⟨⟨1,2⟩,.insert⟩
  obtain ⟨hclasses,hforest,_⟩ := (eager_dsu_correct hpath).2.1 (by decide)
  exact ⟨⟨_,hdeleted,by decide,(eager_dsu_correct hdeleted).1⟩,_,hpath,by decide,by decide,by decide,
    hforest,hclasses 0 2⟩

end CCSketchAlg
end GraphZeppelin.CC
