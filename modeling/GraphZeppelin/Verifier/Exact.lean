import GraphZeppelin.Verifier.Forests

open SpanningForest

namespace GraphZeppelin.Verifier
open Dsu CC

variable {n : ℕ}

structure ForestOf (H : SimpleGraph (Fin n)) (sf : SpanningForest n) : Prop where
  loopless : ∀ e ∈ sf.edges, e.src ≠ e.dst
  distinct : sf.edges.Pairwise fun e e' => ¬ joins e e'.src e'.dst
  acyclic : sf.graph.IsAcyclic
  sub : ∀ e ∈ sf.edges, H.Adj e.src e.dst
  spans : ∀ a b, sf.graph.Reachable a b ↔ H.Reachable a b

theorem pairGraph_ends (sf : SpanningForest n) : pairGraph (ends sf.edges) = sf.graph := by
  ext a b
  have hmem (x y : Fin n) : (x,y) ∈ ends sf.edges ↔ (⟨x,y⟩ : Edge n) ∈ sf.edges := by
    rw [ends,List.mem_map]
    constructor
    · rintro ⟨e,he,hxy⟩
      obtain ⟨rfl,rfl⟩ := Prod.mk.inj hxy
      exact he
    · exact fun h => ⟨_,h,rfl⟩
  rw [pairGraph_adj,hmem,hmem]
  rfl

theorem apart_iff {e e' : Edge n} :
    Apart (e.src,e.dst) (e'.src,e'.dst) ↔ ¬ joins e e'.src e'.dst := by
  simp only [Apart,joins,ne_eq,Prod.swap_prod_mk,Prod.mk.injEq,not_or]
  tauto

namespace GraphVerifier

theorem passes_bot_iff {adj : AdjMatrix n} {sf : SpanningForest n} :
    Passes ⊥ adj sf.edges ↔ (∀ e ∈ sf.edges, e.src ≠ e.dst) ∧
      sf.edges.Pairwise (fun e e' => ¬ joins e e'.src e'.dst) ∧ sf.graph.IsAcyclic ∧
      ∀ e ∈ sf.edges, (graph adj).Adj e.src e.dst := by
  have hloop : (∀ e ∈ ends sf.edges, e.1 ≠ e.2 ∧ ¬ (⊥ : SimpleGraph (Fin n)).Adj e.1 e.2) ↔
      ∀ e ∈ sf.edges, e.src ≠ e.dst := by
    simp [ends]
  rw [Passes,linking_iff SimpleGraph.isAcyclic_bot,hloop,bot_sup_eq,pairGraph_ends,ends,
    List.pairwise_map]
  simp only [apart_iff]
  constructor
  · rintro ⟨⟨hne,hpair,hac⟩,hp⟩
    exact ⟨hne,hpair,hac,fun e he => ⟨hne e he,hp e he⟩⟩
  · rintro ⟨hne,hpair,hac,hsub⟩
    exact ⟨⟨hne,hpair,hac⟩,fun e he => (hsub e he).2⟩

theorem forestOf_iff {adj : AdjMatrix n} {sf : SpanningForest n} :
    ForestOf (graph adj) sf ↔ Passes ⊥ adj sf.edges ∧
      ∀ a b, (graph adj).Reachable a b → sf.graph.Reachable a b := by
  rw [passes_bot_iff]
  constructor
  · rintro ⟨hne,hpair,hac,hsub,hspan⟩
    exact ⟨⟨hne,hpair,hac,hsub⟩,fun a b => (hspan a b).mpr⟩
  · rintro ⟨⟨hne,hpair,hac,hsub⟩,hspan⟩
    have hle : sf.graph ≤ graph adj := by
      rintro a b ⟨_,h | h⟩
      · exact hsub _ h
      · exact (hsub _ h).symm
    exact ⟨hne,hpair,hac,hsub,fun a b => ⟨fun h => h.mono hle,hspan a b⟩⟩

theorem Passes.residual {adj : AdjMatrix n} {sf : SpanningForest n} {K : SimpleGraph (Fin n)}
    (h : Passes K adj sf.edges) :
    graph (sf.edges.foldl flip adj) = residual (graph adj) [sf] := by
  ext a b
  rw [graph_foldl_flip h]
  simp [CC.residual]

def Taken (H : SimpleGraph (Fin n)) (sf : SpanningForest n) : Prop :=
  ∃ e ∈ sf.edges.head?, H.Adj e.src e.dst

theorem touches_bot_iff {adj : AdjMatrix n} {sf : SpanningForest n} :
    Touches ⊥ adj sf.edges ↔ Taken (graph adj) sf := by
  simp only [Touches,Taken,SimpleGraph.reachable_bot,graph_adj,ne_eq]

structure ForestOutcome (backup : AdjMatrix n) (sf : SpanningForest n) (v : GraphVerifier n)
    (r : GraphVerifier n × Except VerifierError Unit) : Prop where
  describes : r.1.Describes (graph v.adjMatrix)
  need : r.1.needQueryCompute = true ↔ Taken (graph v.adjMatrix) sf
  result : (r.2 = .ok () ∧ ForestOf (graph v.adjMatrix) sf ∧
      graph r.1.adjMatrix = residual (graph v.adjMatrix) [sf]) ∨
    ((∃ err, r.2 = .error err) ∧ ¬ ForestOf (graph v.adjMatrix) sf ∧ r.1.adjMatrix = backup)

theorem Fresh.verifyForest {v : GraphVerifier n} (h : v.Fresh) (backup : AdjMatrix n)
    (priority : Fin n → ℕ) (sf : SpanningForest n) :
    ForestOutcome backup sf v (verifyForest backup priority sf v) := by
  have hspec := verifyEdges_spec backup sf.edges v.kruskal
    (DisjointSetUnionMT.represents_fresh priority)
  have hdesc := h.kruskal
  rw [GraphVerifier.verifyForest]
  generalize hrun : verifyEdges backup sf.edges v.kruskal (.fresh priority) = r at hspec
  obtain ⟨hdsu,hccs,hneed,hresult⟩ := hspec
  rw [kruskal_adjMatrix,kruskal_needQueryCompute,touches_bot_iff] at hneed
  rw [kruskal_adjMatrix] at hresult
  have hneed := hneed.trans (or_iff_right Bool.false_ne_true)
  have hdesc' : r.1.Describes (graph v.adjMatrix) := ⟨hdsu ▸ hdesc.dsu,hccs.trans hdesc.ccs⟩
  obtain ⟨w,res⟩ := r
  rcases hresult with ⟨f,hok,hrep,hpass,hadj⟩ | ⟨⟨err,herr⟩,hpass,hadj⟩
  · obtain rfl : res = .ok f := hok
    rw [bot_sup_eq,pairGraph_ends] at hrep
    obtain ⟨w',hcomp,hmap⟩ := verifyRootMap_spec backup (List.finRange n) (fun _ => none) w f
    have hagree : Agrees (fun _ => none) (List.finRange n) w.kruskalDsu.rep f.rep ↔
        ForestOf (graph v.adjMatrix) sf := by
      rw [agrees_all,forestOf_iff]
      simp only [hpass,true_and,hrep _ _,hdesc'.dsu _ _]
    rw [hagree] at hmap
    rcases hmap with ⟨heq,hforest⟩ | ⟨⟨err,heq⟩,hforest⟩
    · simp only [heq]
      refine ⟨hcomp.describes hdesc',?_,.inl ⟨rfl,hforest,?_⟩⟩
      · rw [hcomp.need]
        exact hneed
      · rw [hcomp.adjMatrix,hadj]
        exact hpass.residual
    · simp only [heq]
      have hd := hcomp.describes hdesc'
      refine ⟨⟨hd.dsu,hd.ccs⟩,?_,.inr ⟨⟨err,rfl⟩,hforest,rfl⟩⟩
      rw [restore,hcomp.need]
      exact hneed
  · obtain rfl : res = .error err := herr
    exact ⟨hdesc',hneed,.inr ⟨⟨err,rfl⟩,fun hf => hpass (forestOf_iff.mp hf).1,hadj⟩⟩

theorem residual_residual (G : SimpleGraph (Fin n)) (sf : SpanningForest n)
    (SFs : List (SpanningForest n)) :
    residual (residual G [sf]) SFs = residual G (sf :: SFs) := by
  ext a b
  simp only [CC.residual,List.forall_mem_cons,List.not_mem_nil,false_imp_iff,implies_true,and_true,
    and_assoc]

theorem stepwise_cons {P : SimpleGraph (Fin n) → SpanningForest n → Prop}
    {G : SimpleGraph (Fin n)} {sf : SpanningForest n} {SFs : List (SpanningForest n)} :
    Stepwise P G (sf :: SFs) ↔ P G sf ∧ Stepwise P (residual G [sf]) SFs := by
  constructor
  · intro h
    refine ⟨residual_nil G ▸ h 0 (Nat.succ_pos _),fun i hi => ?_⟩
    rw [residual_residual]
    exact h (i + 1) (Nat.succ_lt_succ hi)
  · rintro ⟨h0,h⟩ i hi
    cases i with
    | zero => exact (residual_nil G).symm ▸ h0
    | succ i =>
      have hi' := h i (Nat.lt_of_succ_lt_succ hi)
      rw [residual_residual] at hi'
      exact hi'

structure StopsAt (G : SimpleGraph (Fin n)) (SFs : List (SpanningForest n)) (j : ℕ)
    (hj : j < SFs.length) : Prop where
  before : ∀ i (hi : i < j), ForestOf (residual G (SFs.take i)) (SFs[i])
  last : j + 1 = SFs.length ∨ ¬ ForestOf (residual G (SFs.take j)) SFs[j]

theorem StopsAt.cons {G : SimpleGraph (Fin n)} {sf : SpanningForest n}
    {SFs : List (SpanningForest n)} {j : ℕ} {hj : j < SFs.length} (hsf : ForestOf G sf)
    (h : StopsAt (residual G [sf]) SFs j hj) :
    StopsAt G (sf :: SFs) (j + 1) (Nat.succ_lt_succ hj) := by
  constructor
  · rintro (_ | i) hi
    · exact (residual_nil G).symm ▸ hsf
    · have hi' := h.before i (Nat.lt_of_succ_lt_succ hi)
      rw [residual_residual] at hi'
      exact hi'
  · refine h.last.imp (congrArg Nat.succ) fun hno => ?_
    rw [residual_residual] at hno
    exact hno

structure ForestsOutcome (backup : AdjMatrix n) (SFs : List (SpanningForest n))
    (v : GraphVerifier n) (r : GraphVerifier n × Except VerifierError Unit) : Prop where
  ok : r.2 = .ok () ↔ Stepwise ForestOf (graph v.adjMatrix) SFs
  adjMatrix : r.1.adjMatrix = backup
  cache : SFs ≠ [] → ∃ j, ∃ hj : j < SFs.length, StopsAt (graph v.adjMatrix) SFs j hj ∧
    r.1.Describes (residual (graph v.adjMatrix) (SFs.take j)) ∧
    (r.1.needQueryCompute = true ↔ Taken (residual (graph v.adjMatrix) (SFs.take j)) SFs[j])

theorem ForestOutcome.fresh {backup : AdjMatrix n} {sf : SpanningForest n} {v : GraphVerifier n}
    {r : GraphVerifier n × Except VerifierError Unit} (h : ForestOutcome backup sf v r)
    (hsf : ForestOf (graph v.adjMatrix) sf)
    (hadj : graph r.1.adjMatrix = residual (graph v.adjMatrix) [sf]) : r.1.Fresh := by
  intro hneed
  have hempty : sf.edges = [] := by
    cases hes : sf.edges with
    | nil => rfl
    | cons e es =>
      have htaken : Taken (graph v.adjMatrix) sf :=
        ⟨e,by rw [hes]; rfl,hsf.sub e (by rw [hes]; exact List.mem_cons_self)⟩
      exact Bool.noConfusion (hneed.symm.trans (h.need.mpr htaken))
  have hsame : residual (graph v.adjMatrix) [sf] = graph v.adjMatrix := by
    ext a b
    simp [CC.residual,hempty]
  rw [hadj,hsame]
  exact h.describes

theorem Fresh.verifyForests {v : GraphVerifier n} (h : v.Fresh) (backup : AdjMatrix n)
    (priority : ℕ → Fin n → ℕ) (k : ℕ) (SFs : List (SpanningForest n)) :
    ForestsOutcome backup SFs v (verifyForests backup priority k SFs v) := by
  induction SFs generalizing v k with
  | nil => exact ⟨iff_of_true rfl .nil,rfl,fun hne => absurd rfl hne⟩
  | cons sf SFs ih =>
    have hone := h.verifyForest backup (priority k) sf
    have hnil := residual_nil (graph v.adjMatrix)
    rw [GraphVerifier.verifyForests]
    generalize GraphVerifier.verifyForest backup (priority k) sf v = r at hone
    obtain ⟨v',res⟩ := r
    rcases hone.result with ⟨hok,hsf,hadj⟩ | ⟨⟨err,herr⟩,hsf,hadj⟩
    · obtain rfl : res = .ok () := hok
      have hfresh := hone.fresh hsf hadj
      obtain ⟨hok,hback,hcache⟩ := ih hfresh (k + 1)
      simp only at hadj ⊢
      rw [hadj] at hok hcache
      refine ⟨?_,hback,fun _ => ?_⟩
      · rw [hok,stepwise_cons]
        exact (and_iff_right hsf).symm
      · cases SFs with
        | nil =>
          refine ⟨0,Nat.succ_pos _,⟨fun i hi => absurd hi (Nat.not_lt_zero i),.inl rfl⟩,?_⟩
          rw [List.take_zero,hnil]
          exact ⟨⟨hone.describes.dsu,hone.describes.ccs⟩,hone.need⟩
        | cons sf' SFs =>
          obtain ⟨j,hj,hstop,hrest⟩ := hcache (List.cons_ne_nil _ _)
          rw [residual_residual] at hrest
          exact ⟨j + 1,Nat.succ_lt_succ hj,hstop.cons hsf,hrest⟩
    · obtain rfl : res = .error err := herr
      refine ⟨iff_of_false (fun hf => by cases hf) fun hs => hsf (stepwise_cons.mp hs).1,hadj,
        fun _ => ⟨0,Nat.succ_pos _,⟨fun i hi => absurd hi (Nat.not_lt_zero i),.inr ?_⟩,?_⟩⟩
      · rw [List.take_zero,hnil]
        exact hsf
      · rw [List.take_zero,hnil]
        exact ⟨hone.describes,hone.need⟩

theorem isConnected_of_describes {v : GraphVerifier n} {G : SimpleGraph (Fin n)}
    (h : v.Describes G) (d : DisjointSetUnionMT n) :
    (v.kruskalCcs = (ConnectedComponents.ofDsu d).2.size ∧
      ∀ i, (ConnectedComponents.ofDsu d).2.isConnected (v.kruskalDsu.rep i) i = true) ↔
    ∀ a b, (ConnectedComponents.ofDsu d).2.isConnected a b = true ↔ G.Reachable a b := by
  have hd : d.Represents (classGraph d.rep) := fun a b => (reachable_classGraph d.rep).symm
  rw [ConnectedComponents.size_ofDsu hd,h.ccs]
  simp only [ConnectedComponents.isConnected_ofDsu]
  have hroot (i : Fin n) : G.Reachable (v.kruskalDsu.rep i) i :=
    (h.dsu _ _).mp (PointerForest.root_root v.kruskalDsu.climbs i)
  constructor
  · rintro ⟨hcard,hconn⟩ a b
    have hsub (a b : Fin n) (hab : G.Reachable a b) : (classGraph d.rep).Reachable a b := by
      rw [reachable_classGraph,← hconn a,← hconn b,(h.dsu a b).mpr hab]
    refine ⟨fun hab => ?_,fun hab => (reachable_classGraph d.rep).mp (hsub a b hab)⟩
    exact reachable_of_card_le hsub hcard.le ((reachable_classGraph d.rep).mpr hab)
  · intro hiff
    refine ⟨card_components_congr fun a b => ?_,fun i => (hiff _ _).mpr (hroot i)⟩
    rw [reachable_classGraph,hiff]

theorem verifier_exact {v : GraphVerifier n} (h : v.Fresh) :
    (∀ d : DisjointSetUnionMT n,
      ((v.verifyConnectedComponents (ConnectedComponents.ofDsu d).2).2 = .ok () ↔
        ∀ a b, (ConnectedComponents.ofDsu d).2.isConnected a b = true ↔
          (graph v.adjMatrix).Reachable a b) ∧
      (v.verifyConnectedComponents (ConnectedComponents.ofDsu d).2).1.adjMatrix = v.adjMatrix) ∧
    ∀ (priority : ℕ → Fin n → ℕ) (SFs : List (SpanningForest n)),
      ((v.verifySpanningForests priority SFs).2 = .ok () ↔
        ∀ i (hi : i < SFs.length), ForestOf (residual (graph v.adjMatrix) (SFs.take i)) SFs[i]) ∧
      (v.verifySpanningForests priority SFs).1.adjMatrix = v.adjMatrix := by
  constructor
  · intro d
    rw [verifyConnectedComponents_ok,isConnected_of_describes h.kruskal d,
      (verifyConnectedComponents_compressed v _).adjMatrix,kruskal_adjMatrix]
    exact ⟨.rfl,rfl⟩
  · intro priority SFs
    have hrun := h.verifyForests v.adjMatrix priority 0 SFs
    exact ⟨hrun.ok,hrun.adjMatrix⟩

def pairVerifier : GraphVerifier 2 := ((new (fun _ => 0) 7).edgeUpdate 1 0).1

theorem verifier_exact_pair :
    (pairVerifier.verifyConnectedComponents
      (ConnectedComponents.ofDsu ((DisjointSetUnionMT.fresh fun _ : Fin 2 => 0).merge 0 1).1).2).2
        = .ok () ∧
    (pairVerifier.verifySpanningForests (fun _ _ => 0) [⟨[⟨0,1⟩]⟩,⟨[⟨1,0⟩]⟩]).2 ≠ .ok () ∧
    (pairVerifier.verifySpanningForests (fun _ _ => 0) [⟨[⟨0,1⟩]⟩,⟨[⟨1,0⟩]⟩]).1.adjMatrix =
      pairVerifier.adjMatrix :=
  ⟨by decide,by decide,
    ((verifier_exact (v := pairVerifier) (fresh_of_need rfl)).2 (fun _ _ => 0)
      [⟨[⟨0,1⟩]⟩,⟨[⟨1,0⟩]⟩]).2⟩

end GraphVerifier
end GraphZeppelin.Verifier
