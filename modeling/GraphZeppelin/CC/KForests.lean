import GraphZeppelin.CC.Query
import GraphZeppelin.CC.Toggle

open SpanningForest

namespace GraphZeppelin.CC
open Dsu Boruvka Sketch

variable {n w T : ℕ} {p : SketchParams}

namespace SpanningForest

def graph (sf : SpanningForest n) : SimpleGraph (Fin n) :=
  SimpleGraph.fromRel fun a b => ⟨a,b⟩ ∈ sf.edges

theorem mem_ofForest {o : ForestOrder n} {F : Fin n → Finset (Fin n)} {e : Edge n} :
    e ∈ (ofForest o F).edges ↔ e.dst ∈ F e.src := by
  obtain ⟨src,dst⟩ := e
  simp [ofForest,o.mem]

theorem graph_ofForest (o : ForestOrder n) (F : Fin n → Finset (Fin n)) :
    (ofForest o F).graph = forestGraph F := by
  ext a b
  rw [graph,SimpleGraph.fromRel_adj,mem_ofForest,mem_ofForest,forestGraph_adj]

theorem nodup_ofForest (o : ForestOrder n) (F : Fin n → Finset (Fin n)) :
    (ofForest o F).edges.Nodup := by
  refine List.nodup_flatMap.mpr ⟨fun src _ => ?_,?_⟩
  · exact (o.nodup _).map fun a b h => (Edge.mk.inj h).2
  · refine (List.nodup_finRange n).imp fun hab e he he' => hab ?_
    obtain ⟨_,_,rfl⟩ := List.mem_map.mp he
    obtain ⟨_,_,h⟩ := List.mem_map.mp he'
    exact (Edge.mk.inj h).1.symm

structure Proper (sf : SpanningForest n) : Prop where
  nodup : sf.edges.Nodup
  oriented : ∀ e ∈ sf.edges, e.src < e.dst

theorem proper_ofForest (o : ForestOrder n) {F : Fin n → Finset (Fin n)} (h : Keyed F) :
    (ofForest o F).Proper :=
  ⟨nodup_ofForest o F,fun _ he => h _ _ (mem_ofForest.mp he)⟩

theorem Proper.odd_toggles {sf : SpanningForest n} (h : sf.Proper) {a b : Fin n} (hab : a < b) :
    Odd (toggles sf.edges a b) ↔ (⟨a,b⟩ : Edge n) ∈ sf.edges := by
  have hcount : toggles sf.edges a b = sf.edges.count ⟨a,b⟩ := by
    rw [toggles,List.count_eq_countP]
    refine List.countP_congr fun e he => ?_
    have horient := h.oriented e he
    obtain ⟨src,dst⟩ := e
    rw [decide_eq_true_eq,beq_iff_eq,Edge.mk.injEq]
    constructor
    · rintro (hj | ⟨rfl,rfl⟩)
      · exact hj
      · exact absurd horient (lt_asymm hab)
    · exact .inl
  rw [hcount]
  by_cases hmem : (⟨a,b⟩ : Edge n) ∈ sf.edges
  · simp [List.count_eq_one_of_mem h.nodup hmem,hmem]
  · simp [List.count_eq_zero_of_not_mem hmem,hmem]

theorem Proper.not_mem {sf : SpanningForest n} (h : sf.Proper) {a b : Fin n} (hab : a < b) :
    (⟨b,a⟩ : Edge n) ∉ sf.edges :=
  fun hmem => absurd (h.oriented _ hmem) (lt_asymm hab)

theorem Proper.currentGraph {sf : SpanningForest n} (h : sf.Proper) :
    currentGraph sf.edges = sf.graph := by
  ext a b
  rw [graph,SimpleGraph.fromRel_adj]
  refine and_congr_right fun hne => ?_
  rcases lt_or_gt_of_ne hne with hab | hab
  · rw [h.odd_toggles hab]
    exact (or_iff_left (h.not_mem hab)).symm
  · rw [toggles_comm,h.odd_toggles hab]
    exact (or_iff_right (h.not_mem hab)).symm

theorem graph_adj_iff {sf : SpanningForest n} {a b : Fin n} (hne : a ≠ b) :
    sf.graph.Adj a b ↔ ∃ e ∈ sf.edges, joins e a b := by
  rw [graph,SimpleGraph.fromRel_adj]
  constructor
  · rintro ⟨_,hmem | hmem⟩
    · exact ⟨_,hmem,.inl ⟨rfl,rfl⟩⟩
    · exact ⟨_,hmem,.inr ⟨rfl,rfl⟩⟩
  · rintro ⟨⟨src,dst⟩,hmem,⟨rfl,rfl⟩ | ⟨rfl,rfl⟩⟩
    · exact ⟨hne,.inl hmem⟩
    · exact ⟨hne,.inr hmem⟩

end SpanningForest

def residual (G : SimpleGraph (Fin n)) (SFs : List (SpanningForest n)) : SimpleGraph (Fin n) where
  Adj a b := G.Adj a b ∧ ∀ sf ∈ SFs, ∀ e ∈ sf.edges, ¬ joins e a b
  symm := ⟨fun _ _ h => ⟨h.1.symm,fun sf hsf e he hj => h.2 sf hsf e he (joins_comm.mp hj)⟩⟩
  loopless := ⟨fun a h => G.loopless.irrefl a h.1⟩

instance (G : SimpleGraph (Fin n)) [DecidableRel G.Adj] (SFs : List (SpanningForest n)) :
    DecidableRel (residual G SFs).Adj :=
  fun _ _ => inferInstanceAs (Decidable (_ ∧ _))

theorem residual_nil (G : SimpleGraph (Fin n)) : residual G [] = G := by
  ext a b
  simp [residual]

theorem cutEdges_residual_subset (G : SimpleGraph (Fin n)) [DecidableRel G.Adj]
    (SFs : List (SpanningForest n)) (A : Finset (Fin n)) :
    cutEdges (residual G SFs) A ⊆ cutEdges G A := by
  intro i hi
  obtain ⟨u,v,hu,hv,huv,hi⟩ := (mem_cutEdges _).mp hi
  exact (mem_cutEdges G).mpr ⟨u,v,hu,hv,huv.1,hi⟩

theorem residual_concat {G : SimpleGraph (Fin n)} {SFs : List (SpanningForest n)}
    {sf : SpanningForest n} (h : sf.Proper) (hsub : sf.graph ≤ residual G SFs) :
    residual G (SFs ++ [sf]) = toggled (residual G SFs) sf.edges := by
  rw [toggled,h.currentGraph,symmDiff_of_ge hsub]
  ext a b
  rw [SimpleGraph.sdiff_adj]
  simp only [residual,List.mem_append,List.mem_singleton]
  by_cases hne : a = b
  · subst hne
    simp
  · rw [SpanningForest.graph_adj_iff hne]
    constructor
    · rintro ⟨hG,hno⟩
      refine ⟨⟨hG,fun sf' hsf => hno sf' (.inl hsf)⟩,?_⟩
      rintro ⟨e,he,hj⟩
      exact hno sf (.inr rfl) e he hj
    · rintro ⟨⟨hG,hno⟩,hsf⟩
      refine ⟨hG,?_⟩
      rintro sf' (hmem | rfl) e he hj
      · exact hno sf' hmem e he hj
      · exact hsf ⟨e,he,hj⟩

def Stepwise (P : SimpleGraph (Fin n) → SpanningForest n → Prop) (G : SimpleGraph (Fin n))
    (SFs : List (SpanningForest n)) : Prop :=
  ∀ i (hi : i < SFs.length), P (residual G (SFs.take i)) SFs[i]

def Extracted (H : SimpleGraph (Fin n)) (sf : SpanningForest n) : Prop :=
  sf.Proper ∧ sf.graph ≤ H

def Spanning (H : SimpleGraph (Fin n)) (sf : SpanningForest n) : Prop :=
  sf.Proper ∧ IsSpanningForest H sf.graph

namespace Stepwise

variable {P : SimpleGraph (Fin n) → SpanningForest n → Prop} {G : SimpleGraph (Fin n)}
  {SFs : List (SpanningForest n)} {sf : SpanningForest n}

theorem nil : Stepwise P G [] := fun i hi => absurd hi (Nat.not_lt_zero i)

theorem concat_iff : Stepwise P G (SFs ++ [sf]) ↔ Stepwise P G SFs ∧ P (residual G SFs) sf := by
  constructor
  · intro h
    constructor
    · intro i hi
      have hi' := h i (by rw [List.length_append]; omega)
      rwa [List.getElem_append_left hi,List.take_append_of_le_length (le_of_lt hi)] at hi'
    · have hlast := h SFs.length (by simp)
      simpa only [List.getElem_concat_length,List.take_left'] using hlast
  · rintro ⟨h,hsf⟩ i hi
    rw [List.length_append,List.length_singleton] at hi
    rcases Nat.lt_succ_iff_lt_or_eq.mp hi with hlt | rfl
    · rw [List.getElem_append_left hlt,List.take_append_of_le_length (le_of_lt hlt)]
      exact h i hlt
    · simp only [List.getElem_concat_length,List.take_left']
      exact hsf

theorem extracted (h : Stepwise Spanning G SFs) : Stepwise Extracted G SFs :=
  fun i hi => ⟨(h i hi).1,(h i hi).2.sub⟩

theorem residual_eq (h : Stepwise Extracted G SFs) :
    residual G SFs = toggled G (SFs.flatMap (·.edges)) := by
  induction SFs using List.reverseRecOn with
  | nil => rw [residual_nil,List.flatMap_nil,toggled_nil]
  | append_singleton SFs sf ih =>
    obtain ⟨hp,hproper,hsub⟩ := concat_iff.mp h
    rw [residual_concat hproper hsub,ih hp,List.flatMap_append,List.flatMap_singleton,
      toggled_append]

theorem disjoint (h : Stepwise Extracted G SFs) {i j : ℕ} (hj : j < SFs.length) (hij : i < j) :
    ∀ e ∈ SFs[i].edges, ∀ e' ∈ SFs[j].edges, ¬ joins e e'.src e'.dst := by
  intro e he e' he' hjoin
  obtain ⟨hproper,hsub⟩ := h j hj
  have hadj : SFs[j].graph.Adj e'.src e'.dst :=
    (SpanningForest.graph_adj_iff (hproper.oriented e' he').ne).mpr ⟨e',he',.inl ⟨rfl,rfl⟩⟩
  have hmem : SFs[i] ∈ SFs.take j := List.mem_take_iff_getElem.mpr ⟨i,by omega,rfl⟩
  exact (hsub hadj).2 _ hmem e he hjoin

end Stepwise

abbrev QueryRun.Consistent (Q : QueryRun n T) : Prop := Boruvka.Consistent Q.fl n T

namespace CCSketchAlg

structure Good (xxh : XxHash) (G : SimpleGraph (Fin n)) [DecidableRel G.Adj]
    (a : CCSketchAlg n w p) : Prop where
  sketches : Sketches xxh G a.sketches
  eager : a.EagerInv G

variable {E : QueryEnv n T} {G : SimpleGraph (Fin n)} [DecidableRel G.Adj]
  {a : CCSketchAlg n w p}

theorem Good.connectedComponents (h : a.Good E.xxh G)
    (hE : a.sharedDsuValid = true ∨ E.Consistent ∨ G = ⊥)
    (hcf : ∀ A, CollisionFree E.xxh p (cutEdges G A)) {cc : ConnectedComponents n}
    (hok : (a.connectedComponents E).2 = .ok cc) :
    (a.connectedComponents E).1.Good E.xxh G ∧ Correct G (a.connectedComponents E).1.query := by
  obtain ⟨he,hc,_⟩ := h.eager.afterQuery hE (.inr h.sketches) hcf hok
  exact ⟨⟨fun v => (connectedComponents_buckets E a v).trans (h.sketches v),he⟩,hc⟩

theorem Good.calcSpanningForest (h : a.Good E.xxh G)
    (hE : a.sharedDsuValid = true ∨ E.Consistent ∨ G = ⊥)
    (hcf : ∀ A, CollisionFree E.xxh p (cutEdges G A)) (o : ForestOrder n) {sf : SpanningForest n}
    (hok : (a.calcSpanningForest E o).2 = .ok sf) :
    (a.calcSpanningForest E o).1.Good E.xxh G ∧ sf.Proper ∧ IsSpanningForest G sf.graph := by
  simp only [CCSketchAlg.calcSpanningForest] at hok ⊢
  split at hok
  · cases hok
  · next cc hcc =>
    obtain ⟨hg,hc⟩ := h.connectedComponents hE hcf hcc
    cases hok
    refine ⟨hg,SpanningForest.proper_ofForest o hc.keyed,?_⟩
    rw [SpanningForest.graph_ofForest]
    exact hc.forest

theorem eq_bot_of_empty {H : SimpleGraph (Fin n)} {sf : SpanningForest n}
    (h : IsSpanningForest H sf.graph) (hempty : sf.edges = []) : H = ⊥ := by
  have hsf : sf.graph = ⊥ := by
    ext a b
    simp [SpanningForest.graph,hempty]
  rw [hsf] at h
  exact h.eq_bot

variable {Q : QueryRun n T}

theorem deleteForests_extends (k i maxRounds : ℕ) (SFs : List (SpanningForest n))
    (a : CCSketchAlg n w p) {a' : CCSketchAlg n w p} {r : ℕ × List (SpanningForest n)}
    (hrun : a.deleteForests Q k i maxRounds SFs = (a',.ok r)) :
    ∃ new, r.2 = SFs ++ new ∧ new.length = k := by
  induction k generalizing i maxRounds SFs a with
  | zero =>
    cases hrun
    exact ⟨[],(List.append_nil _).symm,rfl⟩
  | succ k ih =>
    rw [deleteForests] at hrun
    split at hrun
    · cases hrun
    · next sf _ =>
      obtain ⟨new,he,hlen⟩ := ih _ _ _ _ hrun
      exact ⟨sf :: new,by rw [he,List.append_assoc]; rfl,by rw [List.length_cons,hlen]⟩

-- the last three cases are those where no forest query gets past round zero
def PartitionsServe (Q : QueryRun n T) (G : SimpleGraph (Fin n)) (k : ℕ) (a : CCSketchAlg n w p) :
    Prop :=
  Q.Consistent ∨ k = 0 ∨ G = ⊥ ∨ a.dsuValid = true ∧ (k = 1 ∨ G.IsAcyclic)

omit [DecidableRel G.Adj] in
theorem PartitionsServe.query {k i : ℕ} (h : PartitionsServe Q G (k + 1) a) (he : a.EagerInv G) :
    a.sharedDsuValid = true ∨ (Q.env i).Consistent ∨ G = ⊥ := by
  rcases h with hE | hk | hG | ⟨hv,_⟩
  · exact .inr (.inl hE)
  · exact absurd hk (Nat.succ_ne_zero k)
  · exact .inr (.inr hG)
  · exact .inl (he.shared.trans hv)

omit [DecidableRel G.Adj] in
theorem PartitionsServe.next {k : ℕ} {SFs : List (SpanningForest n)} {sf : SpanningForest n}
    (h : PartitionsServe Q (residual G SFs) (k + 1) a) (hproper : sf.Proper)
    (hspan : IsSpanningForest (residual G SFs) sf.graph) (b : CCSketchAlg n w p) :
    PartitionsServe Q (residual G (SFs ++ [sf])) k b := by
  have hres := residual_concat hproper hspan.sub
  rw [toggled,hproper.currentGraph] at hres
  rcases h with hE | hk | hG | ⟨_,hk | hG⟩
  · exact .inl hE
  · exact absurd hk (Nat.succ_ne_zero k)
  · have hsf : sf.graph = ⊥ := le_bot_iff.mp (hspan.sub.trans_eq hG)
    rw [hG,hsf,symmDiff_bot] at hres
    exact .inr (.inr (.inl hres))
  · exact .inr (.inl (Nat.succ_injective hk))
  · rw [hspan.eq_of_acyclic hG,symmDiff_self] at hres
    exact .inr (.inr (.inl hres))

theorem Good.deleteForests (k i maxRounds : ℕ) (SFs : List (SpanningForest n))
    {a : CCSketchAlg n w p} (hE : PartitionsServe Q (residual G SFs) k a)
    (h : a.Good Q.xxh (residual G SFs)) (hp : Stepwise Spanning G SFs)
    {a' : CCSketchAlg n w p} {r : ℕ × List (SpanningForest n)}
    (hrun : a.deleteForests Q k i maxRounds SFs = (a',.ok r))
    (hcf : ∀ j A, CollisionFree Q.xxh p (cutEdges (residual G (r.2.take j)) A)) :
    a'.Good Q.xxh (residual G r.2) ∧ Stepwise Spanning G r.2 := by
  induction k generalizing i maxRounds SFs a with
  | zero =>
    cases hrun
    exact ⟨h,hp⟩
  | succ k ih =>
    obtain ⟨new,hext,_⟩ := deleteForests_extends _ _ _ _ _ hrun
    have hcf' (A : Finset (Fin n)) : CollisionFree (Q.env i).xxh p (cutEdges (residual G SFs) A) := by
      have hA := hcf SFs.length A
      rw [hext,List.take_left] at hA
      exact hA
    rw [CCSketchAlg.deleteForests] at hrun
    split at hrun
    · cases hrun
    · next sf hsf =>
      obtain ⟨hg,hproper,hspan⟩ := Good.calcSpanningForest (E := Q.env i) h (hE.query h.eager)
        hcf' _ hsf
      have hres := residual_concat hproper hspan.sub
      refine ih _ _ _ (hE.next hproper hspan _) ⟨?_,?_⟩ (Stepwise.concat_iff.mpr ⟨hp,hproper,hspan⟩) hrun
      · exact sketches_updateEdges Q.vertices_lt hg.sketches _ hres _
      · rw [hres]
        exact hg.eager.updateEdges _ _

theorem reinsertForests_eq (xxh : XxHash) (a : CCSketchAlg n w p) (SFs : List (SpanningForest n)) :
    a.reinsertForests xxh SFs = a.updateEdges xxh .insert (SFs.flatMap (·.edges)) := by
  simp only [reinsertForests,CCSketchAlg.updateEdges,List.foldl_flatMap]

theorem calc_disjoint_spanning_forests_correct (Q : QueryRun n T) (G : SimpleGraph (Fin n))
    [DecidableRel G.Adj] {a a' : CCSketchAlg n w p} {k : ℕ} {SFs : List (SpanningForest n)}
    (hE : PartitionsServe Q G k a) (hs : Sketches Q.xxh G a.sketches) (he : a.EagerInv G)
    (hrun : a.calcDisjointSpanningForests Q k = (a',.ok SFs))
    (hcf : ∀ j A, CollisionFree Q.xxh p (cutEdges (residual G (SFs.take j)) A)) :
    SFs.length = k ∧
    (∀ i (hi : i < SFs.length), SFs[i].Proper ∧
      IsSpanningForest (residual G (SFs.take i)) SFs[i].graph ∧
      (SFs[i].edges = [] → residual G (SFs.take i) = ⊥)) ∧
    (∀ i j (hj : j < SFs.length) (hij : i < j), ∀ e ∈ SFs[i].edges, ∀ e' ∈ SFs[j].edges,
      ¬ joins e e'.src e'.dst) ∧
    (∀ v, (a'.sketches v).buckets = (a.sketches v).buckets) ∧ a'.EagerInv G := by
  rw [calcDisjointSpanningForests] at hrun
  split at hrun
  · cases hrun
  · next maxRounds SFs' hok =>
    cases hrun
    have hdel : a.deleteForests Q k 0 0 [] = ((a.deleteForests Q k 0 0 []).1,.ok (maxRounds,SFs)) :=
      Prod.ext rfl hok
    obtain ⟨new,hnew,hlen⟩ := deleteForests_extends _ _ _ _ _ hdel
    have hnil := residual_nil G
    have hstart : a.Good Q.xxh (residual G []) := by
      refine ⟨fun v => (hs v).trans ?_,hnil.symm ▸ he⟩
      congr! 2
      exact hnil.symm
    obtain ⟨hg,hp⟩ := hstart.deleteForests _ _ _ _ (hnil.symm ▸ hE) .nil hdel hcf
    have hback : G = toggled (residual G SFs) (SFs.flatMap (·.edges)) := by
      rw [hp.extracted.residual_eq,toggled_twice]
    refine ⟨?_,fun i hi => ?_,fun i j hj hij => hp.extracted.disjoint hj hij,fun v => ?_,?_⟩
    · rw [← hlen,show SFs = new from hnew]
    · obtain ⟨hproper,hspan⟩ := hp i hi
      exact ⟨hproper,hspan,eq_bot_of_empty hspan⟩
    · simp only [reinsertForests_eq]
      rw [sketches_updateEdges Q.vertices_lt hg.sketches _ hback,hs v]
    · have heager : ((a.deleteForests Q k 0 0 []).1.reinsertForests Q.xxh SFs).EagerInv G := by
        rw [hback,reinsertForests_eq]
        exact hg.eager.updateEdges _ _
      exact ⟨heager.shared,heager.correct⟩

def ascendingOrder (n : ℕ) : ForestOrder n where
  enum s := (List.finRange n).filter (· ∈ s)
  nodup _ := (List.nodup_finRange n).filter _
  mem _ _ := by simp

def pairRun : QueryRun 2 2 where
  xxh := pairEnv.xxh
  schedule _ := pairSchedule
  order _ := ascendingOrder 2
  fl := .double
  threads_pos := Nat.zero_lt_two
  vertices_lt := Round.two_lt_two_pow

theorem pairRun_consistent : pairRun.Consistent := by decide +kernel

def pairAlg : CCSketchAlg 2 1 pairParams :=
  { new 1 pairParams fun _ => 0 with
    sketches := pairSketches
    dsuValid := false
    sharedDsuValid := false }

theorem calc_disjoint_spanning_forests_pair :
    (pairAlg.calcDisjointSpanningForests pairRun 2).2 = .ok [⟨[⟨0,1⟩]⟩,⟨[]⟩] ∧
    ∀ v, ((pairAlg.calcDisjointSpanningForests pairRun 2).1.sketches v).buckets =
      (pairSketches v).buckets := by
  have hret : (pairAlg.calcDisjointSpanningForests pairRun 2).2 = .ok [⟨[⟨0,1⟩]⟩,⟨[]⟩] := by
    decide +kernel
  refine ⟨hret,(calc_disjoint_spanning_forests_correct pairRun ⊤ (.inl pairRun_consistent) (fun _ => rfl)
    ⟨rfl,fun h => absurd h (by decide)⟩ (Prod.ext rfl hret) fun j A => ?_).2.2.2.1⟩
  exact .of_subset_singleton ((cutEdges_residual_subset _ _ A).trans (pair_cut A)) (by decide)
    (by decide)

end CCSketchAlg
end GraphZeppelin.CC
