import GraphZeppelin.CC.EagerDsu
import GraphZeppelin.CC.Ingestion

namespace GraphZeppelin.CC
open Dsu Boruvka Sketch

variable {n w T : ℕ} {p : SketchParams} {xxh : XxHash}

section Sum

variable {M : Type*} [AddCommGroup M] [XorGroup M]

theorem ite_xor {P Q R : Prop} [Decidable P] [Decidable Q] [Decidable R] (h : R ↔ Xor P Q)
    (c : M) : (if R then c else 0) = (if P then c else 0) + if Q then c else 0 := by
  by_cases hP : P <;> by_cases hQ : Q <;> simp [h,Xor,hP,hQ,XorGroup.add_self]

end Sum

theorem symmDiff_adj {G H : SimpleGraph (Fin n)} {u v : Fin n} :
    (symmDiff G H).Adj u v ↔ Xor (G.Adj u v) (H.Adj u v) := by
  simp [symmDiff,SimpleGraph.sup_adj,SimpleGraph.sdiff_adj,Xor]

theorem sum_edge_adj {M : Type*} [AddCommGroup M] [XorGroup M] (s d v : Fin n) (c : Fin n → M) :
    (∑ u, if (SimpleGraph.edge s d).Adj v u then c u else 0) =
      (if s = v then c d else 0) + if d = v then c s else 0 := by
  simp only [SimpleGraph.edge_adj]
  by_cases hsd : s = d
  · subst hsd
    have hno (u : Fin n) : ¬ ((v = s ∧ u = s ∨ v = s ∧ u = s) ∧ v ≠ u) := by
      rintro ⟨⟨rfl,rfl⟩ | ⟨rfl,rfl⟩,h⟩ <;> exact h rfl
    simp only [hno,if_false,Finset.sum_const_zero]
    exact (XorGroup.add_self _).symm
  · by_cases hs : s = v
    · subst hs
      have hiff (u : Fin n) : ((s = s ∧ u = d ∨ s = d ∧ u = s) ∧ s ≠ u) ↔ u = d := by
        constructor
        · rintro ⟨⟨_,hu⟩ | ⟨h,_⟩,_⟩
          · exact hu
          · exact absurd h hsd
        · rintro rfl
          exact ⟨.inl ⟨rfl,rfl⟩,hsd⟩
      rw [Finset.sum_congr rfl fun u _ => if_congr (hiff u) rfl rfl]
      simp [Ne.symm hsd]
    · have hiff (u : Fin n) : ((v = s ∧ u = d ∨ v = d ∧ u = s) ∧ v ≠ u) ↔ d = v ∧ u = s := by
        constructor
        · rintro ⟨⟨h,_⟩ | ⟨hv,hu⟩,_⟩
          · exact absurd h.symm hs
          · exact ⟨hv.symm,hu⟩
        · rintro ⟨rfl,rfl⟩
          exact ⟨.inr ⟨rfl,rfl⟩,Ne.symm hs⟩
      simp only [hiff,hs,if_false,zero_add]
      by_cases hd : d = v
      · simp [hd]
      · simp [hd]

theorem setBuckets_toggle (hn : n < 2 ^ 32) {G H : SimpleGraph (Fin n)} [DecidableRel G.Adj]
    [DecidableRel H.Adj] {e : Edge n} (hH : H = symmDiff G (SimpleGraph.edge e.src e.dst))
    (v : Fin n) : setBuckets xxh p (incident H v) = setBuckets xxh p (incident G v) +
      received xxh p v [(e.src,e.dst),(e.dst,e.src)] := by
  rw [setBuckets,setBuckets,sum_incident H hn,sum_incident G hn,Finset.sum_filter,
    Finset.sum_filter]
  have hadj (u : Fin n) : H.Adj v u ↔ Xor (G.Adj v u) ((SimpleGraph.edge e.src e.dst).Adj v u) := by
    rw [hH,symmDiff_adj]
  have hsum : (∑ u, if H.Adj v u then contribution xxh p (edgeIdx v u) else 0) =
      ∑ u, ((if G.Adj v u then contribution xxh p (edgeIdx v u) else 0) +
        if (SimpleGraph.edge e.src e.dst).Adj v u then contribution xxh p (edgeIdx v u) else 0) :=
    Finset.sum_congr rfl fun u _ => ite_xor (hadj u) _
  rw [hsum,Finset.sum_add_distrib,sum_edge_adj]
  refine congrArg (_ + ·) ?_
  rw [received,List.map_cons,List.map_cons,List.map_nil,List.sum_cons,List.sum_cons,List.sum_nil,
    add_zero,half,half]
  refine congrArg₂ (· + ·) ?_ ?_
  · exact if_ctx_congr Iff.rfl (fun h => by rw [h]) fun _ => rfl
  · exact if_ctx_congr Iff.rfl (fun h => by rw [h]) fun _ => rfl

theorem halfUpdates_eq (e : Edge n) (type : UpdateType) :
    halfUpdates ⟨e,type⟩ = [(e.src,e.dst),(e.dst,e.src)] := rfl

def toggled (G : SimpleGraph (Fin n)) (es : List (Edge n)) : SimpleGraph (Fin n) :=
  symmDiff G (currentGraph es)

instance (G : SimpleGraph (Fin n)) [DecidableRel G.Adj] (es : List (Edge n)) :
    DecidableRel (toggled G es).Adj :=
  fun _ _ => decidable_of_iff _ symmDiff_adj.symm

theorem toggled_nil (G : SimpleGraph (Fin n)) : toggled G [] = G := by
  rw [toggled,currentGraph_nil]
  exact symmDiff_bot G

theorem currentGraph_append (es es' : List (Edge n)) :
    currentGraph (es ++ es') = symmDiff (currentGraph es) (currentGraph es') := by
  induction es' using List.reverseRecOn with
  | nil => rw [List.append_nil,currentGraph_nil,symmDiff_bot]
  | append_singleton es' e ih =>
    rw [← List.append_assoc,currentGraph_concat,ih,currentGraph_concat,symmDiff_assoc]

theorem toggled_append (G : SimpleGraph (Fin n)) (es es' : List (Edge n)) :
    toggled G (es ++ es') = toggled (toggled G es) es' := by
  rw [toggled,toggled,toggled,currentGraph_append,symmDiff_assoc]

theorem toggled_twice (G : SimpleGraph (Fin n)) (es : List (Edge n)) :
    toggled (toggled G es) es = G := by
  rw [toggled,toggled,symmDiff_assoc,symmDiff_self,symmDiff_bot]

theorem toggled_undone (e : Edge n) (es : List (Edge n)) :
    toggled (toggled ⊥ (e :: es)) [e] = currentGraph es := by
  rw [toggled,toggled,bot_symmDiff,← List.singleton_append,currentGraph_append,
    symmDiff_comm (currentGraph [e]),symmDiff_symmDiff_cancel_right]

theorem toggled_cons (G : SimpleGraph (Fin n)) (e : Edge n) (es : List (Edge n)) :
    toggled G (e :: es) = toggled (symmDiff G (SimpleGraph.edge e.src e.dst)) es := by
  have he : currentGraph [e] = SimpleGraph.edge e.src e.dst := by
    have h := currentGraph_concat [] e
    rwa [List.nil_append,currentGraph_nil,bot_symmDiff] at h
  rw [← List.singleton_append,toggled_append,toggled,toggled,he]
  rfl

theorem updateEdges_buckets (type : UpdateType) (es : List (Edge n)) (a : CCSketchAlg n w p)
    (v : Fin n) : ((a.updateEdges xxh type es).sketches v).buckets =
      (a.sketches v).buckets + received xxh p v (es.flatMap fun e => halfUpdates ⟨e,type⟩) := by
  have h := CCSketchAlg.applyUpdates_buckets xxh (es.map fun e => ⟨e,type⟩) a v
  rw [List.flatMap_map] at h
  rw [← h,applyUpdates,List.foldl_map]
  rfl

theorem received_toggle (hn : n < 2 ^ 32) {G H : SimpleGraph (Fin n)} [DecidableRel G.Adj]
    [DecidableRel H.Adj] (type : UpdateType) (es : List (Edge n)) (hH : H = toggled G es)
    (v : Fin n) : setBuckets xxh p (incident H v) = setBuckets xxh p (incident G v) +
      received xxh p v (es.flatMap fun e => halfUpdates ⟨e,type⟩) := by
  induction es generalizing G with
  | nil =>
    rw [toggled_nil] at hH
    subst hH
    rw [List.flatMap_nil,received_nil,add_zero]
    congr!
  | cons e es ih =>
    classical
    rw [toggled_cons] at hH
    rw [ih hH,setBuckets_toggle hn rfl,List.flatMap_cons,received_append,halfUpdates_eq,add_assoc]

theorem sketches_updateEdges (hn : n < 2 ^ 32) {G H : SimpleGraph (Fin n)} [DecidableRel G.Adj]
    [DecidableRel H.Adj] {a : CCSketchAlg n w p} (h : Sketches xxh G a.sketches)
    (es : List (Edge n)) (hH : H = toggled G es) (type : UpdateType) :
    Sketches xxh H (a.updateEdges xxh type es).sketches := by
  intro v
  rw [updateEdges_buckets,h v,received_toggle hn type es hH]

namespace CCSketchAlg

theorem EagerInv.update {G : SimpleGraph (Fin n)} {a : CCSketchAlg n w p} (h : a.EagerInv G)
    (upd : GraphUpdate n) :
    (a.update xxh upd).EagerInv (symmDiff G (SimpleGraph.edge upd.edge.src upd.edge.dst)) := by
  obtain ⟨hs,hc⟩ := h.preInsert upd
  exact ⟨hs,hc⟩

theorem EagerInv.updateEdges {G : SimpleGraph (Fin n)} {a : CCSketchAlg n w p}
    (h : a.EagerInv G) (type : UpdateType) (es : List (Edge n)) :
    (a.updateEdges xxh type es).EagerInv (toggled G es) := by
  induction es generalizing G a with
  | nil =>
    rw [toggled_nil]
    exact h
  | cons e es ih =>
    rw [toggled_cons]
    exact ih (h.update ⟨e,type⟩)

end CCSketchAlg
end GraphZeppelin.CC
