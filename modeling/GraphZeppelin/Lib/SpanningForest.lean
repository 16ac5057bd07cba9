import Mathlib

namespace SpanningForest
open SimpleGraph

variable {V : Type*} {G F : SimpleGraph V}

structure IsSpanningForest (G F : SimpleGraph V) : Prop where
  sub : F ≤ G
  acyclic : F.IsAcyclic
  spans : ∀ u v, F.Reachable u v ↔ G.Reachable u v

theorem reachable_edge (a b : V) : (G ⊔ edge a b).Reachable a b := by
  by_cases hab : a = b
  · exact hab ▸ .refl a
  · exact Adj.reachable (by simp [edge_adj,hab])

theorem reachable_sup_edge {a b u v : V} :
    (G ⊔ edge a b).Reachable u v ↔ G.Reachable u v ∨
      (G.Reachable u a ∧ G.Reachable b v) ∨ (G.Reachable u b ∧ G.Reachable a v) := by
  have up {x y : V} (h : G.Reachable x y) : (G ⊔ edge a b).Reachable x y := h.mono le_sup_left
  constructor
  · intro h
    rw [reachable_iff_reflTransGen] at h
    induction h with
    | refl => exact .inl .rfl
    | @tail x y _ hxy ih =>
      rcases hxy with hxy | hxy
      · rcases ih with ih | ⟨ih,hx⟩ | ⟨ih,hx⟩
        · exact .inl (ih.trans hxy.reachable)
        · exact .inr (.inl ⟨ih,hx.trans hxy.reachable⟩)
        · exact .inr (.inr ⟨ih,hx.trans hxy.reachable⟩)
      · obtain ⟨⟨rfl,rfl⟩ | ⟨rfl,rfl⟩,_⟩ := (edge_adj a b x y).mp hxy
        · rcases ih with ih | ⟨ih,_⟩ | ⟨ih,_⟩
          · exact .inr (.inl ⟨ih,.rfl⟩)
          · exact .inr (.inl ⟨ih,.rfl⟩)
          · exact .inl ih
        · rcases ih with ih | ⟨ih,_⟩ | ⟨ih,_⟩
          · exact .inr (.inr ⟨ih,.rfl⟩)
          · exact .inl ih
          · exact .inr (.inr ⟨ih,.rfl⟩)
  · rintro (h | ⟨h,h'⟩ | ⟨h,h'⟩)
    · exact up h
    · exact (up h).trans ((reachable_edge a b).trans (up h'))
    · exact (up h).trans ((reachable_edge a b).symm.trans (up h'))

theorem reachable_sup_edge_of_reachable {a b : V} (hab : G.Reachable a b) {u v : V} :
    (G ⊔ edge a b).Reachable u v ↔ G.Reachable u v := by
  rw [reachable_sup_edge]
  constructor
  · rintro (h | ⟨h,h'⟩ | ⟨h,h'⟩)
    · exact h
    · exact h.trans (hab.trans h')
    · exact h.trans (hab.symm.trans h')
  · exact .inl

theorem isSpanningForest_bot : IsSpanningForest (⊥ : SimpleGraph V) ⊥ :=
  ⟨le_rfl,isAcyclic_bot,fun _ _ => .rfl⟩

theorem IsSpanningForest.insert_bridge (h : IsSpanningForest G F) {a b : V}
    (hab : ¬ G.Reachable a b) : IsSpanningForest (G ⊔ edge a b) (F ⊔ edge a b) where
  sub := sup_le_sup_right h.sub _
  acyclic := h.acyclic.sup_edge_of_not_reachable (fun hr => hab ((h.spans a b).mp hr))
  spans u v := by simp only [reachable_sup_edge,h.spans]

theorem IsSpanningForest.insert_inside (h : IsSpanningForest G F) {a b : V}
    (hab : G.Reachable a b) : IsSpanningForest (G ⊔ edge a b) F where
  sub := h.sub.trans le_sup_left
  acyclic := h.acyclic
  spans u v := by rw [h.spans,reachable_sup_edge_of_reachable hab]

theorem IsSpanningForest.shrink (h : IsSpanningForest G F) {H : SimpleGraph V}
    (hF : F ≤ H) (hH : H ≤ G) : IsSpanningForest H F where
  sub := hF
  acyclic := h.acyclic
  spans u v := ⟨fun hr => hr.mono hF,fun hr => (h.spans u v).mpr (hr.mono hH)⟩

theorem IsSpanningForest.eq_bot (h : IsSpanningForest G ⊥) : G = ⊥ := by
  ext u v
  simp only [bot_adj,iff_false]
  intro huv
  exact huv.ne (reachable_bot.mp ((h.spans u v).mpr huv.reachable))

theorem IsSpanningForest.eq_of_acyclic (h : IsSpanningForest G F) (hG : G.IsAcyclic) : F = G := by
  refine le_antisymm h.sub fun u v huv => ?_
  by_contra hF
  refine isBridge_iff.mp (isAcyclic_iff_forall_adj_isBridge.mp hG huv) ?_
  refine ((h.spans u v).mpr huv.reachable).mono fun x y hxy => ?_
  rw [deleteEdges_adj,Set.mem_singleton_iff,Sym2.eq_iff]
  refine ⟨h.sub hxy,?_⟩
  rintro (⟨rfl,rfl⟩ | ⟨rfl,rfl⟩)
  · exact hF hxy
  · exact hF hxy.symm

theorem symmDiff_edge_of_adj {a b : V} (h : G.Adj a b) : symmDiff G (edge a b) = G \ edge a b :=
  symmDiff_of_ge ((edge_le_iff (G := G)).mpr (.inr h))

theorem symmDiff_edge_of_not_adj {a b : V} (h : ¬ G.Adj a b) :
    symmDiff G (edge a b) = G ⊔ edge a b := by
  refine Disjoint.symmDiff_eq_sup (disjoint_left.mpr fun x y hxy he => ?_)
  obtain ⟨⟨rfl,rfl⟩ | ⟨rfl,rfl⟩,_⟩ := (edge_adj a b x y).mp he
  · exact h hxy
  · exact h hxy.symm

theorem le_sdiff_edge {a b : V} (hF : F ≤ G) (h : ¬ F.Adj a b) : F ≤ G \ edge a b := by
  intro x y hxy
  refine ⟨hF hxy,fun he => ?_⟩
  obtain ⟨⟨rfl,rfl⟩ | ⟨rfl,rfl⟩,_⟩ := (edge_adj a b x y).mp he
  · exact h hxy
  · exact h hxy.symm

def pairGraph : List (V × V) → SimpleGraph V
  | [] => ⊥
  | e :: es => pairGraph es ⊔ edge e.1 e.2

theorem pairGraph_adj {es : List (V × V)} {x y : V} :
    (pairGraph es).Adj x y ↔ x ≠ y ∧ ((x,y) ∈ es ∨ (y,x) ∈ es) := by
  induction es with
  | nil => simp [pairGraph]
  | cons e es ih =>
    obtain ⟨a,b⟩ := e
    simp only [pairGraph,sup_adj,ih,edge_adj,List.mem_cons,Prod.mk.injEq]
    tauto

theorem reachable_of_adj {R : V → V → Prop} (hR : Equivalence R)
    (h : ∀ x y, G.Adj x y → R x y) {x y : V} (hxy : G.Reachable x y) : R x y := by
  rw [reachable_iff_reflTransGen] at hxy
  induction hxy with
  | refl => exact hR.refl x
  | tail _ hs ih => exact hR.trans ih (h _ _ hs)

theorem card_components_of_classes [Finite V] {f : V → V} (hf : ∀ u v, f u = f v ↔ G.Reachable u v)
    (hff : ∀ u, f (f u) = f u) : Nat.card G.ConnectedComponent = {x | f x = x}.ncard := by
  refine Nat.card_congr ⟨ConnectedComponent.lift (fun v => ⟨f v,hff v⟩) ?_,
    fun x => G.connectedComponentMk x.1,?_,?_⟩
  · intro v w p _
    exact Subtype.ext ((hf v w).mpr p.reachable)
  · intro c
    induction c using ConnectedComponent.ind with
    | _ v => exact ConnectedComponent.eq.mpr ((hf _ _).mp (hff v))
  · rintro ⟨x,hx⟩
    exact Subtype.ext hx

end SpanningForest
