import GraphZeppelin.Lib.SpanningForest

namespace SpanningForest
open SimpleGraph

variable {V : Type*} {G H K : SimpleGraph V}

theorem card_components_sup_edge [Finite V] {a b : V} (hab : ¬ G.Reachable a b) :
    Nat.card (G ⊔ edge a b).ConnectedComponent + 1 = Nat.card G.ConnectedComponent := by
  let φ := ConnectedComponent.map (Hom.ofLE (le_sup_left : G ≤ G ⊔ edge a b))
  let B : Set G.ConnectedComponent := {G.connectedComponentMk b}
  have hφ (u : V) : φ (G.connectedComponentMk u) = (G ⊔ edge a b).connectedComponentMk u := rfl
  have hbij : Function.Bijective fun c : ↥(Bᶜ) => φ c := by
    constructor
    · rintro ⟨c,hc⟩ ⟨c',hc'⟩ h
      induction c using ConnectedComponent.ind with
      | _ u =>
        induction c' using ConnectedComponent.ind with
        | _ v =>
          have hub : ¬ G.Reachable u b := fun hr => hc (ConnectedComponent.eq.mpr hr)
          have hvb : ¬ G.Reachable v b := fun hr => hc' (ConnectedComponent.eq.mpr hr)
          have h : (G ⊔ edge a b).Reachable u v := ConnectedComponent.eq.mp h
          refine Subtype.ext (ConnectedComponent.eq.mpr ?_)
          rcases reachable_sup_edge.mp h with h | ⟨_,h⟩ | ⟨h,_⟩
          · exact h
          · exact absurd h.symm hvb
          · exact absurd h hub
    · intro c
      induction c using ConnectedComponent.ind with
      | _ v =>
        by_cases hv : G.Reachable v b
        · refine ⟨⟨G.connectedComponentMk a,fun h => hab (ConnectedComponent.eq.mp h)⟩,?_⟩
          exact ConnectedComponent.eq.mpr ((reachable_edge a b).trans (hv.symm.mono le_sup_left))
        · exact ⟨⟨G.connectedComponentMk v,fun h => hv (ConnectedComponent.eq.mp h)⟩,hφ v⟩
  rw [← Nat.card_congr (Equiv.ofBijective _ hbij)]
  have hcount := Set.ncard_add_ncard_compl B
  rw [Set.ncard_singleton] at hcount
  rw [← hcount,add_comm]
  rfl

theorem reachable_of_card_le [Finite V] (h : ∀ u v, G.Reachable u v → H.Reachable u v)
    (hcard : Nat.card G.ConnectedComponent ≤ Nat.card H.ConnectedComponent) {u v : V}
    (huv : H.Reachable u v) : G.Reachable u v := by
  let φ : G.ConnectedComponent → H.ConnectedComponent :=
    ConnectedComponent.lift H.connectedComponentMk
      fun u v p _ => ConnectedComponent.eq.mpr (h u v p.reachable)
  have hsurj : Function.Surjective φ := by
    intro c
    induction c using ConnectedComponent.ind with
    | _ v => exact ⟨G.connectedComponentMk v,rfl⟩
  have hinj := (hsurj.bijective_of_nat_card_le hcard).injective
  exact ConnectedComponent.eq.mp (hinj (ConnectedComponent.eq.mpr huv))

theorem card_components_congr (h : ∀ u v, G.Reachable u v ↔ H.Reachable u v) :
    Nat.card G.ConnectedComponent = Nat.card H.ConnectedComponent :=
  Nat.card_congr (Quot.congrRight h)

def classGraph {W : Type*} (f : V → W) : SimpleGraph V :=
  SimpleGraph.fromRel fun u v => f u = f v

theorem reachable_classGraph {W : Type*} (f : V → W) {u v : V} :
    (classGraph f).Reachable u v ↔ f u = f v := by
  constructor
  · refine reachable_of_adj (R := fun u v => f u = f v) (eq_equivalence.comap f) ?_
    rintro x y ⟨_,hxy | hxy⟩
    · exact hxy
    · exact hxy.symm
  · intro h
    by_cases huv : u = v
    · exact huv ▸ .refl u
    · exact Adj.reachable ⟨huv,.inl h⟩

def Linking (K : SimpleGraph V) : List (V × V) → Prop
  | [] => True
  | e :: es => ¬ K.Reachable e.1 e.2 ∧ Linking (K ⊔ edge e.1 e.2) es

def Apart (e e' : V × V) : Prop := e ≠ e' ∧ e.swap ≠ e'

theorem adj_sup_edge_iff {e e' : V × V} (h : e'.1 ≠ e'.2) :
    (K ⊔ edge e.1 e.2).Adj e'.1 e'.2 ↔ K.Adj e'.1 e'.2 ∨ ¬ Apart e e' := by
  obtain ⟨a,b⟩ := e
  obtain ⟨a',b'⟩ := e'
  simp only [sup_adj,edge_adj,Apart,ne_eq,Prod.mk.injEq,Prod.swap_prod_mk] at h ⊢
  refine or_congr_right ?_
  constructor
  · rintro ⟨⟨rfl,rfl⟩ | ⟨rfl,rfl⟩,_⟩ hno
    · exact hno.1 ⟨rfl,rfl⟩
    · exact hno.2 ⟨rfl,rfl⟩
  · intro hno
    refine ⟨?_,h⟩
    by_contra hc
    exact hno ⟨fun he => hc (.inl ⟨he.1.symm,he.2.symm⟩),fun he => hc (.inr ⟨he.1.symm,he.2.symm⟩)⟩

theorem not_reachable_of_acyclic_sup {a b : V} (hne : a ≠ b) (hK : ¬ K.Adj a b)
    (h : (K ⊔ edge a b).IsAcyclic) : ¬ K.Reachable a b := by
  have hadj : (K ⊔ edge a b).Adj a b := .inr ((edge_adj a b a b).mpr ⟨.inl ⟨rfl,rfl⟩,hne⟩)
  have hbridge := isBridge_iff.mp (isAcyclic_iff_forall_adj_isBridge.mp h hadj)
  refine fun hr => hbridge (hr.mono fun x y hxy => ?_)
  rw [deleteEdges_adj]
  refine ⟨.inl hxy,fun hm => ?_⟩
  rcases Sym2.eq_iff.mp (Set.mem_singleton_iff.mp hm) with ⟨rfl,rfl⟩ | ⟨rfl,rfl⟩
  · exact hK hxy
  · exact hK hxy.symm

theorem linking_iff {es : List (V × V)} (hK : K.IsAcyclic) :
    Linking K es ↔ (∀ e ∈ es, e.1 ≠ e.2 ∧ ¬ K.Adj e.1 e.2) ∧ es.Pairwise Apart ∧
      (K ⊔ pairGraph es).IsAcyclic := by
  induction es generalizing K with
  | nil => simp [Linking,pairGraph,hK]
  | cons e es ih =>
    have hassoc : K ⊔ pairGraph (e :: es) = K ⊔ edge e.1 e.2 ⊔ pairGraph es := by
      rw [pairGraph,sup_comm (pairGraph es),sup_assoc]
    rw [Linking,hassoc,List.pairwise_cons]
    constructor
    · rintro ⟨hr,hl⟩
      obtain ⟨hnew,hpair,hac⟩ := (ih (hK.sup_edge_of_not_reachable hr)).mp hl
      have hlater {e' : V × V} (he : e' ∈ es) : ¬ K.Adj e'.1 e'.2 ∧ Apart e e' := by
        have hno := (adj_sup_edge_iff (hnew e' he).1).not.mp (hnew e' he).2
        exact ⟨fun h => hno (.inl h),by_contra fun h => hno (.inr h)⟩
      refine ⟨?_,⟨fun e' he => (hlater he).2,hpair⟩,hac⟩
      rintro e' (_ | ⟨_,he⟩)
      · exact ⟨fun h => hr (h ▸ .refl _),fun h => hr h.reachable⟩
      · exact ⟨(hnew e' he).1,(hlater he).1⟩
    · rintro ⟨hnew,⟨hapart,hpair⟩,hac⟩
      obtain ⟨hne,hnot⟩ := hnew e List.mem_cons_self
      have hr := not_reachable_of_acyclic_sup hne hnot (hac.anti le_sup_left)
      refine ⟨hr,(ih (hK.sup_edge_of_not_reachable hr)).mpr ⟨fun e' he => ?_,hpair,hac⟩⟩
      obtain ⟨hne',hnot'⟩ := hnew e' (List.mem_cons_of_mem _ he)
      refine ⟨hne',fun h => ?_⟩
      rcases (adj_sup_edge_iff hne').mp h with h | h
      · exact hnot' h
      · exact h (hapart e' he)

end SpanningForest
