import GraphZeppelin.Lib.SpanningForest

namespace CutContraction
open SimpleGraph SpanningForest

section Fibres

variable {α β : Type*} [DecidableEq β]

theorem two_mul_card_le {f : α → β} {s t : Finset α} {s' : Finset β}
    (h : ∀ b ∈ s', 2 ≤ (s.filter fun a => f a = b).card + (t.filter fun a => f a = b).card) :
    2 * s'.card ≤ s.card + t.card := by
  have hs := Finset.sum_card_fiberwise_eq_card_filter s s' f
  have ht := Finset.sum_card_fiberwise_eq_card_filter t s' f
  calc 2 * s'.card = ∑ _b ∈ s', 2 := by rw [Finset.sum_const,smul_eq_mul,Nat.mul_comm]
    _ ≤ ∑ b ∈ s', ((s.filter fun a => f a = b).card + (t.filter fun a => f a = b).card) :=
      Finset.sum_le_sum h
    _ = (s.filter fun a => f a ∈ s').card + (t.filter fun a => f a ∈ s').card := by
      rw [Finset.sum_add_distrib,hs,ht]
    _ ≤ s.card + t.card := Nat.add_le_add (Finset.card_filter_le _ _) (Finset.card_filter_le _ _)

end Fibres

section Shrink

theorem pow_mul_le {a b N : ℕ} (o : ℕ → ℕ) (h : ∀ r < N, b * o (r + 1) ≤ a * o r) :
    b ^ N * o N ≤ a ^ N * o 0 := by
  induction N with
  | zero => exact le_rfl
  | succ N ih =>
    have hN := ih fun r hr => h r (Nat.lt_succ_of_lt hr)
    calc b ^ (N + 1) * o (N + 1) = b ^ N * (b * o (N + 1)) := by rw [pow_succ,Nat.mul_assoc]
      _ ≤ b ^ N * (a * o N) := Nat.mul_le_mul_left _ (h N (Nat.lt_succ_self N))
      _ = a * (b ^ N * o N) := by ring
      _ ≤ a * (a ^ N * o 0) := Nat.mul_le_mul_left _ hN
      _ = a ^ (N + 1) * o 0 := by ring

end Shrink

variable {V : Type*} {G K K' : SimpleGraph V}

def Leaves (G K : SimpleGraph V) (c : K.ConnectedComponent) : Prop :=
  ∃ u w, K.connectedComponentMk u = c ∧ G.Adj u w ∧ K.connectedComponentMk w ≠ c

def grow (h : K ≤ K') : K.ConnectedComponent → K'.ConnectedComponent :=
  ConnectedComponent.map (Hom.ofLE h)

theorem grow_mk (h : K ≤ K') (v : V) :
    grow h (K.connectedComponentMk v) = K'.connectedComponentMk v := rfl

theorem Leaves.other {c : K.ConnectedComponent} (h : Leaves G K c) :
    ∃ d, d ≠ c ∧ Leaves G K d := by
  obtain ⟨u,w,rfl,hadj,hne⟩ := h
  exact ⟨_,hne,w,u,rfl,hadj.symm,hne.symm⟩

theorem Leaves.grown (h : K ≤ K') {c' : K'.ConnectedComponent} (hc : Leaves G K' c') :
    ∃ c, grow h c = c' ∧ Leaves G K c := by
  obtain ⟨u,w,rfl,hadj,hne⟩ := hc
  exact ⟨_,grow_mk h u,u,w,rfl,hadj,fun he => hne (congrArg (grow h) he)⟩

section Open

variable [Finite V]

noncomputable def openComponents (G K : SimpleGraph V) : Finset K.ConnectedComponent :=
  (Set.toFinite {c | Leaves G K c}).toFinset

theorem mem_openComponents {c : K.ConnectedComponent} :
    c ∈ openComponents G K ↔ Leaves G K c :=
  Set.Finite.mem_toFinset _

theorem openComponents_card_le (G K : SimpleGraph V) : (openComponents G K).card ≤ Nat.card V := by
  have := Fintype.ofFinite K.ConnectedComponent
  have hle : Nat.card K.ConnectedComponent ≤ Nat.card V :=
    Nat.card_le_card_of_surjective K.connectedComponentMk Quot.mk_surjective
  rw [Nat.card_eq_fintype_card] at hle
  exact (Finset.card_le_univ _).trans hle

theorem openComponents_card_ne_one (G K : SimpleGraph V) : (openComponents G K).card ≠ 1 := by
  intro h
  obtain ⟨c,hc⟩ := Finset.card_eq_one.mp h
  have hmem {d : K.ConnectedComponent} : Leaves G K d ↔ d = c := by
    rw [← mem_openComponents,hc,Finset.mem_singleton]
  obtain ⟨d,hne,hd⟩ := (hmem.mpr rfl).other
  exact hne (hmem.mp hd)

theorem openComponents_eq_empty_iff :
    openComponents G K = ∅ ↔ ∀ u v, G.Reachable u v → K.Reachable u v := by
  constructor
  · intro h u v huv
    refine reachable_of_adj (R := fun x y => K.Reachable x y)
      ⟨fun _ => .rfl,Reachable.symm,Reachable.trans⟩ (fun x y hxy => ?_) huv
    by_contra hne
    have hleaves : Leaves G K (K.connectedComponentMk x) :=
      ⟨x,y,rfl,hxy,fun he => hne (ConnectedComponent.exact he).symm⟩
    exact Finset.notMem_empty _ (h ▸ mem_openComponents.mpr hleaves)
  · intro h
    refine Finset.eq_empty_of_forall_notMem fun c hc => ?_
    obtain ⟨u,w,rfl,hadj,hne⟩ := mem_openComponents.mp hc
    exact hne (ConnectedComponent.sound (h w u hadj.symm.reachable))

-- an open class of K' holds two open classes of K, unless the only one it holds was passed over
theorem contract (h : K ≤ K') {F : Finset K.ConnectedComponent}
    (hjoin : ∀ c ∈ openComponents G K, c ∉ F →
      ∃ u w, K.connectedComponentMk u = c ∧ G.Adj u w ∧ K.connectedComponentMk w ≠ c ∧
        K'.Reachable u w) :
    2 * (openComponents G K').card ≤ (openComponents G K).card + F.card := by
  classical
  refine two_mul_card_le (f := grow h) fun c' hc' => ?_
  obtain ⟨c,hgrow,hc⟩ := (mem_openComponents.mp hc').grown h
  have hc := mem_openComponents.mpr hc
  have hmem : c ∈ (openComponents G K).filter fun a => grow h a = c' :=
    Finset.mem_filter.mpr ⟨hc,hgrow⟩
  by_cases hF : c ∈ F
  · exact Nat.add_le_add (Finset.card_pos.mpr ⟨c,hmem⟩)
      (Finset.card_pos.mpr ⟨c,Finset.mem_filter.mpr ⟨hF,hgrow⟩⟩)
  · obtain ⟨u,w,rfl,hadj,hne,hreach⟩ := hjoin c hc hF
    have hw : K.connectedComponentMk w ∈ (openComponents G K).filter fun a => grow h a = c' := by
      refine Finset.mem_filter.mpr ⟨mem_openComponents.mpr ⟨w,u,rfl,hadj.symm,hne.symm⟩,?_⟩
      rw [← hgrow,grow_mk,grow_mk]
      exact ConnectedComponent.sound hreach.symm
    have htwo := Finset.one_lt_card.mpr ⟨_,hmem,_,hw,hne.symm⟩
    exact Nat.le_add_right_of_le htwo

end Open

end CutContraction
