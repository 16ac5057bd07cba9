import GraphZeppelin.Sketch.Sampling

namespace GraphZeppelin

structure Edge (n : ℕ) where
  src : Fin n
  dst : Fin n
deriving DecidableEq, Repr

def concatPairingFn (i j : NodeId) : BitVec 64 :=
  let e := if i > j then (j,i) else (i,j)
  (e.1.setWidth 64 <<< 32) ||| e.2.setWidth 64

def invConcatPairingFn (idx : BitVec 64) : NodeId × NodeId :=
  ((idx >>> 32).setWidth 32,(idx &&& 0xFFFFFFFF#64).setWidth 32)

theorem concatPairingFn_comm (i j : NodeId) : concatPairingFn i j = concatPairingFn j i := by
  unfold concatPairingFn
  rcases BitVec.lt_trichotomy i j with h | rfl | h
  · have h' : ¬ j < i := BitVec.not_lt.mpr (BitVec.le_of_lt h)
    simp [h,h']
  · rfl
  · have h' : ¬ i < j := BitVec.not_lt.mpr (BitVec.le_of_lt h)
    simp [h,h']

theorem setWidth_mask (x : BitVec 64) :
    (x &&& 0xFFFFFFFF#64).setWidth 32 = x.setWidth 32 := by
  have hmask : (0xFFFFFFFF#64).setWidth 32 = BitVec.allOnes 32 := by decide
  rw [BitVec.setWidth_and,hmask,BitVec.and_allOnes]

theorem inv_concat_of_le {i j : NodeId} (h : ¬ i > j) :
    invConcatPairingFn (concatPairingFn i j) = (i,j) := by
  simp only [concatPairingFn,if_neg h,invConcatPairingFn,setWidth_mask,Prod.mk.injEq]
  constructor
  · ext k hk
    have h1 : 32 + k < 64 := by omega
    have h2 : k < 64 := by omega
    simp [h1,h2,BitVec.getLsbD_eq_getElem hk]
  · ext k hk
    simp

theorem inv_concat (i j : NodeId) :
    invConcatPairingFn (concatPairingFn i j) = (i,j) ∨
      invConcatPairingFn (concatPairingFn i j) = (j,i) := by
  by_cases h : i > j
  · right
    rw [concatPairingFn_comm]
    exact inv_concat_of_le (BitVec.not_lt.mpr (BitVec.le_of_lt h))
  · exact .inl (inv_concat_of_le h)

variable {n : ℕ}

def nodeId (v : Fin n) : NodeId := BitVec.ofNat 32 v

def edgeIdx (u v : Fin n) : VecT := concatPairingFn (nodeId u) (nodeId v)

theorem edgeIdx_comm (u v : Fin n) : edgeIdx u v = edgeIdx v u := concatPairingFn_comm _ _

theorem nodeId_toNat (hn : n < 2 ^ 32) (v : Fin n) : (nodeId v).toNat = v := by
  rw [nodeId,BitVec.toNat_ofNat]
  exact Nat.mod_eq_of_lt (v.isLt.trans hn)

theorem nodeId_injective (hn : n < 2 ^ 32) : Function.Injective (nodeId (n := n)) := by
  intro u v h
  refine Fin.ext ?_
  rw [← nodeId_toNat hn u,h,nodeId_toNat hn]

theorem edgeIdx_eq_iff (hn : n < 2 ^ 32) {u v x y : Fin n} :
    edgeIdx u v = edgeIdx x y ↔ (u = x ∧ v = y) ∨ (u = y ∧ v = x) := by
  constructor
  · intro h
    have hinv := congrArg invConcatPairingFn h
    have pair {a b c d : Fin n} (h : (nodeId a,nodeId b) = (nodeId c,nodeId d)) : a = c ∧ b = d :=
      ⟨nodeId_injective hn (congrArg Prod.fst h),nodeId_injective hn (congrArg Prod.snd h)⟩
    rcases inv_concat (nodeId u) (nodeId v) with huv | huv <;>
      rcases inv_concat (nodeId x) (nodeId y) with hxy | hxy
    · exact .inl (pair (huv.symm.trans (hinv.trans hxy)))
    · exact .inr (pair (huv.symm.trans (hinv.trans hxy)))
    · exact .inr (pair (huv.symm.trans (hinv.trans hxy))).symm
    · exact .inl (pair (huv.symm.trans (hinv.trans hxy))).symm
  · rintro (⟨rfl,rfl⟩ | ⟨rfl,rfl⟩)
    · rfl
    · exact edgeIdx_comm _ _

section Cut

variable (G : SimpleGraph (Fin n)) [DecidableRel G.Adj]

def incident (v : Fin n) : Finset VecT :=
  (Finset.univ.filter (G.Adj v)).image (edgeIdx v)

def cutEdges (A : Finset (Fin n)) : Finset VecT :=
  ((A ×ˢ Aᶜ).filter fun e => G.Adj e.1 e.2).image fun e => edgeIdx e.1 e.2

theorem mem_cutEdges {A : Finset (Fin n)} {i : VecT} :
    i ∈ cutEdges G A ↔ ∃ u v, u ∈ A ∧ v ∉ A ∧ G.Adj u v ∧ edgeIdx u v = i := by
  simp only [cutEdges,Finset.mem_image,Finset.mem_filter,Finset.mem_product,Finset.mem_compl,
    Prod.exists]
  constructor
  · rintro ⟨u,v,⟨⟨hu,hv⟩,huv⟩,hi⟩
    exact ⟨u,v,hu,hv,huv,hi⟩
  · rintro ⟨u,v,hu,hv,huv,hi⟩
    exact ⟨u,v,⟨⟨hu,hv⟩,huv⟩,hi⟩

theorem cutEdges_eq_empty_iff {A : Finset (Fin n)} :
    cutEdges G A = ∅ ↔ ∀ u ∈ A, ∀ v, G.Adj u v → v ∈ A := by
  constructor
  · intro h u hu v huv
    by_contra hv
    have hmem := (mem_cutEdges G).mpr ⟨u,v,hu,hv,huv,rfl⟩
    simp [h] at hmem
  · intro h
    refine Finset.eq_empty_of_forall_notMem fun i hi => ?_
    obtain ⟨u,v,hu,hv,huv,_⟩ := (mem_cutEdges G).mp hi
    exact hv (h u hu v huv)

variable {M : Type*} [AddCommGroup M]

theorem sum_incident (hn : n < 2 ^ 32) (f : VecT → M) (v : Fin n) :
    ∑ i ∈ incident G v, f i = ∑ u with G.Adj v u, f (edgeIdx v u) := by
  refine Finset.sum_image fun u hu w hw h => ?_
  rcases (edgeIdx_eq_iff hn).mp h with ⟨_,h⟩ | ⟨h,h'⟩
  · exact h
  · exact h'.trans h

theorem sum_cutEdges (hn : n < 2 ^ 32) (f : VecT → M) (A : Finset (Fin n)) :
    ∑ i ∈ cutEdges G A, f i = ∑ v ∈ A, ∑ u ∈ Aᶜ with G.Adj v u, f (edgeIdx v u) := by
  have hprod : ∑ v ∈ A, ∑ u ∈ Aᶜ with G.Adj v u, f (edgeIdx v u) =
      ∑ e ∈ A ×ˢ Aᶜ with G.Adj e.1 e.2, f (edgeIdx e.1 e.2) := by
    simp only [Finset.sum_filter,Finset.sum_product]
  rw [hprod]
  refine Finset.sum_image fun e he e' he' h => ?_
  simp only [Finset.coe_filter,Finset.mem_product,Finset.mem_compl,Set.mem_ofPred_eq] at he he'
  rcases (edgeIdx_eq_iff hn).mp h with ⟨h1,h2⟩ | ⟨h1,_⟩
  · exact Prod.ext h1 h2
  · exact absurd (h1 ▸ he.1.1) he'.1.2

theorem sum_supernode [XorGroup M] (hn : n < 2 ^ 32) (f : VecT → M) (A : Finset (Fin n)) :
    ∑ v ∈ A, ∑ i ∈ incident G v, f i = ∑ i ∈ cutEdges G A, f i := by
  simp only [sum_incident G hn,sum_cutEdges G hn]
  exact XorGroup.sum_incident_eq_cut G (fun u v => f (edgeIdx u v))
    (fun u v => by rw [edgeIdx_comm]) A

end Cut
end GraphZeppelin
