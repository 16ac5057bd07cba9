import GraphZeppelin.EdgeStore.Merge

namespace GraphZeppelin

variable {n : ℕ}

def WellTagged (depth : Fin n → Fin n → ℕ) (bound : ℕ) (v : Fin n)
    (l : List (SubgraphTaggedUpdate n)) : Prop :=
  ∀ e ∈ l, ∀ g ≤ bound, g ≤ e.subgraph ↔ g ≤ depth v e.dst

namespace WellTagged

variable {depth : Fin n → Fin n → ℕ} {bound g : ℕ} {v u : Fin n}
  {l l' : List (SubgraphTaggedUpdate n)}

theorem nil : WellTagged depth bound v [] := fun _ he => by cases he

theorem mono (h : WellTagged depth bound v l) (hl : ∀ e ∈ l', e ∈ l) :
    WellTagged depth bound v l' :=
  fun e he => h e (hl e he)

theorem append (h : WellTagged depth bound v l) (h' : WellTagged depth bound v l') :
    WellTagged depth bound v (l ++ l') :=
  fun e he => (List.mem_append.mp he).elim (h e) (h' e)

theorem countP_ge (h : WellTagged depth bound v l) (hg : g ≤ bound) (u : Fin n) :
    (l.countP fun e => e.dst = u ∧ g ≤ e.subgraph) =
      if g ≤ depth v u then l.countP fun e => e.dst = u else 0 := by
  split
  · next hd =>
    refine List.countP_congr fun e he => ?_
    simp only [decide_eq_true_eq,and_iff_left_iff_imp]
    rintro rfl
    exact (h e he g hg).mpr hd
  · next hd =>
    refine List.countP_eq_zero.mpr fun e he => ?_
    simp only [decide_eq_true_eq,not_and]
    rintro rfl hle
    exact hd ((h e he g hg).mp hle)

theorem countP_filter (h : WellTagged depth bound v l) (hg : g ≤ bound) (u : Fin n) :
    ((l.filter fun e => g ≤ e.subgraph).countP fun e => e.dst = u) =
      if g ≤ depth v u then l.countP fun e => e.dst = u else 0 := by
  rw [List.countP_filter,← h.countP_ge hg u]
  refine List.countP_congr fun e _ => ?_
  simp

theorem reaches_full (h : WellTagged depth bound v l) {f : ℕ} (hf : 0 < f) (hb : f ≤ bound)
    (g : ℕ) (u : Fin n) : (⟨v,0,f,l⟩ : TaggedUpdateBatch n).reaches g v u =
      if g < f ∧ g ≤ depth v u then l.countP fun e => e.dst = u else 0 := by
  rw [TaggedUpdateBatch.reaches,if_pos rfl]
  by_cases hgf : g < f
  · rw [if_congr (and_iff_right hgf) rfl rfl,← h.countP_ge (by omega) u]
    refine List.countP_congr fun e _ => ?_
    simp only [decide_eq_true_eq]
    omega
  · rw [if_neg fun hh => hgf hh.1,List.countP_eq_zero]
    intro e _
    simp only [decide_eq_true_eq]
    omega

theorem reaches_last (h : WellTagged depth bound v l) {c : ℕ} (hc : 0 < c) (hb : c ≤ bound)
    (g : ℕ) (u : Fin n) : (⟨v,c - 1,c,l⟩ : TaggedUpdateBatch n).reaches g v u =
      if g + 1 = c ∧ g ≤ depth v u then l.countP fun e => e.dst = u else 0 := by
  rw [TaggedUpdateBatch.reaches,if_pos rfl]
  by_cases hgc : g + 1 = c
  · rw [if_congr (and_iff_right hgc) rfl rfl,← h.countP_ge (by omega) u]
    refine List.countP_congr fun e _ => ?_
    simp only [decide_eq_true_eq]
    omega
  · rw [if_neg fun hh => hgc hh.1,List.countP_eq_zero]
    intro e _
    simp only [decide_eq_true_eq]
    omega

end WellTagged

theorem TaggedUpdateBatch.reaches_nil (v w u : Fin n) (m f g : ℕ) :
    (⟨v,m,f,[]⟩ : TaggedUpdateBatch n).reaches g w u = 0 := by
  simp [reaches]

theorem TaggedUpdateBatch.reaches_ne {b : TaggedUpdateBatch n} {v : Fin n} (h : b.src ≠ v) (g : ℕ)
    (u : Fin n) : b.reaches g v u = 0 := by
  rw [reaches,if_neg h]

namespace EdgeStore

def due (depth : Fin n → Fin n → ℕ) (N : Fin n → Fin n → ℕ) (g : ℕ) (v u : Fin n) : ZMod 2 :=
  if g ≤ depth v u then (N v u : ZMod 2) else 0

section Balance

variable (depth : Fin n → Fin n → ℕ) (bound : ℕ) (s : EdgeStore n)
  (D : ℕ → Fin n → Fin n → ℕ) (N : Fin n → Fin n → ℕ)

structure Settled (v : Fin n) : Prop where
  last : ∀ u g, g + 1 = s.curSubgraph → (D g v u : ZMod 2) = due depth N g v u
  stored : ∀ u, (s.entries v u : ZMod 2) = due depth N s.curSubgraph v u
  tags : ∀ e ∈ s.adjlist v, s.curSubgraph ≤ e.subgraph

structure Unsettled (v : Fin n) : Prop where
  pos : 0 < s.curSubgraph
  last : ∀ u g, g + 1 = s.curSubgraph →
    (s.entries v u + D g v u : ZMod 2) = due depth N g v u
  untouched : ∀ u g, g + 1 = s.curSubgraph → s.curSubgraph ≤ depth v u → (D g v u : ZMod 2) = 0
  tags : ∀ e ∈ s.adjlist v, s.curSubgraph ≤ e.subgraph + 1

structure Balanced : Prop where
  bounded : s.curSubgraph ≤ bound
  tagged : ∀ v, WellTagged depth bound v (s.adjlist v)
  low : ∀ g v u, g + 1 < s.curSubgraph → (D g v u : ZMod 2) = due depth N g v u
  high : ∀ g v u, s.curSubgraph ≤ g → (D g v u : ZMod 2) = 0
  settled : ∀ v, s.vertexContracted v = true → s.Settled depth D N v
  unsettled : ∀ v, s.vertexContracted v = false → s.Unsettled depth D N v

end Balance

variable {depth : Fin n → Fin n → ℕ} {bound : ℕ} {s s' : EdgeStore n}
  {D D' : ℕ → Fin n → Fin n → ℕ} {N N' : Fin n → Fin n → ℕ} {v : Fin n}

theorem Settled.congr (h : s.Settled depth D N v) (hc : s'.curSubgraph = s.curSubgraph)
    (ha : s'.adjlist v = s.adjlist v) (hD : ∀ g u, D' g v u = D g v u)
    (hN : ∀ u, N' v u = N v u) : s'.Settled depth D' N' v := by
  refine ⟨fun u g hg => ?_,fun u => ?_,?_⟩
  · rw [hD,due,hN]
    exact h.last u g (hc ▸ hg)
  · rw [entries,ha,due,hN,hc]
    exact h.stored u
  · rw [ha,hc]
    exact h.tags

theorem Unsettled.congr (h : s.Unsettled depth D N v) (hc : s'.curSubgraph = s.curSubgraph)
    (ha : s'.adjlist v = s.adjlist v) (hD : ∀ g u, D' g v u = D g v u)
    (hN : ∀ u, N' v u = N v u) : s'.Unsettled depth D' N' v := by
  refine ⟨hc ▸ h.pos,fun u g hg => ?_,fun u g hg hd => ?_,?_⟩
  · rw [entries,ha,hD,due,hN]
    exact h.last u g (hc ▸ hg)
  · rw [hD]
    exact h.untouched u g (hc ▸ hg) (hc ▸ hd)
  · rw [ha,hc]
    exact h.tags

theorem Unsettled.settled_of_nil (h : s.Unsettled depth D N v) (hv : s.adjlist v = []) :
    s.Settled depth D N v := by
  have hlast (u : Fin n) (g : ℕ) (hg : g + 1 = s.curSubgraph) :
      (D g v u : ZMod 2) = due depth N g v u := by
    have hsum := h.last u g hg
    rwa [entries,hv,List.countP_nil,Nat.cast_zero,zero_add] at hsum
  refine ⟨hlast,fun u => ?_,?_⟩
  · obtain ⟨g,hg⟩ : ∃ g, g + 1 = s.curSubgraph := ⟨_,Nat.sub_add_cancel h.pos⟩
    rw [entries,hv,List.countP_nil,Nat.cast_zero,due]
    split
    · next hd =>
      have hN := hlast u g hg
      rw [h.untouched u g hg hd,due,if_pos (by omega)] at hN
      exact hN
    · rfl
  · rw [hv]
    exact fun e he => by cases he

theorem Unsettled.settle (h : s.Unsettled depth D N v)
    (ht : WellTagged depth bound v (s.adjlist v)) (hb : s.curSubgraph ≤ bound)
    (hc : s'.curSubgraph = s.curSubgraph)
    (ha : s'.adjlist v = (s.adjlist v).filter fun e => s.curSubgraph ≤ e.subgraph)
    (hD : ∀ g u, D' g v u = D g v u +
      (⟨v,s.curSubgraph - 1,s.curSubgraph,s.adjlist v⟩ : TaggedUpdateBatch n).reaches g v u) :
    s'.Settled depth D' N v := by
  obtain ⟨hpos,hlast,hun,htags⟩ := h
  refine ⟨fun u g hg => ?_,fun u => ?_,fun e he => ?_⟩
  · rw [hc] at hg
    have hsum := hlast u g hg
    rw [hD,ht.reaches_last hpos hb]
    by_cases hd : g ≤ depth v u
    · rw [if_pos ⟨hg,hd⟩,Nat.cast_add,add_comm]
      exact hsum
    · have hzero : s.entries v u = 0 := by
        refine List.countP_eq_zero.mpr fun e he heu => hd ?_
        rw [decide_eq_true_eq] at heu
        subst heu
        have hle := htags e he
        exact (ht e he g (by omega)).mp (by omega)
      rw [if_neg fun hh => hd hh.2,add_zero]
      rwa [hzero,Nat.cast_zero,zero_add] at hsum
  · obtain ⟨g,hg⟩ : ∃ g, g + 1 = s.curSubgraph := ⟨_,Nat.sub_add_cancel hpos⟩
    rw [entries,ha,ht.countP_filter hb,due,hc]
    split
    · next hd =>
      have hsum := hlast u g hg
      rw [hun u g hg hd,add_zero,due,if_pos (by omega)] at hsum
      exact hsum
    · exact Nat.cast_zero
  · rw [ha] at he
    rw [hc]
    exact of_decide_eq_true (List.mem_filter.mp he).2

@[simp] theorem setBuffer_curSubgraph (data : List (SubgraphTaggedUpdate n)) :
    (s.setBuffer v data).curSubgraph = s.curSubgraph := rfl

@[simp] theorem setBuffer_vertexContracted (data : List (SubgraphTaggedUpdate n)) :
    (s.setBuffer v data).vertexContracted = s.vertexContracted := rfl

@[simp] theorem setBuffer_adjlist_self (data : List (SubgraphTaggedUpdate n)) :
    (s.setBuffer v data).adjlist v = data := Function.update_self ..

theorem setBuffer_adjlist_ne {w : Fin n} (h : w ≠ v) (data : List (SubgraphTaggedUpdate n)) :
    (s.setBuffer v data).adjlist w = s.adjlist w := Function.update_of_ne h ..

@[simp] theorem markContracted_self : (s.markContracted v).vertexContracted v = true :=
  Function.update_self ..

theorem markContracted_ne {w : Fin n} (h : w ≠ v) :
    (s.markContracted v).vertexContracted w = s.vertexContracted w := Function.update_of_ne h ..

theorem vertexContract_of_not {v : Fin n} (hv : s.vertexContracted v = false) :
    s.vertexContract v = ((s.markContracted v).setBuffer v
      ((s.adjlist v).filter fun e => s.curSubgraph ≤ e.subgraph),s.adjlist v) := by
  rw [vertexContract,if_neg (by simp [hv])]

namespace Balanced

theorem settled_of (h : s.Balanced depth bound D N)
    (hv : s.vertexContracted v = true ∨ s.adjlist v = []) : s.Settled depth D N v := by
  rcases Bool.eq_false_or_eq_true (s.vertexContracted v) with hc | hc
  · exact h.settled v hc
  · exact (h.unsettled v hc).settled_of_nil (hv.resolve_left (by simp [hc]))

theorem mark (h : s.Balanced depth bound D N)
    (hv : s.vertexContracted v = true ∨ s.adjlist v = []) :
    (s.markContracted v).Balanced depth bound D N := by
  refine ⟨h.bounded,h.tagged,h.low,h.high,fun w hw => ?_,fun w hw => ?_⟩
  · have hset : s.Settled depth D N w := by
      by_cases hwv : w = v
      · exact hwv ▸ h.settled_of hv
      · rw [markContracted_ne hwv] at hw
        exact h.settled w hw
    exact ⟨hset.last,hset.stored,hset.tags⟩
  · have hwv : w ≠ v := by
      rintro rfl
      simp at hw
    rw [markContracted_ne hwv] at hw
    obtain ⟨hpos,hlast,hun,htags⟩ := h.unsettled w hw
    exact ⟨hpos,hlast,hun,htags⟩

theorem begin (h : s.Balanced depth bound D N)
    (hall : ∀ v, s.vertexContracted v = true ∨ s.adjlist v = []) (hb : s.curSubgraph + 1 ≤ bound) :
    { s with
      vertexContracted := fun _ => false
      needsContraction := 0
      curSubgraph := s.curSubgraph + 1 : EdgeStore n }.Balanced depth bound D N := by
  refine ⟨hb,h.tagged,fun g v u hg => ?_,fun g v u hg => ?_,fun _ hv => (by cases hv),fun v _ => ?_⟩
  · rcases Nat.lt_or_eq_of_le (Nat.le_of_lt_succ hg) with hlt | heq
    · exact h.low g v u hlt
    · exact (h.settled_of (hall v)).last u g heq
  · exact h.high g v u (Nat.le_of_succ_le hg)
  · have hset := h.settled_of (hall v)
    refine ⟨Nat.succ_pos _,fun u g hg => ?_,fun u g hg _ => ?_,fun e he => ?_⟩
    · obtain rfl : g = s.curSubgraph := Nat.succ.inj hg
      rw [h.high _ v u le_rfl,add_zero]
      exact hset.stored u
    · obtain rfl : g = s.curSubgraph := Nat.succ.inj hg
      exact h.high _ v u le_rfl
    · exact Nat.succ_le_succ (hset.tags e he)

theorem contract (h : s.Balanced depth bound D N) (hv : s.vertexContracted v = false)
    (hD : ∀ g w u, D' g w u = D g w u +
      (⟨v,s.curSubgraph - 1,s.curSubgraph,s.adjlist v⟩ : TaggedUpdateBatch n).reaches g w u) :
    (s.vertexContract v).1.Balanced depth bound D' N := by
  have hreach := (h.tagged v).reaches_last (h.unsettled v hv).pos h.bounded
  have hne {w : Fin n} (hw : w ≠ v) (g : ℕ) (u : Fin n) : D' g w u = D g w u := by
    rw [hD,TaggedUpdateBatch.reaches_ne (Ne.symm hw),add_zero]
  have hother (g : ℕ) (w u : Fin n) (hg : g + 1 ≠ s.curSubgraph) : D' g w u = D g w u := by
    by_cases hw : w = v
    · subst hw
      rw [hD,hreach,if_neg fun hh => hg hh.1,add_zero]
    · exact hne hw g u
  rw [vertexContract_of_not hv]
  refine ⟨h.bounded,fun w => ?_,fun g w u hg => ?_,fun g w u hg => ?_,fun w hw => ?_,fun w hw => ?_⟩
  · by_cases hw : w = v
    · subst hw
      rw [setBuffer_adjlist_self]
      exact (h.tagged w).mono fun e he => List.mem_of_mem_filter he
    · rw [setBuffer_adjlist_ne hw]
      exact h.tagged w
  · rw [hother g w u (ne_of_lt hg)]
    exact h.low g w u hg
  · rw [hother g w u (Nat.ne_of_gt (Nat.lt_succ_of_le hg))]
    exact h.high g w u hg
  · by_cases hwv : w = v
    · subst hwv
      exact (h.unsettled w hv).settle (h.tagged w) h.bounded rfl (setBuffer_adjlist_self _)
        fun g u => hD g w u
    · rw [setBuffer_vertexContracted,markContracted_ne hwv] at hw
      exact (h.settled w hw).congr rfl (setBuffer_adjlist_ne hwv _) (hne hwv) fun _ => rfl
  · have hwv : w ≠ v := by
      rintro rfl
      simp at hw
    rw [setBuffer_vertexContracted,markContracted_ne hwv] at hw
    exact (h.unsettled w hw).congr rfl (setBuffer_adjlist_ne hwv _) (hne hwv) fun _ => rfl

theorem of_new {maxEdges start needs : ℕ} (hs : start ≤ bound) :
    (EdgeStore.new n maxEdges start needs).Balanced depth bound (fun _ _ _ => 0) fun _ _ => 0 := by
  have hdue (g : ℕ) (v u : Fin n) : due depth (fun _ _ => 0) g v u = 0 := by
    rw [due,Nat.cast_zero,ite_self]
  refine ⟨hs,fun _ => .nil,fun g v u _ => ?_,fun _ _ _ _ => Nat.cast_zero,fun v _ => ?_,
    fun _ hv => (by cases hv)⟩
  · rw [hdue]
    exact Nat.cast_zero
  · refine ⟨fun u g _ => ?_,fun u => ?_,fun _ he => by cases he⟩
    · rw [hdue]
      exact Nat.cast_zero
    · rw [hdue]
      exact Nat.cast_zero

theorem submit (h : s.Balanced depth bound D N) {k : Fin n → ℕ}
    (hflag : s.vertexContracted v = true ∨ ∀ u, s.curSubgraph ≤ depth v u → k u = 0)
    (hcur : s'.curSubgraph = s.curSubgraph) (hfl : s'.vertexContracted = s.vertexContracted)
    (hne : ∀ w, w ≠ v → s'.adjlist w = s.adjlist w)
    (htag : WellTagged depth bound v (s'.adjlist v))
    (hmem : ∀ e ∈ s'.adjlist v, e ∈ s.adjlist v ∨ s.curSubgraph ≤ e.subgraph)
    (hent : ∀ u, (s'.entries v u : ZMod 2) =
      s.entries v u + if s.curSubgraph ≤ depth v u then (k u : ZMod 2) else 0)
    (hD : ∀ g w u, D' g w u =
      D g w u + if w = v ∧ g < s.curSubgraph ∧ g ≤ depth v u then k u else 0)
    (hN : ∀ w u, N' w u = N w u + if w = v then k u else 0) :
    s'.Balanced depth bound D' N' := by
  have hDne {w : Fin n} (hw : w ≠ v) (g : ℕ) (u : Fin n) : D' g w u = D g w u := by
    rw [hD,if_neg fun hh => hw hh.1,add_zero]
  have hNne {w : Fin n} (hw : w ≠ v) (u : Fin n) : N' w u = N w u := by
    rw [hN,if_neg hw,add_zero]
  have hdue (g : ℕ) (u : Fin n) : due depth N' g v u =
      due depth N g v u + if g ≤ depth v u then (k u : ZMod 2) else 0 := by
    rw [due,due,hN,if_pos rfl,Nat.cast_add]
    split
    · rfl
    · exact (add_zero _).symm
  have hDv (g : ℕ) (u : Fin n) (hg : g < s.curSubgraph) : (D' g v u : ZMod 2) =
      D g v u + if g ≤ depth v u then (k u : ZMod 2) else 0 := by
    rw [hD,Nat.cast_add]
    by_cases hd : g ≤ depth v u
    · rw [if_pos ⟨rfl,hg,hd⟩,if_pos hd]
    · rw [if_neg fun hh => hd hh.2.2,if_neg hd,Nat.cast_zero]
  refine ⟨hcur ▸ h.bounded,fun w => ?_,fun g w u hg => ?_,fun g w u hg => ?_,fun w hw => ?_,
    fun w hw => ?_⟩
  · by_cases hw : w = v
    · exact hw ▸ htag
    · rw [hne w hw]
      exact h.tagged w
  · rw [hcur] at hg
    by_cases hw : w = v
    · subst hw
      rw [hDv g u (Nat.lt_of_succ_lt hg),hdue,h.low g w u hg]
    · rw [hDne hw,due,hNne hw]
      exact h.low g w u hg
  · rw [hcur] at hg
    rw [hD,if_neg fun hh => absurd hh.2.1 (not_lt.mpr hg),add_zero]
    exact h.high g w u hg
  · rw [hfl] at hw
    by_cases hwv : w = v
    · subst hwv
      obtain ⟨hlast,hstored,htags⟩ := h.settled w hw
      refine ⟨fun u g hg => ?_,fun u => ?_,fun e he => ?_⟩
      · rw [hcur] at hg
        rw [hDv g u (by omega),hdue,hlast u g hg]
      · rw [hent,hcur,hdue,hstored]
      · rw [hcur]
        exact (hmem e he).elim (htags e) id
    · exact (h.settled w hw).congr hcur (hne w hwv) (hDne hwv) (hNne hwv)
  · rw [hfl] at hw
    by_cases hwv : w = v
    · subst hwv
      obtain ⟨hpos,hlast,hun,htags⟩ := h.unsettled w hw
      have hk := hflag.resolve_left (by simp [hw])
      refine ⟨hcur ▸ hpos,fun u g hg => ?_,fun u g hg hd => ?_,fun e he => ?_⟩
      · rw [hcur] at hg
        have hnone : (if s.curSubgraph ≤ depth w u then (k u : ZMod 2) else 0) = 0 := by
          split
          · next hd => rw [hk u hd,Nat.cast_zero]
          · rfl
        rw [hent,hnone,add_zero,hDv g u (by omega),← add_assoc,hlast u g hg,hdue]
      · rw [hcur] at hg hd
        rw [hDv g u (by omega),hk u hd,Nat.cast_zero,ite_self,add_zero]
        exact hun u g hg hd
      · rw [hcur]
        exact (hmem e he).elim (htags e) Nat.le_succ_of_le
    · exact (h.unsettled w hw).congr hcur (hne w hwv) (hDne hwv) (hNne hwv)

end Balanced

end EdgeStore
end GraphZeppelin
