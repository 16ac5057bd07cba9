import GraphZeppelin.EdgeStore.Insert

namespace GraphZeppelin.EdgeStore

variable {n : ℕ} {depth : Fin n → Fin n → ℕ} {bound : ℕ} {s s' : EdgeStore n}
  {D : ℕ → Fin n → Fin n → ℕ} {N : Fin n → Fin n → ℕ} {src : Fin n}

structure Sequential (s : EdgeStore n) : Prop where
  lo : s.trueMinSubgraph ≤ s.curSubgraph
  hi : s.curSubgraph ≤ s.trueMinSubgraph + 1
  done : s.trueMinSubgraph = s.curSubgraph → ∀ v, s.vertexContracted v = true
  fetched : s.trueMinSubgraph < s.curSubgraph →
    s.needsContraction ≤ n ∧ ∀ v : Fin n, v < s.needsContraction → s.vertexContracted v = true

theorem Sequential.of_flags (h : s.Sequential) (hc : s'.curSubgraph = s.curSubgraph)
    (hm : s'.trueMinSubgraph = s.trueMinSubgraph) (hn : s'.needsContraction = s.needsContraction)
    (hf : ∀ v, s.vertexContracted v = true → s'.vertexContracted v = true) : s'.Sequential := by
  refine ⟨?_,?_,fun he v => ?_,fun hlt => ?_⟩
  · rw [hc,hm]
    exact h.lo
  · rw [hc,hm]
    exact h.hi
  · rw [hc,hm] at he
    exact hf v (h.done he v)
  · rw [hc,hm] at hlt
    rw [hn]
    exact ⟨(h.fetched hlt).1,fun v hv => hf v ((h.fetched hlt).2 v hv)⟩

theorem Sequential.finish (h : s.Sequential) (hlt : s.trueMinSubgraph < s.curSubgraph)
    (hneeds : s.needsContraction = n) (k : ℕ) :
    { s with needsContraction := k : EdgeStore n }.finishContraction.Sequential := by
  obtain ⟨_,hall⟩ := h.fetched hlt
  have heq : s.trueMinSubgraph + 1 = s.curSubgraph := le_antisymm hlt h.hi
  refine ⟨le_of_eq heq,?_,fun _ v => hall v (hneeds.symm ▸ v.isLt),fun hlt' => ?_⟩
  · exact (ge_of_eq heq).trans (Nat.le_succ _)
  · exact absurd hlt' (not_lt.mpr (ge_of_eq heq))

theorem Sequential.advance (h : s.Sequential) (hlt : s.trueMinSubgraph < s.curSubgraph)
    (hneeds : s.needsContraction < n) (hc : s'.curSubgraph = s.curSubgraph)
    (hm : s'.trueMinSubgraph = s.trueMinSubgraph)
    (hn : s'.needsContraction = s.needsContraction + 1)
    (hf : ∀ v, s.vertexContracted v = true ∨ (v : ℕ) = s.needsContraction →
      s'.vertexContracted v = true) : s'.Sequential := by
  obtain ⟨_,hall⟩ := h.fetched hlt
  refine ⟨?_,?_,fun he => ?_,fun _ => ⟨?_,fun v hv => ?_⟩⟩
  · rw [hc,hm]
    exact h.lo
  · rw [hc,hm]
    exact h.hi
  · rw [hc,hm] at he
    exact absurd he (ne_of_lt hlt)
  · rw [hn]
    exact hneeds
  · rw [hn] at hv
    rcases Nat.lt_succ_iff_lt_or_eq.mp hv with hv | hv
    · exact hf v (.inl (hall v hv))
    · exact hf v (.inr hv)

structure Advanced (depth : Fin n → Fin n → ℕ) (bound : ℕ) (D : ℕ → Fin n → Fin n → ℕ)
    (N : Fin n → Fin n → ℕ) (s : EdgeStore n) (r : EdgeStore n × TaggedUpdateBatch n) : Prop where
  seq : r.1.Sequential
  balanced : r.1.Balanced depth bound (fun g w u => D g w u + r.2.reaches g w u) N
  cur : r.1.curSubgraph = s.curSubgraph
  first : r.2.firstEsSubgraph = s.curSubgraph
  progress : r.1.trueMinSubgraph = r.1.curSubgraph ∨
    (s.needsContraction < r.1.needsContraction ∧ r.1.trueMinSubgraph < r.1.curSubgraph)

theorem needsContract_false {v : Fin n} (h : s.needsContract v = false) :
    s.vertexContracted v = true ∨ s.adjlist v = [] := by
  simp only [needsContract,Bool.and_eq_false_iff,Bool.not_eq_false'] at h
  exact h.symm.imp_right List.isEmpty_iff.mp

theorem needsContract_true {v : Fin n} (h : s.needsContract v = true) :
    s.vertexContracted v = false := by
  simp only [needsContract,Bool.and_eq_true,Bool.not_eq_true'] at h
  exact h.2

theorem Balanced.fetch (h : s.Balanced depth bound D N) (k : ℕ) :
    { s with needsContraction := k : EdgeStore n }.Balanced depth bound D N :=
  ⟨h.bounded,h.tagged,h.low,h.high,fun v hv => ⟨(h.settled v hv).last,(h.settled v hv).stored,
    (h.settled v hv).tags⟩,fun v hv => ⟨(h.unsettled v hv).pos,(h.unsettled v hv).last,
    (h.unsettled v hv).untouched,(h.unsettled v hv).tags⟩⟩

theorem Balanced.finish (h : s.Balanced depth bound D N) :
    s.finishContraction.Balanced depth bound D N :=
  ⟨h.bounded,h.tagged,h.low,h.high,fun v hv => ⟨(h.settled v hv).last,(h.settled v hv).stored,
    (h.settled v hv).tags⟩,fun v hv => ⟨(h.unsettled v hv).pos,(h.unsettled v hv).last,
    (h.unsettled v hv).untouched,(h.unsettled v hv).tags⟩⟩

def fetchNext (s : EdgeStore n) : EdgeStore n :=
  { s with needsContraction := s.needsContraction + 1 }

theorem fetchContraction_of_lt (h : s.needsContraction + 1 < 2 ^ 32) :
    s.fetchContraction = (s.fetchNext,s.needsContraction) := by
  unfold fetchContraction fetchNext
  rw [Nat.mod_eq_of_lt h]

theorem vertexAdvanceLoop_lt [NeZero n] {c fuel : ℕ} (hn : n < 2 ^ 32)
    (h : s.needsContraction < n) : vertexAdvanceLoop c (fuel + 1) s =
      if s.fetchNext.needsContract ⟨s.needsContraction,h⟩ then
        .ok ((s.fetchNext.vertexContract ⟨s.needsContraction,h⟩).1,
          ⟨⟨s.needsContraction,h⟩,c - 1,c,(s.fetchNext.vertexContract ⟨s.needsContraction,h⟩).2⟩)
      else vertexAdvanceLoop c fuel (s.fetchNext.markContracted ⟨s.needsContraction,h⟩) := by
  rw [vertexAdvanceLoop,fetchContraction_of_lt (by omega)]
  exact dif_pos h

theorem vertexAdvanceLoop_eq [NeZero n] {c fuel : ℕ} (h : s.needsContraction = n) :
    vertexAdvanceLoop c (fuel + 1) s =
      .ok (s.fetchContraction.1.finishContraction,⟨0,c - 1,c,[]⟩) := by
  have hge : ¬ s.fetchContraction.2 < n := not_lt.mpr (ge_of_eq h)
  have heq : s.fetchContraction.2 = n := h
  rw [vertexAdvanceLoop]
  simp only [dif_neg hge,if_pos heq]

theorem vertexAdvanceLoop_rule [NeZero n] {P : EdgeStore n → Prop} {c : ℕ} (hn : n < 2 ^ 32)
    (hskip : ∀ (t : EdgeStore n) (h : t.needsContraction < n), P t →
      t.needsContract ⟨t.needsContraction,h⟩ = false →
      P (t.fetchNext.markContracted ⟨t.needsContraction,h⟩))
    (fuel : ℕ) (hs : P s) (hle : s.needsContraction ≤ n)
    (hfuel : n + 1 ≤ fuel + s.needsContraction) :
    ∃ t, P t ∧ ((∃ h : t.needsContraction < n, t.needsContract ⟨t.needsContraction,h⟩ = true ∧
      vertexAdvanceLoop c fuel s = .ok ((t.fetchNext.vertexContract ⟨t.needsContraction,h⟩).1,
        ⟨⟨t.needsContraction,h⟩,c - 1,c,(t.fetchNext.vertexContract ⟨t.needsContraction,h⟩).2⟩)) ∨
      (t.needsContraction = n ∧
        vertexAdvanceLoop c fuel s = .ok (t.fetchContraction.1.finishContraction,⟨0,c - 1,c,[]⟩))) := by
  induction fuel generalizing s with
  | zero => omega
  | succ fuel ih =>
    by_cases hneeds : s.needsContraction < n
    · rw [vertexAdvanceLoop_lt hn hneeds]
      split
      · next hnc => exact ⟨s,hs,.inl ⟨hneeds,hnc,rfl⟩⟩
      · next hnc =>
        have hnext := hskip s hneeds hs (Bool.eq_false_of_not_eq_true hnc)
        exact ih hnext hneeds (by change n + 1 ≤ fuel + (s.needsContraction + 1); omega)
    · have heq : s.needsContraction = n := by omega
      exact ⟨s,hs,.inr ⟨heq,vertexAdvanceLoop_eq heq⟩⟩

theorem Sequential.mark (h : s.Sequential) (hlt : s.trueMinSubgraph < s.curSubgraph)
    (hneeds : s.needsContraction < n) :
    (s.fetchNext.markContracted ⟨s.needsContraction,hneeds⟩).Sequential := by
  refine h.advance hlt hneeds rfl rfl rfl fun v hv => ?_
  by_cases hvs : v = ⟨s.needsContraction,hneeds⟩
  · subst hvs
    exact markContracted_self
  · rw [markContracted_ne hvs]
    exact hv.resolve_right fun h => hvs (Fin.ext h)

theorem Sequential.contract (h : s.Sequential) (hlt : s.trueMinSubgraph < s.curSubgraph)
    (hneeds : s.needsContraction < n)
    (hnc : s.needsContract ⟨s.needsContraction,hneeds⟩ = true) :
    (s.fetchNext.vertexContract ⟨s.needsContraction,hneeds⟩).1.Sequential := by
  have hv : s.fetchNext.vertexContracted ⟨s.needsContraction,hneeds⟩ = false :=
    needsContract_true hnc
  rw [vertexContract_of_not hv]
  exact (h.mark hlt hneeds).of_flags rfl rfl rfl fun _ hw => hw

theorem vertexAdvanceLoop_spec [NeZero n] (hn : n < 2 ^ 32) (fuel : ℕ)
    (hb : s.Balanced depth bound D N) (hs : s.Sequential)
    (hlt : s.trueMinSubgraph < s.curSubgraph) (hfuel : n + 1 ≤ fuel + s.needsContraction) :
    ∃ r, vertexAdvanceLoop s.curSubgraph fuel s = .ok r ∧ Advanced depth bound D N s r := by
  obtain ⟨t,⟨hbt,hst,hcur,hmin,hle⟩,hres⟩ := vertexAdvanceLoop_rule
    (P := fun t => t.Balanced depth bound D N ∧ t.Sequential ∧ t.curSubgraph = s.curSubgraph ∧
      t.trueMinSubgraph = s.trueMinSubgraph ∧ s.needsContraction ≤ t.needsContraction)
    (c := s.curSubgraph) hn (fun t h ⟨hbt,hst,hcur,hmin,hle⟩ hnc =>
      ⟨(hbt.fetch (t.needsContraction + 1)).mark (needsContract_false hnc),
        hst.mark (by omega) h,hcur,hmin,Nat.le_succ_of_le hle⟩)
    fuel ⟨hb,hs,rfl,rfl,le_rfl⟩ (hs.fetched hlt).1 hfuel
  have hlt' : t.trueMinSubgraph < t.curSubgraph := by omega
  rcases hres with ⟨hneeds,hnc,hloop⟩ | ⟨heq,hloop⟩
  · have hv : t.fetchNext.vertexContracted ⟨t.needsContraction,hneeds⟩ = false :=
      needsContract_true hnc
    have hbf : t.fetchNext.Balanced depth bound D N := hbt.fetch (t.needsContraction + 1)
    have hbal := hbf.contract hv fun _ _ _ => rfl
    have hseq := hst.contract hlt' hneeds hnc
    rw [hloop]
    rw [vertexContract_of_not hv] at hbal hseq ⊢
    refine ⟨_,rfl,hseq,?_,hcur,rfl,.inr ⟨Nat.lt_succ_of_le hle,hlt'⟩⟩
    exact hcur ▸ hbal
  · rw [hloop]
    refine ⟨_,rfl,hst.finish hlt' heq _,?_,hcur,rfl,.inl (le_antisymm hlt' hst.hi)⟩
    simp only [TaggedUpdateBatch.reaches_nil,Nat.add_zero]
    exact (hbt.fetch _).finish

theorem Sequential.check (hs : s.Sequential) : s.checkIfTooBig.Sequential ∧
    (s.checkIfTooBig.curSubgraph = s.curSubgraph ∨
      s.checkIfTooBig.curSubgraph = s.curSubgraph + 1) := by
  unfold checkIfTooBig beginContraction
  split
  · exact ⟨hs,.inl rfl⟩
  · split
    · exact ⟨hs,.inl rfl⟩
    · next hge =>
      have heq : s.trueMinSubgraph = s.curSubgraph := le_antisymm hs.lo (not_lt.mp hge)
      refine ⟨⟨Nat.le_succ_of_le hs.lo,?_,fun he => ?_,fun _ => ⟨Nat.zero_le n,fun v hv => ?_⟩⟩,
        .inr rfl⟩
      · exact Nat.succ_le_succ (ge_of_eq heq)
      · exact absurd he (by simp only; omega)
      · exact absurd hv (Nat.not_lt_zero v)

theorem Balanced.check (hb : s.Balanced depth bound D N) (hs : s.Sequential)
    (hc : s.checkIfTooBig.curSubgraph ≤ bound) : s.checkIfTooBig.Balanced depth bound D N := by
  unfold checkIfTooBig beginContraction at hc ⊢
  split
  · exact hb
  · next hbig =>
    rw [if_neg hbig] at hc
    split
    · exact hb
    · next hge =>
      rw [if_neg hge] at hc
      exact hb.begin (fun v => .inl (hs.done (le_antisymm hs.lo (not_lt.mp hge)) v)) hc

structure Admitted (depth : Fin n → Fin n → ℕ) (bound : ℕ) (D : ℕ → Fin n → Fin n → ℕ)
    (N : Fin n → Fin n → ℕ) (s : EdgeStore n) (src : Fin n) (all : List (SubgraphTaggedUpdate n))
    (r : EdgeStore n × TaggedUpdateBatch n) : Prop where
  seq : r.1.Sequential
  first : r.2.firstEsSubgraph = s.curSubgraph
  pos : r.2.dstsData ≠ [] → 0 < s.curSubgraph
  grow : r.1.curSubgraph = s.curSubgraph ∨ all ≠ [] ∧ r.1.curSubgraph = s.curSubgraph + 1
  balanced : r.1.curSubgraph ≤ bound → r.1.Balanced depth bound
    (fun g w u => D g w u + sketched src s.curSubgraph all g w u + r.2.reaches g w u)
    (fun w u => N w u + submitted src all w u)

variable {all ds : List (SubgraphTaggedUpdate n)} {r : Inserted n} {f : ℕ}

theorem insertLocked_frame (hr : s.insertLocked src f ds = .ok r) :
    Prepared s src r.store ∧ r.cur = s.curSubgraph := by
  obtain ⟨us,_,rfl⟩ := insertLocked_ok hr
  have h := prepared_frame s src
  exact ⟨⟨h.cur,h.trueMin,h.needs,h.flags,fun w hw => (setBuffer_adjlist_ne hw _).trans
    (h.others w hw)⟩,rfl⟩

theorem insertLocked_ret_pos (hr : s.insertLocked src f ds = .ok r) (hret : r.ret ≠ []) :
    0 < s.curSubgraph := by
  obtain ⟨us,_,rfl⟩ := insertLocked_ok hr
  by_contra hzero
  refine hret (List.append_eq_nil_iff.mpr ⟨?_,if_neg (by omega)⟩)
  rw [prepared,if_neg (by omega)]

theorem Sequential.insertLocked (hs : s.Sequential) (hr : s.insertLocked src f ds = .ok r)
    (hv : r.store.vertexContracted src = true) : r.store.Sequential := by
  have h := (insertLocked_frame hr).1
  refine hs.of_flags h.cur h.trueMin h.needs fun w hw => ?_
  by_cases hws : w = src
  · exact hws ▸ hv
  · rw [h.flags w hws]
    exact hw

theorem Sequential.flag (hs : s.Sequential) (v : Fin n) :
    s.vertexContracted v = true ∨ s.trueMinSubgraph < s.curSubgraph :=
  (Nat.lt_or_eq_of_le hs.lo).symm.imp_left fun h => hs.done h v

theorem exists_insertLocked (s : EdgeStore n) (src : Fin n) (f : ℕ)
    (h : ∃ e ∈ ds, s.curSubgraph ≤ e.subgraph) : ∃ r, s.insertLocked src f ds = .ok r := by
  obtain ⟨us,hus⟩ := exists_skipStale h
  unfold EdgeStore.insertLocked
  simp only [hus]
  exact ⟨_,rfl⟩

theorem Balanced.submit_low (hb : s.Balanced depth bound D N)
    (ht : WellTagged depth bound src all)
    (hlow : (all.filter fun e => s.curSubgraph ≤ e.subgraph) = []) :
    s.Balanced depth bound (fun g w u => D g w u + sketched src s.curSubgraph all g w u)
      (fun w u => N w u + submitted src all w u) := by
  have hds : StoreEdges s.curSubgraph all [] := ⟨hlow ▸ .refl _,.nil⟩
  have hzero (u : Fin n) (hd : s.curSubgraph ≤ depth src u) :
      (all.countP fun e => e.dst = u) = 0 := by
    have hcount := ht.countP_filter hb.bounded u
    rwa [hlow,List.countP_nil,if_pos hd,eq_comm] at hcount
  refine hb.submit (v := src) (k := fun u => all.countP fun e => e.dst = u) (.inr hzero) rfl rfl
    (fun _ _ => rfl) (hb.tagged src) (fun _ he => .inl he) (fun u => ?_) (fun g w u => ?_)
    fun _ _ => rfl
  · split
    · next hd => rw [hzero u hd,Nat.cast_zero,add_zero]
    · exact (add_zero _).symm
  · have hsum := sketched_returned ht hb.bounded hds (.inl rfl) g w u
    rw [if_neg (lt_irrefl _),returned,TaggedUpdateBatch.reaches_nil,add_zero] at hsum
    rw [hsum]

theorem insertAdjEdges_spec [NeZero n] (hn : n < 2 ^ 32) (hb : s.Balanced depth bound D N)
    (hs : s.Sequential) (ht : WellTagged depth bound src all) :
    ∃ r, s.insertAdjEdges src s.curSubgraph
        (all.filter fun e => s.curSubgraph ≤ e.subgraph) = .ok r ∧
      Admitted depth bound D N s src all r := by
  unfold insertAdjEdges
  by_cases hnil : (all.filter fun e => s.curSubgraph ≤ e.subgraph) = []
  · rw [if_pos hnil]
    refine ⟨_,rfl,hs,rfl,fun h => absurd rfl h,.inl rfl,fun _ => ?_⟩
    simp only [TaggedUpdateBatch.reaches_nil,Nat.add_zero]
    exact hb.submit_low ht hnil
  · have hall : all ≠ [] := fun h => hnil (by rw [h,List.filter_nil])
    have hds := storeEdges_sort s.curSubgraph all
    obtain ⟨e,he⟩ := List.exists_mem_of_ne_nil _ hnil
    obtain ⟨r,hr⟩ := exists_insertLocked s src s.curSubgraph
      ⟨e,hds.perm.mem_iff.mpr he,of_decide_eq_true (List.mem_filter.mp he).2⟩
    obtain ⟨hbal,hv,_⟩ := hb.insertLocked ht hds (.inl rfl) (hs.flag src) hr
    obtain ⟨hframe,hcur⟩ := insertLocked_frame hr
    have hseq := hs.insertLocked hr hv
    rw [if_neg hnil]
    simp only [hr]
    rw [hcur]
    split
    · next hc =>
      have hlt : r.store.trueMinSubgraph < r.store.curSubgraph := hframe.cur ▸ hc.2
      obtain ⟨q,hq,hadv⟩ := vertexAdvanceLoop_spec hn (n + 1) hbal hseq hlt (by omega)
      rw [hframe.cur] at hq
      refine ⟨q,hq,hadv.seq,hadv.first.trans hframe.cur,fun _ => Nat.zero_lt_of_lt hc.2,
        .inl (hadv.cur.trans hframe.cur),fun _ => ?_⟩
      have hres := hadv.balanced
      simp only [hc.1,returned,TaggedUpdateBatch.reaches_nil,Nat.add_zero] at hres
      exact hres
    · refine ⟨_,rfl,hseq.check.1,rfl,insertLocked_ret_pos hr,?_,fun hc => hbal.check hseq hc⟩
      have hgrow := hseq.check.2
      rw [hframe.cur] at hgrow
      exact hgrow.imp_right fun h => ⟨hall,h⟩

end GraphZeppelin.EdgeStore
