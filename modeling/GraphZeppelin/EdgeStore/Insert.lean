import GraphZeppelin.EdgeStore.Balance

namespace GraphZeppelin

variable {n : ℕ}

theorem TaggedUpdateBatch.reaches_append (v w u : Fin n) (m f g : ℕ)
    (l l' : List (SubgraphTaggedUpdate n)) :
    (⟨v,m,f,l ++ l'⟩ : TaggedUpdateBatch n).reaches g w u =
      (⟨v,m,f,l⟩ : TaggedUpdateBatch n).reaches g w u +
        (⟨v,m,f,l'⟩ : TaggedUpdateBatch n).reaches g w u := by
  unfold reaches
  split
  · exact List.countP_append
  · rfl

namespace EdgeStore

variable {depth : Fin n → Fin n → ℕ} {bound f : ℕ} {s : EdgeStore n}
  {D D' : ℕ → Fin n → Fin n → ℕ} {N N' : Fin n → Fin n → ℕ} {src : Fin n}
  {all ds : List (SubgraphTaggedUpdate n)} {r : Inserted n}

structure StoreEdges (f : ℕ) (all ds : List (SubgraphTaggedUpdate n)) : Prop where
  perm : ds.Perm (all.filter fun e => f ≤ e.subgraph)
  sorted : ds.Pairwise fun a b => a.subgraph ≤ b.subgraph

theorem storeEdges_sort (f : ℕ) (all : List (SubgraphTaggedUpdate n)) :
    StoreEdges f all (sortUpdates (all.filter fun e => f ≤ e.subgraph)) :=
  ⟨sortUpdates_perm _,sortUpdates_pairwise _⟩

theorem StoreEdges.mem (h : StoreEdges f all ds) {e : SubgraphTaggedUpdate n} (he : e ∈ ds) :
    e ∈ all ∧ f ≤ e.subgraph := by
  have hmem := List.mem_filter.mp (h.perm.mem_iff.mp he)
  exact ⟨hmem.1,of_decide_eq_true hmem.2⟩

def sketched (src : Fin n) (f : ℕ) (all : List (SubgraphTaggedUpdate n)) (g : ℕ) (w u : Fin n) :
    ℕ :=
  if 0 < f then (⟨src,0,f,all⟩ : TaggedUpdateBatch n).reaches g w u else 0

def returned (src : Fin n) (cur : ℕ) (ret : List (SubgraphTaggedUpdate n)) (g : ℕ) (w u : Fin n) :
    ℕ :=
  (⟨src,cur - 1,cur,ret⟩ : TaggedUpdateBatch n).reaches g w u

def submitted (src : Fin n) (all : List (SubgraphTaggedUpdate n)) (w u : Fin n) : ℕ :=
  if w = src then all.countP fun e => e.dst = u else 0

theorem sketched_returned (ht : WellTagged depth bound src all) {c : ℕ} (hb : c ≤ bound)
    (hds : StoreEdges f all ds) (hf : f = c ∨ f + 1 = c) (g : ℕ) (w u : Fin n) :
    sketched src f all g w u + returned src c (if f < c then ds else []) g w u =
      if w = src ∧ g < c ∧ g ≤ depth src u then all.countP fun e => e.dst = u else 0 := by
  unfold sketched returned
  by_cases hw : w = src
  · subst hw
    have hsk : (if 0 < f then (⟨w,0,f,all⟩ : TaggedUpdateBatch n).reaches g w u else 0) =
        if g < f ∧ g ≤ depth w u then all.countP fun e => e.dst = u else 0 := by
      split
      · next hpos => exact ht.reaches_full hpos (by omega) g u
      · next hpos => rw [if_neg fun hh => hpos (Nat.zero_lt_of_lt hh.1)]
    rw [hsk]
    rcases hf with rfl | rfl
    · rw [if_neg (lt_irrefl f),TaggedUpdateBatch.reaches_nil,add_zero]
      simp only [true_and]
    · have hds' : WellTagged depth bound w ds := ht.mono fun e he => (hds.mem he).1
      have hcount : (ds.countP fun e => e.dst = u) =
          if f ≤ depth w u then all.countP fun e => e.dst = u else 0 := by
        rw [hds.perm.countP_eq,ht.countP_filter (by omega)]
      rw [if_pos (Nat.lt_succ_self f),hds'.reaches_last (Nat.succ_pos f) hb,hcount]
      simp only [true_and]
      by_cases hd : g ≤ depth w u
      · rcases lt_trichotomy g f with hg | rfl | hg
        · simp [hd,hg,Nat.lt_succ_of_lt hg,ne_of_lt hg]
        · simp [hd]
        · simp [Nat.lt_asymm hg,ne_of_gt hg,not_lt.mpr (Nat.succ_le_of_lt hg)]
      · simp [hd]
  · have hne (m f : ℕ) (l : List (SubgraphTaggedUpdate n)) :
        (⟨src,m,f,l⟩ : TaggedUpdateBatch n).reaches g w u = 0 :=
      TaggedUpdateBatch.reaches_ne (Ne.symm hw) g u
    simp [hne,hw]

def prepared (s : EdgeStore n) (src : Fin n) : EdgeStore n × List (SubgraphTaggedUpdate n) :=
  if s.trueMinSubgraph < s.curSubgraph ∧ s.vertexContracted src = false then s.vertexContract src
  else (s,[])

theorem insertLocked_ok (hr : s.insertLocked src f ds = .ok r) :
    ∃ us, skipStale s.curSubgraph ds = some us ∧ r = ⟨(s.prepared src).1.setBuffer src
      (mergeUpdates ((s.prepared src).1.adjlist src) us),s.curSubgraph,
        (s.prepared src).2 ++ if f < s.curSubgraph then ds else []⟩ := by
  unfold insertLocked at hr
  simp only at hr
  split at hr
  · cases hr
  · next us hus =>
    refine ⟨us,hus,?_⟩
    cases hr
    rw [prepared]
    congr 1
    split
    · rfl
    · rw [List.append_nil]

structure Prepared (s : EdgeStore n) (src : Fin n) (s' : EdgeStore n) : Prop where
  cur : s'.curSubgraph = s.curSubgraph
  trueMin : s'.trueMinSubgraph = s.trueMinSubgraph
  needs : s'.needsContraction = s.needsContraction
  flags : ∀ w, w ≠ src → s'.vertexContracted w = s.vertexContracted w
  others : ∀ w, w ≠ src → s'.adjlist w = s.adjlist w

theorem vertexContract_frame (s : EdgeStore n) (src : Fin n) :
    Prepared s src (s.vertexContract src).1 := by
  unfold vertexContract
  split
  · exact ⟨rfl,rfl,rfl,fun _ _ => rfl,fun _ _ => rfl⟩
  · exact ⟨rfl,rfl,rfl,fun w hw => markContracted_ne hw,fun w hw => setBuffer_adjlist_ne hw _⟩

theorem prepared_frame (s : EdgeStore n) (src : Fin n) : Prepared s src (s.prepared src).1 := by
  unfold prepared
  split
  · exact vertexContract_frame s src
  · exact ⟨rfl,rfl,rfl,fun _ _ => rfl,fun _ _ => rfl⟩

theorem Balanced.prepared (h : s.Balanced depth bound D N)
    (hflag : s.vertexContracted src = true ∨ s.trueMinSubgraph < s.curSubgraph) :
    (s.prepared src).1.Balanced depth bound
        (fun g w u => D g w u + returned src s.curSubgraph (s.prepared src).2 g w u) N ∧
      (s.prepared src).1.vertexContracted src = true ∧
      WellTagged depth bound src (s.prepared src).2 := by
  unfold EdgeStore.prepared
  split
  · next hc =>
    have hb := h.contract hc.2 fun _ _ _ => rfl
    rw [vertexContract_of_not hc.2] at hb ⊢
    exact ⟨hb,markContracted_self,h.tagged src⟩
  · next hc =>
    refine ⟨?_,?_,.nil⟩
    · simp only [returned,TaggedUpdateBatch.reaches_nil,Nat.add_zero]
      exact h
    · rcases hflag with hv | hlt
      · exact hv
      · exact Bool.eq_true_of_not_eq_false fun hv => hc ⟨hlt,hv⟩

theorem Balanced.insertLocked (h : s.Balanced depth bound D N)
    (ht : WellTagged depth bound src all) (hds : StoreEdges f all ds)
    (hf : f = s.curSubgraph ∨ f + 1 = s.curSubgraph)
    (hflag : s.vertexContracted src = true ∨ s.trueMinSubgraph < s.curSubgraph)
    (hr : s.insertLocked src f ds = .ok r) :
    r.store.Balanced depth bound
        (fun g w u => D g w u + sketched src f all g w u + returned src s.curSubgraph r.ret g w u)
        (fun w u => N w u + submitted src all w u) ∧
      r.store.vertexContracted src = true ∧ WellTagged depth bound src r.ret := by
  obtain ⟨us,hus,rfl⟩ := insertLocked_ok hr
  obtain ⟨hprep,hv,hret⟩ := h.prepared hflag
  have hcur := (prepared_frame s src).cur
  have hfilter := skipStale_eq hds.sorted hus
  have hus' : us.Perm (all.filter fun e => s.curSubgraph ≤ e.subgraph) := by
    rw [hfilter]
    refine (hds.perm.filter _).trans (List.Perm.of_eq ?_)
    rw [List.filter_filter]
    refine List.filter_congr fun e _ => ?_
    rw [← Bool.decide_and,decide_eq_decide]
    omega
  have hustag : WellTagged depth bound src us :=
    ht.mono fun e he => List.mem_of_mem_filter (hus'.mem_iff.mp he)
  have hdstag : WellTagged depth bound src (if f < s.curSubgraph then ds else []) := by
    split
    · exact ht.mono fun e he => (hds.mem he).1
    · exact .nil
  refine ⟨?_,hv,hret.append hdstag⟩
  refine hprep.submit (v := src) (k := fun u => all.countP fun e => e.dst = u) (.inl hv) rfl rfl
    (fun w hw => setBuffer_adjlist_ne hw _) ?_ (fun e he => ?_) (fun u => ?_) (fun g w u => ?_)
    fun w u => rfl
  · rw [setBuffer_adjlist_self]
    exact ((hprep.tagged src).append hustag).mono fun e he =>
      List.mem_append.mpr (mergeUpdates_mem he)
  · rw [setBuffer_adjlist_self] at he
    refine (mergeUpdates_mem he).imp_right fun hmem => ?_
    rw [hcur]
    exact of_decide_eq_true (List.mem_filter.mp (hus'.mem_iff.mp hmem)).2
  · rw [entries,setBuffer_adjlist_self,mergeUpdates_countP,hus'.countP_eq,
      ht.countP_filter h.bounded,hcur,Nat.cast_ite,Nat.cast_zero]
    rfl
  · have hsum := sketched_returned ht h.bounded hds hf g w u
    rw [hcur,← hsum]
    simp only [returned,TaggedUpdateBatch.reaches_append]
    omega

end EdgeStore
end GraphZeppelin
