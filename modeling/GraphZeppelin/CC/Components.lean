import GraphZeppelin.CC.EagerDsu
import GraphZeppelin.Dsu.Sequential

namespace GraphZeppelin.CC
open Dsu

variable {n : ℕ}

namespace ConnectedComponents

def insertVertex (cc : ConnectedComponents n) (temp : Fin n → Finset (Fin n)) (i : Fin n) :
    Fin n → Finset (Fin n) :=
  Function.update temp (cc.parentArr i) (insert i (temp (cc.parentArr i)))

def getComponentSets (cc : ConnectedComponents n) : List (Finset (Fin n)) :=
  let temp := (List.finRange n).foldl cc.insertVertex fun _ => ∅
  ((List.finRange n).map temp).filter (· ≠ ∅)

theorem mem_foldl_insertVertex (cc : ConnectedComponents n) (l : List (Fin n))
    (temp : Fin n → Finset (Fin n)) (r i : Fin n) :
    i ∈ l.foldl cc.insertVertex temp r ↔ i ∈ temp r ∨ i ∈ l ∧ cc.parentArr i = r := by
  induction l generalizing temp with
  | nil => simp
  | cons j l ih =>
    have hstep : i ∈ cc.insertVertex temp j r ↔ i ∈ temp r ∨ i = j ∧ cc.parentArr i = r := by
      by_cases hr : r = cc.parentArr j
      · subst hr
        rw [insertVertex,Function.update_self,Finset.mem_insert]
        constructor
        · rintro (rfl | h)
          · exact .inr ⟨rfl,rfl⟩
          · exact .inl h
        · rintro (h | ⟨rfl,_⟩)
          · exact .inr h
          · exact .inl rfl
      · rw [insertVertex,Function.update_of_ne hr,or_iff_left]
        rintro ⟨rfl,h⟩
        exact hr h.symm
    rw [List.foldl_cons,ih,hstep,List.mem_cons]
    tauto

def component (cc : ConnectedComponents n) (r : Fin n) : Finset (Fin n) :=
  {i | cc.parentArr i = r}

theorem getComponentSets_eq (cc : ConnectedComponents n) :
    cc.getComponentSets = ((List.finRange n).map cc.component).filter (· ≠ ∅) := by
  have htemp : ((List.finRange n).foldl cc.insertVertex fun _ => ∅) = cc.component := by
    funext r
    ext i
    rw [mem_foldl_insertVertex]
    simp [component]
  rw [getComponentSets]
  simp only [htemp]

theorem mem_getComponentSets (cc : ConnectedComponents n) (A : Finset (Fin n)) :
    A ∈ cc.getComponentSets ↔ ∃ u, ∀ v, v ∈ A ↔ cc.parentArr u = cc.parentArr v := by
  rw [getComponentSets_eq,List.mem_filter,List.mem_map,decide_eq_true_eq]
  constructor
  · rintro ⟨⟨r,_,rfl⟩,hne⟩
    obtain ⟨u,hu⟩ := Finset.nonempty_iff_ne_empty.mpr hne
    have hu : cc.parentArr u = r := by simpa [component] using hu
    refine ⟨u,fun v => ?_⟩
    rw [hu,eq_comm]
    simp [component]
  · rintro ⟨u,hu⟩
    refine ⟨⟨cc.parentArr u,List.mem_finRange _,?_⟩,?_⟩
    · ext v
      rw [hu v,eq_comm]
      simp [component]
    · exact Finset.nonempty_iff_ne_empty.mp ⟨u,(hu u).mpr rfl⟩

theorem nodup_getComponentSets (cc : ConnectedComponents n) : cc.getComponentSets.Nodup := by
  rw [getComponentSets_eq,List.filter_map]
  refine List.Nodup.map_on ?_ ((List.nodup_finRange n).filter _)
  intro r hr r' hr' heq
  have hne := (List.mem_filter.mp hr).2
  rw [Function.comp_apply,decide_eq_true_eq] at hne
  obtain ⟨u,hu⟩ := Finset.nonempty_iff_ne_empty.mpr hne
  have hu' : u ∈ cc.component r' := heq ▸ hu
  rw [component,Finset.mem_filter] at hu hu'
  exact hu.2.symm.trans hu'.2

end ConnectedComponents

theorem size_eq_card_classes {d : DisjointSetUnionMT n} {pairs : List (Fin n × Fin n)}
    (h : d.Holds pairs) :
    (ConnectedComponents.ofDsu d).2.size = Nat.card (Quot (Related pairs)) := by
  rw [ConnectedComponents.size_ofDsu (DisjointSetUnionMT.holds_iff.mp h)]
  exact Nat.card_congr (Quot.congrRight fun u v => reachable_pairGraph pairs u v)

theorem component_sets_classes {d : DisjointSetUnionMT n} {pairs : List (Fin n × Fin n)}
    (h : d.Holds pairs) (A : Finset (Fin n)) :
    A ∈ (ConnectedComponents.ofDsu d).2.getComponentSets ↔ ∃ u, ∀ v, v ∈ A ↔ Related pairs u v := by
  rw [ConnectedComponents.mem_getComponentSets]
  refine exists_congr fun u => forall_congr' fun v => ?_
  simp only [ConnectedComponents.ofDsu,DisjointSetUnionMT.findEach_snd,id]
  rw [h u v]

theorem sequential_dsu_correct (priority : Fin n → ℕ) {fuel : ℕ} (hf : n < fuel)
    (calls : List (SeqCall n)) :
    ∃ d : DisjointSetUnionMT n,
      calls.foldlM (DisjointSetUnion.call fuel) (.create priority) = some d.raw ∧
      ((∀ c ∈ calls, c.returns) →
        calls.foldlM (DisjointSetUnion.callMT fuel) (.create priority) = some d.raw) ∧
      (∀ u, ∃ d' a, d.raw.findRoot fuel u = some (d',a) ∧
        ∀ v, d'.root fuel v = d.raw.root fuel v) ∧
      (∀ u v, d.raw.root fuel u = d.raw.root fuel v ↔
        Related (calls.foldl mergedPairs []) u v) ∧
      (∀ u v, ∃ d' ret, d.raw.merge fuel u v = some (d',ret) ∧
        (∀ attempts, true ∈ attempts → d.raw.mergeMT fuel attempts u v = some (d',ret)) ∧
        (ret.merged = true ↔ ¬ Related (calls.foldl mergedPairs []) u v) ∧
        (ret.merged = true → ∃ r c : Fin n, ret = ⟨true,r,c⟩ ∧
          (d.raw.root fuel u = some r ∧ d.raw.root fuel v = some c ∨
            d.raw.root fuel v = some r ∧ d.raw.root fuel u = some c) ∧
          d'.root fuel r = some r ∧ d'.root fuel c = some r)) ∧
      (ConnectedComponents.ofDsu d).2.size =
        Nat.card (Quot (Related (calls.foldl mergedPairs []))) ∧
      (ConnectedComponents.ofDsu d).2.getComponentSets.Nodup ∧
      ∀ A, A ∈ (ConnectedComponents.ofDsu d).2.getComponentSets ↔
        ∃ u, ∀ v, v ∈ A ↔ Related (calls.foldl mergedPairs []) u v := by
  have hfresh : (DisjointSetUnionMT.fresh priority).Holds [] :=
    DisjointSetUnionMT.holds_iff.mpr (DisjointSetUnionMT.represents_fresh priority)
  obtain ⟨d,h,hcall,hcallMT⟩ := DisjointSetUnionMT.calls_raw hf calls hfresh
  have hroot := DisjointSetUnionMT.root_raw hf
  refine ⟨d,hcall,hcallMT,fun u => ?_,fun u v => ?_,fun u v => ?_,size_eq_card_classes h,
    ConnectedComponents.nodup_getComponentSets _,component_sets_classes h⟩
  · refine ⟨_,_,DisjointSetUnionMT.findRoot_raw hf d u,fun v => ?_⟩
    rw [hroot,hroot,DisjointSetUnionMT.rep_findRoot]
  · rw [hroot,hroot,Option.some_inj]
    exact h u v
  · refine ⟨_,_,DisjointSetUnionMT.merge_raw hf d u v,
      fun attempts hok => DisjointSetUnionMT.mergeMT_raw hf hok d u v,?_,fun hm => ?_⟩
    · rw [(DisjointSetUnionMT.holds_iff.mp h).merged_iff u v,reachable_pairGraph]
    · have hne : d.rep u ≠ d.rep v := by
        intro heq
        rw [DisjointSetUnionMT.merge_related heq] at hm
        cases hm
      obtain ⟨r,c,hret,hrc,hr,hc⟩ := DisjointSetUnionMT.rep_merge hne
      refine ⟨r,c,hret,?_,?_,?_⟩
      · rw [hroot,hroot,Option.some_inj,Option.some_inj,Option.some_inj,Option.some_inj]
        rcases hrc with ⟨rfl,rfl⟩ | ⟨rfl,rfl⟩
        · exact .inl ⟨rfl,rfl⟩
        · exact .inr ⟨rfl,rfl⟩
      · rw [hroot,hr]
      · rw [hroot,hc]

theorem sequential_dsu_three :
    ∃ d : DisjointSetUnionMT 3,
      ([.merge 0 2 [false,true],.reset,.merge 2 1 [true],.findRoot 2] : List (SeqCall 3)).foldlM
        (DisjointSetUnion.call 4) (.create fun _ => 7) = some d.raw ∧
      (d.raw.root 4 1 = d.raw.root 4 2 ↔ Related [((2 : Fin 3),1)] 1 2) := by
  obtain ⟨d,hcall,_,_,hrel,_⟩ := sequential_dsu_correct (fun _ : Fin 3 => 7)
    (show 3 < 4 by decide) [.merge 0 2 [false,true],.reset,.merge 2 1 [true],.findRoot 2]
  exact ⟨d,hcall,hrel 1 2⟩

end GraphZeppelin.CC
