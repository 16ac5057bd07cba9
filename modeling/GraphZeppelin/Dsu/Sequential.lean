import GraphZeppelin.Dsu.Basic

namespace GraphZeppelin.Dsu
open PointerForest SpanningForest

variable {n : ℕ}

structure DisjointSetUnion (n : ℕ) where
  parent : Fin n → Fin n
  priority : Fin n → ℕ

namespace DisjointSetUnion

def create (priority : Fin n → ℕ) : DisjointSetUnion n := ⟨id,priority⟩

def reset (d : DisjointSetUnion n) : DisjointSetUnion n := { d with parent := id }

def halve (d : DisjointSetUnion n) (u : Fin n) : DisjointSetUnion n :=
  { d with parent := Function.update d.parent u (d.parent (d.parent u)) }

def link (d : DisjointSetUnion n) (e : Fin n × Fin n) : DisjointSetUnion n :=
  { d with parent := Function.update d.parent e.2 e.1 }

def findRoot : ℕ → DisjointSetUnion n → Fin n → Option (DisjointSetUnion n × Fin n)
  | 0, _, _ => none
  | fuel + 1, d, u =>
    if d.parent (d.parent u) = d.parent u then some (d,d.parent u)
    else findRoot fuel (d.halve u) ((d.halve u).parent u)

def merge (fuel : ℕ) (d : DisjointSetUnion n) (u v : Fin n) :
    Option (DisjointSetUnion n × DSUMergeRet) :=
  (findRoot fuel d u).bind fun fa => (findRoot fuel fa.1 v).bind fun fb =>
    if fa.2 = fb.2 then some (fb.1,⟨false,0,0⟩)
    else
      let e := orderEdge fb.1.priority fa.2 fb.2
      some (fb.1.link e,⟨true,e.1,e.2⟩)

def mergeMT (fuel : ℕ) : List Bool → DisjointSetUnion n → Fin n → Fin n →
    Option (DisjointSetUnion n × DSUMergeRet)
  | [], _, _, _ => none
  | exchanged :: attempts, d, a, b =>
    (findRoot fuel d a).bind fun fa => (findRoot fuel fa.1 b).bind fun fb =>
      if fa.2 = fb.2 then some (fb.1,⟨false,0,0⟩)
      else
        let e := orderEdge fb.1.priority fa.2 fb.2
        if exchanged = true ∧ fb.1.parent e.2 = e.2 then some (fb.1.link e,⟨true,e.1,e.2⟩)
        else mergeMT fuel attempts fb.1 e.1 (fb.1.parent e.2)

def root (fuel : ℕ) (d : DisjointSetUnion n) (u : Fin n) : Option (Fin n) :=
  (findRoot fuel d u).map Prod.snd

end DisjointSetUnion

namespace DisjointSetUnionMT

def raw (d : DisjointSetUnionMT n) : DisjointSetUnion n := ⟨d.parent,d.priority⟩

theorem findRootLoop_raw (fuel k : ℕ) (d : DisjointSetUnionMT n) (u : Fin n)
    (hk : {z | Below d.priority u z}.ncard ≤ k) (hf : {z | Below d.priority u z}.ncard < fuel) :
    d.raw.findRoot fuel u = some ((findRootLoop k d u).1.raw,(findRootLoop k d u).2) := by
  induction fuel generalizing k d u with
  | zero => exact absurd hf (Nat.not_lt_zero _)
  | succ fuel ih =>
    rw [DisjointSetUnion.findRoot]
    cases k with
    | zero =>
      have hu : d.parent u = u := by
        by_contra hu
        have hlt := ncard_above_lt (d.climbs u hu)
        omega
      exact if_pos (congrArg d.parent hu)
    | succ k =>
      rw [findRootLoop]
      by_cases h : d.parent (d.parent u) = d.parent u
      · rw [dif_pos h]
        exact if_pos h
      · rw [dif_neg h]
        have hp : (d.halve u h).parent u = d.parent (d.parent u) := by simp [halve]
        have hlt := ncard_above_lt (d.below_grandparent h)
        rw [← hp] at hlt
        exact (if_neg h).trans (ih k (d.halve u h) ((d.halve u h).parent u)
          (Nat.le_of_lt_succ (lt_of_lt_of_le hlt hk))
          (lt_of_lt_of_le hlt (Nat.le_of_lt_succ hf)))

theorem findRoot_raw {fuel : ℕ} (hf : n < fuel) (d : DisjointSetUnionMT n) (u : Fin n) :
    d.raw.findRoot fuel u = some ((d.findRoot u).1.raw,(d.findRoot u).2) := by
  have hcard : {z | Below d.priority u z}.ncard ≤ n := by
    simpa using Set.ncard_le_card {z | Below d.priority u z}
  exact findRootLoop_raw fuel n d u hcard (lt_of_le_of_lt hcard hf)

theorem root_raw {fuel : ℕ} (hf : n < fuel) (d : DisjointSetUnionMT n) (u : Fin n) :
    d.raw.root fuel u = some (d.rep u) := by
  rw [DisjointSetUnion.root,findRoot_raw hf,Option.map_some,findRoot_snd]

theorem findRoot_fixed (d : DisjointSetUnionMT n) {u : Fin n} (h : d.parent u = u) :
    d.findRoot u = (d,u) := by
  have hloop : ∀ k, findRootLoop k d u = (d,u) := by
    intro k
    cases k with
    | zero => rw [findRootLoop,h]
    | succ k => rw [findRootLoop,dif_pos (congrArg d.parent h),h]
  exact hloop n

def found (d : DisjointSetUnionMT n) (u v : Fin n) : DisjointSetUnionMT n :=
  ((d.findRoot u).1.findRoot v).1

theorem rep_found (d : DisjointSetUnionMT n) (u v x : Fin n) : (d.found u v).rep x = d.rep x := by
  rw [found,rep_findRoot,rep_findRoot]

theorem parent_found (d : DisjointSetUnionMT n) (u v w : Fin n) :
    (d.found u v).parent (d.rep w) = d.rep w := by
  rw [fixed_iff_root (d.found u v).climbs]
  exact (d.rep_found u v _).trans (root_root d.climbs w)

theorem found_snd (d : DisjointSetUnionMT n) (u v : Fin n) :
    ((d.findRoot u).1.findRoot v).2 = d.rep v := by
  rw [findRoot_snd,rep_findRoot]

theorem merge_related {d : DisjointSetUnionMT n} {u v : Fin n} (h : d.rep u = d.rep v) :
    d.merge u v = (d.found u v,⟨false,0,0⟩) := by
  unfold merge
  simp only [findRoot_snd d u,found_snd d u v,h,if_true]
  rfl

theorem merge_unrelated {d : DisjointSetUnionMT n} {u v : Fin n} (h : d.rep u ≠ d.rep v) :
    ∃ (r c : Fin n) (hB : Below (d.found u v).priority c r),
      orderEdge (d.found u v).priority (d.rep u) (d.rep v) = (r,c) ∧
      (r = d.rep u ∧ c = d.rep v ∨ r = d.rep v ∧ c = d.rep u) ∧
      d.merge u v = ((d.found u v).link r c hB,⟨true,r,c⟩) := by
  unfold merge
  simp only [findRoot_snd d u,found_snd d u v,h,if_false]
  rcases orderEdge_cases (d.found u v).priority h with ⟨he,hB⟩ | ⟨he,hB⟩
  · refine ⟨d.rep u,d.rep v,hB,he,.inl ⟨rfl,rfl⟩,?_⟩
    simp only [found] at he hB ⊢
    simp only [he,hB,dif_pos]
  · refine ⟨d.rep v,d.rep u,hB,he,.inr ⟨rfl,rfl⟩,?_⟩
    simp only [found] at he hB ⊢
    simp only [he,hB,dif_pos]

theorem merge_raw {fuel : ℕ} (hf : n < fuel) (d : DisjointSetUnionMT n) (u v : Fin n) :
    d.raw.merge fuel u v = some ((d.merge u v).1.raw,(d.merge u v).2) := by
  rw [DisjointSetUnion.merge,findRoot_raw hf,Option.bind_some,findRoot_raw hf,Option.bind_some]
  simp only [findRoot_snd d u,found_snd d u v]
  by_cases h : d.rep u = d.rep v
  · rw [if_pos h,merge_related h]
    rfl
  · obtain ⟨r,c,hB,he,_,hm⟩ := merge_unrelated h
    rw [if_neg h,hm]
    have he' : orderEdge ((d.findRoot u).1.findRoot v).1.raw.priority (d.rep u) (d.rep v) = (r,c) := he
    rw [he']
    rfl

theorem merge_found {d : DisjointSetUnionMT n} {u v r c : Fin n} (h : d.rep u ≠ d.rep v)
    (he : orderEdge (d.found u v).priority (d.rep u) (d.rep v) = (r,c)) :
    (d.found u v).merge r c = d.merge u v := by
  obtain ⟨r',c',hB,he',hrc,hm⟩ := merge_unrelated h
  obtain ⟨rfl,rfl⟩ := Prod.mk.inj (he.symm.trans he')
  have hr : (d.found u v).parent r = r := by
    rcases hrc with ⟨rfl,_⟩ | ⟨rfl,_⟩ <;> exact d.parent_found u v _
  have hc : (d.found u v).parent c = c := by
    rcases hrc with ⟨_,rfl⟩ | ⟨_,rfl⟩ <;> exact d.parent_found u v _
  have hne : r ≠ c := ne_of_above hB
  have hagain : orderEdge (d.found u v).priority r c = (r,c) := by
    rcases orderEdge_cases (d.found u v).priority hne with ⟨h',_⟩ | ⟨_,hB'⟩
    · exact h'
    · exact absurd (trans_of (Below (d.found u v).priority) hB hB') (irrefl_of _ c)
  rw [hm,merge]
  simp only [findRoot_fixed _ hr,findRoot_fixed _ hc,hne,if_false,hagain,hB,dif_pos]

theorem mergeMT_raw {fuel : ℕ} (hf : n < fuel) {attempts : List Bool} (hok : true ∈ attempts)
    (d : DisjointSetUnionMT n) (u v : Fin n) :
    d.raw.mergeMT fuel attempts u v = some ((d.merge u v).1.raw,(d.merge u v).2) := by
  induction attempts generalizing d u v with
  | nil => cases hok
  | cons exchanged attempts ih =>
    rw [DisjointSetUnion.mergeMT,findRoot_raw hf,Option.bind_some,findRoot_raw hf,Option.bind_some]
    simp only [findRoot_snd d u,found_snd d u v]
    by_cases h : d.rep u = d.rep v
    · rw [if_pos h,merge_related h]
      rfl
    · obtain ⟨r,c,hB,he,hrc,hm⟩ := merge_unrelated h
      have he' : orderEdge ((d.findRoot u).1.findRoot v).1.raw.priority (d.rep u) (d.rep v) =
        (r,c) := he
      have hc : ((d.findRoot u).1.findRoot v).1.raw.parent c = c := by
        rcases hrc with ⟨_,rfl⟩ | ⟨_,rfl⟩ <;> exact d.parent_found u v _
      rw [if_neg h,he']
      simp only [hc,and_true]
      cases exchanged with
      | true =>
        rw [if_pos rfl,hm]
        rfl
      | false =>
        rw [if_neg Bool.false_ne_true,← merge_found h he]
        exact ih ((List.mem_cons.mp hok).resolve_left (fun e => by cases e)) (d.found u v) r c

theorem rep_merge {d : DisjointSetUnionMT n} {u v : Fin n} (h : d.rep u ≠ d.rep v) :
    ∃ r c : Fin n, (d.merge u v).2 = ⟨true,r,c⟩ ∧
      (r = d.rep u ∧ c = d.rep v ∨ r = d.rep v ∧ c = d.rep u) ∧
      (d.merge u v).1.rep r = r ∧ (d.merge u v).1.rep c = r := by
  obtain ⟨r,c,hB,_,hrc,hm⟩ := merge_unrelated h
  have hroot : (d.found u v).rep r = r := by
    rw [rep_found]
    rcases hrc with ⟨rfl,_⟩ | ⟨rfl,_⟩ <;> exact root_root d.climbs _
  have hchild : (d.found u v).parent c = c := by
    rcases hrc with ⟨_,rfl⟩ | ⟨_,rfl⟩ <;> exact d.parent_found u v _
  have hlink := root_link (d.found u v).climbs hchild hB
  refine ⟨r,c,by rw [hm],hrc,?_,?_⟩
  · rw [hm]
    refine (hlink r).trans ?_
    rw [if_neg fun e => ne_of_above hB (hroot.symm.trans e)]
    exact hroot
  · rw [hm]
    refine (hlink c).trans ?_
    rw [if_pos (root_of_fixed hchild)]
    exact hroot

end DisjointSetUnionMT

inductive SeqCall (n : ℕ) where
  | merge (u v : Fin n) (attempts : List Bool)
  | findRoot (u : Fin n)
  | reset

namespace DisjointSetUnion

def call (fuel : ℕ) (d : DisjointSetUnion n) : SeqCall n → Option (DisjointSetUnion n)
  | .merge u v _ => (d.merge fuel u v).map Prod.fst
  | .findRoot u => (d.findRoot fuel u).map Prod.fst
  | .reset => some d.reset

def callMT (fuel : ℕ) (d : DisjointSetUnion n) : SeqCall n → Option (DisjointSetUnion n)
  | .merge u v attempts => (d.mergeMT fuel attempts u v).map Prod.fst
  | .findRoot u => (d.findRoot fuel u).map Prod.fst
  | .reset => some d.reset

end DisjointSetUnion

def SeqCall.returns : SeqCall n → Prop
  | .merge _ _ attempts => true ∈ attempts
  | .findRoot _ => True
  | .reset => True

def mergedPairs (pairs : List (Fin n × Fin n)) : SeqCall n → List (Fin n × Fin n)
  | .merge u v _ => (u,v) :: pairs
  | .findRoot _ => pairs
  | .reset => []

def Related (pairs : List (Fin n × Fin n)) : Fin n → Fin n → Prop :=
  Relation.EqvGen fun a b => (a,b) ∈ pairs

theorem reachable_pairGraph (pairs : List (Fin n × Fin n)) (u v : Fin n) :
    (pairGraph pairs).Reachable u v ↔ Related pairs u v := by
  constructor
  · refine reachable_of_adj (Relation.EqvGen.is_equivalence _) fun x y hxy => ?_
    obtain ⟨_,h | h⟩ := pairGraph_adj.mp hxy
    · exact .rel _ _ h
    · exact .symm _ _ (.rel _ _ h)
  · intro h
    induction h with
    | rel x y hxy =>
      by_cases hne : x = y
      · exact hne ▸ SimpleGraph.Reachable.refl x
      · exact SimpleGraph.Adj.reachable (pairGraph_adj.mpr ⟨hne,.inl hxy⟩)
    | refl x => exact SimpleGraph.Reachable.refl x
    | symm x y _ ih => exact ih.symm
    | trans x y z _ _ ihxy ihyz => exact ihxy.trans ihyz

namespace DisjointSetUnionMT

def Holds (d : DisjointSetUnionMT n) (pairs : List (Fin n × Fin n)) : Prop :=
  ∀ u v, d.rep u = d.rep v ↔ Related pairs u v

theorem holds_iff {d : DisjointSetUnionMT n} {pairs : List (Fin n × Fin n)} :
    d.Holds pairs ↔ d.Represents (pairGraph pairs) :=
  forall₂_congr fun u v => by rw [reachable_pairGraph]

def next (d : DisjointSetUnionMT n) : SeqCall n → DisjointSetUnionMT n
  | .merge u v _ => (d.merge u v).1
  | .findRoot u => (d.findRoot u).1
  | .reset => d.reset

theorem Holds.next {d : DisjointSetUnionMT n} {pairs : List (Fin n × Fin n)} (h : d.Holds pairs)
    (c : SeqCall n) : (d.next c).Holds (mergedPairs pairs c) := by
  rw [holds_iff] at h ⊢
  cases c with
  | merge u v attempts => exact h.merge u v
  | findRoot u => exact h.findRoot u
  | reset => exact represents_fresh d.priority

theorem call_raw {fuel : ℕ} (hf : n < fuel) (d : DisjointSetUnionMT n) (c : SeqCall n) :
    d.raw.call fuel c = some (d.next c).raw := by
  cases c with
  | merge u v attempts => rw [DisjointSetUnion.call,merge_raw hf,Option.map_some]; rfl
  | findRoot u => rw [DisjointSetUnion.call,findRoot_raw hf,Option.map_some]; rfl
  | reset => rfl

theorem callMT_raw {fuel : ℕ} (hf : n < fuel) (d : DisjointSetUnionMT n) {c : SeqCall n}
    (hc : c.returns) : d.raw.callMT fuel c = some (d.next c).raw := by
  cases c with
  | merge u v attempts => rw [DisjointSetUnion.callMT,mergeMT_raw hf hc,Option.map_some]; rfl
  | findRoot u => rw [DisjointSetUnion.callMT,findRoot_raw hf,Option.map_some]; rfl
  | reset => rfl

theorem calls_raw {fuel : ℕ} (hf : n < fuel) (calls : List (SeqCall n)) {d : DisjointSetUnionMT n}
    {pairs : List (Fin n × Fin n)} (h : d.Holds pairs) :
    ∃ d' : DisjointSetUnionMT n, d'.Holds (calls.foldl mergedPairs pairs) ∧
      calls.foldlM (DisjointSetUnion.call fuel) d.raw = some d'.raw ∧
      ((∀ c ∈ calls, c.returns) →
        calls.foldlM (DisjointSetUnion.callMT fuel) d.raw = some d'.raw) := by
  induction calls generalizing d pairs with
  | nil => exact ⟨d,h,rfl,fun _ => rfl⟩
  | cons c calls ih =>
    obtain ⟨d',h',hcall,hcallMT⟩ := ih (h.next c)
    refine ⟨d',h',?_,fun hret => ?_⟩
    · rw [List.foldlM_cons,call_raw hf]
      exact hcall
    · rw [List.foldlM_cons,callMT_raw hf d (hret c List.mem_cons_self)]
      exact hcallMT fun x hx => hret x (List.mem_cons_of_mem _ hx)

end DisjointSetUnionMT
end GraphZeppelin.Dsu
