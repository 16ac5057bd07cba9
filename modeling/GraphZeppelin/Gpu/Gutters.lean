import GraphZeppelin.Gpu.Alg
import GraphZeppelin.Lib.FoldExcept

namespace GraphZeppelin.Gpu

variable {n batchSize : ℕ}

namespace SketchSubgraph

variable {sub : SketchSubgraph n} {src v : Fin n}

def given (sub : SketchSubgraph n) (v u : Fin n) : ℕ :=
  (sub.gutters v).count u + (sub.streams v).count u

def Bounded (batchSize : ℕ) (sub : SketchSubgraph n) : Prop :=
  ∀ v, (sub.gutters v).length ≤ batchSize

@[simp] theorem given_initialized (v u : Fin n) : initialized.given v u = 0 := rfl

theorem bounded_initialized : (initialized : SketchSubgraph n).Bounded batchSize :=
  fun _ => Nat.zero_le _

@[simp] theorem setGutter_gutters_self (data : List (Fin n)) :
    (sub.setGutter src data).gutters src = data := Function.update_self ..

theorem setGutter_gutters_ne (h : v ≠ src) (data : List (Fin n)) :
    (sub.setGutter src data).gutters v = sub.gutters v := Function.update_of_ne h ..

@[simp] theorem setGutter_streams (data : List (Fin n)) :
    (sub.setGutter src data).streams = sub.streams := rfl

@[simp] theorem applyUpdateBatch_gutters (data : List (Fin n)) :
    (sub.applyUpdateBatch src data).gutters = sub.gutters := rfl

@[simp] theorem applyUpdateBatch_streams_self (data : List (Fin n)) :
    (sub.applyUpdateBatch src data).streams src = sub.streams src ++ data := Function.update_self ..

theorem applyUpdateBatch_streams_ne (h : v ≠ src) (data : List (Fin n)) :
    (sub.applyUpdateBatch src data).streams v = sub.streams v := Function.update_of_ne h ..

theorem Bounded.setGutter (h : sub.Bounded batchSize) {data : List (Fin n)}
    (hd : data.length ≤ batchSize) : (sub.setGutter src data).Bounded batchSize := by
  intro v
  by_cases hv : v = src
  · subst hv
    rwa [setGutter_gutters_self]
  · rw [setGutter_gutters_ne hv]
    exact h v

theorem batchInsert_spec (hsize : 16 ≤ batchSize) (h : sub.Bounded batchSize) (src : Fin n)
    (dsts : List (Fin n)) (hd : dsts.length ≤ 16) : ∃ sub', sub.batchInsert batchSize src dsts = .ok sub' ∧
      sub'.Bounded batchSize ∧
      ∀ v u, sub'.given v u = sub.given v u + if v = src then dsts.count u else 0 := by
  have hlen := h src
  unfold batchInsert
  simp only
  split
  · rw [if_neg (by omega)]
    refine ⟨_,rfl,?_,fun v u => ?_⟩
    · exact Bounded.setGutter h (by rw [List.length_drop]; omega)
    · by_cases hv : v = src
      · subst hv
        rw [if_pos rfl,given,given,setGutter_gutters_self,setGutter_streams,
          applyUpdateBatch_streams_self,List.count_append,List.count_append]
        have hsplit := congrArg (List.count u)
          (List.take_append_drop (batchSize - (sub.gutters v).length) dsts)
        rw [List.count_append] at hsplit
        omega
      · rw [if_neg hv,given,given,setGutter_gutters_ne hv,setGutter_streams,
          applyUpdateBatch_streams_ne hv,applyUpdateBatch_gutters,add_zero]
  · next hcap =>
    rw [List.take_of_length_le (by omega)]
    refine ⟨_,rfl,h.setGutter (by rw [List.length_append]; omega),fun v u => ?_⟩
    by_cases hv : v = src
    · subst hv
      rw [if_pos rfl,given,given,setGutter_gutters_self,setGutter_streams,List.count_append]
      omega
    · rw [if_neg hv,given,given,setGutter_gutters_ne hv,setGutter_streams,add_zero]

theorem given_flushGutter (sub : SketchSubgraph n) (w v u : Fin n) :
    (sub.flushGutter w).given v u = sub.given v u := by
  unfold flushGutter
  split
  · rfl
  · by_cases hv : v = w
    · subst hv
      rw [given,given,setGutter_gutters_self,setGutter_streams,applyUpdateBatch_streams_self,
        List.count_append,List.count_nil]
      omega
    · rw [given,given,setGutter_gutters_ne hv,setGutter_streams,applyUpdateBatch_streams_ne hv,
        applyUpdateBatch_gutters]

theorem flushGutter_self (sub : SketchSubgraph n) (v : Fin n) :
    (sub.flushGutter v).gutters v = [] := by
  unfold flushGutter
  split
  · next h => exact h
  · exact setGutter_gutters_self []

theorem flushGutter_empty (h : sub.gutters v = []) (w : Fin n) :
    (sub.flushGutter w).gutters v = [] := by
  by_cases hv : v = w
  · exact hv ▸ flushGutter_self sub w
  · unfold flushGutter
    split
    · exact h
    · rw [setGutter_gutters_ne hv]
      exact h

theorem given_flush (sub : SketchSubgraph n) (v u : Fin n) : sub.flush.given v u = sub.given v u := by
  unfold flush
  induction List.finRange n generalizing sub with
  | nil => rfl
  | cons w l ih => rw [List.foldl_cons,ih,given_flushGutter]

theorem foldl_flushGutter_empty (l : List (Fin n)) (h : sub.gutters v = [] ∨ v ∈ l) :
    (l.foldl flushGutter sub).gutters v = [] := by
  induction l generalizing sub with
  | nil => exact h.resolve_right List.not_mem_nil
  | cons w l ih =>
    rw [List.foldl_cons]
    refine ih ?_
    rcases h with h | h
    · exact .inl (flushGutter_empty h w)
    · refine (List.mem_cons.mp h).imp_left ?_
      rintro rfl
      exact flushGutter_self sub v

theorem count_streams_flush (sub : SketchSubgraph n) (v u : Fin n) :
    (sub.flush.streams v).count u = sub.given v u := by
  have hempty : sub.flush.gutters v = [] :=
    foldl_flushGutter_empty _ (.inr (List.mem_finRange v))
  rw [← given_flush,given,hempty,List.count_nil,zero_add]

end SketchSubgraph

namespace MCGPUSketchAlg

variable {p : MCGPUParams} {a : MCGPUSketchAlg n} {g : ℕ}

def given (a : MCGPUSketchAlg n) (g : ℕ) (v u : Fin n) : ℕ := (a.subgraphs g).given v u

structure Created (p : MCGPUParams) (a : MCGPUSketchAlg n) : Prop where
  sketches : a.numSketchGraphs = a.curSubgraphs
  room : a.curSubgraphs ≤ p.maxSketchGraphs

structure Ready (p : MCGPUParams) (a : MCGPUSketchAlg n) : Prop extends Created p a where
  bounded : ∀ g, (a.subgraphs g).Bounded p.batchSize
  fresh : ∀ g, a.curSubgraphs ≤ g → ∀ v u, a.given g v u = 0

structure SameStore (a a' : MCGPUSketchAlg n) : Prop where
  locked : a'.updateLocked = a.updateLocked
  store : a'.edgeStore = a.edgeStore

theorem SameStore.refl (a : MCGPUSketchAlg n) : SameStore a a := ⟨rfl,rfl⟩

theorem SameStore.trans {b c : MCGPUSketchAlg n} (h : SameStore a b) (h' : SameStore b c) :
    SameStore a c := ⟨h'.locked.trans h.locked,h'.store.trans h.store⟩

@[simp] theorem setSubgraph_self (sub : SketchSubgraph n) :
    (a.setSubgraph g sub).subgraphs g = sub := Function.update_self ..

theorem setSubgraph_ne {g' : ℕ} (h : g' ≠ g) (sub : SketchSubgraph n) :
    (a.setSubgraph g sub).subgraphs g' = a.subgraphs g' := Function.update_of_ne h ..

theorem Created.batchInsert_eq (h : a.Created p) (hg : g < a.curSubgraphs) (src : Fin n)
    (dsts : List (Fin n)) : a.batchInsert p g src dsts = (do
      let sub ← (a.subgraphs g).batchInsert p.batchSize src dsts
      return a.setSubgraph g sub) := by
  rw [batchInsert,if_neg (not_le.mpr (lt_of_lt_of_le hg h.room)),if_pos ⟨hg,h.sketches ▸ hg⟩]

theorem batchInsert_spec (hsize : 16 ≤ p.batchSize) (h : a.Ready p) (hg : g < a.curSubgraphs)
    (src : Fin n) (dsts : List (Fin n)) (hd : dsts.length ≤ 16) : ∃ a', a.batchInsert p g src dsts = .ok a' ∧
      a'.Ready p ∧ SameStore a a' ∧ a'.curSubgraphs = a.curSubgraphs ∧
      ∀ g' v u, a'.given g' v u =
        a.given g' v u + if g' = g ∧ v = src then dsts.count u else 0 := by
  obtain ⟨sub,hsub,hbound,hgiven⟩ :=
    SketchSubgraph.batchInsert_spec hsize (h.bounded g) src dsts hd
  have hcount (g' : ℕ) (v u : Fin n) : (a.setSubgraph g sub).given g' v u =
      a.given g' v u + if g' = g ∧ v = src then dsts.count u else 0 := by
    by_cases hgg : g' = g
    · subst hgg
      rw [given,setSubgraph_self,hgiven]
      simp only [true_and]
      rfl
    · rw [given,setSubgraph_ne hgg,if_neg fun hh => hgg hh.1]
      rfl
  refine ⟨a.setSubgraph g sub,?_,⟨⟨h.sketches,h.room⟩,fun g' => ?_,fun g' hg' v u => ?_⟩,⟨rfl,rfl⟩,
    rfl,hcount⟩
  · rw [h.batchInsert_eq hg,hsub]
    rfl
  · by_cases hgg : g' = g
    · subst hgg
      rwa [setSubgraph_self]
    · rw [setSubgraph_ne hgg]
      exact h.bounded g'
  · rw [hcount,h.fresh g' hg' v u,zero_add]
    refine if_neg ?_
    rintro ⟨rfl,_⟩
    exact absurd hg' (not_le.mpr hg)

theorem Created.allocate_eq (h : a.Created p) (hlt : a.curSubgraphs < p.maxSketchGraphs) :
    a.allocate p = .ok { a.setSubgraph a.curSubgraphs .initialized with
      curSubgraphs := a.curSubgraphs + 1
      numSketchGraphs := a.curSubgraphs + 1 } := by
  have hcreate : ¬ (p.maxSketchGraphs ≤ a.curSubgraphs ∨
      a.curSubgraphs ≠ (a.setSubgraph a.curSubgraphs .initialized).numSketchGraphs) :=
    not_or.mpr ⟨not_le.mpr hlt,not_not.mpr h.sketches.symm⟩
  rw [allocate,if_pos hlt,createSketchGraph,if_neg hcreate,← h.sketches]
  rfl

theorem allocated_spec (h : a.Ready p) {f : ℕ} (hf : f ≤ a.curSubgraphs + 1)
    (hmax : f ≤ p.maxSketchGraphs) : ∃ a', a.allocated p f = .ok a' ∧ a'.Ready p ∧
      SameStore a a' ∧ a'.curSubgraphs = max a.curSubgraphs f ∧
      ∀ g v u, a'.given g v u = a.given g v u := by
  unfold allocated
  split
  · next hlt =>
    have hcount (g : ℕ) (v u : Fin n) :
        (a.setSubgraph a.curSubgraphs .initialized).given g v u = a.given g v u := by
      by_cases hg : g = a.curSubgraphs
      · subst hg
        rw [given,setSubgraph_self,h.fresh _ le_rfl]
        rfl
      · rw [given,setSubgraph_ne hg]
        rfl
    rw [h.allocate_eq (by omega)]
    refine ⟨_,rfl,⟨⟨rfl,by change a.curSubgraphs + 1 ≤ _; omega⟩,fun g => ?_,fun g hg v u => ?_⟩,
      ⟨rfl,rfl⟩,?_,hcount⟩
    · by_cases hg : g = a.curSubgraphs
      · subst hg
        exact (setSubgraph_self (a := a) (g := a.curSubgraphs) _).symm ▸
          SketchSubgraph.bounded_initialized
      · exact (setSubgraph_ne (a := a) hg _).symm ▸ h.bounded g
    · exact (hcount g v u).trans (h.fresh g (Nat.le_of_succ_le hg) v u)
    · rw [max_eq_right (le_of_lt hlt)]
      exact le_antisymm hlt hf
  · next hge => exact ⟨a,rfl,h,.refl a,(max_eq_left (not_lt.mp hge)).symm,fun _ _ _ => rfl⟩

end MCGPUSketchAlg
end GraphZeppelin.Gpu
