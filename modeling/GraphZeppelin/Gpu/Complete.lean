import GraphZeppelin.EdgeStore.Insert
import GraphZeppelin.Gpu.Gutters

namespace GraphZeppelin.Gpu.MCGPUSketchAlg
open FoldExcept

variable {n f g : ℕ} {p : MCGPUParams} {a : MCGPUSketchAlg n} {src dst : Fin n}
  {c c' : ℕ → Fin n → Fin n → ℕ} {st : Buffered n} {b : TaggedUpdateBatch n}

structure Placing (p : MCGPUParams) (a : MCGPUSketchAlg n) (src : Fin n) (f : ℕ)
    (c : ℕ → Fin n → Fin n → ℕ) (st : Buffered n) : Prop where
  ready : st.alg.Ready p
  same : SameStore a st.alg
  cur : st.alg.curSubgraphs = a.curSubgraphs
  short : ∀ g, (st.buffers g).length < 16
  inside : ∀ g, f ≤ g → st.buffers g = []
  total : ∀ g v u, st.alg.given g v u + (if v = src then (st.buffers g).count u else 0) =
    a.given g v u + c g v u

theorem Placing.congr (h : Placing p a src f c st) (hc : ∀ g v u, c g v u = c' g v u) :
    Placing p a src f c' st :=
  ⟨h.ready,h.same,h.cur,h.short,h.inside,fun g v u => hc g v u ▸ h.total g v u⟩

theorem count_singleton_eq {α : Type*} [DecidableEq α] (x y : α) :
    [x].count y = if y = x then 1 else 0 := by
  rw [List.count_singleton]
  exact if_congr (by rw [beq_iff_eq,eq_comm]) rfl rfl

theorem Placing.place (h : Placing p a src f c st) (hg : g < f) {a' : MCGPUSketchAlg n}
    {data : List (Fin n)} (hready : a'.Ready p) (hsame : SameStore a a')
    (hcur : a'.curSubgraphs = a.curSubgraphs) (hdata : data.length < 16)
    (hgiven : ∀ g' v u, a'.given g' v u + (if g' = g ∧ v = src then data.count u else 0) =
      st.alg.given g' v u + if g' = g ∧ v = src then (st.buffers g ++ [dst]).count u else 0) :
    Placing p a src f (fun g' v u => c g' v u + if v = src ∧ u = dst then [g].count g' else 0)
      ⟨a',Function.update st.buffers g data⟩ := by
  refine ⟨hready,hsame,hcur,fun g' => ?_,fun g' hg' => ?_,fun g' v u => ?_⟩
  · by_cases hgg : g' = g
    · subst hgg
      simpa only [Function.update_self] using hdata
    · simp only [Function.update_of_ne hgg]
      exact h.short g'
  · have hgg : g' ≠ g := by omega
    simp only [Function.update_of_ne hgg]
    exact h.inside g' hg'
  · have htotal := h.total g' v u
    have hadd := hgiven g' v u
    simp only [count_singleton_eq,List.count_append] at hadd ⊢
    by_cases hgg : g' = g
    · subst hgg
      by_cases hv : v = src
      · simp only [hv,true_and,if_true,Function.update_self] at htotal hadd ⊢
        omega
      · simp only [hv,false_and,and_false,if_false] at htotal hadd ⊢
        omega
    · simp only [Function.update_of_ne hgg,hgg,false_and,if_false,ite_self] at hadd ⊢
      omega

theorem placeDst_spec (hsize : 16 ≤ p.batchSize) (hf : f ≤ a.curSubgraphs)
    (h : Placing p a src f c st) (dst : Fin n) (hg : g < f) : ∃ st', placeDst p src dst st g = .ok st' ∧
      Placing p a src f
        (fun g' v u => c g' v u + if v = src ∧ u = dst then [g].count g' else 0) st' := by
  have hshort := h.short g
  have hlen : (st.buffers g ++ [dst]).length = (st.buffers g).length + 1 := by
    rw [List.length_append,List.length_singleton]
  unfold placeDst
  simp only
  split
  · obtain ⟨a',ha',hready,hsame,hcur,hgiven⟩ := batchInsert_spec hsize h.ready
      (h.cur ▸ lt_of_lt_of_le hg hf) src (st.buffers g ++ [dst]) (by omega)
    rw [ha']
    refine ⟨_,rfl,h.place hg hready (h.same.trans hsame) (hcur.trans h.cur) (Nat.zero_lt_succ 15)
      fun g' v u => ?_⟩
    rw [hgiven,List.count_nil,ite_self,add_zero]
  · exact ⟨_,rfl,h.place hg h.ready h.same h.cur (by omega) fun _ _ _ => rfl⟩

theorem count_range' (m k g : ℕ) : (List.range' m k).count g = if m ≤ g ∧ g < m + k then 1 else 0 := by
  rw [List.Nodup.count List.nodup_range']
  exact if_congr List.mem_range'_1 rfl rfl

theorem placeUpdate_spec (hsize : 16 ≤ p.batchSize) (hf : b.firstEsSubgraph ≤ a.curSubgraphs)
    (hpos : 0 < b.firstEsSubgraph) (h : Placing p a b.src b.firstEsSubgraph c st)
    (e : SubgraphTaggedUpdate n) : ∃ st', placeUpdate p b st e = .ok st' ∧
      Placing p a b.src b.firstEsSubgraph (fun g v u => c g v u +
        (⟨b.src,b.minSubgraph,b.firstEsSubgraph,[e]⟩ : TaggedUpdateBatch n).reaches g v u) st' := by
  obtain ⟨st',hst',hplaced⟩ := foldlM_total
    (I := fun done => Placing p a b.src b.firstEsSubgraph
      (fun g v u => c g v u + if v = b.src ∧ u = e.dst then done.count g else 0))
    (f := placeDst p b.src e.dst) []
    (List.range' b.minSubgraph (min e.subgraph (b.firstEsSubgraph - 1) + 1 - b.minSubgraph))
    (b := st) (h.congr fun g v u => by simp) fun done g st' hdone hst' => by
      have hmem := List.mem_range'_1.mp (hdone.subset (List.mem_append_right done
        (List.mem_singleton_self g)))
      obtain ⟨st'',hplace,hst''⟩ := placeDst_spec hsize hf hst' e.dst (g := g) (by omega)
      refine ⟨st'',hplace,hst''.congr fun g' v u => ?_⟩
      rw [List.nil_append,List.nil_append,List.count_append]
      split <;> omega
  refine ⟨st',hst',hplaced.congr fun g v u => ?_⟩
  rw [List.nil_append,count_range',TaggedUpdateBatch.reaches]
  by_cases hv : v = b.src
  · subst hv
    simp only [true_and,if_true,List.countP_cons,List.countP_nil,decide_eq_true_eq,zero_add]
    by_cases hu : u = e.dst
    · simp only [hu,if_true,true_and]
      congr 1
      exact if_congr (by omega) rfl rfl
    · simp only [hu,Ne.symm hu,false_and,if_false]
  · simp only [hv,Ne.symm hv,false_and,if_false]

theorem flushBuffers_spec (hsize : 16 ≤ p.batchSize) (hf : f ≤ a.curSubgraphs)
    (h : Placing p a src f c st) : ∃ st', (List.range f).foldlM (flushBuffer p src) st = .ok st' ∧
      st'.alg.Ready p ∧ SameStore a st'.alg ∧ st'.alg.curSubgraphs = a.curSubgraphs ∧
      ∀ g v u, st'.alg.given g v u = a.given g v u + c g v u := by
  obtain ⟨st',hst',hready,hsame,hcur,hbuffers,hgiven⟩ := foldlM_total
    (I := fun done st' => st'.alg.Ready p ∧ SameStore a st'.alg ∧
      st'.alg.curSubgraphs = a.curSubgraphs ∧ st'.buffers = st.buffers ∧
      ∀ g v u, st'.alg.given g v u =
        st.alg.given g v u + if v = src then done.count g * (st.buffers g).count u else 0)
    (f := flushBuffer p src) [] (List.range f) (b := st)
    ⟨h.ready,h.same,h.cur,rfl,fun g v u => by simp⟩ fun done i st' hdone hst' => by
      obtain ⟨hready,hsame,hcur,hbuffers,hgiven⟩ := hst'
      have hi := List.mem_range.mp (hdone.subset (List.mem_append_right done
        (List.mem_singleton_self i)))
      simp only [List.nil_append,List.count_append,count_singleton_eq,Nat.add_mul]
      unfold flushBuffer
      rw [hbuffers]
      split
      · next hempty =>
        refine ⟨st',rfl,hready,hsame,hcur,hbuffers,fun g v u => ?_⟩
        rw [hgiven]
        by_cases hg : g = i
        · subst hg
          simp [hempty]
        · simp [hg]
      · obtain ⟨a',ha',hready',hsame',hcur',hgiven'⟩ := batchInsert_spec hsize hready
          (hcur ▸ lt_of_lt_of_le hi hf) src (st.buffers i) (le_of_lt (h.short i))
        rw [ha']
        refine ⟨_,rfl,hready',hsame.trans hsame',hcur'.trans hcur,rfl,fun g v u => ?_⟩
        rw [hgiven',hgiven]
        by_cases hv : v = src
        · by_cases hg : g = i
          · subst hg
            simp [hv,add_assoc]
          · simp [hg]
        · simp [hv]
  refine ⟨st',hst',hready,hsame,hcur,fun g v u => ?_⟩
  rw [hgiven,← h.total g v u,List.nil_append,List.range_eq_range',count_range']
  by_cases hg : g < f
  · simp [hg]
  · simp [hg,h.inside g (not_lt.mp hg)]

theorem completeUpdateBatch_spec (hsize : 16 ≤ p.batchSize) (hmax : p.maxSketchGraphs ≤ 16)
    (h : a.Ready p) (hpos : 0 < b.firstEsSubgraph) (hcur : b.firstEsSubgraph ≤ a.curSubgraphs + 1)
    (hfirst : b.firstEsSubgraph ≤ p.maxSketchGraphs) :
    ∃ a', a.completeUpdateBatch p b = .ok a' ∧ a'.Ready p ∧ SameStore a a' ∧
      a'.curSubgraphs = max a.curSubgraphs b.firstEsSubgraph ∧
      ∀ g v u, a'.given g v u = a.given g v u + b.reaches g v u := by
  obtain ⟨a₁,ha₁,hready₁,hsame₁,hcur₁,hgiven₁⟩ := allocated_spec h hcur hfirst
  have hf : b.firstEsSubgraph ≤ a₁.curSubgraphs := hcur₁ ▸ le_max_right _ _
  obtain ⟨st,hst,hplaced⟩ := foldlM_total
    (I := fun done => Placing p a₁ b.src b.firstEsSubgraph
      (⟨b.src,b.minSubgraph,b.firstEsSubgraph,done⟩ : TaggedUpdateBatch n).reaches)
    (f := placeUpdate p b) [] b.dstsData (b := ⟨a₁,fun _ => []⟩)
    ⟨hready₁,.refl a₁,rfl,fun _ => Nat.zero_lt_succ _,fun _ _ => rfl,fun g v u => by
      simp [TaggedUpdateBatch.reaches_nil]⟩ fun done e st' _ hst' => by
      obtain ⟨st'',hplace,hst''⟩ := placeUpdate_spec hsize hf hpos hst' e
      refine ⟨st'',hplace,hst''.congr fun g v u => ?_⟩
      rw [List.nil_append,List.nil_append,TaggedUpdateBatch.reaches_append]
  obtain ⟨st',hst',hready,hsame,hcur',hgiven⟩ := flushBuffers_spec hsize hf hplaced
  refine ⟨st'.alg,?_,hready,hsame₁.trans hsame,hcur'.trans hcur₁,fun g v u => ?_⟩
  · have hle : ¬ 16 < b.firstEsSubgraph := by omega
    rw [completeUpdateBatch,if_neg (Nat.ne_of_gt hpos)]
    simp only [ha₁,bind,Except.bind,if_neg hle,hst,hst']
    rfl
  · rw [hgiven,hgiven₁,List.nil_append]

theorem completeNonempty_spec (hsize : 16 ≤ p.batchSize) (hmax : p.maxSketchGraphs ≤ 16)
    (h : a.Ready p) (hpos : b.dstsData ≠ [] → 0 < b.firstEsSubgraph)
    (hcur : b.firstEsSubgraph ≤ a.curSubgraphs + 1)
    (hfirst : b.firstEsSubgraph ≤ p.maxSketchGraphs) :
    ∃ a', a.completeNonempty p b = .ok a' ∧ a'.Ready p ∧ SameStore a a' ∧
      (a'.curSubgraphs = if b.dstsData = [] then a.curSubgraphs
        else max a.curSubgraphs b.firstEsSubgraph) ∧
      ∀ g v u, a'.given g v u = a.given g v u + b.reaches g v u := by
  unfold completeNonempty
  split
  · next hnil =>
    refine ⟨a,rfl,h,.refl a,rfl,fun g v u => ?_⟩
    obtain ⟨src,m,f,l⟩ := b
    cases hnil
    rw [TaggedUpdateBatch.reaches_nil,add_zero]
  · next hne => exact completeUpdateBatch_spec hsize hmax h (hpos hne) hcur hfirst

end GraphZeppelin.Gpu.MCGPUSketchAlg
