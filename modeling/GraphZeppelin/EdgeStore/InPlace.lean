import GraphZeppelin.EdgeStore.Contraction
import GraphZeppelin.EdgeStore.MergeExact

namespace GraphZeppelin.EdgeStore

variable {n : ℕ}

inductive AccessError where
  | read (index : ℕ)
  | underflow
  | store (err : StoreError)
deriving DecidableEq, Repr

structure Cursors (n : ℕ) where
  buffer : List (SubgraphTaggedUpdate n)
  dstData : List (SubgraphTaggedUpdate n)
  outPtr : ℕ
  bufferPtr : ℕ
  updatePtr : ℕ

namespace Cursors

def swap (c : Cursors n) (b u : SubgraphTaggedUpdate n) : Cursors n :=
  { c with
    buffer := c.buffer.set c.outPtr u
    dstData := c.dstData.set c.updatePtr b
    outPtr := c.outPtr + 1
    bufferPtr := c.bufferPtr + 1 }

def keep (c : Cursors n) (b : SubgraphTaggedUpdate n) : Cursors n :=
  { c with
    buffer := c.buffer.set c.outPtr b
    outPtr := c.outPtr + 1
    bufferPtr := c.bufferPtr + 1 }

def cancel (c : Cursors n) : Cursors n :=
  { c with
    bufferPtr := c.bufferPtr + 1
    updatePtr := c.updatePtr + 1 }

def mergeLoop (c : Cursors n) : Except AccessError (Cursors n) :=
  if hb : c.bufferPtr < c.buffer.length then
    if hu : c.updatePtr < c.dstData.length then
      let b := c.buffer.get ⟨c.bufferPtr,hb⟩
      let u := c.dstData.get ⟨c.updatePtr,hu⟩
      if b.gt u then (c.swap b u).mergeLoop
      else if b.lt u then (c.keep b).mergeLoop
      else if c.dstData.length ≤ c.updatePtr + 1 then .ok c.cancel
      else c.cancel.mergeLoop
    else .error (.read c.updatePtr)
  else .ok c
termination_by c.buffer.length - c.bufferPtr
decreasing_by all_goals simp only [swap,keep,cancel,List.length_set]; omega

def placeUpdates (c : Cursors n) : Cursors n :=
  if hu : c.updatePtr < c.dstData.length then
    placeUpdates { c with
      buffer := c.buffer.set c.outPtr (c.dstData.get ⟨c.updatePtr,hu⟩)
      outPtr := c.outPtr + 1
      updatePtr := c.updatePtr + 1 }
  else c
termination_by c.dstData.length - c.updatePtr

def placeBuffer [NeZero n] (origSize : ℕ) (c : Cursors n) : Cursors n :=
  if c.bufferPtr < origSize then
    placeBuffer origSize { c with
      buffer := c.buffer.set c.outPtr (c.buffer.getD c.bufferPtr ⟨0,0⟩)
      outPtr := c.outPtr + 1
      bufferPtr := c.bufferPtr + 1 }
  else c
termination_by origSize - c.bufferPtr

end Cursors

def resize [NeZero n] (l : List (SubgraphTaggedUpdate n)) (size : ℕ) :
    List (SubgraphTaggedUpdate n) :=
  l.take size ++ List.replicate (size - l.length) ⟨0,0⟩

def skipLoop (cur : ℕ) (dstData : List (SubgraphTaggedUpdate n)) (updatePtr : ℕ) :
    Except AccessError ℕ :=
  if hu : updatePtr < dstData.length then
    if (dstData.get ⟨updatePtr,hu⟩).subgraph < cur then skipLoop cur dstData (updatePtr + 1)
    else .ok updatePtr
  else .error (.read updatePtr)
termination_by dstData.length - updatePtr

def placeRemaining [NeZero n] (origSize : ℕ) (c : Cursors n) :
    Except AccessError (List (SubgraphTaggedUpdate n)) :=
  if c.dstData.length < c.updatePtr then .error .underflow
  else
    let newSize := c.outPtr + (c.dstData.length - c.updatePtr) + (origSize - c.bufferPtr)
    let c := { c with buffer := resize c.buffer (max newSize origSize) }
    .ok (resize (c.placeUpdates.placeBuffer origSize).buffer newSize)

def mergeInPlace [NeZero n] (cur : ℕ) (buffer dstData : List (SubgraphTaggedUpdate n)) :
    Except AccessError (List (SubgraphTaggedUpdate n)) :=
  match skipLoop cur dstData 0 with
  | .error err => .error err
  | .ok updatePtr =>
    match Cursors.mergeLoop ⟨buffer,dstData,0,0,updatePtr⟩ with
    | .error err => .error err
    | .ok c => placeRemaining buffer.length c

def insertInPlace [NeZero n] (s : EdgeStore n) (src : Fin n) (callerFirstEsSubgraph : ℕ)
    (dstData : List (SubgraphTaggedUpdate n)) :
    Except AccessError (EdgeStore n × TaggedUpdateBatch n) :=
  if dstData = [] then .ok (s,⟨src,s.curSubgraph - 1,s.curSubgraph,[]⟩)
  else
    let sorted := sortUpdates dstData
    let cur := s.curSubgraph
    let r := if s.trueMinSubgraph < cur ∧ s.vertexContracted src = false then s.vertexContract src
      else (s,[])
    let ret := if callerFirstEsSubgraph < cur then r.2 ++ sorted else r.2
    match mergeInPlace cur (r.1.adjlist src) sorted with
    | .error err => .error err
    | .ok data =>
      let store := r.1.setBuffer src data
      if ret = [] ∧ store.trueMinSubgraph < cur then
        match store.vertexAdvanceSubgraph cur with
        | .error err => .error (.store err)
        | .ok r => .ok r
      else .ok (store.checkIfTooBig,⟨src,cur - 1,cur,ret⟩)

theorem take_set_succ {α : Type*} {l : List α} {i : ℕ} (h : i < l.length) (a : α) :
    (l.set i a).take (i + 1) = l.take i ++ [a] := by
  rw [List.take_succ_eq_append_getElem (by rwa [List.length_set]),List.take_set_of_le (le_refl i),
    List.getElem_set_self]

theorem drop_eq_get_cons {α : Type*} {l : List α} {i : ℕ} (h : i < l.length) :
    l.drop i = l.get ⟨i,h⟩ :: l.drop (i + 1) :=
  List.drop_eq_getElem_cons h

theorem skipLoop_some {cur p : ℕ} {l us : List (SubgraphTaggedUpdate n)}
    (h : skipStale cur (l.drop p) = some us) :
    ∃ q, skipLoop cur l p = .ok q ∧ q < l.length ∧ l.drop q = us := by
  fun_induction skipLoop cur l p with
  | case1 p hp hlt ih =>
    rw [drop_eq_get_cons hp,skipStale,if_pos hlt] at h
    exact ih h
  | case2 p hp hge =>
    rw [drop_eq_get_cons hp,skipStale,if_neg hge] at h
    cases h
    exact ⟨p,rfl,hp,drop_eq_get_cons hp⟩
  | case3 p hp =>
    rw [List.drop_eq_nil_of_le (not_lt.mp hp)] at h
    cases h

theorem skipLoop_none {cur p : ℕ} {l : List (SubgraphTaggedUpdate n)} (hp : p ≤ l.length)
    (h : skipStale cur (l.drop p) = none) : skipLoop cur l p = .error (.read l.length) := by
  fun_induction skipLoop cur l p with
  | case1 p hlt hsub ih =>
    rw [drop_eq_get_cons hlt,skipStale,if_pos hsub] at h
    exact ih hlt h
  | case2 p hlt hge =>
    rw [drop_eq_get_cons hlt,skipStale,if_neg hge] at h
    cases h
  | case3 p hge => rw [le_antisymm hp (not_lt.mp hge)]

namespace Cursors

variable {c c' : Cursors n}

def merged (c : Cursors n) : List (SubgraphTaggedUpdate n) :=
  c.buffer.take c.outPtr ++ mergeUpdates (c.buffer.drop c.bufferPtr) (c.dstData.drop c.updatePtr)

structure InBounds (c : Cursors n) : Prop where
  out : c.outPtr ≤ c.bufferPtr
  buffer : c.bufferPtr ≤ c.buffer.length
  update : c.updatePtr ≤ c.dstData.length

structure Merged (c c' : Cursors n) : Prop where
  bounds : c'.InBounds
  size : c'.buffer.length = c.buffer.length
  done : c'.bufferPtr = c'.buffer.length ∨ c'.updatePtr = c'.dstData.length
  merged : c'.merged = c.merged

theorem swap_inBounds (h : c.InBounds) (hb : c.bufferPtr < c.buffer.length)
    (b u : SubgraphTaggedUpdate n) : (c.swap b u).InBounds :=
  ⟨Nat.succ_le_succ h.out,by simpa [swap] using hb,by simpa [swap] using h.update⟩

theorem keep_inBounds (h : c.InBounds) (hb : c.bufferPtr < c.buffer.length)
    (b : SubgraphTaggedUpdate n) : (c.keep b).InBounds :=
  ⟨Nat.succ_le_succ h.out,by simpa [keep] using hb,h.update⟩

theorem cancel_inBounds (h : c.InBounds) (hb : c.bufferPtr < c.buffer.length)
    (hu : c.updatePtr < c.dstData.length) : c.cancel.InBounds :=
  ⟨Nat.le_succ_of_le h.out,hb,hu⟩

theorem swap_merged (h : c.InBounds) (hb : c.bufferPtr < c.buffer.length)
    (hu : c.updatePtr < c.dstData.length)
    (hgt : (c.buffer.get ⟨_,hb⟩).gt (c.dstData.get ⟨_,hu⟩) = true) :
    (c.swap (c.buffer.get ⟨_,hb⟩) (c.dstData.get ⟨_,hu⟩)).merged = c.merged := by
  have hout : c.outPtr < c.buffer.length := lt_of_le_of_lt h.out hb
  have hdst : (c.dstData.set c.updatePtr (c.buffer.get ⟨_,hb⟩)).drop c.updatePtr =
      c.buffer.get ⟨_,hb⟩ :: c.dstData.drop (c.updatePtr + 1) := by
    rw [List.drop_eq_getElem_cons (by rwa [List.length_set]),List.getElem_set_self,
      List.drop_set_of_lt (Nat.lt_succ_self _)]
  simp only [merged,swap]
  rw [take_set_succ hout,List.drop_set_of_lt (Nat.lt_succ_of_le h.out),hdst,
    drop_eq_get_cons hb,drop_eq_get_cons hu,mergeUpdates,if_pos hgt,
    List.append_assoc]
  rfl

theorem keep_merged (h : c.InBounds) (hb : c.bufferPtr < c.buffer.length)
    (hu : c.updatePtr < c.dstData.length)
    (hgt : ¬ (c.buffer.get ⟨_,hb⟩).gt (c.dstData.get ⟨_,hu⟩) = true)
    (hlt : (c.buffer.get ⟨_,hb⟩).lt (c.dstData.get ⟨_,hu⟩) = true) :
    (c.keep (c.buffer.get ⟨_,hb⟩)).merged = c.merged := by
  have hout : c.outPtr < c.buffer.length := lt_of_le_of_lt h.out hb
  simp only [merged,keep]
  rw [take_set_succ hout,List.drop_set_of_lt (Nat.lt_succ_of_le h.out),
    drop_eq_get_cons hb,drop_eq_get_cons hu,mergeUpdates,if_neg hgt,if_pos hlt,
    List.append_assoc]
  rfl

theorem cancel_merged (hb : c.bufferPtr < c.buffer.length)
    (hu : c.updatePtr < c.dstData.length)
    (hgt : ¬ (c.buffer.get ⟨_,hb⟩).gt (c.dstData.get ⟨_,hu⟩) = true)
    (hlt : ¬ (c.buffer.get ⟨_,hb⟩).lt (c.dstData.get ⟨_,hu⟩) = true) :
    c.cancel.merged = c.merged := by
  simp only [merged,cancel]
  rw [drop_eq_get_cons hb,drop_eq_get_cons hu,mergeUpdates,if_neg hgt,if_neg hlt]

-- the update cursor stays inside the batch at every turn: only a cancellation moves it, and the
-- loop leaves when that was the last update
theorem mergeLoop_spec (h : c.InBounds) (hu : c.updatePtr < c.dstData.length) :
    ∃ c', c.mergeLoop = .ok c' ∧ Merged c c' := by
  fun_induction mergeLoop c with
  | case1 c hb hu' b u hgt ih =>
    obtain ⟨c',hc',hm⟩ := ih (swap_inBounds h hb b u) (by simpa [swap] using hu)
    exact ⟨c',hc',hm.bounds,hm.size.trans List.length_set,hm.done,
      hm.merged.trans (swap_merged h hb hu' hgt)⟩
  | case2 c hb hu' b u hgt hlt ih =>
    obtain ⟨c',hc',hm⟩ := ih (keep_inBounds h hb b) hu
    exact ⟨c',hc',hm.bounds,hm.size.trans List.length_set,hm.done,
      hm.merged.trans (keep_merged h hb hu' hgt hlt)⟩
  | case3 c hb hu' b u hgt hlt hend =>
    have hbounds := cancel_inBounds h hb hu'
    exact ⟨_,rfl,hbounds,rfl,.inr (le_antisymm hbounds.update hend),cancel_merged hb hu' hgt hlt⟩
  | case4 c hb hu' b u hgt hlt hend ih =>
    obtain ⟨c',hc',hm⟩ := ih (cancel_inBounds h hb hu') (not_le.mp hend)
    exact ⟨c',hc',hm.bounds,hm.size,hm.done,hm.merged.trans (cancel_merged hb hu' hgt hlt)⟩
  | case5 c hb hu' => exact absurd hu hu'
  | case6 c hb => exact ⟨_,rfl,h,rfl,.inl (le_antisymm h.buffer (not_lt.mp hb)),rfl⟩

theorem placeUpdates_spec (h : c.outPtr + (c.dstData.length - c.updatePtr) ≤ c.buffer.length) :
    c.placeUpdates.buffer.take c.placeUpdates.outPtr =
        c.buffer.take c.outPtr ++ c.dstData.drop c.updatePtr ∧
      c.placeUpdates.outPtr = c.outPtr + (c.dstData.length - c.updatePtr) ∧
      c.placeUpdates.buffer.length = c.buffer.length ∧ c.placeUpdates.bufferPtr = c.bufferPtr := by
  fun_induction placeUpdates c with
  | case1 c hu ih =>
    simp only [List.length_set] at ih
    obtain ⟨htake,hout,hlen,hbp⟩ := ih (by omega)
    refine ⟨?_,hout.trans (by omega),hlen,hbp⟩
    rw [htake,take_set_succ (by omega),drop_eq_get_cons hu,List.append_assoc]
    rfl
  | case2 c hu =>
    rw [List.drop_eq_nil_of_le (not_lt.mp hu),List.append_nil]
    exact ⟨rfl,by omega,rfl,rfl⟩

theorem placeBuffer_spec [NeZero n] (c : Cursors n) (origSize : ℕ) (hout : c.outPtr ≤ c.bufferPtr)
    (hlen : origSize ≤ c.buffer.length) :
    (c.placeBuffer origSize).buffer.take (c.placeBuffer origSize).outPtr =
        c.buffer.take c.outPtr ++ (c.buffer.take origSize).drop c.bufferPtr ∧
      (c.placeBuffer origSize).outPtr = c.outPtr + (origSize - c.bufferPtr) ∧
      (c.placeBuffer origSize).buffer.length = c.buffer.length := by
  fun_induction placeBuffer origSize c with
  | case1 c hb ih =>
    have hbl : c.bufferPtr < c.buffer.length := lt_of_lt_of_le hb hlen
    have hget : c.buffer.getD c.bufferPtr ⟨0,0⟩ = c.buffer.get ⟨c.bufferPtr,hbl⟩ :=
      List.getD_eq_getElem _ _ hbl
    simp only [List.length_set] at ih
    obtain ⟨htake,hptr,hsize⟩ := ih (Nat.succ_le_succ hout) hlen
    refine ⟨?_,hptr.trans (by omega),hsize⟩
    rw [htake,take_set_succ (lt_of_le_of_lt hout hbl),hget,List.take_set,
      List.drop_set_of_lt (Nat.lt_succ_of_le hout),List.append_assoc,
      drop_eq_get_cons (l := c.buffer.take origSize) (i := c.bufferPtr)
        (by rw [List.length_take]; omega)]
    simp
  | case2 c hb =>
    rw [List.drop_eq_nil_of_le (by rw [List.length_take]; omega),List.append_nil]
    exact ⟨rfl,by omega,rfl⟩

end Cursors

theorem mergeUpdates_nil (l : List (SubgraphTaggedUpdate n)) : mergeUpdates l [] = l := by
  cases l with
  | nil => rfl
  | cons b bs => rfl

theorem resize_of_le [NeZero n] {l : List (SubgraphTaggedUpdate n)} {size : ℕ}
    (h : size ≤ l.length) : resize l size = l.take size := by
  rw [resize,Nat.sub_eq_zero_of_le h,List.replicate_zero,List.append_nil]

theorem length_resize [NeZero n] (l : List (SubgraphTaggedUpdate n)) (size : ℕ) :
    (resize l size).length = size := by
  rw [resize,List.length_append,List.length_take,List.length_replicate]
  omega

theorem take_resize [NeZero n] {l : List (SubgraphTaggedUpdate n)} {i size : ℕ}
    (hi : i ≤ l.length) (hsize : l.length ≤ size) : (resize l size).take i = l.take i := by
  rw [resize,List.take_of_length_le hsize,List.take_append_of_le_length hi]

theorem placeRemaining_spec [NeZero n] {c : Cursors n} (h : c.InBounds)
    (hdone : c.bufferPtr = c.buffer.length ∨ c.updatePtr = c.dstData.length) :
    placeRemaining c.buffer.length c = .ok c.merged := by
  obtain ⟨hout,hbuffer,hupdate⟩ := h
  rw [placeRemaining,if_neg (not_lt.mpr hupdate)]
  simp only
  generalize hsize : c.outPtr + (c.dstData.length - c.updatePtr) +
    (c.buffer.length - c.bufferPtr) = newSize
  have hlen : (resize c.buffer (max newSize c.buffer.length)).length = max newSize c.buffer.length :=
    length_resize _ _
  generalize hc : ({ c with buffer := resize c.buffer (max newSize c.buffer.length) } : Cursors n)
    = r
  have hr : r.buffer.length = max newSize c.buffer.length := by rw [← hc]; exact hlen
  have htake {i : ℕ} (hi : i ≤ c.buffer.length) : r.buffer.take i = c.buffer.take i := by
    rw [← hc]
    exact take_resize hi (le_max_right _ _)
  obtain ⟨rout,rbp,rup,rdst⟩ : r.outPtr = c.outPtr ∧ r.bufferPtr = c.bufferPtr ∧
      r.updatePtr = c.updatePtr ∧ r.dstData = c.dstData := by
    rw [← hc]
    exact ⟨rfl,rfl,rfl,rfl⟩
  rcases hdone with hdone | hdone
  · obtain ⟨hput,hptr,hlen',hbp⟩ := r.placeUpdates_spec (by rw [rout,rup,rdst,hr]; omega)
    have hstop : r.placeUpdates.placeBuffer c.buffer.length = r.placeUpdates := by
      rw [Cursors.placeBuffer,if_neg (by omega)]
    rw [hstop,resize_of_le (by omega),Cursors.merged,hdone,List.drop_length,mergeUpdates]
    rw [hptr,rout,rup,rdst] at hput
    have hnew : newSize = c.outPtr + (c.dstData.length - c.updatePtr) := by omega
    rw [hnew,hput,htake (by omega)]
  · have hstop : r.placeUpdates = r := by
      rw [Cursors.placeUpdates,dif_neg (by rw [rup,rdst]; omega)]
    obtain ⟨hput,hptr,hlen'⟩ := r.placeBuffer_spec c.buffer.length (by omega) (by omega)
    rw [hstop,resize_of_le (by omega),Cursors.merged,hdone,List.drop_length,mergeUpdates_nil]
    rw [hptr,rout,rbp,htake (le_refl _),List.take_length,htake (by omega)] at hput
    have hnew : newSize = c.outPtr + (c.buffer.length - c.bufferPtr) := by omega
    rw [hnew,hput]

theorem mergeInPlace_some [NeZero n] {cur : ℕ} {buffer dstData us : List (SubgraphTaggedUpdate n)}
    (h : skipStale cur dstData = some us) :
    mergeInPlace cur buffer dstData = .ok (mergeUpdates buffer us) := by
  obtain ⟨q,hq,hlt,hdrop⟩ := skipLoop_some (p := 0) (by rwa [List.drop_zero])
  obtain ⟨c,hc,hm⟩ := Cursors.mergeLoop_spec (c := ⟨buffer,dstData,0,0,q⟩)
    ⟨le_refl _,Nat.zero_le _,le_of_lt hlt⟩ hlt
  have hsize : buffer.length = c.buffer.length := hm.size.symm
  have hplace := placeRemaining_spec hm.bounds hm.done
  rw [mergeInPlace,hq]
  simp only [hc]
  rw [hsize,hplace,hm.merged,Cursors.merged,hdrop]
  rfl

theorem mergeInPlace_none [NeZero n] {cur : ℕ} {dstData : List (SubgraphTaggedUpdate n)}
    (h : skipStale cur dstData = none) (buffer : List (SubgraphTaggedUpdate n)) :
    mergeInPlace cur buffer dstData = .error (.read dstData.length) := by
  rw [mergeInPlace,skipLoop_none (Nat.zero_le _) (by rwa [List.drop_zero])]

theorem skipStale_none {cur : ℕ} {l : List (SubgraphTaggedUpdate n)}
    (h : ¬ ∃ e ∈ l, cur ≤ e.subgraph) : skipStale cur l = none := by
  induction l with
  | nil => rfl
  | cons e l ih =>
    have hlt : e.subgraph < cur := not_le.mp fun hle => h ⟨e,List.mem_cons_self,hle⟩
    rw [skipStale,if_pos hlt]
    apply ih
    rintro ⟨e',he',hle⟩
    exact h ⟨e',List.mem_cons_of_mem _ he',hle⟩

variable {s : EdgeStore n} {src : Fin n} {c : ℕ} {dstData : List (SubgraphTaggedUpdate n)}

theorem insertInPlace_eq [NeZero n] (hfresh : ∃ e ∈ dstData, s.curSubgraph ≤ e.subgraph) :
    s.insertInPlace src c dstData = (s.insertAdjEdges src c dstData).mapError .store := by
  have hsort (e : SubgraphTaggedUpdate n) : e ∈ sortUpdates dstData ↔ e ∈ dstData :=
    (sortUpdates_perm dstData).mem_iff
  obtain ⟨us,hus⟩ := exists_skipStale
    (show ∃ e ∈ sortUpdates dstData, s.curSubgraph ≤ e.subgraph by simpa only [hsort] using hfresh)
  unfold insertInPlace insertAdjEdges insertLocked
  split
  · rfl
  · simp only [mergeInPlace_some hus,hus]
    generalize (if s.trueMinSubgraph < s.curSubgraph ∧ s.vertexContracted src = false then
      s.vertexContract src else (s,[])) = p
    generalize (if c < s.curSubgraph then p.2 ++ sortUpdates dstData else p.2) = ret
    generalize p.1.setBuffer src (mergeUpdates (p.1.adjlist src) us) = store
    split
    · cases store.vertexAdvanceSubgraph s.curSubgraph with
      | error err => rfl
      | ok r => rfl
    · rfl

theorem insertInPlace_stale [NeZero n] (hne : dstData ≠ [])
    (hstale : ¬ ∃ e ∈ dstData, s.curSubgraph ≤ e.subgraph) :
    s.insertInPlace src c dstData = .error (.read dstData.length) := by
  have hperm := sortUpdates_perm dstData
  have hskip : skipStale s.curSubgraph (sortUpdates dstData) = none :=
    skipStale_none (by simpa only [hperm.mem_iff] using hstale)
  unfold insertInPlace
  rw [if_neg hne]
  simp only [mergeInPlace_none hskip,hperm.length_eq]

theorem vertexContract_count_le (s : EdgeStore n) (v w : Fin n) (e : SubgraphTaggedUpdate n) :
    ((s.vertexContract v).1.adjlist w).count e ≤ (s.adjlist w).count e := by
  unfold vertexContract
  split
  · exact le_refl _
  · by_cases hw : w = v
    · subst hw
      rw [setBuffer_adjlist_self]
      exact List.filter_sublist.count_le e
    · rw [setBuffer_adjlist_ne hw]
      exact le_refl _

theorem prepared_count_le (s : EdgeStore n) (v w : Fin n) (e : SubgraphTaggedUpdate n) :
    ((s.prepared v).1.adjlist w).count e ≤ (s.adjlist w).count e := by
  unfold prepared
  split
  · exact vertexContract_count_le s v w e
  · exact le_refl _

theorem advance_count_le [NeZero n] (hn : n < 2 ^ 32) (s : EdgeStore n) (c : ℕ) :
    ∃ r, s.vertexAdvanceSubgraph c = .ok r ∧
      ∀ v e, (r.1.adjlist v).count e ≤ (s.adjlist v).count e := by
  by_cases hle : s.needsContraction ≤ n
  · obtain ⟨t,ht,hres⟩ := vertexAdvanceLoop_rule (P := fun t => t.adjlist = s.adjlist) (c := c) hn
      (fun t _ ht _ => ht) (n + 1) rfl hle (Nat.le_add_right _ _)
    rcases hres with ⟨hneeds,_,hloop⟩ | ⟨_,hloop⟩
    · exact ⟨_,hloop,fun v e => ht ▸ vertexContract_count_le t.fetchNext _ v e⟩
    · exact ⟨_,hloop,fun v e => ht ▸ le_refl _⟩
  · exact ⟨_,advance_past c (not_le.mp hle),fun v e => le_refl _⟩

def GainsFresh (s : EdgeStore n) (src : Fin n) (dstData : List (SubgraphTaggedUpdate n))
    (s' : EdgeStore n) : Prop :=
  ∀ e, (s'.adjlist src).count e ≤ (s.adjlist src).count e +
    (dstData.filter fun e => s.curSubgraph ≤ e.subgraph).count e

theorem insertLocked_gains {r : Inserted n}
    (hr : s.insertLocked src c (sortUpdates dstData) = .ok r) :
    GainsFresh s src dstData r.store := by
  intro e
  obtain ⟨us,hus,rfl⟩ := insertLocked_ok hr
  have hfilter := skipStale_eq (sortUpdates_pairwise dstData) hus
  have hperm : us.Perm (dstData.filter fun e => s.curSubgraph ≤ e.subgraph) := by
    rw [hfilter]
    exact (sortUpdates_perm dstData).filter _
  rw [setBuffer_adjlist_self,mergeUpdates_eq,← hperm.count_eq]
  exact (SwapMerge.count_merge_le e _ us).trans
    (Nat.add_le_add_right (prepared_count_le s src src e) _)

theorem insertAdjEdges_gains [NeZero n] (src : Fin n) (c : ℕ) (hn : n < 2 ^ 32) (hne : dstData ≠ [])
    (hfresh : ∃ e ∈ dstData, s.curSubgraph ≤ e.subgraph) :
    ∃ r, s.insertAdjEdges src c dstData = .ok r ∧ GainsFresh s src dstData r.1 := by
  have hsort (e : SubgraphTaggedUpdate n) : e ∈ sortUpdates dstData ↔ e ∈ dstData :=
    (sortUpdates_perm dstData).mem_iff
  obtain ⟨e,he,hle⟩ := hfresh
  obtain ⟨r,hr⟩ := exists_insertLocked s src c ⟨e,(hsort e).mpr he,hle⟩
  have hgains := insertLocked_gains hr
  unfold insertAdjEdges
  rw [if_neg hne]
  simp only [hr]
  split
  · obtain ⟨q,hq,hless⟩ := advance_count_le hn r.store r.cur
    exact ⟨q,hq,fun e => (hless src e).trans (hgains e)⟩
  · refine ⟨_,rfl,fun e => ?_⟩
    rw [checkIfTooBig_adjlist]
    exact hgains e

theorem stale_caller_safe_iff [NeZero n] (hn : n < 2 ^ 32) (s : EdgeStore n) (src : Fin n) (c : ℕ)
    (hne : dstData ≠ []) :
    (∃ r, s.insertInPlace src c dstData = .ok r ∧ GainsFresh s src dstData r.1) ↔
      ∃ e ∈ dstData, s.curSubgraph ≤ e.subgraph := by
  constructor
  · rintro ⟨r,hr,_⟩
    by_contra hstale
    rw [insertInPlace_stale hne hstale] at hr
    cases hr
  · intro hfresh
    obtain ⟨r,hr,hgains⟩ := insertAdjEdges_gains src c hn hne hfresh
    exact ⟨r,by rw [insertInPlace_eq hfresh,hr]; rfl,hgains⟩

theorem stale_caller_safe_pair :
    (∃ r, (new 2 100 1 2).insertInPlace 0 0 [⟨0,1⟩,⟨1,1⟩] = .ok r ∧
      GainsFresh (new 2 100 1 2) 0 [⟨0,1⟩,⟨1,1⟩] r.1) ↔
      ∃ e ∈ ([⟨0,1⟩,⟨1,1⟩] : List (SubgraphTaggedUpdate 2)), (new 2 100 1 2).curSubgraph ≤ e.subgraph :=
  stale_caller_safe_iff (by decide) (new 2 100 1 2) 0 0 (by decide)

theorem stale_caller_reads_past :
    ¬ ∀ (n : ℕ) (_ : NeZero n) (s : EdgeStore n) (src : Fin n) (c : ℕ)
      (dstData : List (SubgraphTaggedUpdate n)), n < 2 ^ 32 → dstData ≠ [] → c ≤ s.curSubgraph →
      (∀ e ∈ dstData, c ≤ e.subgraph) →
      ∃ r, s.insertInPlace src c dstData = .ok r ∧ GainsFresh s src dstData r.1 := by
  intro hclaim
  obtain ⟨r,hr,_⟩ := hclaim 2 inferInstance (new 2 100 1 2) 0 0 [⟨0,1⟩] (by decide) (by decide)
    (by decide) (by decide)
  rw [insertInPlace_stale (by decide) (by decide)] at hr
  cases hr

end GraphZeppelin.EdgeStore
