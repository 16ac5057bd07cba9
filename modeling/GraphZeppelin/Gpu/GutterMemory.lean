import GraphZeppelin.Gpu.Gutters

namespace GraphZeppelin.Gpu

inductive CopyError where
  | underflow
  | overread
  | overwrite
deriving DecidableEq, Repr

def memcpy {α : Type} (dst : List α) (dstOff : ℕ) (src : List α) (srcOff count : ℕ) :
    Except CopyError (List α) :=
  if src.length < srcOff + count then .error .overread
  else if dst.length < dstOff + count then .error .overwrite
  else .ok (dst.take dstOff ++ (src.drop srcOff).take count ++ dst.drop (dstOff + count))

theorem memcpy_eq {α : Type} {dst src : List α} {dstOff srcOff count : ℕ}
    (hsrc : srcOff + count ≤ src.length) (hdst : dstOff + count ≤ dst.length) :
    memcpy dst dstOff src srcOff count =
      .ok (dst.take dstOff ++ (src.drop srcOff).take count ++ dst.drop (dstOff + count)) := by
  rw [memcpy,if_neg (not_lt.mpr hsrc),if_neg (not_lt.mpr hdst)]

structure Gutter (n : ℕ) where
  elms : ℕ
  data : List (Fin n)

structure InsertCall (n : ℕ) where
  thrId : ℕ
  src : Fin n
  dsts : List (Fin n)
  numElms : ℕ
  size : dsts.length = 16
  pos : 1 ≤ numElms
  le : numElms ≤ 16

structure SubgraphGutters (n : ℕ) where
  gutters : Fin n → Gutter n
  batches : List (ℕ × Fin n × List (Fin n))

namespace SubgraphGutters

variable {n : ℕ}

def initialized [NeZero n] (batchSize : ℕ) : SubgraphGutters n :=
  ⟨fun _ => ⟨0,List.replicate batchSize 0⟩,[]⟩

def applyUpdateBatch (st : SubgraphGutters n) (thrId : ℕ) (src : Fin n)
    (dstVertices : List (Fin n)) : SubgraphGutters n :=
  { st with batches := st.batches ++ [(thrId,src,dstVertices)] }

def setGutter (st : SubgraphGutters n) (src : Fin n) (gutter : Gutter n) : SubgraphGutters n :=
  { st with gutters := Function.update st.gutters src gutter }

def batchInsert (batchSize : ℕ) (st : SubgraphGutters n) (call : InsertCall n) :
    Except CopyError (SubgraphGutters n) :=
  let gutter := st.gutters call.src
  if batchSize < gutter.elms then .error .underflow
  else
    let capacity := batchSize - gutter.elms
    match memcpy gutter.data gutter.elms call.dsts 0 (min call.numElms capacity) with
    | .error err => .error err
    | .ok data =>
      if capacity ≤ call.numElms then
        let numLeft := call.numElms - capacity
        match memcpy data 0 call.dsts capacity numLeft with
        | .error err => .error err
        | .ok rest =>
          .ok ((st.applyUpdateBatch call.thrId call.src data).setGutter call.src ⟨numLeft,rest⟩)
      else .ok (st.setGutter call.src ⟨gutter.elms + min call.numElms capacity,data⟩)

def insertAll [NeZero n] (batchSize : ℕ) (calls : List (InsertCall n)) :
    Except CopyError (SubgraphGutters n) :=
  calls.foldlM (batchInsert batchSize) (initialized batchSize)

def resize [NeZero n] (data : List (Fin n)) (size : ℕ) : List (Fin n) :=
  data.take size ++ List.replicate (size - data.length) 0

def flushGutter [NeZero n] (batchSize : ℕ) (st : SubgraphGutters n) (v : Fin n) :
    SubgraphGutters n :=
  let gutter := st.gutters v
  if 0 < gutter.elms then
    let data := resize gutter.data gutter.elms
    (st.applyUpdateBatch 0 v data).setGutter v ⟨0,resize data batchSize⟩
  else st

def flush [NeZero n] (batchSize : ℕ) (st : SubgraphGutters n) : SubgraphGutters n :=
  (List.finRange n).foldl (flushGutter batchSize) st

def delivered (st : SubgraphGutters n) (v : Fin n) : List (Fin n) :=
  (st.batches.filter fun b => b.2.1 = v).flatMap fun b => b.2.2

def inserted (calls : List (InsertCall n)) (v : Fin n) : List (Fin n) :=
  (calls.filter fun call => call.src = v).flatMap fun call => call.dsts.take call.numElms

structure Lossless [NeZero n] (batchSize : ℕ) (calls : List (InsertCall n)) : Prop where
  bounded : ∀ pre, pre <+: calls →
    ∃ st, insertAll batchSize pre = .ok st ∧ ∀ v, (st.gutters v).elms < batchSize
  delivered : ∃ st, insertAll batchSize calls = .ok st ∧
    ∀ v, (st.flush batchSize).delivered v = inserted calls v

def Fits (batchSize : ℕ) (calls : List (InsertCall n)) : Prop :=
  ∀ pre call, pre ++ [call] <+: calls →
    (inserted pre call.src).length % batchSize + call.numElms < 2 * batchSize

structure Holds (batchSize : ℕ) (calls : List (InsertCall n)) (st : SubgraphGutters n) : Prop where
  size : ∀ v, (st.gutters v).data.length = batchSize
  elms : ∀ v, (st.gutters v).elms = (inserted calls v).length % batchSize
  content : ∀ v, st.delivered v ++ (st.gutters v).data.take (st.gutters v).elms = inserted calls v

section Step

variable {batchSize : ℕ} {calls : List (InsertCall n)} {st : SubgraphGutters n} {call : InsertCall n}

theorem inserted_snoc (calls : List (InsertCall n)) (call : InsertCall n) (v : Fin n) :
    inserted (calls ++ [call]) v =
      inserted calls v ++ if call.src = v then call.dsts.take call.numElms else [] := by
  rw [inserted,List.filter_append,List.flatMap_append,← inserted]
  congr 1
  by_cases h : call.src = v
  · simp [h]
  · simp [h]

theorem delivered_apply (st : SubgraphGutters n) (thrId : ℕ) (src : Fin n)
    (data : List (Fin n)) (v : Fin n) :
    (st.applyUpdateBatch thrId src data).delivered v =
      st.delivered v ++ if src = v then data else [] := by
  rw [delivered,applyUpdateBatch,List.filter_append,List.flatMap_append,← delivered]
  congr 1
  by_cases h : src = v
  · simp [h]
  · simp [h]

theorem delivered_setGutter (st : SubgraphGutters n) (src : Fin n) (gutter : Gutter n) (v : Fin n) :
    (st.setGutter src gutter).delivered v = st.delivered v := rfl

theorem setGutter_self (st : SubgraphGutters n) (src : Fin n) (gutter : Gutter n) :
    (st.setGutter src gutter).gutters src = gutter :=
  Function.update_self ..

theorem setGutter_ne {src v : Fin n} (h : v ≠ src) (st : SubgraphGutters n) (gutter : Gutter n) :
    (st.setGutter src gutter).gutters v = st.gutters v :=
  Function.update_of_ne h ..

theorem length_take_dsts (call : InsertCall n) :
    (call.dsts.take call.numElms).length = call.numElms := by
  rw [List.length_take,call.size,min_eq_left call.le]

def filled (st : SubgraphGutters n) (call : InsertCall n) : List (Fin n) :=
  let gutter := st.gutters call.src
  gutter.data.take gutter.elms ++ call.dsts.take call.numElms ++
    gutter.data.drop (gutter.elms + call.numElms)

theorem batchInsert_room (hsize : (st.gutters call.src).data.length = batchSize)
    (hroom : (st.gutters call.src).elms + call.numElms < batchSize) :
    batchInsert batchSize st call = .ok (st.setGutter call.src
      ⟨(st.gutters call.src).elms + call.numElms,st.filled call⟩) := by
  have hcap : call.numElms < batchSize - (st.gutters call.src).elms := by omega
  have hle := call.le
  have hcopy : memcpy (st.gutters call.src).data (st.gutters call.src).elms call.dsts 0
      call.numElms = .ok (st.filled call) :=
    memcpy_eq (by rw [call.size]; omega) (by omega)
  unfold batchInsert
  simp only [if_neg (show ¬ batchSize < (st.gutters call.src).elms by omega),
    min_eq_left (le_of_lt hcap),if_neg (not_le.mpr hcap),hcopy]

theorem take_filled (hsize : (st.gutters call.src).data.length = batchSize)
    (hroom : (st.gutters call.src).elms + call.numElms < batchSize) :
    (st.filled call).take ((st.gutters call.src).elms + call.numElms) =
      (st.gutters call.src).data.take (st.gutters call.src).elms ++
        call.dsts.take call.numElms := by
  rw [filled]
  refine List.take_left' ?_
  rw [List.length_append,length_take_dsts,List.length_take,hsize]
  omega

theorem batchInsert_full (hsize : (st.gutters call.src).data.length = batchSize)
    (helms : (st.gutters call.src).elms ≤ batchSize)
    (hfull : batchSize ≤ (st.gutters call.src).elms + call.numElms) :
    batchInsert batchSize st call =
      match memcpy ((st.gutters call.src).data.take (st.gutters call.src).elms ++
          call.dsts.take (batchSize - (st.gutters call.src).elms)) 0 call.dsts
        (batchSize - (st.gutters call.src).elms)
        (call.numElms - (batchSize - (st.gutters call.src).elms)) with
      | .error err => .error err
      | .ok rest => .ok ((st.applyUpdateBatch call.thrId call.src
          ((st.gutters call.src).data.take (st.gutters call.src).elms ++
            call.dsts.take (batchSize - (st.gutters call.src).elms))).setGutter call.src
          ⟨call.numElms - (batchSize - (st.gutters call.src).elms),rest⟩) := by
  have hcap : batchSize - (st.gutters call.src).elms ≤ call.numElms := by omega
  have hle := call.le
  have hcopy : memcpy (st.gutters call.src).data (st.gutters call.src).elms call.dsts 0
      (batchSize - (st.gutters call.src).elms) =
      .ok ((st.gutters call.src).data.take (st.gutters call.src).elms ++
        call.dsts.take (batchSize - (st.gutters call.src).elms)) := by
    rw [memcpy_eq (by rw [call.size]; omega) (by omega),List.drop_zero,
      List.drop_eq_nil_of_le (by omega),List.append_nil]
  unfold batchInsert
  simp only [if_neg (not_lt.mpr helms),min_eq_right hcap,if_pos hcap,hcopy]

theorem Holds.step {st' : SubgraphGutters n} (h : Holds batchSize calls st)
    (hothers : ∀ v, v ≠ call.src → st'.gutters v = st.gutters v ∧ st'.delivered v = st.delivered v)
    (hsize : (st'.gutters call.src).data.length = batchSize)
    (helms : (st'.gutters call.src).elms =
      ((st.gutters call.src).elms + call.numElms) % batchSize)
    (hcontent : st'.delivered call.src ++
        (st'.gutters call.src).data.take (st'.gutters call.src).elms =
      inserted calls call.src ++ call.dsts.take call.numElms) :
    Holds batchSize (calls ++ [call]) st' := by
  have hself : inserted (calls ++ [call]) call.src =
      inserted calls call.src ++ call.dsts.take call.numElms := by
    rw [inserted_snoc,if_pos rfl]
  have hne (v : Fin n) (hv : v ≠ call.src) : inserted (calls ++ [call]) v = inserted calls v := by
    rw [inserted_snoc,if_neg (Ne.symm hv),List.append_nil]
  refine ⟨fun v => ?_,fun v => ?_,fun v => ?_⟩
  · by_cases hv : v = call.src
    · rw [hv,hsize]
    · rw [(hothers v hv).1,h.size]
  · by_cases hv : v = call.src
    · rw [hv,helms,hself,List.length_append,length_take_dsts,h.elms,Nat.mod_add_mod]
    · rw [(hothers v hv).1,h.elms,hne v hv]
  · by_cases hv : v = call.src
    · rw [hv,hcontent,hself]
    · rw [(hothers v hv).1,(hothers v hv).2,h.content,hne v hv]

theorem Holds.room (h : Holds batchSize calls st)
    (hroom : (st.gutters call.src).elms + call.numElms < batchSize) :
    ∃ st', batchInsert batchSize st call = .ok st' ∧ Holds batchSize (calls ++ [call]) st' := by
  have hsize := h.size call.src
  refine ⟨_,batchInsert_room hsize hroom,h.step (fun v hv => ⟨setGutter_ne hv _ _,rfl⟩) ?_ ?_ ?_⟩
  · rw [setGutter_self,filled]
    simp only [List.length_append,List.length_take,List.length_drop,hsize,call.size]
    have hle := call.le
    omega
  · rw [setGutter_self,Nat.mod_eq_of_lt hroom]
  · rw [setGutter_self,delivered_setGutter,take_filled hsize hroom,← List.append_assoc,h.content]

theorem Holds.full (h : Holds batchSize calls st) (hb : 1 ≤ batchSize)
    (hfull : batchSize ≤ (st.gutters call.src).elms + call.numElms)
    (hleft : (st.gutters call.src).elms + call.numElms < 2 * batchSize) :
    ∃ st', batchInsert batchSize st call = .ok st' ∧ Holds batchSize (calls ++ [call]) st' := by
  have hsize := h.size call.src
  have helms : (st.gutters call.src).elms < batchSize := by
    rw [h.elms]
    exact Nat.mod_lt _ hb
  have hle := call.le
  have hdsts := call.size
  obtain ⟨capacity,hcap⟩ : ∃ k, batchSize - (st.gutters call.src).elms = k := ⟨_,rfl⟩
  have hdata : ((st.gutters call.src).data.take (st.gutters call.src).elms ++
      call.dsts.take capacity).length = batchSize := by
    rw [List.length_append,List.length_take,List.length_take]
    omega
  have hcopy := memcpy_eq (show capacity + (call.numElms - capacity) ≤ call.dsts.length by omega)
    (show 0 + (call.numElms - capacity) ≤ ((st.gutters call.src).data.take
      (st.gutters call.src).elms ++ call.dsts.take capacity).length by omega)
  have hinsert := batchInsert_full hsize (le_of_lt helms) hfull
  rw [hcap,hcopy] at hinsert
  refine ⟨_,hinsert,h.step (fun v hv => ⟨setGutter_ne hv _ _,?_⟩) ?_ ?_ ?_⟩
  · rw [delivered_setGutter,delivered_apply,if_neg (Ne.symm hv),List.append_nil]
  · rw [setGutter_self]
    simp only [List.length_append,List.length_take,List.length_drop]
    omega
  · rw [setGutter_self,Nat.mod_eq_sub_mod hfull,Nat.mod_eq_of_lt (by omega)]
    simp only
    omega
  · have hlen : ((call.dsts.drop capacity).take (call.numElms - capacity)).length =
        call.numElms - capacity := by
      rw [List.length_take,List.length_drop]
      omega
    have hsplit : call.dsts.take call.numElms = call.dsts.take capacity ++
        (call.dsts.drop capacity).take (call.numElms - capacity) := by
      rw [← List.take_add,Nat.add_sub_cancel' (by omega)]
    rw [setGutter_self,delivered_setGutter,delivered_apply,if_pos rfl,List.take_zero,List.nil_append,
      List.take_left' hlen,hsplit,← h.content]
    simp only [List.append_assoc]

theorem Holds.insert (h : Holds batchSize calls st) (hb : 1 ≤ batchSize)
    (hfits : (inserted calls call.src).length % batchSize + call.numElms < 2 * batchSize) :
    ∃ st', batchInsert batchSize st call = .ok st' ∧ Holds batchSize (calls ++ [call]) st' := by
  rw [← h.elms] at hfits
  rcases lt_or_ge ((st.gutters call.src).elms + call.numElms) batchSize with hroom | hfull
  · exact h.room hroom
  · exact h.full hb hfull hfits

-- a remainder of a whole gutter or more either overruns the copy or leaves the gutter full
theorem Holds.fits {st' : SubgraphGutters n} (h : Holds batchSize calls st) (hb : 1 ≤ batchSize)
    (hr : batchInsert batchSize st call = .ok st')
    (hlt : (st'.gutters call.src).elms < batchSize) :
    (inserted calls call.src).length % batchSize + call.numElms < 2 * batchSize := by
  rw [← h.elms]
  by_contra hbig
  have hsize := h.size call.src
  have helms : (st.gutters call.src).elms < batchSize := by
    rw [h.elms]
    exact Nat.mod_lt _ hb
  rw [batchInsert_full hsize (le_of_lt helms) (by omega)] at hr
  split at hr
  · cases hr
  · cases hr
    rw [setGutter_self] at hlt
    simp only at hlt
    omega

theorem Fits.mono {pre : List (InsertCall n)} (h : Fits batchSize calls) (hpre : pre <+: calls) :
    Fits batchSize pre :=
  fun done call hdone => h done call (hdone.trans hpre)

theorem Holds.elms_lt {st : SubgraphGutters n} (h : Holds batchSize calls st) (hb : 1 ≤ batchSize)
    (v : Fin n) : (st.gutters v).elms < batchSize := by
  rw [h.elms]
  exact Nat.mod_lt _ hb

theorem fits_of_sixteen_le (hb : 16 ≤ batchSize) (calls : List (InsertCall n)) :
    Fits batchSize calls := by
  intro pre call _
  have hmod := Nat.mod_lt (inserted pre call.src).length (show 0 < batchSize by omega)
  have hle := call.le
  omega

theorem memcpy_ok {α : Type} {dst src r : List α} {dstOff srcOff count : ℕ}
    (h : memcpy dst dstOff src srcOff count = .ok r) : srcOff + count ≤ src.length ∧
      dstOff + count ≤ dst.length ∧
      r = dst.take dstOff ++ (src.drop srcOff).take count ++ dst.drop (dstOff + count) := by
  unfold memcpy at h
  split at h
  · cases h
  · next hsrc =>
    split at h
    · cases h
    · next hdst =>
      cases h
      exact ⟨not_lt.mp hsrc,not_lt.mp hdst,rfl⟩

def toSubgraph (st : SubgraphGutters n) : SketchSubgraph n :=
  ⟨fun v => (st.gutters v).data.take (st.gutters v).elms,st.delivered⟩

theorem toSubgraph_setGutter (st : SubgraphGutters n) (src : Fin n) (gutter : Gutter n) :
    (st.setGutter src gutter).toSubgraph =
      st.toSubgraph.setGutter src (gutter.data.take gutter.elms) := by
  rw [toSubgraph,SketchSubgraph.setGutter,SketchSubgraph.mk.injEq]
  refine ⟨funext fun v => ?_,rfl⟩
  by_cases hv : v = src
  · subst hv
    rw [setGutter_self,Function.update_self]
  · rw [setGutter_ne hv,Function.update_of_ne hv]
    rfl

theorem toSubgraph_apply (st : SubgraphGutters n) (thrId : ℕ) (src : Fin n) (data : List (Fin n)) :
    (st.applyUpdateBatch thrId src data).toSubgraph = st.toSubgraph.applyUpdateBatch src data := by
  rw [toSubgraph,SketchSubgraph.applyUpdateBatch,SketchSubgraph.mk.injEq]
  refine ⟨rfl,funext fun v => ?_⟩
  rw [delivered_apply]
  by_cases hv : v = src
  · subst hv
    rw [if_pos rfl,Function.update_self]
    rfl
  · rw [if_neg (Ne.symm hv),List.append_nil,Function.update_of_ne hv]
    rfl

theorem batchInsert_simulates {st' : SubgraphGutters n}
    (hsize : (st.gutters call.src).data.length = batchSize)
    (helms : (st.gutters call.src).elms ≤ batchSize)
    (hr : batchInsert batchSize st call = .ok st') :
    st.toSubgraph.batchInsert batchSize call.src (call.dsts.take call.numElms) =
      .ok st'.toSubgraph := by
  have hle := call.le
  have hdsts := call.size
  have hlen : (st.toSubgraph.gutters call.src).length = (st.gutters call.src).elms := by
    rw [toSubgraph,List.length_take,hsize,min_eq_left helms]
  unfold SketchSubgraph.batchInsert
  rw [hlen,length_take_dsts]
  rcases lt_or_ge ((st.gutters call.src).elms + call.numElms) batchSize with hroom | hfull
  · rw [batchInsert_room hsize hroom] at hr
    cases hr
    rw [if_neg (by omega),toSubgraph_setGutter,take_filled hsize hroom,
      List.take_of_length_le (by rw [length_take_dsts]; omega)]
    rfl
  · rw [batchInsert_full hsize helms hfull] at hr
    split at hr
    · cases hr
    · next rest hcopy =>
      cases hr
      obtain ⟨_,hfit,rfl⟩ := memcpy_ok hcopy
      rw [List.length_append,List.length_take,List.length_take] at hfit
      have hcap : batchSize - (st.gutters call.src).elms ≤ call.numElms := by omega
      have hnum : ((call.dsts.drop (batchSize - (st.gutters call.src).elms)).take
          (call.numElms - (batchSize - (st.gutters call.src).elms))).length =
          call.numElms - (batchSize - (st.gutters call.src).elms) := by
        rw [List.length_take,List.length_drop]
        omega
      rw [if_pos hcap,if_neg (by omega),toSubgraph_setGutter,toSubgraph_apply,List.take_zero,
        List.nil_append,List.take_left' hnum,List.take_take,min_eq_left hcap,List.drop_take]
      rfl

end Step

section Flush

variable [NeZero n] {batchSize : ℕ} {st : SubgraphGutters n}

def pending (st : SubgraphGutters n) (v : Fin n) : List (Fin n) :=
  st.delivered v ++ (st.gutters v).data.take (st.gutters v).elms

structure Flushed (st st' : SubgraphGutters n) (l : List (Fin n)) : Prop where
  pending : ∀ v, st'.pending v = st.pending v
  room : ∀ v, (st'.gutters v).elms ≤ (st'.gutters v).data.length
  empty : ∀ v, (st.gutters v).elms = 0 ∨ v ∈ l → (st'.gutters v).elms = 0

theorem flushGutter_spec (batchSize : ℕ) (hroom : ∀ v, (st.gutters v).elms ≤ (st.gutters v).data.length)
    (v : Fin n) : Flushed st (st.flushGutter batchSize v) [v] := by
  rw [flushGutter]
  split
  · have hdata : resize (st.gutters v).data (st.gutters v).elms =
        (st.gutters v).data.take (st.gutters v).elms := by
      rw [resize,Nat.sub_eq_zero_of_le (hroom v),List.replicate_zero,List.append_nil]
    refine ⟨fun w => ?_,fun w => ?_,fun w hw => ?_⟩
    · rw [pending,pending,delivered_setGutter,delivered_apply,hdata]
      by_cases h : w = v
      · rw [h,if_pos rfl,setGutter_self,List.take_zero,List.append_nil]
      · rw [if_neg (Ne.symm h),List.append_nil,setGutter_ne h]
        rfl
    · by_cases h : w = v
      · rw [h,setGutter_self]
        exact Nat.zero_le _
      · rw [setGutter_ne h]
        exact hroom w
    · by_cases h : w = v
      · rw [h,setGutter_self]
      · rw [setGutter_ne h]
        exact hw.resolve_right fun hmem => h (List.mem_singleton.mp hmem)
  · next hzero =>
    refine ⟨fun _ => rfl,hroom,fun w hw => ?_⟩
    rcases hw with hw | hw
    · exact hw
    · rw [List.mem_singleton.mp hw]
      exact Nat.eq_zero_of_not_pos hzero

theorem foldl_flushGutter (batchSize : ℕ) (l : List (Fin n))
    (hroom : ∀ v, (st.gutters v).elms ≤ (st.gutters v).data.length) :
    Flushed st (l.foldl (flushGutter batchSize) st) l := by
  induction l generalizing st with
  | nil => exact ⟨fun _ => rfl,hroom,fun v hv => hv.resolve_right List.not_mem_nil⟩
  | cons a l ih =>
    have hfirst := flushGutter_spec batchSize hroom a
    have hrest := ih hfirst.room
    refine ⟨fun v => (hrest.pending v).trans (hfirst.pending v),hrest.room,fun v hv => ?_⟩
    apply hrest.empty
    rcases hv with hv | hv
    · exact .inl (hfirst.empty v (.inl hv))
    · rcases List.mem_cons.mp hv with rfl | hv
      · exact .inl (hfirst.empty v (.inr List.mem_cons_self))
      · exact .inr hv

theorem delivered_flush (hroom : ∀ v, (st.gutters v).elms ≤ (st.gutters v).data.length)
    (v : Fin n) : (st.flush batchSize).delivered v = st.pending v := by
  have hflush := foldl_flushGutter batchSize (List.finRange n) hroom
  have hzero := hflush.empty v (.inr (List.mem_finRange v))
  rw [← hflush.pending v,pending,hzero,List.take_zero,List.append_nil]
  rfl

end Flush

section Run

variable [NeZero n] {batchSize : ℕ} {calls : List (InsertCall n)}

theorem holds_initialized (batchSize : ℕ) : Holds batchSize [] (initialized batchSize : SubgraphGutters n) :=
  ⟨fun _ => List.length_replicate,fun _ => (Nat.zero_mod _).symm,fun _ => rfl⟩

theorem insertAll_holds (hb : 1 ≤ batchSize) (hfits : Fits batchSize calls) :
    ∃ st, insertAll batchSize calls = .ok st ∧ Holds batchSize calls st :=
  FoldExcept.foldlM_total (I := Holds batchSize) [] calls (holds_initialized batchSize)
    fun done call _ hpre h => h.insert hb (hfits done call hpre)

theorem lossless_of_fits (hb : 1 ≤ batchSize) (h : Fits batchSize calls) :
    Lossless batchSize calls := by
  refine ⟨fun pre hpre => ?_,?_⟩
  · obtain ⟨st,hst,hholds⟩ := insertAll_holds hb (h.mono hpre)
    exact ⟨st,hst,hholds.elms_lt hb⟩
  · obtain ⟨st,hst,hholds⟩ := insertAll_holds hb h
    refine ⟨st,hst,fun v => ?_⟩
    rw [delivered_flush (fun w => by rw [hholds.size]; exact le_of_lt (hholds.elms_lt hb w))]
    exact hholds.content v

theorem fits_of_bounded (hb : 1 ≤ batchSize) (h : ∀ pre, pre <+: calls →
      ∃ st, insertAll batchSize pre = .ok st ∧ ∀ v, (st.gutters v).elms < batchSize) :
    Fits batchSize calls := by
  induction calls using List.reverseRecOn with
  | nil =>
    intro pre call hpre
    exact absurd (List.prefix_nil.mp hpre) (by simp)
  | append_singleton l last ih =>
    have hfits := ih fun pre hpre => h pre (hpre.trans (List.prefix_append _ _))
    intro pre call hpre
    rcases List.prefix_concat_iff.mp hpre with heq | hpre
    · obtain ⟨rfl,hcall⟩ := List.append_inj' heq rfl
      cases hcall
      obtain ⟨st,hst,hholds⟩ := insertAll_holds hb hfits
      obtain ⟨st',hst',hlt⟩ := h _ (List.prefix_refl _)
      rw [insertAll,List.foldlM_append] at hst'
      rw [insertAll] at hst
      rw [hst] at hst'
      obtain ⟨st'',hstep,hend⟩ := FoldExcept.foldlM_cons_ok.mp hst'
      cases hend
      exact hholds.fits hb hstep (hlt _)
    · exact hfits pre call hpre

theorem gutters_lossless_iff (hb : 1 ≤ batchSize) (calls : List (InsertCall n)) :
    Lossless batchSize calls ↔ Fits batchSize calls :=
  ⟨fun h => fits_of_bounded hb h.bounded,lossless_of_fits hb⟩

theorem lossless_always_iff (hb : 1 ≤ batchSize) :
    (∀ calls : List (InsertCall n), Lossless batchSize calls) ↔ 16 ≤ batchSize := by
  constructor
  · intro h
    by_contra hlt
    let whole : InsertCall n :=
      ⟨0,0,List.replicate 16 0,16,List.length_replicate,by decide,by decide⟩
    by_cases hsmall : batchSize ≤ 8
    · have hfits := (gutters_lossless_iff hb _).mp (h [whole]) [] whole (List.prefix_refl _)
      have hnil : (inserted [] whole.src : List (Fin n)).length = 0 := rfl
      rw [hnil,Nat.zero_mod] at hfits
      have hnum : whole.numElms = 16 := rfl
      omega
    · let almost : InsertCall n :=
        ⟨0,0,List.replicate 16 0,batchSize - 1,List.length_replicate,by omega,by omega⟩
      have hfits := (gutters_lossless_iff hb _).mp (h [almost,whole]) [almost] whole
        (List.prefix_refl _)
      have hone : (inserted [almost] whole.src).length = batchSize - 1 := by
        have hsnoc := inserted_snoc [] almost whole.src
        rw [List.nil_append,if_pos rfl] at hsnoc
        rw [hsnoc,List.length_append,length_take_dsts]
        exact Nat.zero_add _
      rw [hone,Nat.mod_eq_of_lt (by omega)] at hfits
      have hnum : whole.numElms = 16 := rfl
      omega
  · intro h calls
    exact lossless_of_fits hb (fits_of_sixteen_le h calls)

end Run

def setBatchFactor (factor : ℚ) : ℚ := if factor ≤ 0 then 1 else factor

def desiredUpdatesPerBatch (bucketArrayBytes : ℕ) (batchFactor : ℚ) : ℕ :=
  ⌊(bucketArrayBytes / 4 : ℕ) * setBatchFactor batchFactor⌋₊

def eightThenSixteen : List (InsertCall 2) :=
  [⟨0,⟨0,Nat.zero_lt_two⟩,List.replicate 16 ⟨1,Nat.one_lt_two⟩,8,List.length_replicate,
      Nat.succ_pos 7,Nat.le_add_right 8 8⟩,
    ⟨0,⟨0,Nat.zero_lt_two⟩,List.replicate 16 ⟨1,Nat.one_lt_two⟩,16,List.length_replicate,
      Nat.succ_pos 15,Nat.le_refl 16⟩]

theorem gutters_lossless_nine : Lossless 9 eightThenSixteen ↔ Fits 9 eightThenSixteen :=
  gutters_lossless_iff (by decide) eightThenSixteen

theorem desired_nine : desiredUpdatesPerBatch (12 * 201) (1 / 64) = 9 := by
  rw [desiredUpdatesPerBatch,setBatchFactor,if_neg (by norm_num),Nat.floor_eq_iff (by norm_num)]
  constructor <;> norm_num

theorem small_gutter_overruns :
    ¬ ∀ (bucketArrayBytes : ℕ) (batchFactor : ℚ), 0 < batchFactor →
      1 ≤ desiredUpdatesPerBatch bucketArrayBytes batchFactor →
      ∀ (n : ℕ) (_ : NeZero n) (calls : List (InsertCall n)),
        Lossless (desiredUpdatesPerBatch bucketArrayBytes batchFactor) calls := by
  intro hclaim
  have hnine := hclaim (12 * 201) (1 / 64) (by norm_num) (by rw [desired_nine]; decide) 2
    inferInstance eightThenSixteen
  rw [desired_nine] at hnine
  obtain ⟨st,hst,_⟩ := hnine.bounded eightThenSixteen (List.prefix_refl _)
  cases hst

end SubgraphGutters
end GraphZeppelin.Gpu
