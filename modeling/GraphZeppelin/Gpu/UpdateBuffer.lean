import GraphZeppelin.Graph.Pairing
import GraphZeppelin.Lib.FetchAdd
import GraphZeppelin.Lib.Trace

namespace GraphZeppelin.Gpu.SKGPUSketchAlg

variable {n capacity : ℕ} {ι : Type} [DecidableEq ι]

structure Call (n : ℕ) where
  srcVertex : Fin n
  dstVertices : List (Fin n)

def Call.size (c : Call n) : ℕ := c.dstVertices.length

inductive BatchMap where
  | batchSizes
  | batchSrc
  | batchStartIndex
deriving DecidableEq

inductive Pc where
  | entry
  | reserve
  | fill (offset index : ℕ)
  | count (offset : ℕ)
  | lock (offset batchId : ℕ)
  | insert (m : BatchMap) (offset batchId : ℕ)
  | unlock
  | done
  | threw

structure Buffers (ι : Type) where
  updateLocked : Bool
  edgeUpdateOffset : ℕ
  batchCount : ℕ
  hEdgeUpdates : ℕ → NodeId
  maps : BatchMap → ℕ → Option ℕ
  batchMutex : Option ι
  pc : ι → Pc

def Buffers.new (hEdgeUpdates : ℕ → NodeId) : Buffers ι where
  updateLocked := false
  edgeUpdateOffset := 0
  batchCount := 0
  hEdgeUpdates := hEdgeUpdates
  maps _ _ := none
  batchMutex := none
  pc _ := .entry

def Call.entry (c : Call n) (offset : ℕ) : BatchMap → ℕ
  | .batchSizes => c.size
  | .batchSrc => c.srcVertex
  | .batchStartIndex => offset

def BatchMap.next (offset batchId : ℕ) : BatchMap → Pc
  | .batchSizes => .insert .batchSrc offset batchId
  | .batchSrc => .insert .batchStartIndex offset batchId
  | .batchStartIndex => .unlock

-- std::map::insert leaves an entry that is there as it is
def insertEntry (f : ℕ → Option ℕ) (key value : ℕ) : ℕ → Option ℕ :=
  Function.update f key ((f key).or (some value))

def Buffers.goto (s : Buffers ι) (i : ι) (next : Pc) : Buffers ι :=
  { s with pc := Function.update s.pc i next }

-- a write past the 2 * num_updates entries of h_edgeUpdates has no next state
def step (capacity : ℕ) (calls : ι → Call n) (s : Buffers ι) (i : ι) : Option (Buffers ι) :=
  match s.pc i with
  | .entry => if s.updateLocked then some (s.goto i .threw) else some (s.goto i .reserve)
  | .reserve =>
    some { s.goto i (.fill s.edgeUpdateOffset 0) with
      edgeUpdateOffset := s.edgeUpdateOffset + (calls i).size }
  | .fill offset index =>
    match (calls i).dstVertices[index]? with
    | some dst =>
      if offset + index < capacity then
        some { s.goto i (.fill offset (index + 1)) with
          hEdgeUpdates := Function.update s.hEdgeUpdates (offset + index) (nodeId dst) }
      else none
    | none => some (s.goto i (.count offset))
  | .count offset =>
    some { s.goto i (.lock offset s.batchCount) with batchCount := s.batchCount + 1 }
  | .lock offset batchId =>
    if s.batchMutex = none then
      some { s.goto i (.insert .batchSizes offset batchId) with batchMutex := some i }
    else none
  | .insert m offset batchId =>
    some { s.goto i (m.next offset batchId) with
      maps := Function.update s.maps m
        (insertEntry (s.maps m) batchId ((calls i).entry offset m)) }
  | .unlock => some { s.goto i .done with batchMutex := none }
  | .done => none
  | .threw => none

def BatchMap.rank : BatchMap → ℕ
  | .batchSizes => 4
  | .batchSrc => 5
  | .batchStartIndex => 6

namespace Pc

def rank : Pc → ℕ
  | .entry | .reserve | .threw => 0
  | .fill _ _ => 1
  | .count _ => 2
  | .lock _ _ => 3
  | .insert m _ _ => m.rank
  | .unlock => 7
  | .done => 8

def Placed (pc : Pc) : Prop := 1 ≤ pc.rank

def Numbered (pc : Pc) : Prop := 3 ≤ pc.rank

def Inserted (m : BatchMap) (pc : Pc) : Prop := m.rank < pc.rank

def Held (pc : Pc) : Prop := 4 ≤ pc.rank ∧ pc.rank ≤ 7

def recorded (c : Call n) (offset : ℕ) (m : BatchMap) (pc : Pc) : Option ℕ :=
  if m.rank < pc.rank then some (c.entry offset m) else none

theorem recorded_congr {c : Call n} {offset : ℕ} {m : BatchMap} {pc pc' : Pc}
    (h : pc'.Inserted m ↔ pc.Inserted m) : pc'.recorded c offset m = pc.recorded c offset m :=
  if_congr h rfl rfl

def written (size : ℕ) : Pc → ℕ
  | .entry | .reserve | .threw => 0
  | .fill _ index => index
  | _ => size

def offset : Pc → Option ℕ
  | .fill offset _ | .count offset | .lock offset _ | .insert _ offset _ => some offset
  | _ => none

def batchId : Pc → Option ℕ
  | .lock _ batchId | .insert _ _ batchId => some batchId
  | _ => none

end Pc

section Inversion

variable {calls : ι → Call n} {s s' : Buffers ι} {i : ι}

-- what one step does, its guards included
inductive Move (capacity : ℕ) (calls : ι → Call n) (s : Buffers ι) (i : ι) : Buffers ι → Prop
  | refuse (h : s.pc i = .entry) (hl : s.updateLocked = true) :
      Move capacity calls s i (s.goto i .threw)
  | enter (h : s.pc i = .entry) : Move capacity calls s i (s.goto i .reserve)
  | reserve (h : s.pc i = .reserve) :
      Move capacity calls s i { s.goto i (.fill s.edgeUpdateOffset 0) with
        edgeUpdateOffset := s.edgeUpdateOffset + (calls i).size }
  | fill {offset index : ℕ} {dst : Fin n} (h : s.pc i = .fill offset index)
      (hdst : (calls i).dstVertices[index]? = some dst) :
      Move capacity calls s i { s.goto i (.fill offset (index + 1)) with
        hEdgeUpdates := Function.update s.hEdgeUpdates (offset + index) (nodeId dst) }
  | filled {offset index : ℕ} (h : s.pc i = .fill offset index)
      (hlen : (calls i).size ≤ index) : Move capacity calls s i (s.goto i (.count offset))
  | count {offset : ℕ} (h : s.pc i = .count offset) :
      Move capacity calls s i { s.goto i (.lock offset s.batchCount) with
        batchCount := s.batchCount + 1 }
  | lock {offset batchId : ℕ} (h : s.pc i = .lock offset batchId) (hfree : s.batchMutex = none) :
      Move capacity calls s i { s.goto i (.insert .batchSizes offset batchId) with
        batchMutex := some i }
  | insert {m : BatchMap} {offset batchId : ℕ} (h : s.pc i = .insert m offset batchId) :
      Move capacity calls s i { s.goto i (m.next offset batchId) with
        maps := Function.update s.maps m
          (insertEntry (s.maps m) batchId ((calls i).entry offset m)) }
  | unlock (h : s.pc i = .unlock) :
      Move capacity calls s i { s.goto i .done with batchMutex := none }

theorem move_of_step (hs : step capacity calls s i = some s') : Move capacity calls s i s' := by
  rw [step] at hs
  split at hs
  · next h =>
    split at hs
    · next hl =>
      cases hs
      exact .refuse h hl
    · cases hs
      exact .enter h
  · next h =>
    cases hs
    exact .reserve h
  · next offset index h =>
    split at hs
    · next dst hdst =>
      split at hs
      · cases hs
        exact .fill h hdst
      · cases hs
    · next hdst =>
      cases hs
      exact .filled h (List.getElem?_eq_none_iff.mp hdst)
  · next offset h =>
    cases hs
    exact .count h
  · next offset batchId h =>
    split at hs
    · next hfree =>
      cases hs
      exact .lock h hfree
    · cases hs
  · next m offset batchId h =>
    cases hs
    exact .insert h
  · next h =>
    cases hs
    exact .unlock h
  · cases hs
  · cases hs

end Inversion

section Reserve

variable {calls : ι → Call n} {l : List ι} {off : ι → ℕ} {s s' : Buffers ι} {i : ι} {next : Pc}

structure Reserved (calls : ι → Call n) (l : List ι) (off : ι → ℕ) (s : Buffers ι) : Prop where
  nodup : l.Nodup
  mem : ∀ i, i ∈ l ↔ (s.pc i).Placed
  tiled : FetchAdd.Tiled (fun _ => ()) (fun i => (calls i).size) l
    ⟨fun _ => s.edgeUpdateOffset,off⟩
  offset : ∀ i o, (s.pc i).offset = some o → o = off i
  written : ∀ i j dst, (calls i).dstVertices[j]? = some dst →
    j < (s.pc i).written (calls i).size → s.hEdgeUpdates (off i + j) = nodeId dst

theorem placed_of_written {pc : Pc} {size j : ℕ} (h : j < pc.written size) : pc.Placed := by
  cases pc with
  | insert m _ _ => cases m <;> exact Nat.le_of_ble_eq_true rfl
  | entry | reserve | threw => exact absurd h (Nat.not_lt_zero j)
  | fill | count | lock | unlock | done => exact Nat.le_of_ble_eq_true rfl

theorem Reserved.goto (h : Reserved calls l off s) (hpc : s'.pc = Function.update s.pc i next)
    (hplaced : next.Placed ↔ (s.pc i).Placed)
    (hoff : ∀ o, next.offset = some o → (s.pc i).offset = some o)
    (hwritten : ∀ j < (calls i).size, j < next.written (calls i).size →
      j < (s.pc i).written (calls i).size)
    (hcount : s'.edgeUpdateOffset = s.edgeUpdateOffset)
    (hbuf : s'.hEdgeUpdates = s.hEdgeUpdates) : Reserved calls l off s' := by
  refine ⟨h.nodup,fun j => ?_,hcount ▸ h.tiled,fun j o ho => ?_,fun j k d hd hw => ?_⟩
  · rw [h.mem,hpc]
    by_cases hj : j = i
    · subst hj
      rw [Function.update_self]
      exact hplaced.symm
    · rw [Function.update_of_ne hj]
  · rw [hpc] at ho
    by_cases hj : j = i
    · subst hj
      rw [Function.update_self] at ho
      exact h.offset _ _ (hoff o ho)
    · rw [Function.update_of_ne hj] at ho
      exact h.offset _ _ ho
  · rw [hpc] at hw
    rw [hbuf]
    by_cases hj : j = i
    · subst hj
      rw [Function.update_self] at hw
      exact h.written _ _ d hd (hwritten k (List.getElem?_eq_some_iff.mp hd).1 hw)
    · rw [Function.update_of_ne hj] at hw
      exact h.written _ _ d hd hw

theorem capture_offset (size : ι → ℕ) (total : ℕ) (off : ι → ℕ) (i : ι) :
    FetchAdd.capture (fun _ => ()) size ⟨fun _ => total,off⟩ i =
      ⟨fun _ => total + size i,Function.update off i total⟩ := by
  refine congrArg₂ FetchAdd.Counters.mk (funext fun u => ?_) rfl
  cases u
  exact Function.update_self ..

theorem Reserved.reserve (h : Reserved calls l off s) (hi : s.pc i = .reserve) :
    Reserved calls (i :: l) (Function.update off i s.edgeUpdateOffset)
      { s.goto i (.fill s.edgeUpdateOffset 0) with
        edgeUpdateOffset := s.edgeUpdateOffset + (calls i).size } := by
  have hnot : i ∉ l := fun hl => absurd ((h.mem i).mp hl) (by rw [hi]; exact Nat.not_succ_le_zero 0)
  have htiled := h.tiled.capture hnot
  rw [capture_offset] at htiled
  refine ⟨List.nodup_cons.mpr ⟨hnot,h.nodup⟩,fun j => ?_,htiled,fun j o ho => ?_,
    fun j k d hd hw => ?_⟩
  · rw [List.mem_cons,h.mem]
    by_cases hj : j = i
    · subst hj
      simp only [Buffers.goto,Function.update_self,true_or,true_iff]
      exact le_rfl
    · simp only [Buffers.goto,Function.update_of_ne hj,hj,false_or]
  · by_cases hj : j = i
    · subst hj
      simp only [Buffers.goto,Function.update_self,Pc.offset,Option.some.injEq] at ho ⊢
      exact ho.symm
    · simp only [Buffers.goto,Function.update_of_ne hj] at ho ⊢
      exact h.offset j o ho
  · by_cases hj : j = i
    · subst hj
      simp only [Buffers.goto,Function.update_self,Pc.written] at hw
      exact absurd hw (Nat.not_lt_zero k)
    · simp only [Buffers.goto,Function.update_of_ne hj] at hw ⊢
      exact h.written j k d hd hw

-- the blocks are apart, so a write into one leaves what the others hold
theorem Reserved.fill (h : Reserved calls l off s) {offset index : ℕ} {dst : Fin n}
    (hi : s.pc i = .fill offset index) (hdst : (calls i).dstVertices[index]? = some dst) :
    Reserved calls l off { s.goto i (.fill offset (index + 1)) with
      hEdgeUpdates := Function.update s.hEdgeUpdates (offset + index) (nodeId dst) } := by
  obtain ⟨hindex,_⟩ := List.getElem?_eq_some_iff.mp hdst
  obtain rfl := h.offset i offset (by rw [hi]; rfl)
  have hplaced : i ∈ l := (h.mem i).mpr (by rw [hi]; exact le_rfl)
  refine ⟨h.nodup,fun j => ?_,h.tiled,fun j o ho => ?_,fun j k d hd hw => ?_⟩
  · rw [h.mem]
    by_cases hj : j = i
    · subst hj
      simp only [Buffers.goto,Function.update_self,hi]
      rfl
    · simp only [Buffers.goto,Function.update_of_ne hj]
  · by_cases hj : j = i
    · subst hj
      simp only [Buffers.goto,Function.update_self,Pc.offset,Option.some.injEq] at ho
      exact ho.symm
    · simp only [Buffers.goto,Function.update_of_ne hj] at ho
      exact h.offset j o ho
  · by_cases hj : j = i
    · subst hj
      simp only [Buffers.goto,Function.update_self,Pc.written] at hw
      rcases Nat.eq_or_lt_of_le (Nat.le_of_lt_succ hw) with rfl | hlt
      · rw [hdst] at hd
        cases hd
        exact Function.update_self ..
      · simp only
        rw [Function.update_of_ne (by omega)]
        exact h.written j k d hd (by rw [hi]; exact hlt)
    · simp only [Buffers.goto,Function.update_of_ne hj] at hw ⊢
      have hjl : j ∈ l := (h.mem j).mpr (placed_of_written hw)
      have hapart := h.tiled.apart j hjl i hplaced hj rfl
      have hblock : k < (calls j).size := (List.getElem?_eq_some_iff.mp hd).1
      have hsize : index < (calls i).size := hindex
      rw [Function.update_of_ne (by simp only at hapart; omega)]
      exact h.written j k d hd hw

end Reserve

section Record

variable {calls : ι → Call n} {off off' : ι → ℕ} {ids : List ι} {s s' : Buffers ι} {i : ι}
  {next : Pc}

structure Recorded (calls : ι → Call n) (off : ι → ℕ) (ids : List ι) (s : Buffers ι) : Prop where
  nodup : ids.Nodup
  mem : ∀ i, i ∈ ids ↔ (s.pc i).Numbered
  count : s.batchCount = ids.length
  batchId : ∀ i k, (s.pc i).batchId = some k → ids[k]? = some i
  maps : ∀ m k, s.maps m k = ids[k]?.bind fun i => (s.pc i).recorded (calls i) (off i) m

theorem Recorded.goto (h : Recorded calls off ids s) (hpc : s'.pc = Function.update s.pc i next)
    (hoff : ∀ j ∈ ids, off' j = off j) (hnumbered : next.Numbered ↔ (s.pc i).Numbered)
    (hid : ∀ k, next.batchId = some k → (s.pc i).batchId = some k)
    (hinserted : ∀ m, next.Inserted m ↔ (s.pc i).Inserted m)
    (hcount : s'.batchCount = s.batchCount) (hmaps : s'.maps = s.maps) :
    Recorded calls off' ids s' := by
  refine ⟨h.nodup,fun j => ?_,hcount.trans h.count,fun j k hk => ?_,fun m k => ?_⟩
  · rw [h.mem,hpc]
    by_cases hj : j = i
    · subst hj
      rw [Function.update_self]
      exact hnumbered.symm
    · rw [Function.update_of_ne hj]
  · rw [hpc] at hk
    by_cases hj : j = i
    · subst hj
      rw [Function.update_self] at hk
      exact h.batchId _ _ (hid k hk)
    · rw [Function.update_of_ne hj] at hk
      exact h.batchId _ _ hk
  · rw [hmaps,h.maps,hpc]
    refine Option.bind_congr fun j hj => ?_
    rw [hoff j (List.mem_of_getElem? hj)]
    by_cases hji : j = i
    · subst hji
      rw [Function.update_self]
      exact (Pc.recorded_congr (hinserted m)).symm
    · rw [Function.update_of_ne hji]

theorem Recorded.counted (h : Recorded calls off ids s) {offset : ℕ} (hi : s.pc i = .count offset) :
    Recorded calls off (ids ++ [i]) { s.goto i (.lock offset s.batchCount) with
      batchCount := s.batchCount + 1 } := by
  have hnot : i ∉ ids := by
    rw [h.mem,hi,Pc.Numbered,Pc.rank]
    exact Nat.not_succ_le_self 2
  have hself : (s.goto i (.lock offset s.batchCount)).pc i = .lock offset s.batchCount :=
    Function.update_self ..
  have hother {j : ι} (hj : j ≠ i) : (s.goto i (.lock offset s.batchCount)).pc j = s.pc j :=
    Function.update_of_ne hj ..
  refine ⟨?_,fun j => ?_,?_,fun j k hk => ?_,fun m k => ?_⟩
  · exact List.nodup_append.mpr ⟨h.nodup,List.nodup_singleton i,fun a ha b hb hab =>
      hnot (List.mem_singleton.mp hb ▸ hab ▸ ha)⟩
  · rw [List.mem_append,List.mem_singleton,h.mem]
    by_cases hj : j = i
    · subst hj
      simp only [hself,or_true,true_iff]
      exact le_rfl
    · simp only [hother hj,hj,or_false]
  · rw [List.length_append,List.length_singleton,← h.count]
  · by_cases hj : j = i
    · subst hj
      simp only [hself,Pc.batchId,Option.some.injEq] at hk
      rw [← hk,h.count,List.getElem?_concat_length]
    · simp only [hother hj] at hk
      have hold := h.batchId j k hk
      rw [List.getElem?_append_left (List.getElem?_eq_some_iff.mp hold).1]
      exact hold
  · refine (h.maps m k).trans ?_
    rcases Nat.lt_trichotomy k ids.length with hk | rfl | hk
    · rw [List.getElem?_append_left hk]
      refine Option.bind_congr fun j hj => ?_
      have hji : j ≠ i := fun e => hnot (e ▸ List.mem_of_getElem? hj)
      exact congrArg _ (hother hji).symm
    · rw [List.getElem?_concat_length,List.getElem?_eq_none le_rfl]
      simp only [Option.bind_some,Option.bind_none,hself]
      cases m <;> rfl
    · have hk' : (ids ++ [i]).length ≤ k := by
        rw [List.length_append,List.length_singleton]
        exact hk
      rw [List.getElem?_eq_none hk.le,List.getElem?_eq_none hk']
      rfl

theorem inserted_next (m m' : BatchMap) (offset batchId : ℕ) :
    (m.next offset batchId).Inserted m' ↔ m' = m ∨ (Pc.insert m offset batchId).Inserted m' := by
  cases m <;> cases m' <;> simp [BatchMap.next,Pc.Inserted,Pc.rank,BatchMap.rank]

theorem numbered_next (m : BatchMap) (offset batchId : ℕ) :
    (m.next offset batchId).Numbered ↔ (Pc.insert m offset batchId).Numbered := by
  cases m <;> simp [BatchMap.next,Pc.Numbered,Pc.rank,BatchMap.rank]

theorem batchId_next {m : BatchMap} {offset batchId k : ℕ}
    (h : (m.next offset batchId).batchId = some k) :
    (Pc.insert m offset batchId).batchId = some k := by
  cases m with
  | batchSizes => exact h
  | batchSrc => exact h
  | batchStartIndex => cases h

theorem Recorded.inserted (h : Recorded calls off ids s) {m : BatchMap} {batchId : ℕ}
    (hi : s.pc i = .insert m (off i) batchId) :
    Recorded calls off ids { s.goto i (m.next (off i) batchId) with
      maps := Function.update s.maps m
        (insertEntry (s.maps m) batchId ((calls i).entry (off i) m)) } := by
  have hbatch : ids[batchId]? = some i := h.batchId i batchId (by rw [hi]; rfl)
  have hself : (s.goto i (m.next (off i) batchId)).pc i = m.next (off i) batchId :=
    Function.update_self ..
  have hother {j : ι} (hj : j ≠ i) : (s.goto i (m.next (off i) batchId)).pc j = s.pc j :=
    Function.update_of_ne hj ..
  refine ⟨h.nodup,fun j => ?_,h.count,fun j k hk => ?_,fun m' k => ?_⟩
  · rw [h.mem]
    by_cases hj : j = i
    · subst hj
      simp only [hself,hi]
      exact (numbered_next ..).symm
    · simp only [hother hj]
  · by_cases hj : j = i
    · subst hj
      simp only [hself] at hk
      exact h.batchId j k (hi ▸ batchId_next hk)
    · simp only [hother hj] at hk
      exact h.batchId j k hk
  · simp only
    by_cases hm : m' = m
    · subst hm
      rw [Function.update_self,insertEntry]
      by_cases hk : k = batchId
      · subst hk
        rw [Function.update_self,h.maps,hbatch]
        simp only [Option.bind_some,hself,hi,Pc.recorded]
        rw [if_neg (show ¬ m'.rank < (Pc.insert m' _ _).rank from lt_irrefl _),
          if_pos (show m'.rank < (m'.next _ _).rank from (inserted_next ..).mpr (.inl rfl)),
          Option.none_or]
      · rw [Function.update_of_ne hk,h.maps]
        refine Option.bind_congr fun j hj => ?_
        have hji : j ≠ i := by
          rintro rfl
          have hlt := (List.getElem?_eq_some_iff.mp hj).1
          exact hk ((List.getElem?_inj hlt h.nodup).mp (hj.trans hbatch.symm))
        rw [hother hji]
    · rw [Function.update_of_ne hm,h.maps]
      refine Option.bind_congr fun j hj => ?_
      by_cases hji : j = i
      · subst hji
        rw [hself,hi]
        exact (Pc.recorded_congr ((inserted_next ..).trans (or_iff_right hm))).symm
      · rw [hother hji]

end Record

section Guard

variable {calls : ι → Call n} {s s' : Buffers ι} {i : ι} {next : Pc}

def Guarded (s : Buffers ι) : Prop := ∀ i, s.batchMutex = some i ↔ (s.pc i).Held

theorem Guarded.goto (h : Guarded s) (hpc : s'.pc = Function.update s.pc i next)
    (hheld : next.Held ↔ (s.pc i).Held) (hmutex : s'.batchMutex = s.batchMutex) : Guarded s' := by
  intro j
  rw [hmutex,h j,hpc]
  by_cases hj : j = i
  · subst hj
    rw [Function.update_self]
    exact hheld.symm
  · rw [Function.update_of_ne hj]

theorem Guarded.lock (h : Guarded s) (hfree : s.batchMutex = none)
    (hpc : s'.pc = Function.update s.pc i next) (hheld : next.Held)
    (hmutex : s'.batchMutex = some i) : Guarded s' := by
  intro j
  rw [hmutex,hpc,Option.some.injEq]
  by_cases hj : j = i
  · subst hj
    rw [Function.update_self]
    exact iff_of_true rfl hheld
  · rw [Function.update_of_ne hj,← h j,hfree]
    exact iff_of_false (Ne.symm hj) (Option.some_ne_none j).symm

theorem Guarded.unlock (h : Guarded s) (hi : (s.pc i).Held)
    (hpc : s'.pc = Function.update s.pc i next) (hheld : ¬ next.Held)
    (hmutex : s'.batchMutex = none) : Guarded s' := by
  intro j
  rw [hmutex,hpc]
  refine iff_of_false (Option.some_ne_none j).symm ?_
  by_cases hj : j = i
  · subst hj
    rw [Function.update_self]
    exact hheld
  · rw [Function.update_of_ne hj,← h j,(h i).mpr hi,Option.some.injEq]
    exact Ne.symm hj

end Guard

section Invariant

variable {calls : ι → Call n} {s s' : Buffers ι} {i : ι}

structure Inv (calls : ι → Call n) (s : Buffers ι) : Prop where
  unlocked : s.updateLocked = false
  running : ∀ i, s.pc i ≠ .threw
  guarded : Guarded s
  blocks : ∃ l off ids, Reserved calls l off s ∧ Recorded calls off ids s

theorem inv_new (calls : ι → Call n) (h : ℕ → NodeId) : Inv calls (Buffers.new h) := by
  refine ⟨rfl,(fun _ h => by cases h),fun i => ?_,[],fun _ => 0,[],
    ⟨List.nodup_nil,fun i => ?_,⟨fun _ => rfl,?_,?_⟩,?_,?_⟩,
    ⟨List.nodup_nil,fun i => ?_,rfl,?_,fun m k => rfl⟩⟩
  · exact iff_of_false (fun h => by cases h) fun h => absurd h.1 (Nat.not_succ_le_zero 3)
  · exact iff_of_false List.not_mem_nil fun h => absurd h (Nat.not_succ_le_zero 0)
  · intro i hi
    cases hi
  · intro i hi
    cases hi
  · intro i o ho
    cases ho
  · intro i j dst _ hw
    exact absurd hw (Nat.not_lt_zero j)
  · exact iff_of_false List.not_mem_nil fun h => absurd h (Nat.not_succ_le_zero 2)
  · intro i k hk
    cases hk

theorem held_next (m : BatchMap) (offset batchId : ℕ) : (m.next offset batchId).Held := by
  cases m <;> simp [BatchMap.next,Pc.Held,Pc.rank,BatchMap.rank]

theorem held_insert (m : BatchMap) (offset batchId : ℕ) : (Pc.insert m offset batchId).Held := by
  cases m <;> simp [Pc.Held,Pc.rank,BatchMap.rank]

theorem running_goto {pc : ι → Pc} {next : Pc} (h : ∀ j, pc j ≠ .threw) (hne : next ≠ .threw)
    (j : ι) : Function.update pc i next j ≠ .threw := by
  by_cases hj : j = i
  · subst hj
    rw [Function.update_self]
    exact hne
  · rw [Function.update_of_ne hj]
    exact h j

theorem next_running (m : BatchMap) (offset batchId : ℕ) : m.next offset batchId ≠ .threw := by
  cases m <;> simp [BatchMap.next]

theorem Inv.enter (h : Inv calls s) (hi : s.pc i = .entry) : Inv calls (s.goto i .reserve) := by
  obtain ⟨hunlocked,hrunning,hguard,l,off,ids,hres,hrec⟩ := h
  refine ⟨hunlocked,running_goto hrunning (fun h => by cases h),
    hguard.goto rfl (by rw [hi]; rfl) rfl,l,off,ids,
    hres.goto rfl (by rw [hi]; rfl) ?_ (fun _ _ h => absurd h (Nat.not_lt_zero _)) rfl rfl,
    hrec.goto rfl (fun _ _ => rfl) (by rw [hi]; rfl) ?_ (fun m => by rw [hi]; rfl) rfl rfl⟩
  · intro o ho
    cases ho
  · intro k hk
    cases hk

theorem Inv.reserve (h : Inv calls s) (hi : s.pc i = .reserve) :
    Inv calls { s.goto i (.fill s.edgeUpdateOffset 0) with
      edgeUpdateOffset := s.edgeUpdateOffset + (calls i).size } := by
  obtain ⟨hunlocked,hrunning,hguard,l,off,ids,hres,hrec⟩ := h
  have hnew : i ∉ ids := by
    rw [hrec.mem,hi]
    exact Nat.not_succ_le_zero 2
  refine ⟨hunlocked,running_goto hrunning (fun h => by cases h),hguard.goto rfl ?_ rfl,_,_,ids,
    hres.reserve hi,hrec.goto rfl (fun j hj => ?_) ?_ ?_ (fun m => ?_) rfl rfl⟩
  · rw [hi]
    simp [Pc.Held,Pc.rank]
  · have hji : j ≠ i := fun e => hnew (e ▸ hj)
    exact Function.update_of_ne hji ..
  · rw [hi]
    simp [Pc.Numbered,Pc.rank]
  · intro k hk
    cases hk
  · rw [hi]
    cases m <;> simp [Pc.Inserted,Pc.rank,BatchMap.rank]

theorem Inv.fill (h : Inv calls s) {offset index : ℕ} {dst : Fin n}
    (hi : s.pc i = .fill offset index) (hdst : (calls i).dstVertices[index]? = some dst) :
    Inv calls { s.goto i (.fill offset (index + 1)) with
      hEdgeUpdates := Function.update s.hEdgeUpdates (offset + index) (nodeId dst) } := by
  obtain ⟨hunlocked,hrunning,hguard,l,off,ids,hres,hrec⟩ := h
  refine ⟨hunlocked,running_goto hrunning (fun h => by cases h),
    hguard.goto rfl (by rw [hi]; rfl) rfl,l,off,ids,hres.fill hi hdst,
    hrec.goto rfl (fun _ _ => rfl) (by rw [hi]; rfl) ?_ (fun m => by rw [hi]; rfl) rfl rfl⟩
  intro k hk
  cases hk

theorem Inv.filled_block (h : Inv calls s) {offset index : ℕ} (hi : s.pc i = .fill offset index)
    (hlen : (calls i).size ≤ index) : Inv calls (s.goto i (.count offset)) := by
  obtain ⟨hunlocked,hrunning,hguard,l,off,ids,hres,hrec⟩ := h
  refine ⟨hunlocked,running_goto hrunning (fun h => by cases h),hguard.goto rfl ?_ rfl,l,off,ids,
    hres.goto rfl ?_ (fun o ho => by rw [hi]; exact ho) (fun j hj _ => ?_) rfl rfl,
    hrec.goto rfl (fun _ _ => rfl) ?_ ?_ (fun m => ?_) rfl rfl⟩
  · rw [hi]
    simp [Pc.Held,Pc.rank]
  · rw [hi]
    simp [Pc.Placed,Pc.rank]
  · rw [hi]
    exact hj.trans_le hlen
  · rw [hi]
    simp [Pc.Numbered,Pc.rank]
  · intro k hk
    cases hk
  · rw [hi]
    cases m <;> simp [Pc.Inserted,Pc.rank,BatchMap.rank]

theorem Inv.count (h : Inv calls s) {offset : ℕ} (hi : s.pc i = .count offset) :
    Inv calls { s.goto i (.lock offset s.batchCount) with batchCount := s.batchCount + 1 } := by
  obtain ⟨hunlocked,hrunning,hguard,l,off,ids,hres,hrec⟩ := h
  refine ⟨hunlocked,running_goto hrunning (fun h => by cases h),hguard.goto rfl ?_ rfl,l,off,
    ids ++ [i],hres.goto rfl ?_ (fun o ho => by rw [hi]; exact ho)
      (fun j hj _ => by rw [hi]; exact hj) rfl rfl,hrec.counted hi⟩
  · rw [hi]
    simp [Pc.Held,Pc.rank]
  · rw [hi]
    simp [Pc.Placed,Pc.rank]

theorem Inv.lock (h : Inv calls s) {offset batchId : ℕ} (hi : s.pc i = .lock offset batchId)
    (hfree : s.batchMutex = none) :
    Inv calls { s.goto i (.insert .batchSizes offset batchId) with batchMutex := some i } := by
  obtain ⟨hunlocked,hrunning,hguard,l,off,ids,hres,hrec⟩ := h
  refine ⟨hunlocked,running_goto hrunning (fun h => by cases h),
    hguard.lock hfree rfl (held_insert ..) rfl,l,off,ids,
    hres.goto rfl ?_ (fun o ho => by rw [hi]; exact ho) (fun j hj _ => by rw [hi]; exact hj) rfl rfl,
    hrec.goto rfl (fun _ _ => rfl) ?_ (fun k hk => by rw [hi]; exact hk) (fun m => ?_) rfl rfl⟩
  · rw [hi]
    simp [Pc.Placed,Pc.rank,BatchMap.rank]
  · rw [hi]
    simp [Pc.Numbered,Pc.rank,BatchMap.rank]
  · rw [hi]
    cases m <;> simp [Pc.Inserted,Pc.rank,BatchMap.rank]

theorem Inv.insert (h : Inv calls s) {m : BatchMap} {offset batchId : ℕ}
    (hi : s.pc i = .insert m offset batchId) :
    Inv calls { s.goto i (m.next offset batchId) with
      maps := Function.update s.maps m
        (insertEntry (s.maps m) batchId ((calls i).entry offset m)) } := by
  obtain ⟨hunlocked,hrunning,hguard,l,off,ids,hres,hrec⟩ := h
  obtain rfl := hres.offset i offset (by rw [hi]; rfl)
  refine ⟨hunlocked,running_goto hrunning (next_running m _ _),hguard.goto rfl ?_ rfl,l,off,ids,
    hres.goto rfl ?_ (fun o ho => ?_) (fun j hj _ => by rw [hi]; exact hj) rfl rfl,
    hrec.inserted hi⟩
  · rw [hi]
    exact iff_of_true (held_next ..) (held_insert ..)
  · rw [hi]
    cases m <;> simp [Pc.Placed,BatchMap.next,Pc.rank,BatchMap.rank]
  · rw [hi]
    cases m with
    | batchSizes => exact ho
    | batchSrc => exact ho
    | batchStartIndex => cases ho

theorem Inv.unlock (h : Inv calls s) (hi : s.pc i = .unlock) :
    Inv calls { s.goto i .done with batchMutex := none } := by
  obtain ⟨hunlocked,hrunning,hguard,l,off,ids,hres,hrec⟩ := h
  refine ⟨hunlocked,running_goto hrunning (fun h => by cases h),hguard.unlock ?_ rfl ?_ rfl,l,off,
    ids,hres.goto rfl ?_ ?_ (fun j hj _ => by rw [hi]; exact hj) rfl rfl,
    hrec.goto rfl (fun _ _ => rfl) ?_ ?_ (fun m => ?_) rfl rfl⟩
  · rw [hi]
    simp [Pc.Held,Pc.rank]
  · simp [Pc.Held,Pc.rank]
  · rw [hi]
    simp [Pc.Placed,Pc.rank]
  · intro o ho
    cases ho
  · rw [hi]
    simp [Pc.Numbered,Pc.rank]
  · intro k hk
    cases hk
  · rw [hi]
    cases m <;> simp [Pc.Inserted,Pc.rank,BatchMap.rank]

theorem inv_step (h : Inv calls s) (hs : step capacity calls s i = some s') : Inv calls s' := by
  cases move_of_step hs with
  | refuse hi hl => exact absurd (h.unlocked.symm.trans hl) Bool.false_ne_true
  | enter hi => exact h.enter hi
  | reserve hi => exact h.reserve hi
  | fill hi hdst => exact h.fill hi hdst
  | filled hi hlen => exact h.filled_block hi hlen
  | count hi => exact h.count hi
  | lock hi hfree => exact h.lock hi hfree
  | insert hi => exact h.insert hi
  | unlock hi => exact h.unlock hi

theorem inv_run {hbuf : ℕ → NodeId} {ls : List ι}
    (hrun : Trace.run (step capacity calls) (Buffers.new hbuf) ls = some s) : Inv calls s :=
  Trace.run_inv_all (fun h hs => inv_step h hs) (inv_new calls hbuf) hrun

theorem held_steps (hheld : (s.pc i).Held) :
    ∃ s', step capacity calls s i = some s' := by
  have hrank := hheld
  rw [step]
  cases hi : s.pc i with
  | insert m offset batchId => exact ⟨_,rfl⟩
  | unlock => exact ⟨_,rfl⟩
  | _ =>
    rw [hi] at hrank
    exact absurd hrank (by simp [Pc.Held,Pc.rank])

def fuel (size : ℕ) : Pc → ℕ
  | .entry => size + 9
  | .reserve => size + 8
  | .fill _ index => size - index + 7
  | .count _ => 6
  | .lock _ _ => 5
  | .insert m _ _ => 8 - m.rank
  | .unlock => 1
  | .done | .threw => 0

theorem move_fuel (h : Move capacity calls s i s') : ∃ next,
    s'.pc = Function.update s.pc i next ∧
    fuel (calls i).size next < fuel (calls i).size (s.pc i) := by
  cases h with
  | refuse hi hl => exact ⟨_,rfl,by simp [hi,fuel]⟩
  | enter hi => exact ⟨_,rfl,by simp [hi,fuel]⟩
  | reserve hi => exact ⟨_,rfl,by simp [hi,fuel]⟩
  | @fill offset index dst hi hdst =>
    have hlt : index < (calls i).size := (List.getElem?_eq_some_iff.mp hdst).1
    exact ⟨_,rfl,by simp only [hi,fuel]; omega⟩
  | filled hi hlen => exact ⟨_,rfl,by simp only [hi,fuel]; omega⟩
  | count hi => exact ⟨_,rfl,by simp [hi,fuel]⟩
  | lock hi hfree => exact ⟨_,rfl,by simp [hi,fuel,BatchMap.rank]⟩
  | @insert m offset batchId hi =>
    exact ⟨_,rfl,by cases m <;> simp [hi,fuel,BatchMap.next,BatchMap.rank]⟩
  | unlock hi => exact ⟨_,rfl,by simp [hi,fuel]⟩

end Invariant

section Complete

variable [Fintype ι] {calls : ι → Call n} {s s' : Buffers ι} {i : ι}

theorem Inv.in_bounds (h : Inv calls s) (hcap : ∑ i, (calls i).size ≤ capacity)
    {offset index : ℕ} (hi : s.pc i = .fill offset index) (hlt : index < (calls i).size) :
    offset + index < capacity := by
  obtain ⟨_,_,_,l,off,ids,hres,_⟩ := h
  obtain rfl := hres.offset i offset (by rw [hi]; rfl)
  have hmem : i ∈ l := (hres.mem i).mpr (by rw [hi]; exact le_rfl)
  have hfits : off i + (calls i).size ≤ s.edgeUpdateOffset := hres.tiled.fits i hmem
  have htotal : s.edgeUpdateOffset ≤ ∑ j, (calls j).size :=
    (hres.tiled.total ()).trans_le (Finset.sum_le_sum_of_subset (Finset.subset_univ _))
  omega

theorem Inv.progress (h : Inv calls s) (hcap : ∑ i, (calls i).size ≤ capacity)
    (hne : s.pc i ≠ .done) : ∃ j s', step capacity calls s j = some s' := by
  cases hmutex : s.batchMutex with
  | some j => exact ⟨j,held_steps ((h.guarded j).mp hmutex)⟩
  | none =>
    refine ⟨i,?_⟩
    rw [step]
    cases hi : s.pc i with
    | entry =>
      simp only [h.unlocked]
      exact ⟨_,rfl⟩
    | fill offset index =>
      simp only
      cases hdst : (calls i).dstVertices[index]? with
      | none => exact ⟨_,rfl⟩
      | some dst =>
        simp only
        rw [if_pos (h.in_bounds hcap hi (List.getElem?_eq_some_iff.mp hdst).1)]
        exact ⟨_,rfl⟩
    | lock offset batchId =>
      simp only [hmutex,if_true]
      exact ⟨_,rfl⟩
    | done => exact absurd hi hne
    | threw => exact absurd hi (h.running i)
    | reserve | count | insert | unlock => exact ⟨_,rfl⟩

theorem step_fuel (hs : step capacity calls s i = some s') :
    ∑ j, fuel (calls j).size (s'.pc j) < ∑ j, fuel (calls j).size (s.pc j) := by
  obtain ⟨next,hpc,hlt⟩ := move_fuel (move_of_step hs)
  have hsum := Trace.sum_changed_at (i := i) (fun j => fuel (calls j).size (s.pc j))
    (fun j => fuel (calls j).size (s'.pc j)) fun j hj => by rw [hpc,Function.update_of_ne hj]
  simp only [hpc,Function.update_self] at hsum ⊢
  omega

theorem Inv.completes (h : Inv calls s) (hcap : ∑ i, (calls i).size ≤ capacity) :
    ∃ ls s', Trace.run (step capacity calls) s ls = some s' ∧ ∀ i, s'.pc i = .done := by
  induction hk : ∑ j, fuel (calls j).size (s.pc j) using Nat.strong_induction_on generalizing s with
  | _ k ih =>
    by_cases hdone : ∀ i, s.pc i = .done
    · exact ⟨[],s,rfl,hdone⟩
    · obtain ⟨i,hi⟩ := not_forall.mp hdone
      obtain ⟨j,s₁,hs⟩ := h.progress hcap hi
      obtain ⟨ls,s',hrun,hend⟩ := ih _ (hk ▸ step_fuel hs) (inv_step h hs) rfl
      exact ⟨j :: ls,s',Trace.run_cons.mpr ⟨s₁,hs,hrun⟩,hend⟩

-- what the launches read once every call has returned
structure Filled (calls : ι → Call n) (off : ι → ℕ) (ids : List ι) (s : Buffers ι) : Prop where
  perm : ids.Perm Finset.univ.toList
  count : s.batchCount = ids.length
  maps : ∀ m k, s.maps m k = ids[k]?.map fun i => (calls i).entry (off i) m
  content : ∀ i j dst, (calls i).dstVertices[j]? = some dst →
    s.hEdgeUpdates (off i + j) = nodeId dst

theorem Inv.filled (h : Inv calls s) (hdone : ∀ i, s.pc i = .done) :
    ∃ off ids, Filled calls off ids s := by
  obtain ⟨_,_,_,l,off,ids,hres,hrec⟩ := h
  refine ⟨off,ids,?_,hrec.count,fun m k => ?_,fun i j dst hdst => ?_⟩
  · refine (List.perm_ext_iff_of_nodup hrec.nodup (Finset.nodup_toList _)).mpr fun i => ?_
    rw [hrec.mem,hdone i,Finset.mem_toList]
    exact iff_of_true (Nat.le_of_ble_eq_true rfl) (Finset.mem_univ i)
  · rw [hrec.maps]
    cases ids[k]? with
    | none => rfl
    | some i =>
      simp only [Option.bind_some,Option.map_some,hdone i]
      cases m <;> rfl
  · refine hres.written i j dst hdst ?_
    rw [hdone i]
    exact (List.getElem?_eq_some_iff.mp hdst).1

end Complete

end GraphZeppelin.Gpu.SKGPUSketchAlg
