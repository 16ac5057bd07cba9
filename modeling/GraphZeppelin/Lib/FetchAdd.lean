import Mathlib

namespace FetchAdd

variable {ι κ : Type*} [DecidableEq ι] [DecidableEq κ] (slot : ι → κ) (size : ι → ℕ)

structure Counters (ι κ : Type*) where
  total : κ → ℕ
  offset : ι → ℕ

def capture (c : Counters ι κ) (i : ι) : Counters ι κ where
  total := Function.update c.total (slot i) (c.total (slot i) + size i)
  offset := Function.update c.offset i (c.total (slot i))

def zero : Counters ι κ := ⟨fun _ => 0,fun _ => 0⟩

structure Tiled (l : List ι) (c : Counters ι κ) : Prop where
  total : ∀ k, c.total k = ∑ i ∈ l.toFinset with slot i = k, size i
  fits : ∀ i ∈ l, c.offset i + size i ≤ c.total (slot i)
  apart : ∀ i ∈ l, ∀ j ∈ l, i ≠ j → slot i = slot j →
    c.offset i + size i ≤ c.offset j ∨ c.offset j + size j ≤ c.offset i

variable {slot size}

theorem Tiled.capture {l : List ι} {c : Counters ι κ} (h : Tiled slot size l c) {i : ι}
    (hi : i ∉ l) : Tiled slot size (i :: l) (capture slot size c i) := by
  have hne {j : ι} (hj : j ∈ l) : j ≠ i := fun e => hi (e ▸ hj)
  have hoff {j : ι} (hj : j ∈ l) : (FetchAdd.capture slot size c i).offset j = c.offset j := by
    simp [FetchAdd.capture,hne hj]
  have hself : (FetchAdd.capture slot size c i).offset i = c.total (slot i) := by
    simp [FetchAdd.capture]
  have hgrow (k : κ) : c.total k ≤ (FetchAdd.capture slot size c i).total k := by
    by_cases hk : k = slot i
    · subst hk
      simp [FetchAdd.capture]
    · simp [FetchAdd.capture,hk]
  refine ⟨fun k => ?_,fun j hj => ?_,fun j hj j' hj' hjj hs => ?_⟩
  · have hmem : i ∉ l.toFinset := by simpa using hi
    rw [List.toFinset_cons,Finset.filter_insert]
    by_cases hk : slot i = k
    · subst hk
      rw [if_pos rfl,Finset.sum_insert (by simp [hi]),← h.total]
      simp [FetchAdd.capture,add_comm]
    · rw [if_neg hk,← h.total]
      simp [FetchAdd.capture,Ne.symm hk]
  · rcases List.mem_cons.mp hj with rfl | hj
    · rw [hself]
      simp [FetchAdd.capture]
    · rw [hoff hj]
      exact (h.fits j hj).trans (hgrow _)
  · rcases List.mem_cons.mp hj with rfl | hm <;> rcases List.mem_cons.mp hj' with rfl | hm'
    · exact absurd rfl hjj
    · rw [hself,hoff hm',hs]
      exact .inr (h.fits j' hm')
    · rw [hself,hoff hm,← hs]
      exact .inl (h.fits j hm)
    · rw [hoff hm,hoff hm']
      exact h.apart j hm j' hm' hjj hs

theorem foldl_capture {P : List ι → Counters ι κ → Prop}
    (hstep : ∀ {l c i}, P l c → i ∉ l → P (i :: l) (capture slot size c i)) {l l' : List ι}
    {c : Counters ι κ} (h : P l' c) (hl : l.Nodup) (hd : ∀ i ∈ l, i ∉ l') :
    P (l.reverse ++ l') (l.foldl (capture slot size) c) := by
  induction l generalizing l' c with
  | nil => exact h
  | cons i l ih =>
    obtain ⟨hi,hl⟩ := List.nodup_cons.mp hl
    rw [List.foldl_cons,List.reverse_cons,List.append_assoc]
    refine ih (hstep h (hd i List.mem_cons_self)) hl fun j hj hmem => ?_
    rcases List.mem_cons.mp hmem with rfl | hmem
    · exact hi hj
    · exact hd j (List.mem_cons_of_mem _ hj) hmem

theorem tiled_run {l : List ι} (hl : l.Nodup) :
    Tiled slot size l (l.foldl (capture slot size) zero) := by
  have hz : Tiled slot size [] (zero : Counters ι κ) := by
    refine ⟨fun k => by simp [zero],fun i hi => ?_,fun i hi => ?_⟩
    · cases hi
    · cases hi
  have h := foldl_capture (P := Tiled slot size) (fun hc => hc.capture) hz hl fun i _ hi => by cases hi
  rw [List.append_nil] at h
  refine ⟨fun k => ?_,fun i hi => h.fits i (List.mem_reverse.mpr hi),fun i hi j hj =>
    h.apart i (List.mem_reverse.mpr hi) j (List.mem_reverse.mpr hj)⟩
  rw [h.total,List.toFinset_reverse]

def Reached (slot : ι → κ) (size : ι → ℕ) (l : List ι) (c : Counters ι κ) : Prop :=
  ∀ k, c.total k = 0 ∨ ∃ i ∈ l, slot i = k ∧ c.offset i + size i = c.total k

theorem Reached.capture {l : List ι} {c : Counters ι κ} (h : Reached slot size l c) {i : ι}
    (hi : i ∉ l) : Reached slot size (i :: l) (capture slot size c i) := by
  intro k
  by_cases hk : slot i = k
  · subst hk
    exact .inr ⟨i,List.mem_cons_self,rfl,by simp [FetchAdd.capture]⟩
  · rcases h k with hz | ⟨j,hj,rfl,hlast⟩
    · exact .inl (by simp [FetchAdd.capture,Ne.symm hk,hz])
    · have hji : j ≠ i := fun e => hi (e ▸ hj)
      exact .inr ⟨j,List.mem_cons_of_mem _ hj,rfl,by simp [FetchAdd.capture,Ne.symm hk,hji,hlast]⟩

theorem reached_run {l : List ι} (hl : l.Nodup) :
    Reached slot size l (l.foldl (capture slot size) zero) := by
  have hz : Reached slot size [] (zero : Counters ι κ) := fun _ => .inl rfl
  have h := foldl_capture (P := Reached slot size) (fun hc => hc.capture) hz hl fun i _ hi => by cases hi
  intro k
  rcases h k with hz | ⟨i,hi,hs⟩
  · exact .inl hz
  · rw [List.append_nil,List.mem_reverse] at hi
    exact .inr ⟨i,hi,hs⟩

theorem foldl_total_of_ne {l : List ι} {k : κ} (h : ∀ i ∈ l, slot i ≠ k) (c : Counters ι κ) :
    (l.foldl (capture slot size) c).total k = c.total k := by
  induction l generalizing c with
  | nil => rfl
  | cons i l ih =>
    rw [List.foldl_cons,ih fun j hj => h j (List.mem_cons_of_mem i hj)]
    exact Function.update_of_ne (h i List.mem_cons_self).symm ..

theorem foldl_offset_of_notMem {l : List ι} {i : ι} (h : i ∉ l) (c : Counters ι κ) :
    (l.foldl (capture slot size) c).offset i = c.offset i := by
  induction l generalizing c with
  | nil => rfl
  | cons j l ih =>
    rw [List.foldl_cons,ih (List.not_mem_of_not_mem_cons h)]
    exact Function.update_of_ne (List.ne_of_not_mem_cons h) ..

theorem offset_first {l l' : List ι} {i : ι} (h : ∀ j ∈ l, slot j ≠ slot i) (h' : i ∉ l') :
    ((l ++ i :: l').foldl (capture slot size) (zero : Counters ι κ)).offset i = 0 := by
  rw [List.foldl_append,List.foldl_cons,foldl_offset_of_notMem h']
  exact (Function.update_self ..).trans (foldl_total_of_ne h zero)

end FetchAdd
