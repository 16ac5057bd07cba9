import Mathlib

namespace Trace

variable {S L : Type*} {step : S → L → Option S} {ok : S → L → Prop} {Inv : S → Prop}

def run (step : S → L → Option S) (s : S) (ls : List L) : Option S := ls.foldlM step s

def Along (step : S → L → Option S) (ok : S → L → Prop) : S → List L → Prop
  | _, [] => True
  | s, l :: ls => ok s l ∧ (step s l).elim True fun s' => Along step ok s' ls

def decidableAlong [∀ s l, Decidable (ok s l)] :
    (s : S) → (ls : List L) → Decidable (Along step ok s ls)
  | _, [] => isTrue trivial
  | s, l :: ls =>
    have : Decidable ((step s l).elim True fun s' => Along step ok s' ls) :=
      match step s l with
      | none => isTrue trivial
      | some s' => decidableAlong s' ls
    inferInstanceAs (Decidable (_ ∧ _))

instance [∀ s l, Decidable (ok s l)] (s : S) (ls : List L) : Decidable (Along step ok s ls) :=
  decidableAlong s ls

theorem run_cons {s s'' : S} {l : L} {ls : List L} :
    run step s (l :: ls) = some s'' ↔ ∃ s', step s l = some s' ∧ run step s' ls = some s'' := by
  rw [run,List.foldlM_cons]
  exact Option.bind_eq_some_iff

theorem run_inv (hstep : ∀ {s l s'}, Inv s → ok s l → step s l = some s' → Inv s')
    {s s' : S} {ls : List L} (h : Inv s) (hok : Along step ok s ls)
    (hrun : run step s ls = some s') : Inv s' := by
  induction ls generalizing s with
  | nil =>
    cases hrun
    exact h
  | cons l ls ih =>
    obtain ⟨s₁,hs₁,hrun⟩ := run_cons.mp hrun
    obtain ⟨hl,hok⟩ := hok
    rw [hs₁] at hok
    exact ih (hstep h hl hs₁) hok hrun

theorem Along.and {ok' : S → L → Prop} {s : S} {ls : List L} (h : Along step ok s ls)
    (h' : Along step ok' s ls) : Along step (fun s l => ok s l ∧ ok' s l) s ls := by
  induction ls generalizing s with
  | nil => trivial
  | cons l ls ih =>
    obtain ⟨hl,hls⟩ := h
    obtain ⟨hl',hls'⟩ := h'
    refine ⟨⟨hl,hl'⟩,?_⟩
    cases hs : step s l with
    | none => trivial
    | some s' =>
      rw [hs] at hls hls'
      exact ih hls hls'

theorem along_of_forall (h : ∀ s l, ok s l) : ∀ (s : S) (ls : List L), Along step ok s ls
  | _, [] => trivial
  | s, l :: ls => by
    refine ⟨h s l,?_⟩
    cases step s l with
    | none => exact trivial
    | some s' => exact along_of_forall h s' ls

theorem run_inv_all (hstep : ∀ {s l s'}, Inv s → step s l = some s' → Inv s') {s s' : S}
    {ls : List L} (h : Inv s) (hrun : run step s ls = some s') : Inv s' :=
  run_inv (fun h (_ : True) hs => hstep h hs) h (along_of_forall (fun _ _ => trivial) s ls) hrun

theorem sum_changed_at {ι M : Type*} [Fintype ι] [DecidableEq ι] [AddCommMonoid M] {i : ι}
    (F F' : ι → M) (h : ∀ j, j ≠ i → F' j = F j) : ∑ j, F' j + F i = ∑ j, F j + F' i := by
  have hrest : ∑ j ∈ Finset.univ.erase i, F' j = ∑ j ∈ Finset.univ.erase i, F j :=
    Finset.sum_congr rfl fun j hj => h j (Finset.ne_of_mem_erase hj)
  rw [← Finset.add_sum_erase _ F' (Finset.mem_univ i),← Finset.add_sum_erase _ F (Finset.mem_univ i),
    hrest,add_right_comm,add_comm (F' i),add_right_comm]

end Trace
