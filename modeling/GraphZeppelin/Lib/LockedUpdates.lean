import GraphZeppelin.Lib.Trace

namespace LockedUpdates

-- an update of a cell is a load and a store, fault is an access outside the data of the program
inductive Action (V E : Type*) where
  | lock (v : V)
  | load (e : E)
  | store (e : E)
  | unlock (v : V)
  | fault
deriving DecidableEq

structure State (ι V E S : Type*) where
  cells : V → S
  owner : V → Option ι
  rest : ι → List (Action V E)
  copy : ι → S

variable {ι V E S : Type*} {cell : E → V} {upd : S → E → S}

def step [DecidableEq ι] [DecidableEq V] (cell : E → V) (upd : S → E → S) (s : State ι V E S)
    (t : ι) : Option (State ι V E S) :=
  match s.rest t with
  | [] => none
  | .lock v :: r =>
    if s.owner v = none then
      some { s with owner := Function.update s.owner v (some t),rest := Function.update s.rest t r }
    else none
  | .load e :: r =>
    some { s with copy := Function.update s.copy t (s.cells (cell e))
                  rest := Function.update s.rest t r }
  | .store e :: r =>
    some { s with cells := Function.update s.cells (cell e) (upd (s.copy t) e)
                  rest := Function.update s.rest t r }
  | .unlock v :: r =>
    some { s with owner := Function.update s.owner v none,rest := Function.update s.rest t r }
  | .fault :: _ => none

def stores : List (Action V E) → List E
  | [] => []
  | .store e :: r => e :: stores r
  | _ :: r => stores r

theorem stores_append (l l' : List (Action V E)) : stores (l ++ l') = stores l ++ stores l' := by
  induction l with
  | nil => rfl
  | cons a l ih => cases a <;> simp [stores,ih]

-- one lock at a time, and a cell is updated under its lock or by the thread that owns it
inductive Bracketed (cell : E → V) (own : V → Prop) : Option V → List (Action V E) → Option V → Prop
  | nil (held : Option V) : Bracketed cell own held [] held
  | lock {v : V} {r : List (Action V E)} {held' : Option V} :
      Bracketed cell own (some v) r held' → Bracketed cell own none (.lock v :: r) held'
  | unlock {v : V} {r : List (Action V E)} {held' : Option V} :
      Bracketed cell own none r held' → Bracketed cell own (some v) (.unlock v :: r) held'
  | update {held : Option V} {e : E} {r : List (Action V E)} {held' : Option V} :
      (held = some (cell e) ∨ own (cell e)) → Bracketed cell own held r held' →
        Bracketed cell own held (.load e :: .store e :: r) held'

theorem Bracketed.append {own : V → Prop} {held held' held'' : Option V}
    {l l' : List (Action V E)} (h : Bracketed cell own held l held')
    (h' : Bracketed cell own held' l' held'') : Bracketed cell own held (l ++ l') held'' := by
  induction h with
  | nil => exact h'
  | lock _ ih => exact .lock (ih h')
  | unlock _ ih => exact .unlock (ih h')
  | update he _ ih => exact .update he (ih h')

inductive Running (cell : E → V) (own : V → Prop) (cells : V → S) (copy : S) :
    Option V → List (Action V E) → Prop
  | between {held : Option V} {r : List (Action V E)} :
      Bracketed cell own held r none → Running cell own cells copy held r
  | loaded {held : Option V} {e : E} {r : List (Action V E)} :
      (held = some (cell e) ∨ own (cell e)) → copy = cells (cell e) →
        Bracketed cell own held r none → Running cell own cells copy held (.store e :: r)

section Steps

variable [DecidableEq ι] [DecidableEq V] {s s' : State ι V E S} {t : ι}

theorem step_cases (h : step cell upd s t = some s') :
    ∃ a r, s.rest t = a :: r ∧
      ((∃ v, a = .lock v ∧ s.owner v = none ∧
          s' = { s with owner := Function.update s.owner v (some t)
                        rest := Function.update s.rest t r }) ∨
        (∃ e, a = .load e ∧
          s' = { s with copy := Function.update s.copy t (s.cells (cell e))
                        rest := Function.update s.rest t r }) ∨
        (∃ e, a = .store e ∧
          s' = { s with cells := Function.update s.cells (cell e) (upd (s.copy t) e)
                        rest := Function.update s.rest t r }) ∨
        (∃ v, a = .unlock v ∧
          s' = { s with owner := Function.update s.owner v none
                        rest := Function.update s.rest t r })) := by
  rw [step] at h
  cases hrest : s.rest t with
  | nil => simp [hrest] at h
  | cons a r =>
    rw [hrest] at h
    refine ⟨a,r,rfl,?_⟩
    cases a with
    | lock v =>
      simp only at h
      split at h
      · next hfree => exact .inl ⟨v,rfl,hfree,(Option.some.inj h).symm⟩
      · cases h
    | load e => exact .inr (.inl ⟨e,rfl,(Option.some.inj h).symm⟩)
    | store e => exact .inr (.inr (.inl ⟨e,rfl,(Option.some.inj h).symm⟩))
    | unlock v => exact .inr (.inr (.inr ⟨v,rfl,(Option.some.inj h).symm⟩))
    | fault => cases h

theorem step_rest (h : step cell upd s t = some s') :
    ∃ a r, s.rest t = a :: r ∧ s'.rest = Function.update s.rest t r := by
  obtain ⟨a,r,hrest,⟨v,_,_,rfl⟩ | ⟨e,_,rfl⟩ | ⟨e,_,rfl⟩ | ⟨v,_,rfl⟩⟩ := step_cases h
  · exact ⟨a,r,hrest,rfl⟩
  · exact ⟨a,r,hrest,rfl⟩
  · exact ⟨a,r,hrest,rfl⟩
  · exact ⟨a,r,hrest,rfl⟩

end Steps

section Pending

variable [DecidableEq ι] [Fintype ι]

def pending (rest : ι → List (Action V E)) : Multiset E := ∑ t, (stores (rest t) : Multiset E)

theorem pending_update (rest : ι → List (Action V E)) (t : ι) (r : List (Action V E)) :
    pending (Function.update rest t r) + (stores (rest t) : Multiset E) =
      pending rest + (stores r : Multiset E) := by
  have hsum := Trace.sum_changed_at (i := t) (fun t' => (stores (rest t') : Multiset E))
    (fun t' => (stores (Function.update rest t r t') : Multiset E))
    fun t' ht => by rw [Function.update_of_ne ht]
  simp only [Function.update_self] at hsum
  exact hsum

theorem pending_skip {rest : ι → List (Action V E)} {t : ι} {r : List (Action V E)}
    (h : stores (rest t) = stores r) : pending (Function.update rest t r) = pending rest := by
  have hu := pending_update rest t r
  rw [h] at hu
  exact add_right_cancel hu

theorem pending_store {rest : ι → List (Action V E)} {t : ι} {e : E} {r : List (Action V E)}
    (h : stores (rest t) = e :: stores r) :
    pending rest = e ::ₘ pending (Function.update rest t r) := by
  have hu := pending_update rest t r
  refine add_right_cancel (b := (stores r : Multiset E)) ?_
  rw [← hu,h,← Multiset.cons_coe,Multiset.add_cons,Multiset.cons_add]

omit [DecidableEq ι] in
theorem pending_filter (P : E → Prop) [DecidablePred P] (rest : ι → List (Action V E)) :
    (pending rest).filter P = ∑ t, Multiset.filter P (stores (rest t) : Multiset E) :=
  map_sum (⟨⟨Multiset.filter P,Multiset.filter_zero P⟩,Multiset.filter_add P⟩ :
    Multiset E →+ Multiset E) _ _

end Pending

theorem Running.congr {own : V → Prop} {cells cells' : V → S} {copy : S} {h : Option V}
    {r : List (Action V E)} (hr : Running cell own cells copy h r)
    (hc : ∀ e r', r = .store e :: r' → (h = some (cell e) ∨ own (cell e)) →
      cells' (cell e) = cells (cell e)) : Running cell own cells' copy h r := by
  cases hr with
  | between hb => exact .between hb
  | loaded ho hcopy hb => exact .loaded ho (hcopy.trans (hc _ _ rfl ho).symm) hb

theorem Running.writes {own : V → Prop} {cells : V → S} {copy : S} {h : Option V}
    {e : E} {r : List (Action V E)} (hr : Running cell own cells copy h (.store e :: r)) :
    (h = some (cell e) ∨ own (cell e)) ∧ copy = cells (cell e) ∧ Bracketed cell own h r none := by
  obtain ⟨⟨⟩⟩ | ⟨ho,hcopy,hb⟩ := hr
  exact ⟨ho,hcopy,hb⟩

def Owned (cell : E → V) (own : ι → V → Prop) (rest : ι → List (Action V E)) : Prop :=
  ∀ t v, own t v → ∀ t', t' ≠ t → ∀ e ∈ stores (rest t'), cell e ≠ v

theorem Owned.update [DecidableEq ι] {own : ι → V → Prop} {rest : ι → List (Action V E)} {t : ι}
    (h : Owned cell own rest) {r : List (Action V E)} (hr : stores r ⊆ stores (rest t)) :
    Owned cell own (Function.update rest t r) := by
  intro t₁ v ho t' hne e he
  by_cases ht : t' = t
  · subst ht
    rw [Function.update_self] at he
    exact h t₁ v ho t' hne e (hr he)
  · rw [Function.update_of_ne ht] at he
    exact h t₁ v ho t' hne e he

section Length

variable [DecidableEq ι] [DecidableEq V] [Fintype ι]

theorem step_length {s s' : State ι V E S} {t : ι} (hs : step cell upd s t = some s') :
    ∑ t, (s'.rest t).length + 1 = ∑ t, (s.rest t).length := by
  obtain ⟨a,r,hrest,hrest'⟩ := step_rest hs
  have hsum := Trace.sum_changed_at (i := t) (fun t => (s.rest t).length)
    (fun t => (s'.rest t).length) fun t' ht => by rw [hrest',Function.update_of_ne ht]
  simp only [hrest',Function.update_self,hrest,List.length_cons] at hsum ⊢
  omega

end Length

section Invariant

variable [DecidableEq ι] [DecidableEq V] [Fintype ι] [RightCommutative upd]
  {own : ι → V → Prop} {total : V → S} {held : ι → Option V} {s s' : State ι V E S} {t : ι}
  {v : V} {e : E} {r : List (Action V E)}

structure Inv (cell : E → V) (upd : S → E → S) [RightCommutative upd] (own : ι → V → Prop)
    (total : V → S) (held : ι → Option V) (s : State ι V E S) : Prop where
  running : ∀ t, Running cell (own t) s.cells (s.copy t) (held t) (s.rest t)
  holds : ∀ t v, held t = some v ↔ s.owner v = some t
  owned : Owned cell own s.rest
  balance : ∀ v, ((pending s.rest).filter (cell · = v)).foldl upd (s.cells v) = total v

theorem Inv.advance (h : Inv cell upd own total held s) {h' : Option V}
    (hcells : s'.cells = s.cells) (hcopy : ∀ t', t' ≠ t → s'.copy t' = s.copy t')
    (hrest : s'.rest = Function.update s.rest t r) (hstores : stores (s.rest t) = stores r)
    (hrun : Running cell (own t) s.cells (s'.copy t) h' r)
    (holds : ∀ t' w, Function.update held t h' t' = some w ↔ s'.owner w = some t') :
    Inv cell upd own total (Function.update held t h') s' := by
  refine ⟨fun t' => ?_,holds,?_,?_⟩
  · rw [hcells,hrest]
    by_cases htt : t' = t
    · subst htt
      rw [Function.update_self,Function.update_self]
      exact hrun
    · rw [Function.update_of_ne htt,Function.update_of_ne htt,hcopy t' htt]
      exact h.running t'
  · rw [hrest]
    exact h.owned.update (by rw [hstores]; exact List.Subset.refl _)
  · rw [hcells,hrest,pending_skip hstores]
    exact h.balance

theorem Inv.step_lock (h : Inv cell upd own total held s) (hrest : s.rest t = .lock v :: r)
    (hfree : s.owner v = none) :
    Inv cell upd own total (Function.update held t (some v))
      { s with owner := Function.update s.owner v (some t)
               rest := Function.update s.rest t r } := by
  have hrun := h.running t
  rw [hrest] at hrun
  generalize hheld : held t = ht at hrun
  obtain ⟨⟨⟩⟩ | _ := hrun
  next hb =>
  refine h.advance rfl (fun _ _ => rfl) rfl (by rw [hrest]; rfl) (.between hb) fun t' w => ?_
  have hold := h.holds t' w
  simp only [Function.update_apply]
  grind

theorem Inv.step_unlock (h : Inv cell upd own total held s) (hrest : s.rest t = .unlock v :: r) :
    Inv cell upd own total (Function.update held t none)
      { s with owner := Function.update s.owner v none,rest := Function.update s.rest t r } := by
  have hrun := h.running t
  rw [hrest] at hrun
  generalize hheld : held t = ht at hrun
  obtain ⟨⟨⟩⟩ | _ := hrun
  next hb =>
  refine h.advance rfl (fun _ _ => rfl) rfl (by rw [hrest]; rfl) (.between hb) fun t' w => ?_
  have hold := h.holds t' w
  have hv := (h.holds t v).mp hheld
  simp only [Function.update_apply]
  grind

theorem Inv.step_load (h : Inv cell upd own total held s) (hrest : s.rest t = .load e :: r) :
    Inv cell upd own total held
      { s with copy := Function.update s.copy t (s.cells (cell e))
               rest := Function.update s.rest t r } := by
  have hrun := h.running t
  rw [hrest] at hrun
  generalize hheld : held t = ht at hrun
  obtain ⟨⟨⟩⟩ | _ := hrun
  next r ho hb =>
  have hself : held = Function.update held t (held t) := (Function.update_eq_self t held).symm
  rw [hself]
  refine h.advance rfl (fun t' htt => Function.update_of_ne htt _ _) rfl (by rw [hrest]; rfl) ?_
    fun t' w => ?_
  · rw [hheld]
    exact .loaded ho (Function.update_self ..) hb
  · rw [← hself]
    exact h.holds t' w

theorem Inv.exclusive (h : Inv cell upd own total held s) {t' : ι} {e' : E}
    {r' : List (Action V E)} (hrest : s.rest t = .store e :: r) (hrest' : s.rest t' = .store e' :: r')
    (ho : held t = some (cell e) ∨ own t (cell e)) (ho' : held t' = some (cell e') ∨ own t' (cell e'))
    (hcell : cell e' = cell e) : t' = t := by
  by_contra hne
  have hmem : e ∈ stores (s.rest t) := by rw [hrest]; exact List.mem_cons_self
  have hmem' : e' ∈ stores (s.rest t') := by rw [hrest']; exact List.mem_cons_self
  rcases ho with ho | ho
  · rcases ho' with ho' | ho'
    · have howner := (h.holds _ _).mp ho
      rw [← hcell,(h.holds _ _).mp ho'] at howner
      exact hne (Option.some.inj howner)
    · exact h.owned t' _ ho' t (Ne.symm hne) e hmem hcell.symm
  · exact h.owned t _ ho t' hne e' hmem' hcell

theorem Inv.step_store (h : Inv cell upd own total held s) (hrest : s.rest t = .store e :: r) :
    Inv cell upd own total held
      { s with cells := Function.update s.cells (cell e) (upd (s.copy t) e)
               rest := Function.update s.rest t r } := by
  have hrun := h.running t
  rw [hrest] at hrun
  obtain ⟨ho,hcopy,hb⟩ := hrun.writes
  have hstores : stores (s.rest t) = e :: stores r := by rw [hrest]; rfl
  refine ⟨fun t' => ?_,h.holds,?_,fun w => ?_⟩
  · by_cases htt : t' = t
    · subst htt
      simp only [Function.update_self]
      exact .between hb
    · simp only [Function.update_of_ne htt]
      refine (h.running t').congr fun e' r' hrest' ho' => ?_
      refine Function.update_of_ne (fun hcell => htt ?_) _ _
      exact h.exclusive hrest hrest' ho ho' hcell
  · refine h.owned.update ?_
    rw [hstores]
    exact List.subset_cons_self _ _
  · rw [← h.balance w,pending_store hstores]
    by_cases hw : cell e = w
    · subst hw
      rw [Multiset.filter_cons_of_pos (p := (cell · = cell e)) _ rfl,Multiset.foldl_cons,← hcopy]
      simp only [Function.update_self]
    · rw [Multiset.filter_cons_of_neg (p := (cell · = w)) _ hw]
      simp only [Function.update_of_ne (Ne.symm hw)]

theorem Inv.next (h : Inv cell upd own total held s) (hs : step cell upd s t = some s') :
    ∃ held', Inv cell upd own total held' s' := by
  obtain ⟨a,r,hrest,⟨v,rfl,hfree,rfl⟩ | ⟨e,rfl,rfl⟩ | ⟨e,rfl,rfl⟩ | ⟨v,rfl,rfl⟩⟩ := step_cases hs
  · exact ⟨_,h.step_lock hrest hfree⟩
  · exact ⟨_,h.step_load hrest⟩
  · exact ⟨_,h.step_store hrest⟩
  · exact ⟨_,h.step_unlock hrest⟩

theorem inv_run (h : Inv cell upd own total held s) {ls : List ι}
    (hrun : Trace.run (step cell upd) s ls = some s') :
    ∃ held', Inv cell upd own total held' s' := by
  have hstep {s₁ s₂ : State ι V E S} {t : ι} (h₁ : ∃ held, Inv cell upd own total held s₁)
      (hs : step cell upd s₁ t = some s₂) : ∃ held, Inv cell upd own total held s₂ :=
    h₁.elim fun _ h₁ => h₁.next hs
  exact Trace.run_inv_all hstep ⟨held,h⟩ hrun

omit [DecidableEq ι] in
theorem Inv.no_fault (h : Inv cell upd own total held s) (t : ι) : s.rest t ≠ .fault :: r := by
  intro hrest
  have hrun := h.running t
  rw [hrest] at hrun
  generalize held t = ht at hrun
  obtain ⟨⟨⟩⟩ := hrun

omit [DecidableEq ι] in
theorem Inv.blocked (h : Inv cell upd own total held s) (hrest : s.rest t = .lock v :: r) :
    held t = none := by
  have hrun := h.running t
  rw [hrest] at hrun
  generalize held t = ht at hrun
  obtain ⟨⟨⟩⟩ := hrun
  rfl

theorem Inv.holder_runs (h : Inv cell upd own total held s) (hheld : held t = some v) :
    ∃ s', step cell upd s t = some s' := by
  have hrun := h.running t
  rw [hheld] at hrun
  rw [step]
  cases hrest : s.rest t with
  | nil =>
    rw [hrest] at hrun
    obtain ⟨⟨⟩⟩ := hrun
  | cons a r =>
    cases a with
    | lock w => cases (h.blocked hrest).symm.trans hheld
    | fault => exact absurd hrest (h.no_fault t)
    | load e => exact ⟨_,rfl⟩
    | store e => exact ⟨_,rfl⟩
    | unlock w => exact ⟨_,rfl⟩

theorem Inv.progress (h : Inv cell upd own total held s) (hne : ∃ t, s.rest t ≠ []) :
    ∃ t s', step cell upd s t = some s' := by
  obtain ⟨t,ht⟩ := hne
  cases hrest : s.rest t with
  | nil => exact absurd hrest ht
  | cons a r =>
    cases a with
    | lock v =>
      cases howner : s.owner v with
      | none =>
        refine ⟨t,?_⟩
        rw [step,hrest]
        simp only [howner,if_true]
        exact ⟨_,rfl⟩
      | some t' => exact ⟨t',h.holder_runs ((h.holds t' v).mpr howner)⟩
    | fault => exact absurd hrest (h.no_fault t)
    | load e => exact ⟨t,by rw [step,hrest]; exact ⟨_,rfl⟩⟩
    | store e => exact ⟨t,by rw [step,hrest]; exact ⟨_,rfl⟩⟩
    | unlock v => exact ⟨t,by rw [step,hrest]; exact ⟨_,rfl⟩⟩

theorem Inv.completes (h : Inv cell upd own total held s) :
    ∃ ls s', Trace.run (step cell upd) s ls = some s' ∧ ∀ t, s'.rest t = [] := by
  induction hk : ∑ t, (s.rest t).length generalizing s held with
  | zero =>
    refine ⟨[],s,rfl,fun t => List.length_eq_zero_iff.mp ?_⟩
    exact Finset.sum_eq_zero_iff.mp hk t (Finset.mem_univ t)
  | succ k ih =>
    have hne : ∃ t, s.rest t ≠ [] := by
      by_contra hno
      have hzero : ∑ t, (s.rest t).length = 0 :=
        Finset.sum_eq_zero fun t _ => by rw [not_not.mp fun ht => hno ⟨t,ht⟩,List.length_nil]
      omega
    obtain ⟨t,s₁,hs⟩ := h.progress hne
    obtain ⟨_,h₁⟩ := h.next hs
    have hlen := step_length hs
    obtain ⟨ls,s',hrun,hdone⟩ := ih h₁ (by omega)
    exact ⟨t :: ls,s',Trace.run_cons.mpr ⟨s₁,hs,hrun⟩,hdone⟩

omit [DecidableEq ι] in
theorem Inv.done (h : Inv cell upd own total held s) (hdone : ∀ t, s.rest t = []) :
    s.cells = total := by
  funext v
  have hb := h.balance v
  have hzero : pending s.rest = 0 := Finset.sum_eq_zero fun t _ => by rw [hdone t]; rfl
  rw [hzero] at hb
  exact hb

end Invariant

section Solo

variable [DecidableEq ι] [DecidableEq V]

theorem solo {own : V → Prop} {held held' : Option V} {l : List (Action V E)}
    (hb : Bracketed cell own held l held') {s : State ι V E S} {t : ι} {r : List (Action V E)}
    (hrest : s.rest t = l ++ r) (hfree : ∀ v, held ≠ some v → s.owner v = none) :
    ∃ ls s', Trace.run (step cell upd) s ls = some s' ∧ s'.rest t = r := by
  induction hb generalizing s with
  | nil => exact ⟨[],s,rfl,hrest⟩
  | @lock v l _ _ ih =>
    obtain ⟨ls,s',hrun,hs'⟩ := ih (s := { s with
      owner := Function.update s.owner v (some t),rest := Function.update s.rest t (l ++ r) })
      (Function.update_self ..) fun w hw => by
        simp only [Function.update_of_ne fun h : w = v => hw (congrArg some h.symm)]
        exact hfree w (Option.some_ne_none w).symm
    refine ⟨t :: ls,s',Trace.run_cons.mpr ⟨_,?_,hrun⟩,hs'⟩
    rw [step,hrest]
    simp only [List.cons_append,hfree v (Option.some_ne_none v).symm,if_true]
  | @unlock v l _ _ ih =>
    obtain ⟨ls,s',hrun,hs'⟩ := ih (s := { s with
      owner := Function.update s.owner v none,rest := Function.update s.rest t (l ++ r) })
      (Function.update_self ..) fun w _ => by
        simp only [Function.update_apply]
        split
        · rfl
        · next hw => exact hfree w fun h => hw (Option.some.inj h).symm
    refine ⟨t :: ls,s',Trace.run_cons.mpr ⟨_,?_,hrun⟩,hs'⟩
    rw [step,hrest]
    rfl
  | @update _ e l _ _ _ ih =>
    let s₁ : State ι V E S := { s with
      copy := Function.update s.copy t (s.cells (cell e))
      rest := Function.update s.rest t (.store e :: (l ++ r)) }
    have hs₁ : s₁.rest t = .store e :: (l ++ r) := Function.update_self ..
    obtain ⟨ls,s',hrun,hs'⟩ := ih (s := { s₁ with
      cells := Function.update s₁.cells (cell e) (upd (s₁.copy t) e)
      rest := Function.update s₁.rest t (l ++ r) }) (Function.update_self ..) hfree
    refine ⟨t :: t :: ls,s',Trace.run_cons.mpr ⟨s₁,?_,Trace.run_cons.mpr ⟨_,?_,hrun⟩⟩,hs'⟩
    · rw [step,hrest]
      rfl
    · rw [step,hs₁]

end Solo

end LockedUpdates
