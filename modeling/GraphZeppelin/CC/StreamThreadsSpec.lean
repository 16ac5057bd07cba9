import GraphZeppelin.CC.StreamThreads
import GraphZeppelin.Lib.Trace

open SpanningForest PointerForest

namespace GraphZeppelin.CC

variable {n k w : ℕ} {p : SketchParams}

namespace CCSketchAlg
open Dsu Boruvka.QueryState

variable {a : CCSketchAlg n w p} {upd : GraphUpdate n}

theorem preInsert_invalid (h : a.dsuValid = false) : a.preInsert upd = a := by
  rw [preInsert,h]
  rfl

theorem preInsert_bridge (h : a.dsuValid = true)
    (hne : a.query.dsu.rep upd.src ≠ a.query.dsu.rep upd.dst) :
    (a.preInsert upd).dsuValid = true ∧
    (∀ x y, y ∈ (a.preInsert upd).query.spanningForest x ↔
      y ∈ a.query.spanningForest x ∨ (x = upd.src ∧ y = upd.dst)) ∧
    ∀ x y, (a.preInsert upd).query.dsu.rep x = (a.preInsert upd).query.dsu.rep y ↔
      a.query.dsu.rep x = a.query.dsu.rep y ∨
      (a.query.dsu.rep x = a.query.dsu.rep upd.src ∧ a.query.dsu.rep y = a.query.dsu.rep upd.dst) ∨
      (a.query.dsu.rep x = a.query.dsu.rep upd.dst ∧ a.query.dsu.rep y = a.query.dsu.rep upd.src) := by
  obtain ⟨hm,hrep⟩ := (a.query.dsu.merge_cases upd.src upd.dst).resolve_left fun h => hne h.1
  have hm' : (a.query.mergeEdge upd.src upd.dst).2 = true := mergeEdge_snd.trans hrep.1
  have heq : a.preInsert upd = { a with query := (a.query.mergeEdge upd.src upd.dst).1 } := by
    rw [preInsert,if_pos h]
    exact if_pos hm'
  have hle : upd.src ≤ upd.dst := min_le_max
  rw [heq]
  refine ⟨h,fun x y => ?_,fun x y => ?_⟩
  · simp only [mergeEdge_of_merged hm',mem_insertEdge,min_eq_left hle,max_eq_right hle]
  · simp only [mergeEdge_dsu]
    exact hrep.2 x y

theorem preInsert_inside (h : a.dsuValid = true)
    (he : a.query.dsu.rep upd.src = a.query.dsu.rep upd.dst) :
    ((a.preInsert upd).dsuValid = true ↔ upd.dst ∉ a.query.spanningForest upd.src) ∧
    (a.preInsert upd).query.spanningForest = a.query.spanningForest ∧
    ∀ x, (a.preInsert upd).query.dsu.rep x = a.query.dsu.rep x := by
  obtain ⟨_,hm,_⟩ := (a.query.dsu.merge_cases upd.src upd.dst).resolve_right fun h => h.1 he
  have hm' : (a.query.mergeEdge upd.src upd.dst).2 = false :=
    mergeEdge_snd.trans (congrArg DSUMergeRet.merged hm)
  have hf := mergeEdge_of_not_merged hm'
  have heq : a.preInsert upd = if upd.dst ∈ a.query.spanningForest upd.src then
      { a with query := (a.query.mergeEdge upd.src upd.dst).1,dsuValid := false,sharedDsuValid := false }
      else { a with query := (a.query.mergeEdge upd.src upd.dst).1 } := by
    rw [← hf,preInsert,if_pos h]
    exact if_neg (Bool.not_eq_true _ ▸ hm')
  rw [heq]
  split
  · next hmem => exact ⟨iff_of_false Bool.false_ne_true (not_not_intro hmem),hf,mergeEdge_rep hm'⟩
  · next hmem => exact ⟨iff_of_true h hmem,hf,mergeEdge_rep hm'⟩

end CCSketchAlg

namespace StreamThreads
open Dsu Dsu.Concurrent

section Order

def InsertPc.pending : InsertPc n → Option (GraphUpdate n)
  | .lock upd | .merge upd _ | .find upd => some upd
  | .idle | .insert _ | .invalidate _ | .invalidateShared _ | .unlock _ => none

def Thread.remaining (th : Thread n) : List (GraphUpdate n) := th.pc.pending.toList ++ th.todo

def ownUpdates (t : Fin k) (us : List (Fin k × GraphUpdate n)) : List (GraphUpdate n) :=
  (us.filter fun u => u.1 = t).map Prod.snd

theorem ownUpdates_append (t : Fin k) (us us' : List (Fin k × GraphUpdate n)) :
    ownUpdates t (us ++ us') = ownUpdates t us ++ ownUpdates t us' := by
  rw [ownUpdates,List.filter_append,List.map_append]
  rfl

variable {priority : Fin n → ℕ} {s s' : State n k} {t : Fin k}
  {o : Option (Fin k × GraphUpdate n)}

theorem remaining_goto {todo todo' : List (GraphUpdate n)} {pc pc' : InsertPc n}
    (hth : s.threads t = ⟨todo,pc⟩)
    (h : ownUpdates t o.toList ++ Thread.remaining ⟨todo',pc'⟩ = Thread.remaining ⟨todo,pc⟩)
    (ho : ∀ u ∈ o, u.1 = t) (u : Fin k) :
    ownUpdates u o.toList ++ (Function.update s.threads t ⟨todo',pc'⟩ u).remaining =
      (s.threads u).remaining := by
  by_cases hu : u = t
  · subst hu
    rw [Function.update_self,hth]
    exact h
  · rw [Function.update_of_ne hu]
    cases o with
    | none => rfl
    | some x =>
      have hx : x.1 ≠ u := fun e => hu (e.symm.trans (ho x rfl))
      simp [ownUpdates,hx]

theorem remaining_move (hm : Move priority s t o s') (u : Fin k) :
    ownUpdates u o.toList ++ (s'.threads u).remaining = (s.threads u).remaining := by
  have hnone : ∀ x ∈ (none : Option (Fin k × GraphUpdate n)), x.1 = t := fun x hx => by cases hx
  have hsome (upd : GraphUpdate n) : ∀ x ∈ some (t,upd), x.1 = t := by simp
  cases hm with
  | done | blocked => rfl
  | skip hth hv =>
    exact remaining_goto hth (by simp [ownUpdates,Thread.remaining,InsertPc.pending]) (hsome _) u
  | enter hth hv => exact remaining_goto hth rfl hnone u
  | lock hth hfree => exact remaining_goto hth rfl hnone u
  | search hth hstep => exact remaining_goto hth rfl hnone u
  | linked hth hstep =>
    exact remaining_goto hth (by simp [ownUpdates,Thread.remaining,InsertPc.pending]) (hsome _) u
  | related hth hstep => exact remaining_goto hth rfl hnone u
  | insert hth => exact remaining_goto hth rfl hnone u
  | hit hth hmem =>
    exact remaining_goto hth (by simp [ownUpdates,Thread.remaining,InsertPc.pending]) (hsome _) u
  | miss hth hmem =>
    exact remaining_goto hth (by simp [ownUpdates,Thread.remaining,InsertPc.pending]) (hsome _) u
  | invalidate hth => exact remaining_goto hth rfl hnone u
  | invalidateShared hth => exact remaining_goto hth rfl hnone u
  | unlock hth => exact remaining_goto hth rfl hnone u

theorem remaining_run (s : State n k) (sched : List (Fin k × Bool)) (t : Fin k) :
    ownUpdates t (applied priority s sched) ++ ((s.run priority sched).threads t).remaining =
      (s.threads t).remaining := by
  induction sched generalizing s with
  | nil => rfl
  | cons l sched ih =>
    rw [applied,ownUpdates_append,List.append_assoc]
    exact (congrArg _ (ih (s.step priority l))).trans (remaining_move (step_moves priority s l) t)

end Order

def State.Linked (s : State n k) (x y : Fin n) : Prop :=
  y ∈ s.spanningForest x ∨ ∃ t, (s.threads t).pc.Inserting x y

-- a is where the sequential pre_insert stands after the updates that have taken effect.
structure Sim (a : CCSketchAlg n w p) (s : State n k) : Prop where
  valid : a.dsuValid = true ↔ s.dsuValid = true ∧ ¬ ∃ t, (s.threads t).pc.Failing
  forest : a.dsuValid = true → ∀ x y, y ∈ a.query.spanningForest x ↔ s.Linked x y
  classes : a.dsuValid = true → ∀ x y, a.query.dsu.rep x = a.query.dsu.rep y ↔
    root s.parent x = root s.parent y

section Simulation

variable {priority : Fin n → ℕ} {a : CCSketchAlg n w p} {s s' : State n k} {t : Fin k}
  {o : Option (Fin k × GraphUpdate n)} {upd : GraphUpdate n} {todo todo' : List (GraphUpdate n)}

theorem sim_start (a : CCSketchAlg n w p) (programs : Fin k → List (GraphUpdate n)) :
    Sim a (State.start a programs) where
  valid := by simp [State.start,InsertPc.Failing]
  forest _ x y := by simp [State.Linked,State.start,InsertPc.Inserting]
  classes _ x y := Iff.rfl

theorem Sim.invalid (ha : a.dsuValid = false)
    (h : s.dsuValid = false ∨ ∃ t, (s.threads t).pc.Failing) : Sim a s where
  valid := by
    rw [ha]
    refine iff_of_false Bool.false_ne_true fun hs => h.elim (fun hv => ?_) hs.2
    exact Bool.false_ne_true (hv.symm.trans hs.1)
  forest hv := absurd (ha.symm.trans hv) Bool.false_ne_true
  classes hv := absurd (ha.symm.trans hv) Bool.false_ne_true

theorem Sim.quiet (h : Sim a s) {pc pc' : InsertPc n} (hth : (s.threads t).pc = pc)
    {parent : Fin n → Fin n} {mtx : Fin n → Option (Fin k)} {shared : Bool}
    (hroot : ∀ x, root parent x = root s.parent x) (hf : pc'.Failing ↔ pc.Failing)
    (hi : ∀ x y, pc'.Inserting x y ↔ pc.Inserting x y) :
    Sim a { s.goto t todo pc' with
      parent := parent,spanningForestMtx := mtx,sharedDsuValid := shared } where
  valid := h.valid.trans (and_congr_right' (not_congr (exists_update_iff hth hf).symm))
  forest hv x y := (h.forest hv x y).trans
    (or_congr_right (exists_update_iff hth (hi x y)).symm)
  classes hv x y := by
    simp only [hroot]
    exact h.classes hv x y

theorem Sim.move_skip (h : Sim a s) (_hth : s.threads t = ⟨upd :: todo,.idle⟩)
    (hv : s.dsuValid = false) : Sim (a.preInsert upd) (s.goto t todo .idle) := by
  have ha : a.dsuValid = false := Bool.eq_false_of_not_eq_true fun ha =>
    Bool.false_ne_true (hv.symm.trans (h.valid.mp ha).1)
  rw [CCSketchAlg.preInsert_invalid ha]
  exact .invalid ha (.inl hv)

theorem inserting_update {threads : Fin k → Thread n} {pc : InsertPc n}
    (hth : (threads t).pc = pc) (hpc : ∀ x y, ¬ pc.Inserting x y) (x y : Fin n) :
    (∃ u, (Function.update threads t ⟨todo,.insert upd⟩ u).pc.Inserting x y) ↔
      (∃ u, (threads u).pc.Inserting x y) ∨ (x = upd.src ∧ y = upd.dst) := by
  rw [exists_update,exists_thread hth,or_iff_right (hpc x y),or_comm]
  refine or_congr_right ⟨?_,?_⟩
  · rintro ⟨upd',he,rfl,rfl⟩
    cases he
    exact ⟨rfl,rfl⟩
  · rintro ⟨rfl,rfl⟩
    exact ⟨upd,rfl,rfl,rfl⟩

theorem link_classes {parent : Fin n → Fin n} (hclimbs : Climbs (Below priority) parent)
    {x y a b : Fin n} (hy : parent y = y) (hb : Below priority y x) (hm : Matches parent x y a b)
    (u v : Fin n) :
    root (Function.update parent y x) u = root (Function.update parent y x) v ↔
      root parent u = root parent v ∨
      (root parent u = root parent a ∧ root parent v = root parent b) ∨
      (root parent u = root parent b ∧ root parent v = root parent a) := by
  rw [root_link_eq_iff hclimbs hy hb u v]
  have hroot := root_of_fixed hy
  rcases hm with ⟨hx,hy'⟩ | ⟨hx,hy'⟩
  · rw [hx,← hy',hroot]
    exact or_congr_right or_comm
  · rw [hx,← hy',hroot]

theorem Sim.move_linked (h : Sim a s) (hclimbs : Climbs (Below priority) s.parent) {pc : Pc n}
    {x y : Fin n} (hth : s.threads t = ⟨todo,.merge upd pc⟩) (hy : s.parent y = y)
    (hb : Below priority y x) (hm : Matches s.parent x y upd.src upd.dst) :
    Sim (a.preInsert upd)
      { s.goto t todo (.insert upd) with parent := Function.update s.parent y x } := by
  have hpc := congrArg Thread.pc hth
  have hvalid : s.dsuValid = true ∧ (¬ ∃ u, (s.threads u).pc.Failing) ↔ s.dsuValid = true ∧
      ¬ ∃ u, (Function.update s.threads t ⟨todo,.insert upd⟩ u).pc.Failing :=
    and_congr_right' (not_congr (exists_update_iff hpc (by simp [InsertPc.Failing])).symm)
  by_cases ha : a.dsuValid = true
  · have hne : a.query.dsu.rep upd.src ≠ a.query.dsu.rep upd.dst := fun he =>
      not_matches_of_below hclimbs hy hb hm ((h.classes ha _ _).mp he)
    obtain ⟨hv,hforest,hrep⟩ := CCSketchAlg.preInsert_bridge ha hne
    refine ⟨iff_of_true hv (hvalid.mp (h.valid.mp ha)),fun _ u v => ?_,fun _ u v => ?_⟩
    · rw [hforest,h.forest ha u v,State.Linked,or_assoc]
      exact or_congr_right (inserting_update hpc (by simp [InsertPc.Inserting]) u v).symm
    · rw [hrep]
      simp only [h.classes ha]
      exact (link_classes hclimbs hy hb hm u v).symm
  · have ha := Bool.eq_false_of_not_eq_true ha
    rw [CCSketchAlg.preInsert_invalid ha]
    refine ⟨h.valid.trans hvalid,fun hv => ?_,fun hv => ?_⟩
    · exact absurd (ha.symm.trans hv) Bool.false_ne_true
    · exact absurd (ha.symm.trans hv) Bool.false_ne_true

-- The lock on src keeps the edge of the update out of every other thread's hands.
theorem Inv.linked_iff (h : Inv priority s) (hth : s.threads t = ⟨todo,.find upd⟩) :
    s.Linked upd.src upd.dst ↔ upd.dst ∈ s.spanningForest upd.src := by
  refine ⟨fun hl => hl.elim id ?_,.inl⟩
  rintro ⟨u,upd',hi,hsrc,_⟩
  have ht : (s.threads t).pc.holds = some upd.src := congrArg (InsertPc.holds ∘ Thread.pc) hth
  have hu : (s.threads u).pc.holds = some upd.src := by
    rw [hi]
    exact congrArg some hsrc
  have htu := h.locks.exclusive ht hu
  subst htu
  rw [hth] at hi
  cases hi

theorem Sim.move_find (h : Sim a s) (hinv : Inv priority s)
    (hth : s.threads t = ⟨todo,.find upd⟩) {pc' : InsertPc n}
    (hfail : pc'.Failing ↔ upd.dst ∈ s.spanningForest upd.src)
    (hi : ∀ x y, ¬ pc'.Inserting x y) : Sim (a.preInsert upd) (s.goto t todo pc') := by
  have hpc := congrArg Thread.pc hth
  have hlinked (x y : Fin n) : (s.goto t todo pc').Linked x y ↔ s.Linked x y :=
    or_congr_right (exists_update_iff hpc (iff_of_false (hi x y) (by simp [InsertPc.Inserting])))
  have hothers : (∃ u, (Function.update s.threads t ⟨todo,pc'⟩ u).pc.Failing) ↔
      (∃ u, (s.threads u).pc.Failing) ∨ upd.dst ∈ s.spanningForest upd.src := by
    rw [exists_update,exists_thread hpc,hfail,or_comm]
    refine or_congr_left (or_iff_right ?_).symm
    simp [InsertPc.Failing]
  have hgood := hinv.pcs t
  rw [hth] at hgood
  by_cases ha : a.dsuValid = true
  · have he : a.query.dsu.rep upd.src = a.query.dsu.rep upd.dst := (h.classes ha _ _).mpr hgood
    obtain ⟨hv,hforest,hrep⟩ := CCSketchAlg.preInsert_inside ha he
    rw [h.forest ha,hinv.linked_iff hth] at hv
    obtain ⟨hs,hnf⟩ := h.valid.mp ha
    refine ⟨?_,fun _ x y => ?_,fun _ x y => ?_⟩
    · rw [hv]
      change _ ↔ s.dsuValid = true ∧ ¬ ∃ u, (Function.update s.threads t ⟨todo,pc'⟩ u).pc.Failing
      rw [hothers]
      exact ⟨fun hm => ⟨hs,fun hor => hor.elim hnf hm⟩,fun hm hmem => hm.2 (.inr hmem)⟩
    · rw [hforest,h.forest ha]
      exact (hlinked x y).symm
    · rw [hrep,hrep]
      exact h.classes ha x y
  · have ha := Bool.eq_false_of_not_eq_true ha
    rw [CCSketchAlg.preInsert_invalid ha]
    refine .invalid ha ?_
    by_contra hc
    rw [not_or] at hc
    refine Bool.false_ne_true (ha.symm.trans (h.valid.mpr ⟨?_,fun hf => hc.2 ?_⟩))
    · exact Bool.eq_true_of_not_eq_false hc.1
    · exact hothers.mpr (.inl hf)

theorem Sim.move_insert (h : Sim a s) (hth : s.threads t = ⟨todo,.insert upd⟩) :
    Sim a { s.goto t todo (.unlock upd) with
      spanningForest := Function.update s.spanningForest upd.src
        (insert upd.dst (s.spanningForest upd.src)) } := by
  have hpc := congrArg Thread.pc hth
  refine ⟨h.valid.trans (and_congr_right' (not_congr ?_)),fun hv x y => (h.forest hv x y).trans ?_,
    h.classes⟩
  · exact (exists_update_iff hpc (by simp [InsertPc.Failing])).symm
  · have hmem : y ∈ Function.update s.spanningForest upd.src
        (insert upd.dst (s.spanningForest upd.src)) x ↔
        y ∈ s.spanningForest x ∨ (upd.src = x ∧ upd.dst = y) := by
      by_cases hx : x = upd.src
      · subst hx
        simp [or_comm,eq_comm]
      · simp [hx,Ne.symm hx]
    change _ ↔ _ ∨ ∃ u, (Function.update s.threads t ⟨todo,.unlock upd⟩ u).pc.Inserting x y
    rw [hmem,State.Linked,exists_thread hpc,exists_update,or_assoc]
    refine or_congr_right ?_
    simp [InsertPc.Inserting]

theorem Sim.move_invalidate (h : Sim a s) (hth : s.threads t = ⟨todo,.invalidate upd⟩) :
    Sim a { s.goto t todo (.invalidateShared upd) with dsuValid := false } := by
  refine .invalid (Bool.eq_false_of_not_eq_true fun ha => (h.valid.mp ha).2 ⟨t,upd,?_⟩) (.inl rfl)
  rw [hth]

def replay (a : CCSketchAlg n w p) (us : List (Fin k × GraphUpdate n)) : CCSketchAlg n w p :=
  us.foldl (fun a u => a.preInsert u.2) a

theorem Sim.move (h : Sim a s) (hinv : Inv priority s) (hm : Move priority s t o s') :
    Sim (replay a o.toList) s' := by
  cases hm with
  | done | blocked => exact h
  | skip hth hv => exact h.move_skip hth hv
  | enter hth hv =>
    exact h.quiet (congrArg Thread.pc hth) (fun _ => rfl) (by simp [InsertPc.Failing])
      (by simp [InsertPc.Inserting])
  | lock hth hfree =>
    exact h.quiet (congrArg Thread.pc hth) (fun _ => rfl) (by simp [InsertPc.Failing])
      (by simp [InsertPc.Inserting])
  | search hth hstep =>
    cases hinv.merge_spec hth hstep with
    | next hq _ =>
      exact h.quiet (congrArg Thread.pc hth) (hq.root_eq hinv.climbs) (by simp [InsertPc.Failing])
        (by simp [InsertPc.Inserting])
  | linked hth hstep =>
    cases hinv.merge_spec hth hstep with
    | linked hc hy hb hm =>
      cases hc
      exact h.move_linked hinv.climbs hth hy hb hm
  | related hth hstep =>
    cases hinv.merge_spec hth hstep with
    | returned hq _ =>
      exact h.quiet (congrArg Thread.pc hth) (hq.root_eq hinv.climbs) (by simp [InsertPc.Failing])
        (by simp [InsertPc.Inserting])
  | insert hth => exact h.move_insert hth
  | hit hth hmem =>
    exact h.move_find hinv hth (by simp [InsertPc.Failing,hmem]) (by simp [InsertPc.Inserting])
  | miss hth hmem =>
    exact h.move_find hinv hth (by simp [InsertPc.Failing,hmem]) (by simp [InsertPc.Inserting])
  | invalidate hth => exact h.move_invalidate hth
  | invalidateShared hth =>
    exact h.quiet (congrArg Thread.pc hth) (fun _ => rfl) (by simp [InsertPc.Failing])
      (by simp [InsertPc.Inserting])
  | unlock hth =>
    exact h.quiet (congrArg Thread.pc hth) (fun _ => rfl) (by simp [InsertPc.Failing])
      (by simp [InsertPc.Inserting])

theorem Sim.run (h : Sim a s) (hinv : Inv priority s) (sched : List (Fin k × Bool)) :
    Sim (replay a (applied priority s sched)) (s.run priority sched) := by
  induction sched generalizing a s with
  | nil => exact h
  | cons l sched ih =>
    have hm := step_moves priority s l
    have hrest := ih (h.move hinv hm) (hinv.move hm)
    rw [applied,replay,List.foldl_append]
    exact hrest

end Simulation

section Completion

variable {priority : Fin n → ℕ} {s : State n k} {t : Fin k} {upd : GraphUpdate n}
  {todo : List (GraphUpdate n)}

def Parks (priority : Fin n → ℕ) (s : State n k) (t : Fin k) (todo : List (GraphUpdate n)) : Prop :=
  ∃ sched, (s.run priority sched).threads = Function.update s.threads t ⟨todo,.idle⟩

theorem Parks.step {pc : InsertPc n}
    (hstep : (s.step priority (t,false)).threads = Function.update s.threads t ⟨todo,pc⟩)
    (h : Parks priority (s.step priority (t,false)) t todo) : Parks priority s t todo := by
  obtain ⟨sched,hrun⟩ := h
  refine ⟨(t,false) :: sched,?_⟩
  rw [hstep,Function.update_idem] at hrun
  exact hrun

theorem threads_of_step {pc : InsertPc n}
    (hstep : (s.step priority (t,false)).threads = Function.update s.threads t ⟨todo,pc⟩) :
    (s.step priority (t,false)).threads t = ⟨todo,pc⟩ := by
  rw [hstep,Function.update_self]

theorem parks_unlock (hth : s.threads t = ⟨todo,.unlock upd⟩) : Parks priority s t todo :=
  ⟨[(t,false)],by simp [State.run,State.step,State.goto,hth]⟩

theorem parks_invalidateShared (hth : s.threads t = ⟨todo,.invalidateShared upd⟩) :
    Parks priority s t todo := by
  have hstep : (s.step priority (t,false)).threads =
      Function.update s.threads t ⟨todo,.unlock upd⟩ := by simp [State.step,State.goto,hth]
  exact .step hstep (parks_unlock (threads_of_step hstep))

theorem parks_invalidate (hth : s.threads t = ⟨todo,.invalidate upd⟩) :
    Parks priority s t todo := by
  have hstep : (s.step priority (t,false)).threads =
      Function.update s.threads t ⟨todo,.invalidateShared upd⟩ := by
    simp [State.step,State.goto,hth]
  exact .step hstep (parks_invalidateShared (threads_of_step hstep))

theorem parks_find (hth : s.threads t = ⟨todo,.find upd⟩) : Parks priority s t todo := by
  by_cases hmem : upd.dst ∈ s.spanningForest upd.src
  · have hstep : (s.step priority (t,false)).threads =
        Function.update s.threads t ⟨todo,.invalidate upd⟩ := by
      simp [State.step,State.goto,hth,hmem]
    exact .step hstep (parks_invalidate (threads_of_step hstep))
  · have hstep : (s.step priority (t,false)).threads =
        Function.update s.threads t ⟨todo,.unlock upd⟩ := by
      simp [State.step,State.goto,hth,hmem]
    exact .step hstep (parks_unlock (threads_of_step hstep))

theorem parks_insert (hth : s.threads t = ⟨todo,.insert upd⟩) : Parks priority s t todo := by
  have hstep : (s.step priority (t,false)).threads =
      Function.update s.threads t ⟨todo,.unlock upd⟩ := by simp [State.step,State.goto,hth]
  exact .step hstep (parks_unlock (threads_of_step hstep))

theorem parks_merge {parent : Fin n → Fin n} {pc : Pc n} (h : Finishes priority parent pc)
    (hp : s.parent = parent) (hth : s.threads t = ⟨todo,.merge upd pc⟩) :
    Parks priority s t todo := by
  induction h generalizing s with
  | @returned p p' pc m hpc =>
    subst hp
    cases m with
    | true =>
      have hstep : (s.step priority (t,false)).threads =
          Function.update s.threads t ⟨todo,.insert upd⟩ := by
        simp [State.step,State.goto,hth,hpc]
      exact .step hstep (parks_insert (threads_of_step hstep))
    | false =>
      have hstep : (s.step priority (t,false)).threads =
          Function.update s.threads t ⟨todo,.find upd⟩ := by
        simp [State.step,State.goto,hth,hpc]
      exact .step hstep (parks_find (threads_of_step hstep))
  | @next p p' pc pc' hpc _ ih =>
    subst hp
    have hstep : (s.step priority (t,false)).threads =
        Function.update s.threads t ⟨todo,.merge upd pc'⟩ := by
      simp [State.step,State.goto,hth,hpc]
    exact .step hstep (ih (by simp [State.step,hth,hpc]) (threads_of_step hstep))

theorem Inv.parks (h : Inv priority s) {pc : InsertPc n} {x : Fin n}
    (hth : s.threads t = ⟨todo,pc⟩) (hx : pc.holds = some x) : Parks priority s t todo := by
  cases pc with
  | idle => cases hx
  | lock upd => cases hx
  | merge upd pc =>
    have hgood := h.pcs t
    rw [hth] at hgood
    have hpc : PcInv priority s.parent (.merge upd.src upd.dst) pc := hgood
    exact parks_merge (Finishes.of_inv h.climbs hpc) rfl hth
  | insert upd => exact parks_insert hth
  | find upd => exact parks_find hth
  | invalidate upd => exact parks_invalidate hth
  | invalidateShared upd => exact parks_invalidateShared hth
  | unlock upd => exact parks_unlock hth

def Thread.weight (th : Thread n) : ℕ := 2 * th.todo.length + if th.pc = .idle then 0 else 1

theorem weight_parked {pc : InsertPc n} (h : pc ≠ .idle) :
    Thread.weight ⟨todo,.idle⟩ < Thread.weight ⟨todo,pc⟩ := by
  simp [Thread.weight,h]

theorem Inv.progress (h : Inv priority s) (hth : s.threads t ≠ ⟨[],.idle⟩) :
    ∃ sched u th, (s.run priority sched).threads = Function.update s.threads u th ∧
      th.weight < (s.threads u).weight := by
  have hpark {u : Fin k} {x : Fin n} (hu : (s.threads u).pc.holds = some x) :
      ∃ sched u th, (s.run priority sched).threads = Function.update s.threads u th ∧
        th.weight < (s.threads u).weight := by
    obtain ⟨sched,hrun⟩ := h.parks (t := u) rfl hu
    exact ⟨sched,u,_,hrun,weight_parked fun hi => by
      rw [hi] at hu
      cases hu⟩
  rcases hpc : s.threads t with ⟨todo,pc⟩
  cases pc with
  | idle =>
    cases todo with
    | nil => exact absurd hpc hth
    | cons upd todo =>
      refine ⟨[(t,false)],t,⟨todo,if s.dsuValid then .lock upd else .idle⟩,?_,?_⟩
      · simp [State.run,State.step,State.goto,hpc]
      · rw [hpc]
        have hle (pc : InsertPc n) : (if pc = .idle then 0 else 1) ≤ 1 := by split <;> omega
        have := hle (if s.dsuValid then .lock upd else .idle)
        simp only [Thread.weight,List.length_cons,if_true]
        omega
  | lock upd =>
    rcases hm : s.spanningForestMtx upd.src with _ | u
    · have hstep : (s.step priority (t,false)).threads =
          Function.update s.threads t ⟨todo,.merge upd (Call.merge upd.src upd.dst).start⟩ := by
        simp [State.step,State.goto,hpc,hm]
      have hinv : Inv priority (s.step priority (t,false)) := h.move (step_moves priority s (t,false))
      obtain ⟨sched,hrun⟩ := Parks.step hstep (hinv.parks (threads_of_step hstep) rfl)
      refine ⟨sched,t,_,hrun,?_⟩
      rw [hpc]
      exact weight_parked (by simp)
    · exact hpark ((h.locks upd.src u).mp hm)
  | merge upd pc => exact hpark (congrArg (InsertPc.holds ∘ Thread.pc) hpc)
  | insert upd => exact hpark (congrArg (InsertPc.holds ∘ Thread.pc) hpc)
  | find upd => exact hpark (congrArg (InsertPc.holds ∘ Thread.pc) hpc)
  | invalidate upd => exact hpark (congrArg (InsertPc.holds ∘ Thread.pc) hpc)
  | invalidateShared upd => exact hpark (congrArg (InsertPc.holds ∘ Thread.pc) hpc)
  | unlock upd => exact hpark (congrArg (InsertPc.holds ∘ Thread.pc) hpc)

theorem Inv.completes (h : Inv priority s) : ∃ sched, (s.run priority sched).Finished := by
  induction hw : ∑ t, (s.threads t).weight using Nat.strong_induction_on generalizing s with
  | _ m ih =>
    by_cases hdone : s.Finished
    · exact ⟨[],hdone⟩
    · obtain ⟨t,ht⟩ := not_forall.mp hdone
      obtain ⟨sched,u,th,hrun,hlt⟩ := h.progress ht
      have hsum := Trace.sum_changed_at (i := u) (fun t => (s.threads t).weight)
        (fun t => ((s.run priority sched).threads t).weight) fun t htu => by
          rw [hrun,Function.update_of_ne htu]
      simp only [hrun,Function.update_self] at hsum
      obtain ⟨more,hend⟩ := ih (∑ t, ((s.run priority sched).threads t).weight)
        (by simp only [hrun]; omega) (h.run sched) rfl
      refine ⟨sched ++ more,?_⟩
      rw [State.run,List.foldl_append]
      exact hend

end Completion

theorem Sim.finished {a : CCSketchAlg n w p} {s : State n k} (h : Sim a s) (hf : s.Finished) :
    s.dsuValid = a.dsuValid ∧ (a.dsuValid = true → s.spanningForest = a.query.spanningForest) := by
  have hidle (f : InsertPc n → Prop) (hi : ¬ f .idle) : ¬ ∃ t, f (s.threads t).pc := by
    rintro ⟨t,ht⟩
    rw [hf t] at ht
    exact hi ht
  refine ⟨Bool.eq_iff_iff.mpr ?_,fun hv => ?_⟩
  · rw [h.valid,and_iff_left (hidle InsertPc.Failing (by simp [InsertPc.Failing]))]
  · funext x
    ext y
    rw [h.forest hv x y,State.Linked,
      or_iff_left (hidle (InsertPc.Inserting x y) (by simp [InsertPc.Inserting]))]

theorem Inv.finished {priority : Fin n → ℕ} {s : State n k} (h : Inv priority s)
    (hf : s.Finished) : s.sharedDsuValid = s.dsuValid := by
  cases hv : s.dsuValid with
  | true =>
    refine Bool.eq_true_of_not_eq_false fun hs => ?_
    exact Bool.false_ne_true ((h.shared hs).symm.trans hv)
  | false =>
    refine (h.closed hv).resolve_right ?_
    rintro ⟨t,upd,ht⟩
    rw [hf t] at ht
    cases ht

theorem pre_inserts_linearizable {a : CCSketchAlg n w p} (ha : a.sharedDsuValid = a.dsuValid)
    (programs : Fin k → List (GraphUpdate n)) (sched : List (Fin k × Bool)) :
    let priority := a.query.dsu.priority
    let s := (State.start a programs).run priority sched
    let us := applied priority (State.start a programs) sched
    (∀ t, ownUpdates t us ++ (s.threads t).remaining = programs t) ∧
    (∀ t u x, (s.threads t).pc.holds = some x → (s.threads u).pc.holds = some x → t = u) ∧
    (∃ more, (s.run priority more).Finished) ∧
    (s.Finished → s.dsuValid = (replay a us).dsuValid ∧ s.sharedDsuValid = s.dsuValid ∧
      Climbs (Below priority) s.parent ∧
      (s.dsuValid = true → s.spanningForest = (replay a us).query.spanningForest ∧
        ∀ x y, root s.parent x = root s.parent y ↔
          (replay a us).query.dsu.rep x = (replay a us).query.dsu.rep y)) := by
  have hstart := inv_start ha programs
  have hinv := hstart.run sched
  have hsim := (sim_start a programs).run hstart sched
  refine ⟨remaining_run _ sched,fun t u x => hinv.locks.exclusive,hinv.completes,fun hf => ?_⟩
  obtain ⟨hv,hforest⟩ := hsim.finished hf
  refine ⟨hv,hinv.finished hf,hinv.climbs,fun hs => ?_⟩
  have hs' := hv.symm.trans hs
  exact ⟨hforest hs',fun x y => (hsim.classes hs' x y).symm⟩

section Pair
open Boruvka

def pairUpdate (type : UpdateType) : GraphUpdate 2 :=
  ⟨⟨⟨0,Nat.zero_lt_two⟩,⟨1,Nat.one_lt_two⟩⟩,type⟩

def pairPrograms (t : Fin 2) : List (GraphUpdate 2) :=
  if t.val = 0 then [pairUpdate .insert] else [pairUpdate .delete]

def pairSchedule : List (Fin 2 × Bool) :=
  List.replicate 3 (⟨1,Nat.one_lt_two⟩,false) ++ List.replicate 20 (⟨0,Nat.zero_lt_two⟩,false) ++
    List.replicate 20 (⟨1,Nat.one_lt_two⟩,false) ++ List.replicate 20 (⟨0,Nat.zero_lt_two⟩,false)

def pairAlg : CCSketchAlg 2 1 pairParams := .new 1 pairParams fun _ => 0

def pairEnd : State 2 2 :=
  (State.start pairAlg pairPrograms).run pairAlg.query.dsu.priority pairSchedule

theorem pairEnd_finished : pairEnd.Finished := by decide

theorem pairEnd_invalid : pairEnd.dsuValid = false := by decide

theorem pre_inserts_linearizable_pair :
    pairEnd.Finished ∧ pairEnd.dsuValid = false ∧
      (replay pairAlg (applied pairAlg.query.dsu.priority (State.start pairAlg pairPrograms)
        pairSchedule)).dsuValid = false := by
  have hall := pre_inserts_linearizable (a := pairAlg) rfl pairPrograms pairSchedule
  refine ⟨pairEnd_finished,pairEnd_invalid,?_⟩
  exact (hall.2.2.2 pairEnd_finished).1.symm.trans pairEnd_invalid

end Pair

end StreamThreads
end GraphZeppelin.CC
