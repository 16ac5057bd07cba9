import GraphZeppelin.Worker.Pause

namespace GraphZeppelin.Worker

variable {N : ℕ}

def UpdateBatch.live (b : UpdateBatch) : Bool := b.updVec ≠ []

def WorkerPc.remaining : WorkerPc → List UpdateBatch
  | .batches rest => rest
  | _ => []

-- past a get_data that returned false and before the flag is set
def WorkerPc.foundEmpty : WorkerPc → Bool
  | .testShutdown | .testPause | .lock | .setPaused => true
  | _ => false

def WorkerThread.Drained (w : WorkerThread) : Prop := w.pc.foundEmpty = true ∨ w.paused = true

instance (w : WorkerThread) : Decidable w.Drained := inferInstanceAs (Decidable (_ ∨ _))

-- from the first statement of flush_workers to the next call of resume_workers
def GroupPc.flushing : GroupPc → Bool
  | .setNonBlock | .pause _ | .flushLock | .waitCheck _ _ | .waiting | .wakeLock _ | .recheck _
  | .flushUnlock _ | .flushed => true
  | _ => false

def GroupPc.awaiting : GroupPc → Bool
  | .flushLock | .waitCheck _ _ | .waiting | .wakeLock _ | .recheck _ | .flushUnlock _
  | .flushed => true
  | _ => false

namespace WorkerThreadGroup

variable {g g' : WorkerThreadGroup N} {i : Fin N} {l : Label N}

theorem awaiting_flushing {pc : GroupPc} (h : pc.awaiting = true) : pc.flushing = true := by
  cases pc with
  | started | running | setNonBlock | pause | unpauseDoPause | unpausePaused | clearNonBlock
  | notifyAll => cases h
  | _ => rfl

def DrainsQueue (g : WorkerThreadGroup N) (l : Label N) : Prop :=
  l = .group → g.pc = .pause N → g.queue = [] ∨ ∃ i, ¬ (g.workers i).Drained

instance (g : WorkerThreadGroup N) (l : Label N) : Decidable (g.DrainsQueue l) :=
  inferInstanceAs (Decidable (_ → _))

def EnqueuesOutside (g : WorkerThreadGroup N) : Label N → Prop
  | .enqueue _ => g.pc.flushing = false
  | _ => True

instance (g : WorkerThreadGroup N) (l : Label N) : Decidable (g.EnqueuesOutside l) :=
  match l with
  | .enqueue _ => inferInstanceAs (Decidable (_ = _))
  | .worker _ _ | .wake _ | .group | .wakeGroup _ | .resumeWorkers | .flushWorkers =>
    inferInstanceAs (Decidable True)

def liveTaken (g : WorkerThreadGroup N) : List UpdateBatch := g.taken.flatten.filter (·.live)

structure Settled (g : WorkerThreadGroup N) : Prop where
  queue : g.queue = []
  called : (g.called.map Prod.snd).Perm g.liveTaken
  quiet : ∀ ls g', .resumeWorkers ∉ ls → g.run ls = some g' → g'.called = g.called

def inProgress (g : WorkerThreadGroup N) (b : UpdateBatch) : ℕ :=
  ∑ i, ((g.workers i).pc.remaining.filter (·.live)).count b

def Accounted (g : WorkerThreadGroup N) : Prop :=
  ∀ b, g.liveTaken.count b = (g.called.map Prod.snd).count b + g.inProgress b

inductive Delivers (g g' : WorkerThreadGroup N) (i : Fin N) : Prop
  | take (node : DataNode) : (g.workers i).pc = .getData → (g'.workers i).pc = .batches node →
      g'.taken = g.taken ++ [node] → g'.called = g.called → g'.queue.length < g.queue.length →
      Delivers g g' i
  | callback (b : UpdateBatch) (rest : List UpdateBatch) :
      (g.workers i).pc = .batches (b :: rest) → (g'.workers i).pc = .batches rest →
      g'.taken = g.taken → g'.called = g.called ++ (if b.live then [(i,b)] else []) →
      g'.queue = g.queue → Delivers g g' i
  | idle : (g.workers i).pc.remaining = [] → (g'.workers i).pc.remaining = [] →
      g'.taken = g.taken → g'.called = g.called → g'.queue = g.queue →
      ((g.workers i).pc = .getData → g.queue = []) → Delivers g g' i

theorem getData_delivers {choice : ℕ} (hpc : (g.workers i).pc = .getData)
    (h : g.getData i choice = some g') : Delivers g g' i := by
  rw [getData] at h
  split at h
  · next node hnode =>
    cases h
    obtain ⟨hlt,_⟩ := List.getElem?_eq_some_iff.mp hnode
    refine .take node hpc (by simp [WorkerThread.goto]) rfl rfl ?_
    change (g.queue.eraseIdx choice).length < g.queue.length
    rw [List.length_eraseIdx_of_lt hlt]
    omega
  · split at h
    · next hq =>
      cases h
      exact .idle (by rw [hpc]; rfl) (by simp [WorkerThread.goto,WorkerPc.remaining]) rfl rfl rfl
        fun _ => hq.1
    · cases h

structure SameData (g g' : WorkerThreadGroup N) : Prop where
  taken : g'.taken = g.taken
  called : g'.called = g.called
  queue : g'.queue = g.queue

theorem doWork_data {choice : ℕ} (hget : (g.workers i).pc ≠ .getData)
    (hbatches : ∀ rest, (g.workers i).pc ≠ .batches rest) (h : g.doWork i choice = some g') :
    SameData g g' := by
  cases hpc : (g.workers i).pc with
  | getData => exact absurd hpc hget
  | batches rest => exact absurd hpc (hbatches rest)
  | waiting | returned => simp [doWork,hpc] at h
  | lock | wakeLock =>
    simp only [doWork,hpc] at h
    rw [acquire_eq h]
    exact ⟨rfl,rfl,rfl⟩
  | waitTestShutdown =>
    simp only [doWork,hpc,Option.some.injEq] at h
    subst h
    split
    · exact ⟨rfl,rfl,rfl⟩
    · exact ⟨rfl,rfl,rfl⟩
  | testShutdown | testPause | setPaused | notifyPaused | waitTestPause | clearPaused | unlock
  | notifyUnpaused =>
    simp only [doWork,hpc,Option.some.injEq] at h
    subst h
    exact ⟨rfl,rfl,rfl⟩

theorem remaining_move {w w' : WorkerThread} (hm : w.Move w') (hget : w.pc ≠ .getData)
    (hbatches : ∀ rest, w.pc ≠ .batches rest) :
    w.pc.remaining = [] ∧ w'.pc.remaining = [] := by
  have hrest (pc : WorkerPc) (h : ∀ rest, pc ≠ .batches rest) : pc.remaining = [] := by
    cases pc with
    | batches rest => exact absurd rfl (h rest)
    | _ => rfl
  refine ⟨hrest w.pc hbatches,hrest w'.pc fun rest hpc => ?_⟩
  cases hm with
  | taken _ h | invalid h => exact hget h
  | callback b rest h => exact hbatches _ h
  | testShutdown | testPause | waitTestPause | waitTestShutdown =>
    simp only [WorkerThread.goto] at hpc
    split at hpc <;> cases hpc
  | _ => cases hpc

theorem doWork_delivers {choice : ℕ} (h : g.doWork i choice = some g') : Delivers g g' i := by
  by_cases hget : (g.workers i).pc = .getData
  · rw [doWork,hget] at h
    exact getData_delivers hget h
  by_cases hbatches : ∃ rest, (g.workers i).pc = .batches rest
  · obtain ⟨rest,hpc⟩ := hbatches
    cases rest with
    | nil =>
      simp only [doWork,hpc,Option.some.injEq] at h
      subst h
      exact .idle (by rw [hpc]; rfl) (by simp [WorkerThread.goto,WorkerPc.remaining]) rfl rfl rfl
        fun hg => absurd hg hget
    | cons b rest =>
      simp only [doWork,hpc,Option.some.injEq] at h
      subst h
      by_cases hb : b.updVec = []
      · rw [if_pos hb]
        exact .callback b rest hpc (by simp [WorkerThread.goto]) rfl
          (by simp [UpdateBatch.live,hb,goto,setWorker]) rfl
      · rw [if_neg hb]
        refine .callback b rest hpc (by simp [batchCallback,WorkerThread.goto]) rfl ?_ rfl
        simp [UpdateBatch.live,hb,batchCallback,goto,setWorker]
  · have hother (rest : List UpdateBatch) : (g.workers i).pc ≠ .batches rest := fun hpc =>
      hbatches ⟨rest,hpc⟩
    obtain ⟨hw,hw'⟩ := remaining_move (doWork_local h).move hget hother
    have hd := doWork_data hget hother h
    exact .idle hw hw' hd.taken hd.called hd.queue fun hg => absurd hg hget

theorem remaining_notified (pc : WorkerPc) : pc.notified.remaining = pc.remaining := by
  cases pc <;> rfl

theorem Local.inProgress (hl : Local g g' i) (b : UpdateBatch) :
    g'.inProgress b + ((g.workers i).pc.remaining.filter (·.live)).count b =
      g.inProgress b + ((g'.workers i).pc.remaining.filter (·.live)).count b := by
  refine Trace.sum_changed_at (fun j => ((g.workers j).pc.remaining.filter (·.live)).count b)
    (fun j => ((g'.workers j).pc.remaining.filter (·.live)).count b) fun j hj => ?_
  rcases hl.others j hj with hw | hw
  · rw [hw]
  · rw [hw,WorkerThread.notified,WorkerThread.goto,remaining_notified]

theorem Accounted.doWork {choice : ℕ} (h : g.Accounted) (hstep : g.doWork i choice = some g') :
    g'.Accounted := by
  intro b
  have hsum := (doWork_local hstep).inProgress b
  have hb := h b
  rw [liveTaken] at hb ⊢
  cases doWork_delivers hstep with
  | take node hpc hpc' htaken hcalled _ =>
    rw [hpc,hpc'] at hsum
    rw [htaken,hcalled,List.flatten_append,List.filter_append,List.count_append]
    simp only [WorkerPc.remaining,List.filter_nil,List.count_nil,List.flatten_singleton] at hsum ⊢
    omega
  | callback c rest hpc hpc' htaken hcalled _ =>
    rw [hpc,hpc'] at hsum
    rw [htaken,hcalled,List.map_append,List.count_append]
    simp only [WorkerPc.remaining,List.filter_cons] at hsum
    by_cases hc : c.live
    · rw [if_pos hc,List.count_cons] at hsum
      simp only [if_pos hc,List.map_singleton,List.count_singleton]
      omega
    · rw [if_neg hc] at hsum
      rw [if_neg hc,List.map_nil,List.count_nil]
      omega
  | idle hw hw' htaken hcalled _ _ =>
    rw [hw,hw'] at hsum
    rw [htaken,hcalled]
    omega

theorem Touches.remaining {workers : Fin N → WorkerThread} (h : Touches g l workers) (j : Fin N) :
    (workers j).pc.remaining = (g.workers j).pc.remaining := by
  have hset {i : Fin N} {w : WorkerThread} (hw : workers = (g.setWorker i w).workers)
      (hpc : w.pc.remaining = (g.workers i).pc.remaining) :
      (workers j).pc.remaining = (g.workers j).pc.remaining := by
    rw [hw]
    by_cases hj : j = i
    · subst hj
      rw [setWorker_self,hpc]
    · rw [setWorker_other g w hj]
  cases h with
  | none hw => rw [hw]
  | notify hw => exact hw ▸ remaining_notified _
  | wake i hw => exact hset hw (remaining_notified _)
  | pause i _ _ hw | unpause i _ hw | clear i _ hw => exact hset hw rfl

theorem groupStep_data (h : g.groupStep = some g') : SameData g g' := by
  cases hpc : g.pc with
  | started | running | waiting | flushed => simp [groupStep,hpc] at h
  | setNonBlock | clearNonBlock | flushUnlock | notifyAll =>
    simp only [groupStep,hpc,Option.some.injEq] at h
    subst h
    exact ⟨rfl,rfl,rfl⟩
  | flushLock | wakeLock =>
    simp only [groupStep,hpc] at h
    rw [acquire_eq h]
    exact ⟨rfl,rfl,rfl⟩
  | waitCheck | recheck =>
    simp only [groupStep,hpc] at h
    split_ifs at h <;> cases h <;> exact ⟨rfl,rfl,rfl⟩
  | pause | unpauseDoPause =>
    simp only [groupStep,hpc] at h
    split at h <;> cases h <;> exact ⟨rfl,rfl,rfl⟩
  | unpausePaused =>
    simp only [groupStep,hpc] at h
    split at h
    · cases h
      exact ⟨rfl,rfl,rfl⟩
    · cases h

theorem step_delivers (h : g.step l = some g') :
    (∃ i choice, l = .worker i choice ∧ g.doWork i choice = some g') ∨
      g'.taken = g.taken ∧ g'.called = g.called := by
  cases l with
  | worker i choice => exact .inl ⟨i,choice,rfl,h⟩
  | group =>
    have hd := groupStep_data h
    exact .inr ⟨hd.taken,hd.called⟩
  | wake | wakeGroup | resumeWorkers | flushWorkers =>
    simp only [step] at h
    split at h
    · cases h
      exact .inr ⟨rfl,rfl⟩
    · cases h
  | enqueue node =>
    cases h
    exact .inr ⟨rfl,rfl⟩

theorem Accounted.new : (new N).Accounted := fun b => by
  simp [liveTaken,WorkerThreadGroup.new,inProgress,WorkerThread.new,WorkerPc.remaining]

theorem Accounted.step (h : g.Accounted) (hstep : g.step l = some g') : g'.Accounted := by
  rcases step_delivers hstep with ⟨i,choice,rfl,hwork⟩ | ⟨htaken,hcalled⟩
  · exact h.doWork hwork
  · rcases step_touches hstep with ⟨i,choice,rfl,_⟩ | ht
    · exact h.doWork hstep
    · intro b
      have hsum : g'.inProgress b = g.inProgress b :=
        Finset.sum_congr rfl fun j _ => by rw [ht.remaining j]
      rw [liveTaken,htaken,hcalled,hsum]
      exact h b

theorem drained_notified {w : WorkerThread} : w.notified.Drained ↔ w.Drained := by
  have hpc : w.pc.notified.foundEmpty = w.pc.foundEmpty := by cases w.pc <;> rfl
  rw [WorkerThread.Drained,WorkerThread.notified,WorkerThread.goto,hpc]
  rfl

theorem not_drained_move {w w' : WorkerThread} (hm : w.Move w') (h : ¬ w.Drained)
    (hget : w.pc ≠ .getData ∨ ∃ node, w'.pc = .batches node) : ¬ w'.Drained := by
  obtain ⟨hpc,hp⟩ := not_or.mp h
  rw [WorkerThread.Drained,not_or]
  cases hm with
  | invalid hg => simp [hg,WorkerThread.goto] at hget
  | testShutdown hg | testPause hg | lock hg | setPaused hg =>
    rw [hg] at hpc
    exact absurd rfl hpc
  | waitTestPause | waitTestShutdown =>
    refine ⟨?_,hp⟩
    simp only [WorkerThread.goto]
    split <;> exact Bool.false_ne_true
  | clearPaused => exact ⟨Bool.false_ne_true,Bool.false_ne_true⟩
  | taken | callback | getDataCallback | notifyPaused | wakeLock | unlock | notifyUnpaused =>
    exact ⟨Bool.false_ne_true,hp⟩

def Open (g : WorkerThreadGroup N) : Prop := g.queue = [] ∨ ∃ i, ¬ (g.workers i).Drained

theorem Open.doWork {choice : ℕ} (h : g.Open) (hstep : g.doWork i choice = some g') : g'.Open := by
  have hlocal := doWork_local hstep
  have hdel := doWork_delivers hstep
  rcases h with hq | ⟨j,hj⟩
  · cases hdel with
    | take _ _ _ _ _ hlt => simp [hq] at hlt
    | callback _ _ _ _ _ _ hq' | idle _ _ _ _ hq' _ => exact .inl (hq'.trans hq)
  · by_cases hji : j = i
    · subst hji
      cases hdel with
      | take node hpc hpc' _ _ _ => exact .inr ⟨j,not_drained_move hlocal.move hj (.inr ⟨node,hpc'⟩)⟩
      | callback b rest hpc hpc' _ _ _ =>
        exact .inr ⟨j,not_drained_move hlocal.move hj (.inr ⟨rest,hpc'⟩)⟩
      | idle _ _ _ _ hq' hempty =>
        by_cases hget : (g.workers j).pc = .getData
        · exact .inl (hq'.trans (hempty hget))
        · exact .inr ⟨j,not_drained_move hlocal.move hj (.inl hget)⟩
    · refine .inr ⟨j,?_⟩
      rcases hlocal.others j hji with hw | hw
      · rwa [hw]
      · rwa [hw,drained_notified]

theorem Open.wake (h : g.Open) (hq : g'.queue = g.queue)
    (hw : ∀ j, g'.workers j = g.workers j ∨ g'.workers j = (g.workers j).notified) : g'.Open := by
  rcases h with hempty | ⟨j,hj⟩
  · exact .inl (hq.trans hempty)
  · refine .inr ⟨j,?_⟩
    rcases hw j with hw | hw
    · rwa [hw]
    · rwa [hw,drained_notified]

structure Barrier (g : WorkerThreadGroup N) : Prop where
  inv : g.Inv
  bound : ∀ k, g.pc = .pause k → k ≤ N
  draining : g.pc.awaiting = true → g.Open
  accounted : g.Accounted

theorem Barrier.new : (new N).Barrier :=
  ⟨.new,(fun _ hk => by cases hk),(fun h => by cases h),.new⟩

theorem groupStep_awaiting (h : g.groupStep = some g') (hw : g'.pc.awaiting = true) :
    g'.workers = g.workers ∧ (g.pc.awaiting = true ∨ ∃ k, g.pc = .pause k ∧ N ≤ k) := by
  cases hpc : g.pc with
  | started | running | waiting | flushed => simp [groupStep,hpc] at h
  | setNonBlock | clearNonBlock | notifyAll =>
    simp only [groupStep,hpc,Option.some.injEq] at h
    subst h
    cases hw
  | flushUnlock =>
    simp only [groupStep,hpc,Option.some.injEq] at h
    subst h
    exact ⟨rfl,.inl rfl⟩
  | flushLock | wakeLock =>
    simp only [groupStep,hpc] at h
    rw [acquire_eq h]
    exact ⟨rfl,.inl rfl⟩
  | waitCheck | recheck =>
    simp only [groupStep,hpc] at h
    split_ifs at h <;> cases h <;> exact ⟨rfl,.inl rfl⟩
  | pause k =>
    simp only [groupStep,hpc] at h
    split at h
    · cases h
      cases hw
    · next hk =>
      cases h
      exact ⟨rfl,.inr ⟨k,rfl,by omega⟩⟩
  | unpauseDoPause | unpausePaused =>
    simp only [groupStep,hpc] at h
    split at h <;> cases h <;> cases hw

theorem groupStep_bound (h : g.groupStep = some g') {k : ℕ} (hk : g'.pc = .pause k) : k ≤ N := by
  cases hpc : g.pc with
  | started | running | waiting | flushed => simp [groupStep,hpc] at h
  | setNonBlock =>
    simp only [groupStep,hpc,Option.some.injEq] at h
    subst h
    cases hk
    omega
  | clearNonBlock | notifyAll =>
    simp only [groupStep,hpc,Option.some.injEq] at h
    subst h
    cases hk
  | flushUnlock allPaused =>
    simp only [groupStep,hpc,Option.some.injEq] at h
    subst h
    cases allPaused <;> cases hk
  | flushLock | wakeLock =>
    simp only [groupStep,hpc] at h
    rw [acquire_eq h] at hk
    cases hk
  | waitCheck | recheck =>
    simp only [groupStep,hpc] at h
    split_ifs at h <;> cases h <;> cases hk
  | pause k' =>
    simp only [groupStep,hpc] at h
    split at h
    · next hlt =>
      cases h
      cases hk
      omega
    · cases h
      cases hk
  | unpauseDoPause | unpausePaused =>
    simp only [groupStep,hpc] at h
    split at h <;> cases h <;> cases hk

theorem awaiting_notified (pc : GroupPc) : pc.notified.awaiting = pc.awaiting := by
  cases pc <;> rfl

theorem pause_of_notified {pc : GroupPc} {k : ℕ} (h : pc.notified = .pause k) : pc = .pause k := by
  cases pc with
  | waiting => cases h
  | _ => exact h

theorem Barrier.doWork {choice : ℕ} (h : g.Barrier) (hstep : g.doWork i choice = some g') :
    g'.Barrier := by
  have hlocal := doWork_local hstep
  refine ⟨h.inv.local hlocal,fun k hk => ?_,fun hw => ?_,h.accounted.doWork hstep⟩
  · rcases hlocal.pc with hpc | hpc
    · exact h.bound k (hpc ▸ hk)
    · exact h.bound k (pause_of_notified (hpc ▸ hk))
  · refine (h.draining ?_).doWork hstep
    rcases hlocal.pc with hpc | hpc
    · rwa [hpc] at hw
    · rwa [hpc,awaiting_notified] at hw

theorem Barrier.groupStep (h : g.Barrier) (hl : g.DrainsQueue .group)
    (hstep : g.groupStep = some g') : g'.Barrier := by
  refine ⟨h.inv.groupStep hstep,fun k hk => groupStep_bound hstep hk,fun hw => ?_,
    h.accounted.step (l := .group) hstep⟩
  have hq := (groupStep_data hstep).queue
  obtain ⟨hworkers,hpc | ⟨k,hpc,hk⟩⟩ := groupStep_awaiting hstep hw
  · exact (h.draining hpc).wake hq fun j => .inl (by rw [hworkers])
  · have hN : k = N := le_antisymm (h.bound k hpc) hk
    exact Open.wake (hl rfl (hN ▸ hpc)) hq fun j => .inl (by rw [hworkers])

theorem Barrier.step (h : g.Barrier) (hl : g.DrainsQueue l ∧ g.EnqueuesOutside l)
    (hstep : g.step l = some g') : g'.Barrier := by
  have hacc := h.accounted.step hstep
  have hinv := h.inv.step hstep
  cases l with
  | worker i choice => exact h.doWork hstep
  | group => exact h.groupStep hl.1 hstep
  | wake i =>
    simp only [WorkerThreadGroup.step] at hstep
    split at hstep
    · next hpc =>
      cases hstep
      refine ⟨hinv,h.bound,fun hw => (h.draining hw).wake rfl fun j => ?_,hacc⟩
      rw [goto_wakeLock hpc]
      by_cases hj : j = i
      · subst hj
        exact .inr (setWorker_self ..)
      · exact .inl (setWorker_other g _ hj)
    · cases hstep
  | wakeGroup timedOut =>
    simp only [WorkerThreadGroup.step] at hstep
    split at hstep
    · next hpc =>
      cases hstep
      exact ⟨hinv,(fun _ hk => by cases hk),
        fun _ => (h.draining (by rw [hpc]; rfl)).wake rfl fun _ => .inl rfl,hacc⟩
    · cases hstep
  | enqueue node =>
    cases hstep
    refine ⟨hinv,h.bound,fun hw => ?_,hacc⟩
    have hf := awaiting_flushing hw
    rw [show g.pc.flushing = false from hl.2] at hf
    cases hf
  | resumeWorkers | flushWorkers =>
    simp only [WorkerThreadGroup.step] at hstep
    split at hstep
    · cases hstep
      exact ⟨hinv,(fun _ hk => by cases hk),(fun hw => by cases hw),hacc⟩
    · cases hstep

-- while flush_workers has returned every worker is parked with its flag set
theorem Inv.flushed (h : g.Inv) (hpc : g.pc = .flushed) (i : Fin N) :
    (g.workers i).pc.parked = true ∧ (g.workers i).paused = true := by
  have hs := h.stage i
  rw [hpc] at hs
  exact ⟨(h.sound i).parked hs.1 hs.2,hs.2⟩

theorem remaining_parked {pc : WorkerPc} (h : pc.parked = true) : pc.remaining = [] := by
  cases pc with
  | batches => cases h
  | _ => rfl

theorem flushed_step (h : g.Inv) (hpc : g.pc = .flushed) (hl : l ≠ .resumeWorkers)
    (hstep : g.step l = some g') : g'.pc = .flushed ∧ g'.called = g.called := by
  cases l with
  | worker i choice =>
    obtain ⟨hparked,_⟩ := h.flushed hpc i
    have hpc' : g'.pc = .flushed := by
      rcases (doWork_local hstep).pc with he | he
      · rw [he,hpc]
      · rw [he,hpc]
        rfl
    refine ⟨hpc',?_⟩
    cases doWork_delivers hstep with
    | take _ _ _ _ hcalled _ => exact hcalled
    | idle _ _ _ hcalled _ _ => exact hcalled
    | callback b rest hb _ _ _ _ =>
      rw [hb] at hparked
      cases hparked
  | resumeWorkers => exact absurd rfl hl
  | group => simp [WorkerThreadGroup.step,groupStep,hpc] at hstep
  | wake i =>
    simp only [WorkerThreadGroup.step] at hstep
    split at hstep
    · cases hstep
      exact ⟨hpc,rfl⟩
    · cases hstep
  | enqueue node =>
    cases hstep
    exact ⟨hpc,rfl⟩
  | wakeGroup | flushWorkers => simp [WorkerThreadGroup.step,hpc] at hstep

theorem flushed_quiet {ls : List (Label N)} (h : g.Inv) (hpc : g.pc = .flushed)
    (hls : .resumeWorkers ∉ ls) (hrun : g.run ls = some g') : g'.called = g.called := by
  induction ls generalizing g with
  | nil =>
    cases hrun
    rfl
  | cons l ls ih =>
    obtain ⟨g₁,hg₁,hrun⟩ := Trace.run_cons.mp hrun
    obtain ⟨hl,hls⟩ := List.ne_and_not_mem_of_not_mem_cons hls
    obtain ⟨hpc',hcalled⟩ := flushed_step h hpc (Ne.symm hl) hg₁
    rw [ih (h.step hg₁) hpc' hls hrun,hcalled]

theorem flush_workers_barrier {ls : List (Label N)} (hls : Trace.Along step DrainsQueue (new N) ls)
    (hout : Trace.Along step EnqueuesOutside (new N) ls) (hrun : (new N).run ls = some g)
    (hpc : g.pc = .flushed) : g.Settled := by
  have h : g.Barrier := Trace.run_inv Barrier.step .new (hls.and hout) hrun
  refine ⟨?_,?_,fun ls' g' hls' hrun' => flushed_quiet h.inv hpc hls' hrun'⟩
  · rcases h.draining (by rw [hpc]; rfl) with hq | ⟨i,hi⟩
    · exact hq
    · exact absurd (.inr (h.inv.flushed hpc i).2) hi
  · refine List.perm_iff_count.mpr fun b => ?_
    have hdone : g.inProgress b = 0 := Finset.sum_eq_zero fun i _ => by
      rw [remaining_parked (h.inv.flushed hpc i).1]
      rfl
    rw [h.accounted b,hdone,Nat.add_zero]

def drainedFlush : List (Label 1) :=
  .enqueue [⟨0,[1]⟩] :: .flushWorkers :: List.replicate 3 Label.group ++
    (List.replicate 11 (Label.worker ⟨0,Nat.zero_lt_one⟩ 0) ++ List.replicate 6 Label.group)

theorem flush_workers_barrier_one_worker :
    ∃ g, (new 1).run drainedFlush = some g ∧ g.pc = .flushed ∧ g.Settled := by
  have hls : Trace.Along step DrainsQueue (new 1) drainedFlush := by decide
  have hout : Trace.Along step EnqueuesOutside (new 1) drainedFlush := by decide
  have hrun : ((new 1).run drainedFlush).any (fun g => g.pc = .flushed) = true := by
    decide
  obtain ⟨g,hg,hpc⟩ := (Option.any_eq_true _ _).mp hrun
  exact ⟨g,hg,of_decide_eq_true hpc,flush_workers_barrier hls hout hg (of_decide_eq_true hpc)⟩

def eachWorker (k : ℕ) : List (Label 2) :=
  List.replicate k (Label.worker ⟨0,Nat.zero_lt_two⟩ 0) ++
    List.replicate k (Label.worker ⟨1,Nat.one_lt_two⟩ 0)

-- both workers find the queue empty during the resume and test do_pause only in the next flush
def staleEmptyQueue : List (Label 2) :=
  .flushWorkers :: .group :: eachWorker 1 ++ (.group :: .group :: eachWorker 7) ++
    (List.replicate 9 Label.group ++ .resumeWorkers :: List.replicate 4 Label.group) ++
    eachWorker 6 ++ (List.replicate 3 Label.group ++ .enqueue [⟨0,[1]⟩] :: .flushWorkers ::
    List.replicate 3 Label.group) ++ eachWorker 7 ++ List.replicate 9 Label.group

theorem flush_workers_leaves_queue :
    ¬ ∀ (N : ℕ) (ls : List (Label N)) (g : WorkerThreadGroup N),
      Trace.Along step EnqueuesOutside (new N) ls → (new N).run ls = some g → g.pc = .flushed →
        g.Settled := by
  intro hclaim
  have hout : Trace.Along step EnqueuesOutside (new 2) staleEmptyQueue := by decide
  have hrun : ((new 2).run staleEmptyQueue).any (fun g => g.pc = .flushed ∧ g.queue ≠ []) = true := by
    decide
  obtain ⟨g,hg,hbad⟩ := (Option.any_eq_true _ _).mp hrun
  obtain ⟨hpc,hq⟩ := of_decide_eq_true hbad
  exact hq (hclaim 2 staleEmptyQueue g hout hg hpc).queue

end WorkerThreadGroup
end GraphZeppelin.Worker
