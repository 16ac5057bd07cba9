import GraphZeppelin.Worker.ThreadGroup

namespace GraphZeppelin.Worker

variable {N : ℕ}

def WorkerPc.entering : WorkerPc → Bool
  | .lock | .setPaused => true
  | _ => false

def WorkerPc.parked : WorkerPc → Bool
  | .notifyPaused | .waitTestPause | .waitTestShutdown | .waiting | .wakeLock => true
  | _ => false

inductive WorkerThread.Move (w : WorkerThread) : WorkerThread → Prop
  | taken (node : DataNode) : w.pc = .getData → Move w (w.goto (.batches node))
  | invalid : w.pc = .getData → Move w (w.goto .testShutdown)
  | callback (b : UpdateBatch) (rest : List UpdateBatch) :
      w.pc = .batches (b :: rest) → Move w (w.goto (.batches rest))
  | getDataCallback : w.pc = .batches [] → Move w (w.goto .getData)
  | testShutdown : w.pc = .testShutdown →
      Move w (w.goto (if w.shutdown then .returned else .testPause))
  | testPause : w.pc = .testPause → Move w (w.goto (if w.doPause then .lock else .getData))
  | lock : w.pc = .lock → Move w (w.goto .setPaused)
  | setPaused : w.pc = .setPaused → Move w { w with pc := .notifyPaused,paused := true }
  | notifyPaused : w.pc = .notifyPaused → Move w (w.goto .waitTestPause)
  | waitTestPause : w.pc = .waitTestPause →
      Move w (w.goto (if w.doPause then .waitTestShutdown else .clearPaused))
  | waitTestShutdown : w.pc = .waitTestShutdown →
      Move w (w.goto (if w.shutdown then .clearPaused else .waiting))
  | wakeLock : w.pc = .wakeLock → Move w (w.goto .waitTestPause)
  | clearPaused : w.pc = .clearPaused → Move w { w with pc := .unlock,paused := false }
  | unlock : w.pc = .unlock → Move w (w.goto .notifyUnpaused)
  | notifyUnpaused : w.pc = .notifyUnpaused → Move w (w.goto .getData)

namespace WorkerThreadGroup

variable {g g' : WorkerThreadGroup N} {i j : Fin N}

@[simp] theorem setWorker_self (g : WorkerThreadGroup N) (i : Fin N) (w : WorkerThread) :
    (g.setWorker i w).workers i = w := by simp only [setWorker,Function.update_self]

@[simp] theorem setWorker_other (g : WorkerThreadGroup N) (w : WorkerThread) (h : j ≠ i) :
    (g.setWorker i w).workers j = g.workers j := by
  simp only [setWorker,Function.update_of_ne h]

@[simp] theorem goto_self (g : WorkerThreadGroup N) (i : Fin N) (pc : WorkerPc) :
    (g.goto i pc).workers i = (g.workers i).goto pc := g.setWorker_self i _

@[simp] theorem goto_other (g : WorkerThreadGroup N) (pc : WorkerPc) (h : j ≠ i) :
    (g.goto i pc).workers j = g.workers j := g.setWorker_other _ h

@[simp] theorem goto_pc (g : WorkerThreadGroup N) (i : Fin N) (pc : WorkerPc) :
    (g.goto i pc).pc = g.pc := rfl

theorem acquire_eq {owner : Owner N} (h : g.acquire owner = some g') :
    g' = { g with flushLock := owner } := by
  rw [acquire] at h
  split at h
  · exact (Option.some.inj h).symm
  · cases h

structure Local (g g' : WorkerThreadGroup N) (i : Fin N) : Prop where
  move : (g.workers i).Move (g'.workers i)
  others : ∀ j, j ≠ i → g'.workers j = g.workers j ∨ g'.workers j = (g.workers j).notified
  pc : g'.pc = g.pc ∨ g'.pc = g.pc.notified

theorem local_goto {pc : WorkerPc} (hw : g'.workers = (g.goto i pc).workers) (hpc : g'.pc = g.pc)
    (hm : (g.workers i).Move ((g.workers i).goto pc)) : Local g g' i :=
  ⟨by rwa [hw,goto_self],fun j hj => .inl (by rw [hw,goto_other g pc hj]),.inl hpc⟩

theorem local_notify {pc : WorkerPc}
    (hm : (g.workers i).Move ((g.workers i).goto pc)) : Local g (g.notifyAll.goto i pc) i := by
  have hself : (g.notifyAll.goto i pc).workers i = (g.workers i).goto pc := by
    rw [goto_self]
    rfl
  refine ⟨hself ▸ hm,fun j hj => .inr ?_,.inr rfl⟩
  rw [goto_other _ pc hj]
  rfl

theorem getData_local {choice : ℕ} (hpc : (g.workers i).pc = .getData)
    (h : g.getData i choice = some g') : Local g g' i := by
  rw [getData] at h
  split at h
  · next node _ =>
    cases h
    exact local_goto rfl rfl (.taken node hpc)
  · split at h
    · cases h
      exact local_goto rfl rfl (.invalid hpc)
    · cases h

theorem doWork_local {choice : ℕ} (h : g.doWork i choice = some g') : Local g g' i := by
  cases hpc : (g.workers i).pc with
  | getData =>
    rw [doWork,hpc] at h
    exact getData_local hpc h
  | batches rest =>
    cases rest with
    | nil =>
      simp only [doWork,hpc,Option.some.injEq] at h
      subst h
      exact local_goto rfl rfl (.getDataCallback hpc)
    | cons b rest =>
      simp only [doWork,hpc,Option.some.injEq] at h
      subst h
      split
      · exact local_goto rfl rfl (.callback b rest hpc)
      · exact local_goto rfl rfl (.callback b rest hpc)
  | testShutdown =>
    simp only [doWork,hpc,Option.some.injEq] at h
    subst h
    exact local_goto rfl rfl (.testShutdown hpc)
  | testPause =>
    simp only [doWork,hpc,Option.some.injEq] at h
    subst h
    exact local_goto rfl rfl (.testPause hpc)
  | lock =>
    simp only [doWork,hpc] at h
    rw [acquire_eq h]
    exact local_goto rfl rfl (.lock hpc)
  | setPaused =>
    simp only [doWork,hpc,Option.some.injEq] at h
    subst h
    exact ⟨by simpa using .setPaused hpc,fun j hj => .inl (by simp [hj]),.inl rfl⟩
  | notifyPaused =>
    simp only [doWork,hpc,Option.some.injEq] at h
    subst h
    exact local_notify (.notifyPaused hpc)
  | waitTestPause =>
    simp only [doWork,hpc,Option.some.injEq] at h
    subst h
    exact local_goto rfl rfl (.waitTestPause hpc)
  | waitTestShutdown =>
    simp only [doWork,hpc,Option.some.injEq] at h
    have hm := WorkerThread.Move.waitTestShutdown hpc
    subst h
    split
    · next hs => exact local_goto rfl rfl (by simpa [hs] using hm)
    · next hs => exact local_goto rfl rfl (by simpa [hs] using hm)
  | waiting => simp [doWork,hpc] at h
  | wakeLock =>
    simp only [doWork,hpc] at h
    rw [acquire_eq h]
    exact local_goto rfl rfl (.wakeLock hpc)
  | clearPaused =>
    simp only [doWork,hpc,Option.some.injEq] at h
    subst h
    exact ⟨by simpa using .clearPaused hpc,fun j hj => .inl (by simp [hj]),.inl rfl⟩
  | unlock =>
    simp only [doWork,hpc,Option.some.injEq] at h
    subst h
    exact local_goto rfl rfl (.unlock hpc)
  | notifyUnpaused =>
    simp only [doWork,hpc,Option.some.injEq] at h
    subst h
    exact local_notify (.notifyUnpaused hpc)
  | returned => simp [doWork,hpc] at h

inductive Touches (g : WorkerThreadGroup N) (l : Label N) (workers : Fin N → WorkerThread) : Prop
  | none : workers = g.workers → Touches g l workers
  | notify : workers = g.notifyAll.workers → Touches g l workers
  | wake (i : Fin N) : workers = (g.setWorker i (g.workers i).notified).workers →
      Touches g l workers
  | pause (i : Fin N) : l = .group → g.pc = .pause i →
      workers = (g.setWorker i { g.workers i with doPause := true }).workers → Touches g l workers
  | unpause (i : Fin N) : g.pc = .unpauseDoPause i →
      workers = (g.setWorker i { g.workers i with doPause := false }).workers → Touches g l workers
  | clear (i : Fin N) : g.pc = .unpausePaused i →
      workers = (g.setWorker i { g.workers i with paused := false }).workers → Touches g l workers

theorem groupStep_touches (h : g.groupStep = some g') : Touches g .group g'.workers := by
  cases hpc : g.pc with
  | started | running | waiting | flushed => simp [groupStep,hpc] at h
  | setNonBlock | clearNonBlock | flushUnlock =>
    simp only [groupStep,hpc,Option.some.injEq] at h
    subst h
    exact .none rfl
  | flushLock | wakeLock =>
    simp only [groupStep,hpc] at h
    rw [acquire_eq h]
    exact .none rfl
  | waitCheck | recheck =>
    simp only [groupStep,hpc] at h
    split_ifs at h <;> cases h <;> exact .none rfl
  | pause k =>
    simp only [groupStep,hpc] at h
    split at h
    · next hk =>
      cases h
      exact .pause ⟨k,hk⟩ rfl hpc rfl
    · cases h
      exact .none rfl
  | unpauseDoPause k =>
    simp only [groupStep,hpc] at h
    split at h
    · next hk =>
      cases h
      exact .unpause ⟨k,hk⟩ hpc rfl
    · cases h
      exact .none rfl
  | unpausePaused k =>
    simp only [groupStep,hpc] at h
    split at h
    · next hk =>
      cases h
      exact .clear ⟨k,hk⟩ hpc rfl
    · cases h
  | notifyAll =>
    simp only [groupStep,hpc,Option.some.injEq] at h
    subst h
    exact .notify rfl

theorem goto_wakeLock (h : (g.workers i).pc = .waiting) :
    g.goto i .wakeLock = g.setWorker i (g.workers i).notified := by
  rw [WorkerThread.notified,h]
  rfl

theorem step_touches {l : Label N} (h : g.step l = some g') :
    (∃ i choice, l = .worker i choice ∧ Local g g' i) ∨ Touches g l g'.workers := by
  cases l with
  | worker i choice => exact .inl ⟨i,choice,rfl,doWork_local h⟩
  | group => exact .inr (groupStep_touches h)
  | wake i =>
    simp only [step] at h
    split at h
    · next hpc =>
      cases h
      exact .inr (.wake i (by rw [goto_wakeLock hpc]))
    · cases h
  | wakeGroup | resumeWorkers | flushWorkers =>
    simp only [step] at h
    split at h
    · cases h
      exact .inr (.none rfl)
    · cases h
  | enqueue node =>
    cases h
    exact .inr (.none rfl)

end WorkerThreadGroup

structure WorkerThread.Sound (w : WorkerThread) : Prop where
  alive : w.shutdown = false
  entering : w.pc.entering = true → w.doPause = true
  parked : w.doPause = true → w.paused = true → w.pc.parked = true

-- what the controller's position says about the two flags of worker i
def GroupPc.Stage : GroupPc → ℕ → WorkerThread → Prop
  | .pause k, i, w => if i < k then w.doPause = true else w.doPause = false ∧ w.paused = false
  | .flushLock, _, w | .waitCheck _ _, _, w | .waiting, _, w | .wakeLock _, _, w
  | .flushUnlock false, _, w => w.doPause = true
  | .recheck k, i, w => w.doPause = true ∧ (i < k → w.paused = true)
  | .flushUnlock true, _, w | .flushed, _, w => w.doPause = true ∧ w.paused = true
  | .unpauseDoPause k, i, w =>
    if i < k then w.doPause = false ∧ w.paused = false else w.doPause = w.paused
  | .unpausePaused k, i, w =>
    if i < k then w.doPause = false ∧ w.paused = false
    else if i = k then w.doPause = false else w.doPause = w.paused
  | .started, _, w | .running, _, w | .setNonBlock, _, w | .clearNonBlock, _, w
  | .notifyAll, _, w => w.doPause = false ∧ w.paused = false

namespace WorkerThread

variable {w w' : WorkerThread}

theorem Sound.new : Sound .new := ⟨rfl,by simp [WorkerThread.new,WorkerPc.entering],
  by simp [WorkerThread.new]⟩

theorem parked_notified (pc : WorkerPc) : pc.notified.parked = pc.parked := by
  cases pc <;> rfl

theorem entering_notified (pc : WorkerPc) : pc.notified.entering = pc.entering := by
  cases pc <;> rfl

theorem Sound.notified (h : w.Sound) : w.notified.Sound :=
  ⟨h.alive,fun he => h.entering (entering_notified w.pc ▸ he),
    fun hd hp => (parked_notified w.pc).trans (h.parked hd hp)⟩

theorem Sound.move (h : w.Sound) (hm : w.Move w') : w'.Sound := by
  obtain ⟨halive,hent,hpark⟩ := h
  cases hd : w.doPause <;> cases hm <;> constructor <;>
    simp_all [goto,WorkerPc.entering,WorkerPc.parked]

-- a worker never clears a flag that the flush waiting for it has counted
theorem Move.flags (hm : w.Move w') (h : w.Sound) : w'.doPause = w.doPause ∧
    (w'.paused = w.paused ∨ w.doPause = true ∧ w'.paused = true ∨
      w'.paused = false ∧ (w.doPause = false ∨ w.paused = false)) := by
  cases hm with
  | setPaused hpc => exact ⟨rfl,.inr (.inl ⟨h.entering (by rw [hpc]; rfl),rfl⟩)⟩
  | clearPaused hpc =>
    refine ⟨rfl,.inr (.inr ⟨rfl,?_⟩)⟩
    cases hd : w.doPause with
    | false => exact .inl rfl
    | true =>
      have hp := h.parked hd
      rw [hpc] at hp
      exact .inr (by simpa [WorkerPc.parked] using hp)
  | _ => exact ⟨rfl,.inl rfl⟩

theorem Sound.pause (h : w.Sound) (hp : w.paused = false) : Sound { w with doPause := true } :=
  ⟨h.alive,fun _ => rfl,fun _ hpaused => absurd hpaused (by simp [hp])⟩

theorem entering_ne_parked {pc : WorkerPc} (h : pc.entering = true) : pc.parked = false := by
  cases pc with
  | lock | setPaused => rfl
  | _ => cases h

theorem Sound.unpause (h : w.Sound) (hflags : w.doPause = w.paused) :
    Sound { w with doPause := false } := by
  refine ⟨h.alive,fun he => ?_,fun hd => absurd hd Bool.false_ne_true⟩
  have hd := h.entering he
  have hp := h.parked hd (hflags ▸ hd)
  rw [entering_ne_parked he] at hp
  cases hp

theorem Sound.clear (h : w.Sound) : Sound { w with paused := false } :=
  ⟨h.alive,h.entering,fun _ hp => absurd hp Bool.false_ne_true⟩

end WorkerThread

namespace GroupPc

variable {pc : GroupPc} {k : ℕ} {w w' : WorkerThread}

theorem stage_notified : pc.notified.Stage k w ↔ pc.Stage k w := by
  cases pc <;> rfl

theorem Stage.flags (h : pc.Stage k w) (hd : w'.doPause = w.doPause)
    (hp : w'.paused = w.paused ∨ w.doPause = true ∧ w'.paused = true ∨
      w'.paused = false ∧ (w.doPause = false ∨ w.paused = false)) : pc.Stage k w' := by
  cases pc with
  | flushUnlock all => cases all <;> grind [Stage]
  | _ => grind [Stage]

end GroupPc

namespace WorkerThreadGroup

variable {g g' : WorkerThreadGroup N} {i j : Fin N}

structure Inv (g : WorkerThreadGroup N) : Prop where
  sound : ∀ i, (g.workers i).Sound
  stage : ∀ i : Fin N, g.pc.Stage i (g.workers i)

theorem Inv.new : (new N).Inv := ⟨fun _ => .new,fun _ => ⟨rfl,rfl⟩⟩

theorem Inv.local (h : g.Inv) (hl : Local g g' i) : g'.Inv := by
  have hworker (j : Fin N) : (g'.workers j).Sound ∧ g.pc.Stage j (g'.workers j) := by
    by_cases hj : j = i
    · subst hj
      obtain ⟨hd,hp⟩ := hl.move.flags (h.sound j)
      exact ⟨(h.sound j).move hl.move,(h.stage j).flags hd hp⟩
    · rcases hl.others j hj with hw | hw
      · exact hw ▸ ⟨h.sound j,h.stage j⟩
      · exact hw ▸ ⟨(h.sound j).notified,(h.stage j).flags rfl (.inl rfl)⟩
  refine ⟨fun j => (hworker j).1,fun j => ?_⟩
  rcases hl.pc with hpc | hpc
  · exact hpc ▸ (hworker j).2
  · exact hpc ▸ GroupPc.stage_notified.mpr (hworker j).2

theorem Inv.same (h : g.Inv) (pc : GroupPc) (hw : g'.workers = g.workers) (hpc : g'.pc = pc)
    (hs : ∀ i : Fin N, g.pc.Stage i (g.workers i) → pc.Stage i (g.workers i)) : g'.Inv :=
  ⟨fun i => hw ▸ h.sound i,fun i => by rw [hw,hpc]; exact hs i (h.stage i)⟩

theorem Inv.set {pc : GroupPc} {w : WorkerThread} (h : g.Inv) (hw : w.Sound)
    (hi : pc.Stage i w)
    (hs : ∀ j : Fin N, j ≠ i → g.pc.Stage j (g.workers j) → pc.Stage j (g.workers j)) :
    ((g.setWorker i w).moveTo pc).Inv := by
  have hother {j : Fin N} (hj : j ≠ i) : ((g.setWorker i w).moveTo pc).workers j = g.workers j :=
    g.setWorker_other w hj
  have hself : ((g.setWorker i w).moveTo pc).workers i = w := g.setWorker_self i w
  refine ⟨fun j => ?_,fun j => ?_⟩
  · by_cases hj : j = i
    · subst hj
      rwa [hself]
    · rw [hother hj]
      exact h.sound j
  · by_cases hj : j = i
    · subst hj
      rwa [hself]
    · rw [hother hj]
      exact hs j hj (h.stage j)

theorem Inv.groupStep (h : g.Inv) (hstep : g.groupStep = some g') : g'.Inv := by
  have hfin {k : ℕ} {j : Fin N} (hk : ¬ k < N) : j.val < k := by omega
  cases hpc : g.pc with
  | started | running | waiting | flushed => simp [WorkerThreadGroup.groupStep,hpc] at hstep
  | setNonBlock =>
    simp only [WorkerThreadGroup.groupStep,hpc,Option.some.injEq] at hstep
    subst hstep
    exact h.same (.pause 0) rfl rfl fun i hi => by simpa [hpc,GroupPc.Stage] using hi
  | pause k =>
    simp only [WorkerThreadGroup.groupStep,hpc] at hstep
    split at hstep
    · next hk =>
      cases hstep
      have hs := h.stage ⟨k,hk⟩
      simp only [hpc,GroupPc.Stage,lt_irrefl,if_false] at hs
      refine h.set ((h.sound ⟨k,hk⟩).pause hs.2) (by simp [GroupPc.Stage]) fun j hj hstage => ?_
      grind [GroupPc.Stage]
    · next hk =>
      cases hstep
      exact h.same .flushLock rfl rfl fun i hi => by simpa [hpc,GroupPc.Stage,hfin hk] using hi
  | flushLock =>
    simp only [WorkerThreadGroup.groupStep,hpc] at hstep
    rw [acquire_eq hstep]
    exact h.same (.waitCheck 0 false) rfl rfl fun i hi => by simpa [hpc,GroupPc.Stage] using hi
  | waitCheck k timedOut =>
    simp only [WorkerThreadGroup.groupStep,hpc] at hstep
    split_ifs at hstep
    · cases hstep
      exact h.same (.waitCheck (k + 1) timedOut) rfl rfl fun i hi => by
        simpa [hpc,GroupPc.Stage] using hi
    · cases hstep
      exact h.same (.recheck 0) rfl rfl fun i hi => by simpa [hpc,GroupPc.Stage] using hi
    · cases hstep
      exact h.same .waiting rfl rfl fun i hi => by simpa [hpc,GroupPc.Stage] using hi
    · cases hstep
      exact h.same (.recheck 0) rfl rfl fun i hi => by simpa [hpc,GroupPc.Stage] using hi
  | wakeLock timedOut =>
    simp only [WorkerThreadGroup.groupStep,hpc] at hstep
    rw [acquire_eq hstep]
    exact h.same (.waitCheck 0 timedOut) rfl rfl fun i hi => by simpa [hpc,GroupPc.Stage] using hi
  | recheck k =>
    simp only [WorkerThreadGroup.groupStep,hpc] at hstep
    split_ifs at hstep with hk hp
    · cases hstep
      refine h.same (.recheck (k + 1)) rfl rfl fun i hi => ?_
      by_cases hik : i = ⟨k,hk⟩
      · subst hik
        simp_all [GroupPc.Stage]
      · grind [GroupPc.Stage]
    · cases hstep
      exact h.same (.flushUnlock false) rfl rfl fun i hi => by
        rw [hpc] at hi
        exact hi.1
    · cases hstep
      exact h.same (.flushUnlock true) rfl rfl fun i hi => by
        rw [hpc] at hi
        exact ⟨hi.1,hi.2 (hfin hk)⟩
  | flushUnlock allPaused =>
    simp only [WorkerThreadGroup.groupStep,hpc,Option.some.injEq] at hstep
    subst hstep
    cases allPaused with
    | false => exact h.same .flushLock rfl rfl fun i hi => by simpa [hpc,GroupPc.Stage] using hi
    | true => exact h.same .flushed rfl rfl fun i hi => by simpa [hpc,GroupPc.Stage] using hi
  | unpauseDoPause k =>
    simp only [WorkerThreadGroup.groupStep,hpc] at hstep
    split at hstep
    · next hk =>
      cases hstep
      have hs := h.stage ⟨k,hk⟩
      simp only [hpc,GroupPc.Stage,lt_irrefl,if_false] at hs
      refine h.set ((h.sound ⟨k,hk⟩).unpause hs) (by simp [GroupPc.Stage]) fun j hj hstage => ?_
      grind [GroupPc.Stage]
    · next hk =>
      cases hstep
      exact h.same .clearNonBlock rfl rfl fun i hi => by simpa [hpc,GroupPc.Stage,hfin hk] using hi
  | unpausePaused k =>
    simp only [WorkerThreadGroup.groupStep,hpc] at hstep
    split at hstep
    · next hk =>
      cases hstep
      have hs := h.stage ⟨k,hk⟩
      simp only [hpc,GroupPc.Stage,lt_irrefl,if_false,if_true] at hs
      refine h.set (h.sound ⟨k,hk⟩).clear (by simp [GroupPc.Stage,hs]) fun j hj hstage => ?_
      grind [GroupPc.Stage]
    · cases hstep
  | clearNonBlock =>
    simp only [WorkerThreadGroup.groupStep,hpc,Option.some.injEq] at hstep
    subst hstep
    exact h.same .notifyAll rfl rfl fun i hi => by simpa [hpc,GroupPc.Stage] using hi
  | notifyAll =>
    simp only [WorkerThreadGroup.groupStep,hpc,Option.some.injEq] at hstep
    subst hstep
    refine ⟨fun i => (h.sound i).notified,fun i => ?_⟩
    have hs := h.stage i
    rw [hpc] at hs
    exact hs

theorem Inv.step {l : Label N} (h : g.Inv) (hstep : g.step l = some g') : g'.Inv := by
  cases l with
  | worker i choice => exact h.local (doWork_local hstep)
  | wake i =>
    simp only [WorkerThreadGroup.step] at hstep
    split at hstep
    · next hpc =>
      cases hstep
      rw [goto_wakeLock hpc]
      exact h.set (h.sound i).notified ((h.stage i).flags rfl (.inl rfl)) fun j _ hj => hj
    · cases hstep
  | group => exact h.groupStep hstep
  | wakeGroup timedOut =>
    simp only [WorkerThreadGroup.step] at hstep
    split at hstep
    · next hpc =>
      cases hstep
      exact h.same (.wakeLock timedOut) rfl rfl fun i hi => by simpa [hpc,GroupPc.Stage] using hi
    · cases hstep
  | enqueue node =>
    cases hstep
    exact h.same _ rfl rfl fun i hi => hi
  | resumeWorkers =>
    simp only [WorkerThreadGroup.step] at hstep
    split at hstep
    · next hpc =>
      cases hstep
      refine h.same (.unpauseDoPause 0) rfl rfl fun i hi => ?_
      rcases hpc with hpc | hpc
      · simp_all [GroupPc.Stage]
      · simp_all [GroupPc.Stage]
    · cases hstep
  | flushWorkers =>
    simp only [WorkerThreadGroup.step] at hstep
    split at hstep
    · next hpc =>
      cases hstep
      refine h.same .setNonBlock rfl rfl fun i hi => ?_
      rcases hpc with hpc | hpc
      · rwa [hpc] at hi
      · rwa [hpc] at hi
    · cases hstep

end WorkerThreadGroup

end GraphZeppelin.Worker
