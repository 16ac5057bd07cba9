import GraphZeppelin.Worker.Pause

namespace GraphZeppelin.Worker

variable {N : ℕ}

def WorkerThread.Covered (w : WorkerThread) : Prop :=
  w.pc.parked = true → w.doPause = true → w.paused = true

namespace WorkerThreadGroup

variable {g g' : WorkerThreadGroup N} {i : Fin N}

def LostWakeup (g : WorkerThreadGroup N) (i : Fin N) : Prop :=
  (g.workers i).pc = .waiting ∧ (g.workers i).doPause = true ∧ (g.workers i).paused = false

instance (g : WorkerThreadGroup N) (i : Fin N) : Decidable (g.LostWakeup i) :=
  inferInstanceAs (Decidable (_ ∧ _))

def PausesAwake (g : WorkerThreadGroup N) (l : Label N) : Prop :=
  l = .group → ∀ i : Fin N, g.pc = .pause i → (g.workers i).pc.parked = false

instance (g : WorkerThreadGroup N) (l : Label N) : Decidable (g.PausesAwake l) :=
  inferInstanceAs (Decidable (_ → _))

end WorkerThreadGroup

namespace WorkerThread

variable {w w' : WorkerThread}

theorem Covered.notified (h : w.Covered) : w.notified.Covered := fun hpc =>
  h (parked_notified w.pc ▸ hpc)

-- the only way into the wait is through paused = true
theorem Covered.move (h : w.Covered) (hm : w.Move w') : w'.Covered := by
  cases hm with
  | setPaused _ => exact fun _ _ => rfl
  | notifyPaused hpc => exact fun _ => h (by rw [hpc]; rfl)
  | waitTestPause hpc => exact fun _ => h (by rw [hpc]; rfl)
  | waitTestShutdown hpc => exact fun _ => h (by rw [hpc]; rfl)
  | wakeLock hpc => exact fun _ => h (by rw [hpc]; rfl)
  | testShutdown hpc =>
    intro hp
    cases hs : w.shutdown <;> simp [goto,hs,WorkerPc.parked] at hp
  | testPause hpc =>
    intro hp
    cases hs : w.doPause <;> simp [goto,hs,WorkerPc.parked] at hp
  | _ => exact fun hp => by simp [goto,WorkerPc.parked] at hp

end WorkerThread

namespace WorkerThreadGroup

variable {g g' : WorkerThreadGroup N} {i : Fin N} {l : Label N}

structure Covered (g : WorkerThreadGroup N) : Prop where
  inv : g.Inv
  covered : ∀ i, (g.workers i).Covered

theorem Covered.new : (new N).Covered :=
  ⟨.new,fun _ hp => by simp [WorkerThreadGroup.new,WorkerThread.new,WorkerPc.parked] at hp⟩

theorem covered_local (h : ∀ i, (g.workers i).Covered) (hl : Local g g' i) (j : Fin N) :
    (g'.workers j).Covered := by
  by_cases hj : j = i
  · subst hj
    exact (h j).move hl.move
  · rcases hl.others j hj with hw | hw
    · exact hw ▸ h j
    · exact hw ▸ (h j).notified

theorem covered_set {w : WorkerThread} (h : ∀ i, (g.workers i).Covered) (hw : w.Covered)
    (hg : g'.workers = (g.setWorker i w).workers) (j : Fin N) : (g'.workers j).Covered := by
  rw [hg]
  by_cases hj : j = i
  · subst hj
    rwa [setWorker_self]
  · rw [setWorker_other g w hj]
    exact h j

theorem Covered.step (h : g.Covered) (hl : g.PausesAwake l) (hstep : g.step l = some g') :
    g'.Covered := by
  refine ⟨h.inv.step hstep,fun j => ?_⟩
  rcases step_touches hstep with ⟨i,choice,rfl,hlocal⟩ | ht
  · exact covered_local h.covered hlocal j
  · cases ht with
    | none hw => exact hw ▸ h.covered j
    | notify hw => exact hw ▸ (h.covered j).notified
    | wake i hw => exact covered_set h.covered (h.covered i).notified hw j
    | pause i hg hpc hw =>
      refine covered_set h.covered (fun hp => ?_) hw j
      rw [hl hg i hpc] at hp
      cases hp
    | unpause i hpc hw => exact covered_set h.covered (fun _ hd => by cases hd) hw j
    | clear i hpc hw =>
      refine covered_set h.covered (fun _ hd => ?_) hw j
      have hs := h.inv.stage i
      simp only [hpc,GroupPc.Stage,lt_irrefl,if_false,if_true] at hs
      rw [hs] at hd
      cases hd

theorem no_lost_wakeup {ls : List (Label N)} (hls : Trace.Along step PausesAwake (new N) ls)
    (hrun : (new N).run ls = some g) (i : Fin N) : ¬ g.LostWakeup i := by
  have h : g.Covered := Trace.run_inv Covered.step .new hls hrun
  rintro ⟨hpc,hd,hp⟩
  have hcov := h.covered i (by rw [hpc]; rfl) hd
  rw [hp] at hcov
  cases hcov

structure Stuck (g : WorkerThreadGroup N) (i : Fin N) : Prop where
  inv : g.Inv
  parked : (g.workers i).pc.parked = true
  doPause : (g.workers i).doPause = true
  paused : (g.workers i).paused = false

theorem Stuck.set {w : WorkerThread} {j : Fin N} (h : g.Stuck i) (hinv : g'.Inv)
    (hg : g'.workers = (g.setWorker j w).workers) (hw : w.pc.parked = (g.workers j).pc.parked)
    (hd : (g.workers j).doPause = true → w.doPause = true) (hp : w.paused = (g.workers j).paused) :
    g'.Stuck i := by
  by_cases hj : i = j
  · subst hj
    have hself : g'.workers i = w := by rw [hg,setWorker_self]
    exact ⟨hinv,by rw [hself,hw,h.parked],by rw [hself,hd h.doPause],by rw [hself,hp,h.paused]⟩
  · have hother : g'.workers i = g.workers i := by rw [hg,setWorker_other g w hj]
    exact ⟨hinv,hother ▸ h.parked,hother ▸ h.doPause,hother ▸ h.paused⟩

theorem Stuck.move {w : WorkerThread} (h : g.Stuck i) (hm : (g.workers i).Move w) :
    w.pc.parked = true ∧ w.doPause = true ∧ w.paused = false := by
  have hp := h.parked
  have halive := (h.inv.sound i).alive
  have hd := h.doPause
  cases hm with
  | notifyPaused | wakeLock => exact ⟨rfl,hd,h.paused⟩
  | waitTestPause => exact ⟨by rw [hd]; rfl,hd,h.paused⟩
  | waitTestShutdown => exact ⟨by rw [halive]; rfl,hd,h.paused⟩
  | taken _ hpc | invalid hpc | callback _ _ hpc | getDataCallback hpc | testShutdown hpc
  | testPause hpc | lock hpc | setPaused hpc | clearPaused hpc | unlock hpc | notifyUnpaused hpc =>
    rw [hpc] at hp
    cases hp

-- neither unpause can run: its position contradicts the flags of the stuck worker
theorem Stuck.step (h : g.Stuck i) (hstep : g.step l = some g') : g'.Stuck i := by
  have hinv := h.inv.step hstep
  have hs := h.inv.stage i
  rcases step_touches hstep with ⟨j,choice,rfl,hlocal⟩ | ht
  · by_cases hj : i = j
    · subst hj
      obtain ⟨hp,hd,hpaused⟩ := h.move hlocal.move
      exact ⟨hinv,hp,hd,hpaused⟩
    · rcases hlocal.others i hj with hw | hw
      · exact ⟨hinv,hw ▸ h.parked,hw ▸ h.doPause,hw ▸ h.paused⟩
      · refine ⟨hinv,?_,hw ▸ h.doPause,hw ▸ h.paused⟩
        rw [hw]
        exact (WorkerThread.parked_notified _).trans h.parked
  · cases ht with
    | none hw => exact ⟨hinv,hw ▸ h.parked,hw ▸ h.doPause,hw ▸ h.paused⟩
    | notify hw =>
      refine ⟨hinv,?_,hw ▸ h.doPause,hw ▸ h.paused⟩
      rw [hw]
      exact (WorkerThread.parked_notified _).trans h.parked
    | wake j hw => exact h.set hinv hw (WorkerThread.parked_notified _) id rfl
    | pause j _ _ hw => exact h.set hinv hw rfl (fun _ => rfl) rfl
    | unpause j hpc _ =>
      rw [hpc] at hs
      have := h.doPause
      have := h.paused
      grind [GroupPc.Stage]
    | clear j hpc _ =>
      rw [hpc] at hs
      have := h.doPause
      have := h.paused
      grind [GroupPc.Stage]

theorem lost_wakeup_never_returns {ls ls' : List (Label N)} (hrun : (new N).run ls = some g)
    (hlost : g.LostWakeup i) (hlater : g.run ls' = some g') : g'.pc ≠ .flushed := by
  have hinv : g.Inv := Trace.run_inv_all Inv.step .new hrun
  have hstuck : g.Stuck i := ⟨hinv,by rw [hlost.1]; rfl,hlost.2.1,hlost.2.2⟩
  have h : g'.Stuck i := Trace.run_inv_all Stuck.step hstuck hlater
  intro hpc
  have hs := h.inv.stage i
  rw [hpc] at hs
  have hp := h.paused
  rw [hs.2] at hp
  cases hp

def turn : Label 1 := .worker ⟨0,Nat.zero_lt_one⟩ 0

-- the worker falls asleep, one flush returns and one resume is over
def flushAndResume : List (Label 1) :=
  .flushWorkers :: .group :: turn :: .group :: List.replicate 7 turn ++
    (List.replicate 7 Label.group ++ .resumeWorkers :: List.replicate 5 Label.group)

def wakeAndPause : List (Label 1) :=
  flushAndResume ++ (List.replicate 5 turn ++ [.flushWorkers,.group,.group])

theorem no_lost_wakeup_one_worker : Trace.Along step PausesAwake (new 1) wakeAndPause ∧
    ∃ g, (new 1).run wakeAndPause = some g ∧ (g.workers 0).doPause = true ∧
      ¬ g.LostWakeup 0 := by
  have h : Trace.Along step PausesAwake (new 1) wakeAndPause := by decide
  have hrun : ((new 1).run wakeAndPause).any (fun g => (g.workers 0).doPause) = true := by
    decide
  obtain ⟨g,hg,hpause⟩ := (Option.any_eq_true _ _).mp hrun
  exact ⟨h,g,hg,hpause,no_lost_wakeup h hg 0⟩

def overtakenWaiter : List (Label 1) :=
  flushAndResume ++ (.flushWorkers :: .group :: .group :: List.replicate 3 turn)

theorem lost_wakeup_reachable :
    ¬ ∀ (N : ℕ) (ls : List (Label N)) (g : WorkerThreadGroup N), (new N).run ls = some g →
      ∀ i, ¬ g.LostWakeup i := by
  intro hclaim
  have hrun : ((new 1).run overtakenWaiter).any (fun g => g.LostWakeup 0) = true := by decide
  obtain ⟨g,hg,hlost⟩ := (Option.any_eq_true _ _).mp hrun
  exact hclaim 1 overtakenWaiter g hg 0 (of_decide_eq_true hlost)

end WorkerThreadGroup
end GraphZeppelin.Worker
