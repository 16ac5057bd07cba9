import GraphZeppelin.Lib.Trace

namespace GraphZeppelin.Worker

variable {N : ℕ}

structure UpdateBatch where
  nodeIdx : ℕ
  updVec : List ℕ
deriving DecidableEq, Repr

abbrev DataNode := List UpdateBatch

inductive WorkerPc where
  | getData
  | batches (rest : List UpdateBatch)
  | testShutdown
  | testPause
  | lock
  | setPaused
  | notifyPaused
  | waitTestPause
  | waitTestShutdown
  | waiting
  | wakeLock
  | clearPaused
  | unlock
  | notifyUnpaused
  | returned
deriving DecidableEq, Repr

structure WorkerThread where
  pc : WorkerPc
  shutdown : Bool
  doPause : Bool
  paused : Bool
deriving DecidableEq, Repr

def WorkerThread.new : WorkerThread := ⟨.getData,false,false,false⟩

inductive GroupPc where
  | started
  | running
  | setNonBlock
  | pause (k : ℕ)
  | flushLock
  | waitCheck (k : ℕ) (timedOut : Bool)
  | waiting
  | wakeLock (timedOut : Bool)
  | recheck (k : ℕ)
  | flushUnlock (allPaused : Bool)
  | flushed
  | unpauseDoPause (k : ℕ)
  | unpausePaused (k : ℕ)
  | clearNonBlock
  | notifyAll
deriving DecidableEq, Repr

inductive Owner (N : ℕ) where
  | free
  | group
  | worker (i : Fin N)
deriving DecidableEq, Repr

structure WorkerThreadGroup (N : ℕ) where
  workers : Fin N → WorkerThread
  pc : GroupPc
  flushLock : Owner N
  nonBlock : Bool
  queue : List DataNode
  taken : List DataNode
  called : List (Fin N × UpdateBatch)

inductive Label (N : ℕ) where
  | worker (i : Fin N) (choice : ℕ)
  | wake (i : Fin N)
  | group
  | wakeGroup (timedOut : Bool)
  | enqueue (node : DataNode)
  | resumeWorkers
  | flushWorkers
deriving DecidableEq, Repr

def WorkerPc.notified : WorkerPc → WorkerPc
  | .waiting => .wakeLock
  | pc => pc

def GroupPc.notified : GroupPc → GroupPc
  | .waiting => .wakeLock false
  | pc => pc

def WorkerThread.goto (w : WorkerThread) (pc : WorkerPc) : WorkerThread := { w with pc := pc }

def WorkerThread.notified (w : WorkerThread) : WorkerThread := w.goto w.pc.notified

namespace WorkerThreadGroup

def new (N : ℕ) : WorkerThreadGroup N := ⟨fun _ => .new,.started,.free,false,[],[],[]⟩

def setWorker (g : WorkerThreadGroup N) (i : Fin N) (w : WorkerThread) : WorkerThreadGroup N :=
  { g with workers := Function.update g.workers i w }

def goto (g : WorkerThreadGroup N) (i : Fin N) (pc : WorkerPc) : WorkerThreadGroup N :=
  g.setWorker i ((g.workers i).goto pc)

def notifyAll (g : WorkerThreadGroup N) : WorkerThreadGroup N :=
  { g with workers := fun i => (g.workers i).notified,pc := g.pc.notified }

def getData (g : WorkerThreadGroup N) (i : Fin N) (choice : ℕ) : Option (WorkerThreadGroup N) :=
  match g.queue[choice]? with
  | some node =>
    some { g.goto i (.batches node) with
      queue := g.queue.eraseIdx choice
      taken := g.taken ++ [node] }
  | none => if g.queue = [] ∧ g.nonBlock then some (g.goto i .testShutdown) else none

def batchCallback (g : WorkerThreadGroup N) (i : Fin N) (b : UpdateBatch) : WorkerThreadGroup N :=
  { g with called := g.called ++ [(i,b)] }

def acquire (g : WorkerThreadGroup N) (owner : Owner N) : Option (WorkerThreadGroup N) :=
  if g.flushLock = .free then some { g with flushLock := owner } else none

def release (g : WorkerThreadGroup N) : WorkerThreadGroup N := { g with flushLock := .free }

def doWork (g : WorkerThreadGroup N) (i : Fin N) (choice : ℕ) : Option (WorkerThreadGroup N) :=
  let w := g.workers i
  match w.pc with
  | .getData => g.getData i choice
  | .batches [] => some (g.goto i .getData)
  | .batches (b :: rest) =>
    some (if b.updVec = [] then g.goto i (.batches rest)
      else (g.goto i (.batches rest)).batchCallback i b)
  | .testShutdown => some (g.goto i (if w.shutdown then .returned else .testPause))
  | .testPause => some (g.goto i (if w.doPause then .lock else .getData))
  | .lock => (g.goto i .setPaused).acquire (.worker i)
  | .setPaused => some (g.setWorker i { w with pc := .notifyPaused,paused := true })
  | .notifyPaused => some (g.notifyAll.goto i .waitTestPause)
  | .waitTestPause => some (g.goto i (if w.doPause then .waitTestShutdown else .clearPaused))
  | .waitTestShutdown =>
    some (if w.shutdown then g.goto i .clearPaused else (g.goto i .waiting).release)
  | .waiting => none
  | .wakeLock => (g.goto i .waitTestPause).acquire (.worker i)
  | .clearPaused => some (g.setWorker i { w with pc := .unlock,paused := false })
  | .unlock => some (g.goto i .notifyUnpaused).release
  | .notifyUnpaused => some (g.notifyAll.goto i .getData)
  | .returned => none

def moveTo (g : WorkerThreadGroup N) (pc : GroupPc) : WorkerThreadGroup N := { g with pc := pc }

def groupStep (g : WorkerThreadGroup N) : Option (WorkerThreadGroup N) :=
  match g.pc with
  | .started => none
  | .running => none
  | .setNonBlock => some { g with nonBlock := true,pc := .pause 0 }
  | .pause k =>
    if h : k < N then
      some ((g.setWorker ⟨k,h⟩ { g.workers ⟨k,h⟩ with doPause := true }).moveTo (.pause (k + 1)))
    else some (g.moveTo .flushLock)
  | .flushLock => (g.moveTo (.waitCheck 0 false)).acquire .group
  | .waitCheck k timedOut =>
    if h : k < N then
      if (g.workers ⟨k,h⟩).paused then some (g.moveTo (.waitCheck (k + 1) timedOut))
      else if timedOut then some (g.moveTo (.recheck 0))
      else some (g.moveTo .waiting).release
    else some (g.moveTo (.recheck 0))
  | .waiting => none
  | .wakeLock timedOut => (g.moveTo (.waitCheck 0 timedOut)).acquire .group
  | .recheck k =>
    if h : k < N then
      if (g.workers ⟨k,h⟩).paused then some (g.moveTo (.recheck (k + 1)))
      else some (g.moveTo (.flushUnlock false))
    else some (g.moveTo (.flushUnlock true))
  | .flushUnlock allPaused =>
    some (g.moveTo (if allPaused then .flushed else .flushLock)).release
  | .flushed => none
  | .unpauseDoPause k =>
    if h : k < N then
      some ((g.setWorker ⟨k,h⟩ { g.workers ⟨k,h⟩ with doPause := false }).moveTo (.unpausePaused k))
    else some (g.moveTo .clearNonBlock)
  | .unpausePaused k =>
    if h : k < N then
      some ((g.setWorker ⟨k,h⟩ { g.workers ⟨k,h⟩ with paused := false }).moveTo
        (.unpauseDoPause (k + 1)))
    else none
  | .clearNonBlock => some { g with nonBlock := false,pc := .notifyAll }
  | .notifyAll => some (g.notifyAll.moveTo .running)

def step (g : WorkerThreadGroup N) : Label N → Option (WorkerThreadGroup N)
  | .worker i choice => g.doWork i choice
  | .wake i => if (g.workers i).pc = .waiting then some (g.goto i .wakeLock) else none
  | .group => g.groupStep
  | .wakeGroup timedOut => if g.pc = .waiting then some (g.moveTo (.wakeLock timedOut)) else none
  | .enqueue node => some { g with queue := g.queue ++ [node] }
  | .resumeWorkers =>
    if g.pc = .started ∨ g.pc = .flushed then some (g.moveTo (.unpauseDoPause 0)) else none
  | .flushWorkers =>
    if g.pc = .started ∨ g.pc = .running then some (g.moveTo .setNonBlock) else none

def run (g : WorkerThreadGroup N) (ls : List (Label N)) : Option (WorkerThreadGroup N) :=
  Trace.run step g ls

end WorkerThreadGroup
end GraphZeppelin.Worker
