import GraphZeppelin.Boruvka.MergeInstr
import GraphZeppelin.Boruvka.Supernode

namespace GraphZeppelin.Boruvka
open Dsu

variable {n T : ℕ} {p : SketchParams}

structure GlobalMergeData (p : SketchParams) where
  sketch : Sketch p
  numMergeNeeded : ℕ
  numMergeDone : ℕ

namespace GlobalMergeData

def sizeMax : ℕ := 2 ^ 64 - 1

-- global_id - thr_id + 1, unsigned
def needed (globalId thrId : ℕ) : ℕ := (globalId + 2 ^ 64 - thrId + 1) % 2 ^ 64

theorem needed_eq {globalId thrId : ℕ} (hle : thrId ≤ globalId) (hlt : globalId < 2 ^ 32) :
    needed globalId thrId = globalId - thrId + 1 := by
  rw [needed]
  omega

def reset (g : GlobalMergeData p) : GlobalMergeData p := ⟨g.sketch.zeroContents,sizeMax,0⟩

def mergeGlobal (curRound : ℕ) (localSketch : Sketch p) (g : GlobalMergeData p) :
    GlobalMergeData p :=
  { g with
    sketch := g.sketch.rangeMerge localSketch curRound 1
    numMergeDone := g.numMergeDone + 1 }

def queryReady (g : GlobalMergeData p) : Bool := decide (g.numMergeNeeded ≤ g.numMergeDone)

end GlobalMergeData

inductive Pc (T : ℕ) where
  | head
  | ownQuery (queryReady : Bool)
  | switch
  | mergeLast (globalId : Fin T)
  | lastQuery (globalId : Fin T) (queryReady : Bool)
  | leave
  | done
deriving DecidableEq, Repr

structure Worker (n T : ℕ) (p : SketchParams) where
  localSketch : Sketch p
  pos : ℕ
  curRoot : Fin n
  rootFromLeft : Bool
  localErr : Option QueryError
  pc : Pc T

structure Call (n T : ℕ) (p : SketchParams) where
  thr : Fin T
  root : Fin n
  sketch : Sketch p

structure GlobalMerge (n T : ℕ) where
  slot : Fin T
  thr : Fin T
  root : Fin n
deriving DecidableEq, Repr

structure Round (n T : ℕ) (p : SketchParams) where
  query : QueryState n
  modified : Bool
  err : Option QueryError
  globals : Fin T → GlobalMergeData p
  workers : Fin T → Worker n T p
  calls : List (Call n T p)
  merges : List (GlobalMerge n T)

structure RoundInput (n T : ℕ) (p : SketchParams) where
  xxh : XxHash
  curRound : ℕ
  mergeInstr : Fin n → MergeInstr n
  sketches : Fin n → Sketch p
  fl : Rounding
  inBounds : InBounds fl n T
  vertices_lt : n < 2 ^ 32

namespace RoundInput

variable (I : RoundInput n T p)

def start (t : Fin T) : Fin n := ⟨(getIthPartition I.fl n t T).1,I.inBounds.start t t.isLt⟩

def stop (t : Fin T) : ℕ := (getIthPartition I.fl n t T).2

theorem stop_le (t : Fin T) : I.stop t ≤ n := I.inBounds.stop_le t t.isLt

def lastPartitionOfRoot (root minHint : Fin n) : Fin T :=
  ⟨findLastPartitionOfRoot I.fl T I.mergeInstr root minHint,I.inBounds.idx _ (Fin.isLt _)⟩

abbrev rootAt (i : Fin n) : Fin n := (I.mergeInstr i).root
abbrev childAt (i : Fin n) : Fin n := (I.mergeInstr i).child

def rootFromLeft (t : Fin T) : Bool :=
  if 0 < (I.start t : ℕ) then
    decide (I.rootAt ⟨I.start t - 1,by omega⟩ = I.rootAt (I.start t))
  else false

def rootExitsRight (t : Fin T) : Bool :=
  if h : I.stop t < n then
    decide (I.rootAt ⟨I.stop t - 1,by omega⟩ = I.rootAt ⟨I.stop t,h⟩)
  else false

def worker (t : Fin T) : Worker n T p where
  localSketch := Sketch.empty p
  pos := I.start t
  curRoot := I.rootAt (I.start t)
  rootFromLeft := I.rootFromLeft t
  localErr := none
  pc := .head

def begin (q : QueryState n) (globals : Fin T → GlobalMergeData p) : Round n T p where
  query := q
  modified := false
  err := none
  globals g := (globals g).reset
  workers := I.worker
  calls := []
  merges := []

end RoundInput

namespace Round

variable (I : RoundInput n T p) (s : Round n T p) (t : Fin T)

def setWorker (w : Worker n T p) : Round n T p :=
  { s with workers := Function.update s.workers t w }

def absorb (w : Worker n T p) (i : Fin n) : Worker n T p :=
  { w with
    localSketch := w.localSketch.rangeMerge (I.sketches (I.childAt i)) I.curRound 1
    pos := w.pos + 1
    pc := .head }

def switchRoot (w : Worker n T p) (i : Fin n) : Worker n T p :=
  absorb I { w with curRoot := I.rootAt i,localSketch := w.localSketch.zeroContents } i

def mergeInto (g : Fin T) (next : Bool → Pc T) : Round n T p :=
  let w := s.workers t
  let m := (s.globals g).mergeGlobal I.curRound w.localSketch
  { s with
    globals := Function.update s.globals g m
    merges := ⟨g,t,w.curRoot⟩ :: s.merges
    workers := Function.update s.workers t { w with pc := next m.queryReady } }

def sampleLocal (next : Pc T) : Round n T p :=
  let w := s.workers t
  let r := sampleSupernode I.xxh s.query w.localSketch
  { s with
    query := r.query
    modified := s.modified || r.modified
    calls := ⟨t,w.curRoot,w.localSketch⟩ :: s.calls
    workers := Function.update s.workers t
      { w with localSketch := r.skt,localErr := r.err.or w.localErr,pc := next } }

def sampleGlobal (g : Fin T) : Round n T p :=
  let w := s.workers t
  let r := sampleSupernode I.xxh s.query (s.globals g).sketch
  { s with
    query := r.query
    modified := s.modified || r.modified
    calls := ⟨t,w.curRoot,(s.globals g).sketch⟩ :: s.calls
    globals := Function.update s.globals g { s.globals g with sketch := r.skt }
    workers := Function.update s.workers t { w with localErr := r.err.or w.localErr } }

def queryGlobal (g : Fin T) (queryReady : Bool) : Round n T p :=
  if queryReady then s.sampleGlobal I t g else s

def setNeeded (g : Fin T) : Round n T p :=
  { s with
    globals := Function.update s.globals g
      { s.globals g with numMergeNeeded := GlobalMergeData.needed g t } }

def announce : Round n T p :=
  let w := s.workers t
  let g := I.lastPartitionOfRoot w.curRoot (I.start t)
  (if w.rootFromLeft then s else s.setNeeded t g).setWorker t { w with pc := .mergeLast g }

def finishOwn : Round n T p :=
  s.setWorker t { s.workers t with rootFromLeft := false,pc := .switch }

def setPc (pc : Pc T) : Round n T p := s.setWorker t { s.workers t with pc := pc }

def report : Round n T p :=
  { s with err := (s.workers t).localErr.or s.err }

def step : Round n T p :=
  let w := s.workers t
  match w.pc with
  | .head =>
    if h : w.pos < I.stop t then
      let i : Fin n := ⟨w.pos,h.trans_le (I.stop_le t)⟩
      if I.rootAt i = w.curRoot then s.setWorker t (absorb I w i)
      else if w.rootFromLeft then s.mergeInto I t t .ownQuery
      else s.sampleLocal I t .switch
    else if I.rootExitsRight t || w.rootFromLeft then s.announce I t
    else s.sampleLocal I t .leave
  | .ownQuery queryReady => (s.queryGlobal I t t queryReady).finishOwn t
  | .switch =>
    if h : w.pos < n then s.setWorker t (switchRoot I w ⟨w.pos,h⟩) else s
  | .mergeLast g => s.mergeInto I t g (.lastQuery g)
  | .lastQuery g queryReady => (s.queryGlobal I t g queryReady).setPc t .leave
  | .leave => (s.report t).setPc t .done
  | .done => s

def run (schedule : List (Fin T)) : Round n T p := schedule.foldl (step I) s

def Finished : Prop := ∀ t, (s.workers t).pc = .done

instance : Decidable s.Finished := inferInstanceAs (Decidable (∀ _, _))

end Round
end GraphZeppelin.Boruvka
