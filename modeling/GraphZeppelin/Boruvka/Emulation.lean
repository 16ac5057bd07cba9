import GraphZeppelin.Boruvka.CreateMergeInstr
import GraphZeppelin.Boruvka.Round

namespace GraphZeppelin.Boruvka
open Dsu

variable {n T : ℕ} {p : SketchParams}

structure Schedule (n T : ℕ) where
  roundZero : List (Fin n)
  roundZero_perm : roundZero.Perm (List.finRange n)
  workers : ℕ → List (Fin T)
  workers_fair : ∀ r t, 3 * n + 5 ≤ (workers r).count t
  captures : ℕ → CaptureOrder n T

structure QueryEnv (n T : ℕ) where
  xxh : XxHash
  schedule : Schedule n T
  fl : Rounding
  threads_pos : 0 < T
  vertices_lt : n < 2 ^ 32

structure RoundZero (n : ℕ) (p : SketchParams) where
  sketches : Fin n → Sketch p
  query : QueryState n
  modified : Bool
  err : Option QueryError

def sampleVertex (xxh : XxHash) (z : RoundZero n p) (i : Fin n) : RoundZero n p :=
  let r := sampleSupernode xxh z.query (z.sketches i)
  { sketches := Function.update z.sketches i r.skt
    query := r.query
    modified := z.modified || r.modified
    err := r.err.or z.err }

def runRoundZero (xxh : XxHash) (order : List (Fin n)) (sketches : Fin n → Sketch p)
    (q : QueryState n) : RoundZero n p :=
  order.foldl (sampleVertex xxh) ⟨sketches,q,false,none⟩

structure Emulation (n T : ℕ) (p : SketchParams) where
  sketches : Fin n → Sketch p
  query : QueryState n
  mergeInstr : Fin n → MergeInstr n
  globalMerges : Fin T → GlobalMergeData p
  roundNum : ℕ

def rethrow (err : Option QueryError) (modified : Bool) : Except QueryError Bool :=
  match err with
  | some e => .error e
  | none => .ok modified

variable (E : QueryEnv n T)

def roundInput (h : InBounds E.fl n T) (e : Emulation n T p) : RoundInput n T p where
  xxh := E.xxh
  curRound := e.roundNum
  mergeInstr := e.mergeInstr
  sketches := e.sketches
  fl := E.fl
  inBounds := h
  vertices_lt := E.vertices_lt

def runRound (h : InBounds E.fl n T) (e : Emulation n T p) : Round n T p :=
  ((roundInput E h e).begin e.query e.globalMerges).run (roundInput E h e)
    (E.schedule.workers e.roundNum)

def performBoruvkaRound (e : Emulation n T p) : Emulation n T p × Except QueryError Bool :=
  if e.roundNum = 0 then
    let z := runRoundZero E.xxh E.schedule.roundZero e.sketches e.query
    ({ e with sketches := z.sketches,query := z.query },rethrow z.err z.modified)
  else if h : InBounds E.fl n T then
    let s := runRound E h e
    ({ e with query := s.query,globalMerges := s.globals },rethrow s.err s.modified)
  else (e,.error .outOfBounds)

inductive Ended where
  | returned
  | threw (err : QueryError)
  | running
deriving DecidableEq, Repr

def boruvkaLoop : ℕ → Emulation n T p → Emulation n T p × Ended
  | 0, e => (e,.running)
  | fuel + 1, e =>
    match performBoruvkaRound E e with
    | (e',.error err) => (e',.threw err)
    | (e',.ok false) => (e',.returned)
    | (e',.ok true) =>
      match createMergeInstructions E.fl (E.schedule.captures e'.roundNum) e'.query.dsu
        e'.mergeInstr with
      | none => (e',.threw .outOfBounds)
      | some (dsu,mergeInstr) =>
        boruvkaLoop fuel { e' with
          query := { e'.query with dsu := dsu }
          mergeInstr := mergeInstr
          roundNum := e'.roundNum + 1 }

def startEmulation (T : ℕ) (sketches : Fin n → Sketch p) (dsu : DisjointSetUnionMT n) :
    Emulation n T p where
  sketches := sketches
  query := ⟨dsu.reset,fun _ => ∅⟩
  mergeInstr i := ⟨i,i⟩
  globalMerges _ := ⟨Sketch.empty p,GlobalMergeData.sizeMax,0⟩
  roundNum := 0

def boruvkaEmulation (sketches : Fin n → Sketch p) (dsu : DisjointSetUnionMT n) :
    Emulation n T p × Ended :=
  boruvkaLoop E (p.numSamples + 1) (startEmulation T sketches dsu)

end GraphZeppelin.Boruvka
