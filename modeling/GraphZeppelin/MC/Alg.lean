import GraphZeppelin.CC.Alg

namespace GraphZeppelin.MC
open Dsu Boruvka CC

variable {n g T : ℕ} {p : SketchParams}

structure MCSketchAlg (n g : ℕ) (p : SketchParams) where
  updateLocked : Bool
  sketches : Fin g → Fin n → Sketch p
  query : QueryState n
  dsuValid : Bool
  sharedDsuValid : Bool
  lastQueryRounds : ℕ

def sortedAdjacency (sf : SpanningForest n) : List (Edge n) :=
  let swapped := sf.edges.map fun e => { src := e.dst,dst := e.src : Edge n }
  (sf.edges ++ swapped).mergeSort fun e f => e.src < f.src ∨ (e.src = f.src ∧ e.dst ≤ f.dst)

namespace MCSketchAlg

def new (g : ℕ) (p : SketchParams) (priority : Fin n → ℕ) : MCSketchAlg n g p where
  updateLocked := false
  sketches _ _ := Sketch.empty p
  query := ⟨.fresh priority,fun _ => ∅⟩
  dsuValid := false
  sharedDsuValid := false
  lastQueryRounds := 0

def kBoruvkaEmulation (E : QueryEnv n T) (a : MCSketchAlg n g p) (graphId : Fin g) :
    MCSketchAlg n g p × Option QueryError :=
  let r := boruvkaEmulation E (a.sketches graphId) a.query.dsu
  let a' := { a with
    updateLocked := true
    sketches := Function.update a.sketches graphId r.1.sketches
    query := r.1.query }
  match r.2 with
  | .returned => ({ a' with updateLocked := false,lastQueryRounds := r.1.roundNum },none)
  | .threw err => (a',some err)
  | .running => (a',some .outOfBounds)

def calcSpanningForest (E : QueryEnv n T) (o : ForestOrder n) (a : MCSketchAlg n g p)
    (graphId : Fin g) : MCSketchAlg n g p × SpanningForest n :=
  let a' := (a.kBoruvkaEmulation E graphId).1
  (a',.ofForest o a'.query.spanningForest)

def updateHalf (xxh : XxHash) (sketches : Fin n → Sketch p) (e : Edge n) : Fin n → Sketch p :=
  Function.update sketches e.src ((sketches e.src).update xxh (edgeIdx e.src e.dst))

def deleteForest (xxh : XxHash) (a : MCSketchAlg n g p) (graphId : Fin g) (sf : SpanningForest n) :
    MCSketchAlg n g p :=
  { a with
    dsuValid := false
    sharedDsuValid := false
    sketches := Function.update a.sketches graphId
      ((sortedAdjacency sf).foldl (updateHalf xxh) (a.sketches graphId)) }

structure ForestLoop (n g : ℕ) (p : SketchParams) where
  alg : MCSketchAlg n g p
  SFs : List (SpanningForest n)
  maxRounds : ℕ

def ForestLoop.step (Q : QueryRun n T) (graphId : Fin g) (s : ForestLoop n g p) (i : ℕ) :
    ForestLoop n g p :=
  let r := s.alg.calcSpanningForest (Q.env i) (Q.order i) graphId
  { alg := r.1.deleteForest Q.xxh graphId r.2
    SFs := s.SFs ++ [r.2]
    maxRounds := max r.1.lastQueryRounds s.maxRounds }

def forestLoop (Q : QueryRun n T) (a : MCSketchAlg n g p) (graphId : Fin g) (k : ℕ) :
    ForestLoop n g p :=
  (List.range k).foldl (ForestLoop.step Q graphId) ⟨a,[],0⟩

def calcDisjointSpanningForests (Q : QueryRun n T) (a : MCSketchAlg n g p) (graphId : Fin g)
    (k : ℕ) : MCSketchAlg n g p × List (SpanningForest n) :=
  let s := a.forestLoop Q graphId k
  ({ s.SFs.foldl (fun a sf => a.deleteForest Q.xxh graphId sf) s.alg with
      lastQueryRounds := s.maxRounds },s.SFs)

end MCSketchAlg
end GraphZeppelin.MC
