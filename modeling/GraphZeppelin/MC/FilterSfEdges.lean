import GraphZeppelin.Boruvka.MergeInstr
import GraphZeppelin.Lib.LockedUpdates
import GraphZeppelin.Lib.SortedRuns
import GraphZeppelin.MC.KForests

namespace GraphZeppelin.MC.Filter
open Boruvka CC LockedUpdates

variable {n T : ℕ} {p : SketchParams}

abbrev FilterAction (n : ℕ) := Action (Fin n) (Edge n)

-- Sketch::update is not atomic: the sketch is read, and written back with the index applied.
def applyUpdate (edge : Edge n) : List (FilterAction n) := [.load edge,.store edge]

def updateAt (edges : List (Edge n)) (i : ℕ) : List (FilterAction n) :=
  match edges[i]? with
  | some edge => applyUpdate edge
  | none => [.fault]

-- no result when the loop comes to read edges[edges.size()]
def moveStart (src : Fin n) : List (Edge n) → ℕ → List (FilterAction n) × Option ℕ
  | [], _ => ([],none)
  | edge :: edges, start =>
    if edge.src = src then
      let r := moveStart src edges (start + 1)
      (applyUpdate edge ++ r.1,r.2)
    else ([],some start)

def entryBefore (edges : List (Edge n)) : ℕ → Option (Edge n)
  | 0 => none
  | i + 1 => edges[i]?

-- no result when the loop comes to read edges[-1]
def moveStop (edges : List (Edge n)) (src : Fin n) : ℕ → List (FilterAction n) × Option ℕ
  | 0 => ([],none)
  | stop + 1 =>
    match edges[stop]? with
    | none => ([],none)
    | some edge =>
      if edge.src = src then
        let r := moveStop edges src stop
        (applyUpdate edge ++ r.1,r.2)
      else ([],some (stop + 1))

def locked (src : Fin n) (r : List (FilterAction n) × Option ℕ) :
    List (FilterAction n) × Option ℕ :=
  match r.2 with
  | none => (.lock src :: r.1,none)
  | some i => (.lock src :: (r.1 ++ [.unlock src]),some i)

def collidePrevious (edges : List (Edge n)) (start : ℕ) : List (FilterAction n) × Option ℕ :=
  if start > 0 then
    match edges[start]?,entryBefore edges start with
    | some edge,some previous =>
      if edge.src = previous.src then
        locked edge.src (moveStart edge.src (edges.drop start) start)
      else ([],some start)
    | _,_ => ([],none)
  else ([],some start)

def collideNext (edges : List (Edge n)) (stop : ℕ) : List (FilterAction n) × Option ℕ :=
  if stop < edges.length then
    match entryBefore edges stop,edges[stop]? with
    | some edge,some next =>
      if edge.src = next.src then locked edge.src (moveStop edges edge.src stop)
      else ([],some stop)
    | _,_ => ([],none)
  else ([],some stop)

def mainLoop (edges : List (Edge n)) (start stop : ℕ) : List (FilterAction n) :=
  (List.range' start (stop - start)).flatMap (updateAt edges)

-- ends at the first read outside edges
def threadActions (edges : List (Edge n)) (numThreads thrId : ℕ) : List (FilterAction n) :=
  let partition := getIthPartition .exact edges.length thrId numThreads
  let previous := collidePrevious edges partition.1
  match previous.2 with
  | none => previous.1 ++ [.fault]
  | some start =>
    let next := collideNext edges partition.2
    match next.2 with
    | none => previous.1 ++ (next.1 ++ [.fault])
    | some stop => previous.1 ++ (next.1 ++ mainLoop edges start stop)

def updateSketch (xxh : XxHash) (s : Sketch p) (edge : Edge n) : Sketch p :=
  s.update xxh (edgeIdx edge.src edge.dst)

abbrev FilterState (n T : ℕ) (p : SketchParams) := State (Fin T) (Fin n) (Edge n) (Sketch p)

def enter (T : ℕ) (sf : SpanningForest n) (sketches : Fin n → Sketch p) : FilterState n T p where
  cells := sketches
  owner _ := none
  rest t := threadActions (sortedAdjacency sf) T t
  copy _ := Sketch.empty p

def step (xxh : XxHash) : FilterState n T p → Fin T → Option (FilterState n T p) :=
  LockedUpdates.step (·.src) (updateSketch xxh)

def deleteEdge (xxh : XxHash) (sketches : Fin n → Sketch p) (e : Edge n) : Fin n → Sketch p :=
  MCSketchAlg.updateHalf xxh (MCSketchAlg.updateHalf xxh sketches e) ⟨e.dst,e.src⟩

def deleteEdges (xxh : XxHash) (sketches : Fin n → Sketch p) (sf : SpanningForest n) :
    Fin n → Sketch p := sf.edges.foldl (deleteEdge xxh) sketches

structure Exact (xxh : XxHash) (T : ℕ) (sf : SpanningForest n) (sketches : Fin n → Sketch p)
    (s : FilterState n T p) : Prop where
  inBounds : ∀ t r, s.rest t ≠ .fault :: r
  progress : (∃ t, s.rest t ≠ []) → ∃ t s', step xxh s t = some s'
  deleted : (∀ t, s.rest t = []) → s.cells = deleteEdges xxh sketches sf

end GraphZeppelin.MC.Filter
