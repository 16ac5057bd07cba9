import GraphZeppelin.Graph.Pairing

namespace GraphZeppelin

structure SubgraphTaggedUpdate (n : ℕ) where
  subgraph : ℕ
  dst : Fin n
deriving DecidableEq, Repr

namespace SubgraphTaggedUpdate

variable {n : ℕ}

def lt (a b : SubgraphTaggedUpdate n) : Bool :=
  if a.subgraph = b.subgraph then a.dst < b.dst else a.subgraph < b.subgraph

def gt (a b : SubgraphTaggedUpdate n) : Bool :=
  if a.subgraph = b.subgraph then a.dst > b.dst else a.subgraph > b.subgraph

theorem eq_of_not_lt_gt {a b : SubgraphTaggedUpdate n} (hg : a.gt b = false) (hl : a.lt b = false) :
    a = b := by
  obtain ⟨s,d⟩ := a
  obtain ⟨s',d'⟩ := b
  simp only [gt,lt] at hg hl
  split at hg
  · next hs =>
    rw [if_pos hs] at hl
    simp only [decide_eq_false_iff_not,not_lt] at hg hl
    rw [SubgraphTaggedUpdate.mk.injEq]
    exact ⟨hs,le_antisymm hg hl⟩
  · next hs =>
    rw [if_neg hs] at hl
    simp only [decide_eq_false_iff_not,not_lt] at hg hl
    exact absurd (le_antisymm hg hl) hs

end SubgraphTaggedUpdate

structure TaggedUpdateBatch (n : ℕ) where
  src : Fin n
  minSubgraph : ℕ
  firstEsSubgraph : ℕ
  dstsData : List (SubgraphTaggedUpdate n)
deriving DecidableEq, Repr

structure EdgeStore (n : ℕ) where
  maxEdges : ℕ
  curSubgraph : ℕ
  trueMinSubgraph : ℕ
  numEdges : ℕ
  needsContraction : ℕ
  adjlist : Fin n → List (SubgraphTaggedUpdate n)
  vertexContracted : Fin n → Bool

inductive StoreError where
  | outOfBounds
  | running
deriving DecidableEq, Repr

namespace EdgeStore

variable {n : ℕ}

def new (n maxEdges startSubgraph needsContraction : ℕ) : EdgeStore n where
  maxEdges := maxEdges
  curSubgraph := startSubgraph
  trueMinSubgraph := startSubgraph
  numEdges := 0
  needsContraction := needsContraction
  adjlist _ := []
  vertexContracted _ := true

def contractInProgress (s : EdgeStore n) : Prop := s.trueMinSubgraph < s.curSubgraph

instance (s : EdgeStore n) : Decidable s.contractInProgress := inferInstanceAs (Decidable (_ < _))

def setBuffer (s : EdgeStore n) (src : Fin n) (data : List (SubgraphTaggedUpdate n)) :
    EdgeStore n :=
  { s with
    adjlist := Function.update s.adjlist src data
    numEdges := ((s.numEdges + data.length - (s.adjlist src).length : ℤ) % 2 ^ 64).toNat }

def markContracted (s : EdgeStore n) (src : Fin n) : EdgeStore n :=
  { s with vertexContracted := Function.update s.vertexContracted src true }

def vertexContract (s : EdgeStore n) (src : Fin n) :
    EdgeStore n × List (SubgraphTaggedUpdate n) :=
  if s.vertexContracted src then (s,[])
  else
    let data := s.adjlist src
    ((s.markContracted src).setBuffer src (data.filter fun e => s.curSubgraph ≤ e.subgraph),data)

def mergeUpdates : List (SubgraphTaggedUpdate n) → List (SubgraphTaggedUpdate n) →
    List (SubgraphTaggedUpdate n)
  | [], us => us
  | b :: bs, [] => b :: bs
  | b :: bs, u :: us =>
    if b.gt u then u :: mergeUpdates bs (b :: us)
    else if b.lt u then b :: mergeUpdates bs (u :: us)
    else mergeUpdates bs us

def skipStale (cur : ℕ) : List (SubgraphTaggedUpdate n) → Option (List (SubgraphTaggedUpdate n))
  | [] => none
  | u :: us => if u.subgraph < cur then skipStale cur us else some (u :: us)

def sortUpdates (dstData : List (SubgraphTaggedUpdate n)) : List (SubgraphTaggedUpdate n) :=
  dstData.mergeSort fun a b => !b.lt a

structure Inserted (n : ℕ) where
  store : EdgeStore n
  cur : ℕ
  ret : List (SubgraphTaggedUpdate n)

def insertLocked (s : EdgeStore n) (src : Fin n) (callerFirstEsSubgraph : ℕ)
    (dstData : List (SubgraphTaggedUpdate n)) : Except StoreError (Inserted n) :=
  let cur := s.curSubgraph
  let r := if s.trueMinSubgraph < cur ∧ s.vertexContracted src = false then s.vertexContract src
    else (s,[])
  let ret := if callerFirstEsSubgraph < cur then r.2 ++ dstData else r.2
  match skipStale cur dstData with
  | none => .error .outOfBounds
  | some us => .ok ⟨r.1.setBuffer src (mergeUpdates (r.1.adjlist src) us),cur,ret⟩

def fetchContraction (s : EdgeStore n) : EdgeStore n × ℕ :=
  ({ s with needsContraction := (s.needsContraction + 1) % 2 ^ 32 },s.needsContraction)

def finishContraction (s : EdgeStore n) : EdgeStore n :=
  { s with trueMinSubgraph := s.trueMinSubgraph + 1 }

def needsContract (s : EdgeStore n) (src : Fin n) : Bool :=
  !(s.adjlist src).isEmpty && !s.vertexContracted src

def vertexAdvanceLoop [NeZero n] (curFirstEsSubgraph : ℕ) : ℕ → EdgeStore n →
    Except StoreError (EdgeStore n × TaggedUpdateBatch n)
  | 0, _ => .error .running
  | fuel + 1, s =>
    let f := s.fetchContraction
    if h : f.2 < n then
      if f.1.needsContract ⟨f.2,h⟩ then
        let r := f.1.vertexContract ⟨f.2,h⟩
        .ok (r.1,⟨⟨f.2,h⟩,curFirstEsSubgraph - 1,curFirstEsSubgraph,r.2⟩)
      else vertexAdvanceLoop curFirstEsSubgraph fuel (f.1.markContracted ⟨f.2,h⟩)
    else
      let s' := if f.2 = n then f.1.finishContraction else f.1
      .ok (s',⟨0,curFirstEsSubgraph - 1,curFirstEsSubgraph,[]⟩)

def vertexAdvanceSubgraph [NeZero n] (s : EdgeStore n) (curFirstEsSubgraph : ℕ) :
    Except StoreError (EdgeStore n × TaggedUpdateBatch n) :=
  vertexAdvanceLoop curFirstEsSubgraph (n + 1) s

def beginContraction (s : EdgeStore n) : EdgeStore n :=
  if s.trueMinSubgraph < s.curSubgraph then s
  else
    { s with
      vertexContracted := fun _ => false
      needsContraction := 0
      curSubgraph := s.curSubgraph + 1 }

def checkIfTooBig (s : EdgeStore n) : EdgeStore n :=
  if s.numEdges < s.maxEdges then s else s.beginContraction

def insertAdjEdges [NeZero n] (s : EdgeStore n) (src : Fin n) (callerFirstEsSubgraph : ℕ)
    (dstData : List (SubgraphTaggedUpdate n)) :
    Except StoreError (EdgeStore n × TaggedUpdateBatch n) :=
  if dstData = [] then .ok (s,⟨src,s.curSubgraph - 1,s.curSubgraph,[]⟩)
  else
    match s.insertLocked src callerFirstEsSubgraph (sortUpdates dstData) with
    | .error err => .error err
    | .ok r =>
      if r.ret = [] ∧ r.store.trueMinSubgraph < r.cur then r.store.vertexAdvanceSubgraph r.cur
      else .ok (r.store.checkIfTooBig,⟨src,r.cur - 1,r.cur,r.ret⟩)

def tagUpdates (xxh : XxHash) (seed : BitVec 64) (maxDepth : ℕ) (src : Fin n)
    (dstVertices : List (Fin n)) : List (SubgraphTaggedUpdate n) :=
  dstVertices.map fun dst => ⟨Bucket.getIndexDepth xxh (edgeIdx src dst) seed maxDepth,dst⟩

def insertAdjVertices [NeZero n] (xxh : XxHash) (seed : BitVec 64) (numSubgraphs : ℕ)
    (s : EdgeStore n) (src : Fin n) (dstVertices : List (Fin n)) :
    Except StoreError (EdgeStore n × TaggedUpdateBatch n) :=
  s.insertAdjEdges src 0 (tagUpdates xxh seed numSubgraphs src dstVertices)

def entries (s : EdgeStore n) (v u : Fin n) : ℕ := (s.adjlist v).countP fun e => e.dst = u

end EdgeStore

def TaggedUpdateBatch.reaches {n : ℕ} (b : TaggedUpdateBatch n) (g : ℕ) (v u : Fin n) : ℕ :=
  if b.src = v then
    b.dstsData.countP fun e =>
      e.dst = u ∧ b.minSubgraph ≤ g ∧ g ≤ min e.subgraph (b.firstEsSubgraph - 1)
  else 0

end GraphZeppelin
