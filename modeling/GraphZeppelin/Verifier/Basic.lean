import GraphZeppelin.CC.KForests
import GraphZeppelin.Lib.Linking

namespace GraphZeppelin.Verifier
open Dsu CC

variable {n : ℕ}

-- row i of adj_matrix has num_vertices - i entries, entry j is edge (i, i + j)
abbrev Cell (n : ℕ) := Σ i : Fin n, Fin (n - i)

namespace Cell

def src (c : Cell n) : Fin n := c.1

def dst (c : Cell n) : Fin n := ⟨c.1 + c.2,by omega⟩

def ofLe (src dst : Fin n) (h : src ≤ dst) : Cell n := ⟨src,⟨dst - src,by omega⟩⟩

def ofEdge (e : Edge n) : Cell n :=
  if h : e.src > e.dst then ofLe e.dst e.src (le_of_lt h) else ofLe e.src e.dst (not_lt.mp h)

def all (n : ℕ) : List (Cell n) :=
  (List.finRange n).flatMap fun i => (List.finRange (n - i.val)).map fun j => (⟨i,j⟩ : Cell n)

end Cell

abbrev AdjMatrix (n : ℕ) := Cell n → Bool

inductive VerifierError where
  | badEdge (errMsg : String)
  | incorrectCC (errMsg : String)
  | incorrectForest (errMsg : String)
deriving DecidableEq, Repr

-- the class without atomics; it takes the steps that the atomic one takes on a single thread
-- (`DisjointSetUnionMT.findRoot_raw`, `DisjointSetUnionMT.merge_raw`)
abbrev DisjointSetUnion (n : ℕ) := DisjointSetUnionMT n

structure GraphVerifier (n : ℕ) where
  adjMatrix : AdjMatrix n
  kruskalDsu : DisjointSetUnion n
  kruskalCcs : ℕ
  needQueryCompute : Bool

namespace GraphVerifier

-- kruskal_ccs has no initialiser, so its first value is arbitrary.
def new (priority : Fin n → ℕ) (kruskalCcs : ℕ) : GraphVerifier n where
  adjMatrix _ := false
  kruskalDsu := .fresh priority
  kruskalCcs := kruskalCcs
  needQueryCompute := true

def copy (oth : GraphVerifier n) (kruskalCcs : ℕ) : GraphVerifier n where
  adjMatrix := oth.adjMatrix
  kruskalDsu := oth.kruskalDsu
  kruskalCcs := kruskalCcs
  needQueryCompute := true

def flip (adj : AdjMatrix n) (e : Edge n) : AdjMatrix n :=
  Function.update adj (.ofEdge e) (!adj (.ofEdge e))

def edgeUpdate (v : GraphVerifier n) (src dst : ℕ) : GraphVerifier n × Except VerifierError Unit :=
  if h : src < n ∧ dst < n then
    ({ v with
       adjMatrix := flip v.adjMatrix ⟨⟨src,h.1⟩,⟨dst,h.2⟩⟩
       needQueryCompute := true },.ok ())
  else
    (v,.error (.badEdge
      ("Source " ++ toString src ++ " or Destination " ++ toString dst ++ " out of bounds!")))

def kruskalMerge (adj : AdjMatrix n) (st : DisjointSetUnion n × ℕ) (c : Cell n) :
    DisjointSetUnion n × ℕ :=
  if adj c then
    let m := st.1.merge c.src c.dst
    (m.1,if m.2.merged then st.2 - 1 else st.2)
  else st

def kruskal (v : GraphVerifier n) : GraphVerifier n :=
  if v.needQueryCompute then
    let r := (Cell.all n).foldl (kruskalMerge v.adjMatrix) (v.kruskalDsu.reset,n)
    { v with kruskalDsu := r.1,kruskalCcs := r.2,needQueryCompute := false }
  else v

def ofCumulative (priority : Fin n → ℕ) (kruskalCcs : ℕ) (stream : List (Edge n)) :
    GraphVerifier n :=
  kruskal { new priority kruskalCcs with adjMatrix := stream.foldl flip fun _ => false }

def verifyEdge (v : GraphVerifier n) (e : Edge n) : Except VerifierError Unit :=
  if v.adjMatrix (.ofEdge e) then .ok ()
  else .error (.badEdge "The edge is not in the cut of the sample!")

def verifyRoots (cc : ConnectedComponents n) :
    List (Fin n) → GraphVerifier n → GraphVerifier n × Except VerifierError Unit
  | [], v => (v,.ok ())
  | i :: is, v =>
    let root := v.kruskalDsu.findRoot i
    let v := { v with kruskalDsu := root.1 }
    if cc.isConnected root.2 i then verifyRoots cc is v
    else (v,.error (.incorrectCC "Incorrect Connectivity!"))

def verifyConnectedComponents (v : GraphVerifier n) (cc : ConnectedComponents n) :
    GraphVerifier n × Except VerifierError Unit :=
  let v := v.kruskal
  if v.kruskalCcs ≠ cc.size then (v,.error (.incorrectCC "Incorrect number of components!"))
  else verifyRoots cc (List.finRange n) v

def restore (v : GraphVerifier n) (backup : AdjMatrix n) : GraphVerifier n :=
  { v with adjMatrix := backup }

def redundantEdge (e : Edge n) : VerifierError :=
  .incorrectForest ("Found an edge: (" ++ toString e.src.val ++ ", " ++ toString e.dst.val ++
    ") that is redundant within a single spanning forest!")

def verifyEdges (backup : AdjMatrix n) :
    List (Edge n) → GraphVerifier n → DisjointSetUnion n →
      GraphVerifier n × Except VerifierError (DisjointSetUnion n)
  | [], v, forestCcs => (v,.ok forestCcs)
  | e :: es, v, forestCcs =>
    let m := forestCcs.merge e.src e.dst
    if !m.2.merged then (v.restore backup,.error (redundantEdge e))
    else match v.verifyEdge e with
      | .error err => (v.restore backup,.error err)
      | .ok _ => verifyEdges backup es (v.edgeUpdate e.src e.dst).1 m.1

def verifyRootMap (backup : AdjMatrix n) :
    List (Fin n) → (Fin n → Option (Fin n)) → GraphVerifier n → DisjointSetUnion n →
      GraphVerifier n × Except VerifierError Unit
  | [], _, v, _ => (v,.ok ())
  | i :: is, rootMap, v, forestCcs =>
    let kruskalRoot := v.kruskalDsu.findRoot i
    let v := { v with kruskalDsu := kruskalRoot.1 }
    let forestRoot := forestCcs.findRoot i
    match rootMap kruskalRoot.2 with
    | none => verifyRootMap backup is
        (Function.update rootMap kruskalRoot.2 (some forestRoot.2)) v forestRoot.1
    | some root =>
      if root ≠ forestRoot.2 then
        (v.restore backup,.error (.incorrectForest "Forest does not match expected component sets!"))
      else verifyRootMap backup is rootMap v forestRoot.1

def verifyForest (backup : AdjMatrix n) (priority : Fin n → ℕ) (forest : SpanningForest n)
    (v : GraphVerifier n) : GraphVerifier n × Except VerifierError Unit :=
  match verifyEdges backup forest.edges v.kruskal (.fresh priority) with
  | (v,.error err) => (v,.error err)
  | (v,.ok forestCcs) => verifyRootMap backup (List.finRange n) (fun _ => none) v forestCcs

-- `priority k` are the random priorities of the k-th `forest_ccs` of the call.
def verifyForests (backup : AdjMatrix n) (priority : ℕ → Fin n → ℕ) :
    ℕ → List (SpanningForest n) → GraphVerifier n → GraphVerifier n × Except VerifierError Unit
  | _, [], v => (v.restore backup,.ok ())
  | k, forest :: SFs, v =>
    match verifyForest backup (priority k) forest v with
    | (v,.error err) => (v,.error err)
    | (v,.ok _) => verifyForests backup priority (k + 1) SFs v

def verifySpanningForests (v : GraphVerifier n) (priority : ℕ → Fin n → ℕ)
    (SFs : List (SpanningForest n)) : GraphVerifier n × Except VerifierError Unit :=
  verifyForests v.adjMatrix priority 0 SFs v

def combine (v oth : GraphVerifier n) : GraphVerifier n :=
  { v with adjMatrix := fun c => v.adjMatrix c != oth.adjMatrix c }

end GraphVerifier
end GraphZeppelin.Verifier
