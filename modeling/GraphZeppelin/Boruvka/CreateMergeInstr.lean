import GraphZeppelin.Dsu.Basic
import GraphZeppelin.Lib.FetchAdd
import GraphZeppelin.Boruvka.MergeInstr

namespace GraphZeppelin.Boruvka
open Dsu FetchAdd

variable {n T : ℕ}

structure CaptureOrder (n T : ℕ) where
  order : List (Fin T × Fin n)
  nodup : order.Nodup
  all : ∀ x, x ∈ order

def indices (lo hi : ℕ) : List (Fin n) :=
  (List.range' lo (hi - lo)).filterMap fun i => if h : i < n then some ⟨i,h⟩ else none

def partition (fl : Rounding) (n : ℕ) (t : Fin T) : List (Fin n) :=
  indices (getIthPartition fl n t T).1 (getIthPartition fl n t T).2

def findRoots (d : DisjointSetUnionMT n) (instr : Fin n → MergeInstr n) :
    DisjointSetUnionMT n × (Fin n → Fin n) :=
  d.findEach fun i => (instr i).child

def localCcs (fl : Rounding) (roots : Fin n → Fin n) (instr : Fin n → MergeInstr n) (t : Fin T) :
    Fin n → List (Fin n) :=
  (partition fl n t).foldl
    (fun ccs i => Function.update ccs (roots i) (ccs (roots i) ++ [(instr i).child])) fun _ => []

def present (ccs : Fin T → Fin n → List (Fin n)) (order : List (Fin T × Fin n)) :
    List (Fin T × Fin n) :=
  order.filter fun x => ccs x.1 x.2 ≠ []

def captures (ccs : Fin T → Fin n → List (Fin n)) (order : List (Fin T × Fin n)) :
    Counters (Fin T × Fin n) (Fin n) :=
  (present ccs order).foldl (capture Prod.snd fun x => (ccs x.1 x.2).length) zero

theorem pred_lt (i : Fin n) : i - 1 < n := lt_of_le_of_lt (Nat.sub_le i 1) i.isLt

def prefixAt (ccPrefix : Fin n → ℕ) (i : Fin n) : Fin n → ℕ :=
  Function.update ccPrefix i (ccPrefix i + ccPrefix ⟨i - 1,pred_lt i⟩)

def prefixPartition (fl : Rounding) (ccPrefix : Fin n → ℕ) (t : Fin T) : Fin n → ℕ :=
  (indices ((getIthPartition fl n t T).1 + 1) (getIthPartition fl n t T).2).foldl prefixAt ccPrefix

def prefixPartitions (fl : Rounding) (T : ℕ) (ccPrefix : Fin n → ℕ) : Fin n → ℕ :=
  (List.finRange T).foldl (prefixPartition fl) ccPrefix

def rangeSums (fl : Rounding) (T : ℕ) (ccPrefix : Fin n → ℕ) : ℕ → ℕ
  | 0 => 0
  | t + 1 =>
    let cur := (getIthPartition fl n t T).2 - 1
    (if h : cur < n then ccPrefix ⟨cur,h⟩ else 0) + rangeSums fl T ccPrefix t

def addRangeSum (fl : Rounding) (sums : ℕ → ℕ) (ccPrefix : Fin n → ℕ) (t : Fin T) : Fin n → ℕ :=
  if 0 < (t : ℕ) then
    (partition fl n t).foldl (fun pre i => Function.update pre i (pre i + sums t)) ccPrefix
  else ccPrefix

def finishPrefix (fl : Rounding) (T : ℕ) (ccPrefix : Fin n → ℕ) : Fin n → ℕ :=
  let pre := prefixPartitions fl T ccPrefix
  (List.finRange T).foldl (addRangeSum fl (rangeSums fl T pre)) pre

def placement (idx : Fin T × Fin n → ℕ) (ccPrefix : Fin n → ℕ) (x : Fin T × Fin n) : ℕ :=
  if 0 < (x.2 : ℕ) then idx x + ccPrefix ⟨x.2 - 1,by omega⟩ else idx x

def writes (ccs : Fin T → Fin n → List (Fin n)) (place : Fin T × Fin n → ℕ)
    (order : List (Fin T × Fin n)) : List (ℕ × MergeInstr n) :=
  (present ccs order).flatMap fun x =>
    (ccs x.1 x.2).zipIdx.map fun v => (place x + v.2,⟨x.2,v.1⟩)

def writeAt (instr : Fin n → MergeInstr n) (w : ℕ × MergeInstr n) :
    Option (Fin n → MergeInstr n) :=
  if h : w.1 < n then some (Function.update instr ⟨w.1,h⟩ w.2) else none

-- none stands for an access outside merge_instr or cc_prefix
def createMergeInstructions (fl : Rounding) (o : CaptureOrder n T) (d : DisjointSetUnionMT n)
    (instr : Fin n → MergeInstr n) :
    Option (DisjointSetUnionMT n × (Fin n → MergeInstr n)) :=
  if ∀ t < T, (getIthPartition fl n t T).2 ≤ n ∧ (0 < n → 0 < (getIthPartition fl n t T).2) then
    let found := findRoots d instr
    let ccs := localCcs fl found.2 instr
    let caps := captures ccs o.order
    let ccPrefix := finishPrefix fl T caps.total
    ((writes ccs (placement caps.offset ccPrefix) o.order).foldlM writeAt instr).map (found.1,·)
  else none

end GraphZeppelin.Boruvka
