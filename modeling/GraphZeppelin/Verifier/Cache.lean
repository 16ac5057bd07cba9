import GraphZeppelin.Verifier.Exact

namespace GraphZeppelin.Verifier
open Dsu CC

variable {n : ℕ}

inductive VerifierOp (n : ℕ) where
  | edgeUpdate (src dst : ℕ)
  | combine (oth : GraphVerifier n)
  | verifyConnectedComponents (cc : ConnectedComponents n)
  | verifySpanningForests (priority : ℕ → Fin n → ℕ) (SFs : List (SpanningForest n))

def SameComponents (G H : SimpleGraph (Fin n)) : Prop := ∀ a b, G.Reachable a b ↔ H.Reachable a b

namespace GraphVerifier

-- A thrown exception is caught by the caller, so only the state goes on.
def apply (v : GraphVerifier n) : VerifierOp n → GraphVerifier n
  | .edgeUpdate src dst => (v.edgeUpdate src dst).1
  | .combine oth => v.combine oth
  | .verifyConnectedComponents cc => (v.verifyConnectedComponents cc).1
  | .verifySpanningForests priority SFs => (v.verifySpanningForests priority SFs).1

def run (v : GraphVerifier n) (ops : List (VerifierOp n)) : GraphVerifier n := ops.foldl apply v

-- combine leaves a result that was marked for recomputation or keeps the components, and the last
-- forest that verify_spanning_forests looks at has its first edge taken, which sets the flag, or is
-- checked in a graph with the components of the restored one
def Safe (v : GraphVerifier n) : VerifierOp n → Prop
  | .edgeUpdate _ _ => True
  | .verifyConnectedComponents _ => True
  | .combine oth => v.needQueryCompute = true ∨
      SameComponents (graph v.adjMatrix) (graph fun c => v.adjMatrix c != oth.adjMatrix c)
  | .verifySpanningForests _ SFs => ∀ j (hj : j < SFs.length), StopsAt (graph v.adjMatrix) SFs j hj →
      Taken (residual (graph v.adjMatrix) (SFs.take j)) SFs[j] ∨
        SameComponents (residual (graph v.adjMatrix) (SFs.take j)) (graph v.adjMatrix)

theorem StopsAt.unique {G : SimpleGraph (Fin n)} {SFs : List (SpanningForest n)} {i j : ℕ}
    {hi : i < SFs.length} {hj : j < SFs.length} (h : StopsAt G SFs i hi) (h' : StopsAt G SFs j hj) :
    i = j := by
  rcases lt_trichotomy i j with hlt | heq | hlt
  · rcases h.last with hlast | hno
    · omega
    · exact absurd (h'.before i hlt) hno
  · exact heq
  · rcases h'.last with hlast | hno
    · omega
    · exact absurd (h.before j hlt) hno

theorem Describes.iff_same {v : GraphVerifier n} {G H : SimpleGraph (Fin n)} (h : v.Describes G) :
    v.Describes H ↔ SameComponents G H := by
  constructor
  · exact fun h' a b => (h.dsu a b).symm.trans (h'.dsu a b)
  · intro hs
    refine ⟨fun a b => (h.dsu a b).trans (hs a b),h.ccs.trans ?_⟩
    exact SpanningForest.card_components_congr hs

theorem Fresh.edgeUpdate {v : GraphVerifier n} (h : v.Fresh) (src dst : ℕ) :
    (v.edgeUpdate src dst).1.Fresh := by
  rw [GraphVerifier.edgeUpdate]
  split
  · exact fresh_of_need rfl
  · exact h

theorem Fresh.verifyConnectedComponents {v : GraphVerifier n} (h : v.Fresh)
    (cc : ConnectedComponents n) : (v.verifyConnectedComponents cc).1.Fresh := by
  have hcomp := verifyConnectedComponents_compressed v cc
  intro _
  rw [hcomp.adjMatrix,kruskal_adjMatrix]
  exact hcomp.describes h.kruskal

theorem Fresh.combine_iff {v : GraphVerifier n} (h : v.Fresh) (oth : GraphVerifier n) :
    (v.combine oth).Fresh ↔ v.Safe (.combine oth) := by
  cases hneed : v.needQueryCompute with
  | true => exact iff_of_true (fresh_of_need hneed) (.inl hneed)
  | false =>
    have hd : (v.combine oth).Describes (graph v.adjMatrix) := ⟨(h hneed).dsu,(h hneed).ccs⟩
    have hfresh : (v.combine oth).Fresh ↔
        SameComponents (graph v.adjMatrix) (graph (v.combine oth).adjMatrix) := by
      rw [← hd.iff_same]
      exact ⟨fun hf => hf hneed,fun hf _ => hf⟩
    rw [hfresh,Safe,or_iff_right (by simp [hneed])]
    rfl

theorem Fresh.verifySpanningForests_iff {v : GraphVerifier n} (h : v.Fresh)
    (priority : ℕ → Fin n → ℕ) (SFs : List (SpanningForest n)) :
    (v.verifySpanningForests priority SFs).1.Fresh ↔
      v.Safe (.verifySpanningForests priority SFs) := by
  have hrun := h.verifyForests v.adjMatrix priority 0 SFs
  change (GraphVerifier.verifyForests v.adjMatrix priority 0 SFs v).1.Fresh ↔ _
  by_cases hne : SFs = []
  · subst hne
    exact iff_of_true h fun j hj => absurd hj (Nat.not_lt_zero j)
  · obtain ⟨j,hj,hstop,hdesc,hneed⟩ := hrun.cache hne
    generalize GraphVerifier.verifyForests v.adjMatrix priority 0 SFs v = r at hrun hdesc hneed
    have hfresh : r.1.Fresh ↔ Taken (residual (graph v.adjMatrix) (SFs.take j)) SFs[j] ∨
        SameComponents (residual (graph v.adjMatrix) (SFs.take j)) (graph v.adjMatrix) := by
      rw [← hneed,← hdesc.iff_same,Fresh,hrun.adjMatrix]
      cases r.1.needQueryCompute <;> simp
    rw [hfresh,Safe]
    constructor
    · intro hs i hi hstop'
      obtain rfl := hstop'.unique hstop
      exact hs
    · exact fun hs => hs j hj hstop

theorem Fresh.apply_iff {v : GraphVerifier n} (h : v.Fresh) (op : VerifierOp n) :
    (v.apply op).Fresh ↔ v.Safe op := by
  cases op with
  | edgeUpdate src dst => exact iff_of_true (h.edgeUpdate src dst) trivial
  | combine oth => exact h.combine_iff oth
  | verifyConnectedComponents cc => exact iff_of_true (h.verifyConnectedComponents cc) trivial
  | verifySpanningForests priority SFs => exact h.verifySpanningForests_iff priority SFs

theorem run_append (v : GraphVerifier n) (ops ops' : List (VerifierOp n)) :
    v.run (ops ++ ops') = (v.run ops).run ops' := List.foldl_append

theorem Fresh.run_iff {v : GraphVerifier n} (h : v.Fresh) (ops : List (VerifierOp n)) :
    (∀ k ≤ ops.length, (v.run (ops.take k)).Fresh) ↔
      ∀ k (hk : k < ops.length), (v.run (ops.take k)).Safe ops[k] := by
  have hstep (k : ℕ) (hk : k < ops.length) :
      v.run (ops.take (k + 1)) = (v.run (ops.take k)).apply ops[k] := by
    rw [List.take_add_one,List.getElem?_eq_getElem hk,run_append]
    rfl
  constructor
  · intro hall k hk
    have hnext := hall (k + 1) hk
    rw [hstep k hk,(hall k (le_of_lt hk)).apply_iff] at hnext
    exact hnext
  · intro hsafe k
    induction k with
    | zero => exact fun _ => h
    | succ k ih =>
      intro hk
      rw [hstep k hk,(ih (le_of_lt hk)).apply_iff]
      exact hsafe k hk

inductive Constructed : GraphVerifier n → Prop
  | new (priority : Fin n → ℕ) (ccs : ℕ) : Constructed (.new priority ccs)
  | ofCumulative (priority : Fin n → ℕ) (ccs : ℕ) (stream : List (Edge n)) :
      Constructed (.ofCumulative priority ccs stream)
  | copy (oth : GraphVerifier n) (ccs : ℕ) : Constructed (oth.copy ccs)

theorem Constructed.fresh {v : GraphVerifier n} (h : v.Constructed) : v.Fresh := by
  cases h with
  | new priority ccs => exact fresh_new priority ccs
  | ofCumulative priority ccs stream => exact fresh_ofCumulative priority ccs stream
  | copy oth ccs => exact fresh_copy oth ccs

theorem cache_fresh_iff {v : GraphVerifier n} (h : v.Constructed) (ops : List (VerifierOp n)) :
    (∀ k ≤ ops.length, (v.run (ops.take k)).Fresh) ↔
      ∀ k (hk : k < ops.length), (v.run (ops.take k)).Safe ops[k] :=
  h.fresh.run_iff ops

def pairForests : List (SpanningForest 2) :=
  [⟨[⟨⟨0,Nat.zero_lt_two⟩,⟨1,Nat.one_lt_two⟩⟩]⟩,⟨[]⟩]

def forestOps : List (VerifierOp 2) :=
  [.edgeUpdate 0 1,.verifySpanningForests (fun _ _ => 0) pairForests]

def combineOps : List (VerifierOp 2) :=
  [.verifySpanningForests (fun _ _ => 0) [⟨[]⟩],.combine pairVerifier]

theorem not_fresh_of_split {v : GraphVerifier 2} (hneed : v.needQueryCompute = false)
    (hadj : (graph v.adjMatrix).Adj 0 1) (hrep : v.kruskalDsu.rep 0 ≠ v.kruskalDsu.rep 1) :
    ¬ v.Fresh :=
  fun h => hrep (((h hneed).dsu 0 1).mpr hadj.reachable)

theorem cache_stale :
    (((new (fun _ => 0) 7).edgeUpdate 0 1).1.verifySpanningForests (fun _ _ => 0) pairForests).2
      = .ok () ∧
    ¬ ((new (fun _ => 0) 7).run forestOps).Fresh ∧ ¬ ((new (fun _ => 0) 7).run combineOps).Fresh :=
  ⟨by decide,
    not_fresh_of_split (by decide) (by decide) (by decide),
    not_fresh_of_split (by decide) (by decide) (by decide)⟩

-- the update before combine has marked the result, and the only forest has its first edge taken
def checkedOps : List (VerifierOp 2) :=
  [.edgeUpdate 0 1,.combine (new (fun _ => 0) 7),
    .verifySpanningForests (fun _ _ => 0) (pairForests.take 1),.edgeUpdate 1 0]

theorem cache_fresh_pair :
    (∀ k ≤ checkedOps.length, ((new (fun _ => 0) 7).run (checkedOps.take k)).Fresh) ∧
    ¬ ∀ k (hk : k < forestOps.length),
      ((new (fun _ => 0) 7).run (forestOps.take k)).Safe forestOps[k] := by
  constructor
  · refine (cache_fresh_iff (.new (fun _ => 0) 7) checkedOps).mpr fun k hk => ?_
    match k with
    | 0 => trivial
    | 1 => exact .inl (by decide)
    | 2 =>
      intro j hj _
      obtain rfl : j = 0 := Nat.lt_one_iff.mp hj
      refine .inl ⟨⟨0,1⟩,rfl,?_⟩
      rw [List.take_zero,residual_nil]
      decide
    | 3 => trivial
  · exact fun h => not_fresh_of_split (v := (new (fun _ => 0) 7).run forestOps) (by decide)
      (by decide) (by decide)
      ((cache_fresh_iff (.new (fun _ => 0) 7) forestOps).mpr h 2 le_rfl)

end GraphVerifier
end GraphZeppelin.Verifier
