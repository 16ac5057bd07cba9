import GraphZeppelin.Boruvka.SampledRounds

namespace GraphZeppelin.Boruvka
open Dsu QueryState SpanningForest Sketch

variable {n T : ℕ} {p : SketchParams} {E : QueryEnv n T} {G : SimpleGraph (Fin n)}
  [DecidableRel G.Adj] {e e' : Emulation n T p}

def NextRound (E : QueryEnv n T) (e e' : Emulation n T p) : Prop :=
  (performBoruvkaRound E e).2 = .ok true ∧ ∃ dsu mergeInstr,
    createMergeInstructions E.fl (E.schedule.captures (performBoruvkaRound E e).1.roundNum)
      (performBoruvkaRound E e).1.query.dsu (performBoruvkaRound E e).1.mergeInstr =
        some (dsu,mergeInstr) ∧
    e' = { (performBoruvkaRound E e).1 with
      query := { (performBoruvkaRound E e).1.query with dsu := dsu }
      mergeInstr := mergeInstr
      roundNum := (performBoruvkaRound E e).1.roundNum + 1 }

abbrev Rounds (E : QueryEnv n T) : Emulation n T p → Emulation n T p → Prop :=
  Relation.ReflTransGen (NextRound E)

theorem rounds_of_last (h : (performBoruvkaRound E e).2 ≠ .ok true) :
    Rounds E e e' ↔ e' = e := by
  constructor
  · intro hrun
    rcases Relation.ReflTransGen.cases_head_iff.mp hrun with rfl | ⟨_,hnext,_⟩
    · rfl
    · exact absurd hnext.1 h
  · rintro rfl
    exact .refl

theorem rounds_of_next {e₁ : Emulation n T p} (h : NextRound E e e₁) :
    Rounds E e e' ↔ e' = e ∨ Rounds E e₁ e' := by
  rw [Rounds,Relation.ReflTransGen.cases_head_iff,eq_comm]
  refine or_congr_right ⟨?_,fun hrun => ⟨e₁,h,hrun⟩⟩
  rintro ⟨e₂,⟨_,dsu₂,instr₂,hrun₂,rfl⟩,hrun⟩
  obtain ⟨_,dsu₁,instr₁,hrun₁,rfl⟩ := h
  obtain ⟨rfl,rfl⟩ := Prod.mk.inj (Option.some.inj (hrun₁.symm.trans hrun₂))
  exact hrun

theorem forall_rounds_of_last {P : Emulation n T p → Prop}
    (h : (performBoruvkaRound E e).2 ≠ .ok true) : (∀ e', Rounds E e e' → P e') ↔ P e := by
  simp only [rounds_of_last h,forall_eq]

theorem forall_rounds_of_next {P : Emulation n T p → Prop} {e₁ : Emulation n T p}
    (h : NextRound E e e₁) :
    (∀ e', Rounds E e e' → P e') ↔ P e ∧ ∀ e', Rounds E e₁ e' → P e' := by
  simp only [rounds_of_next h,or_imp,forall_and,forall_eq]

theorem rounds_zero {e₀ : Emulation n T p} (h : Rounds E e₀ e) (h0 : e.roundNum = 0) : e = e₀ := by
  rcases Relation.ReflTransGen.cases_tail h with rfl | ⟨_,_,hnext⟩
  · rfl
  · obtain ⟨_,_,_,_,rfl⟩ := hnext
    exact absurd h0 (Nat.succ_ne_zero _)

-- the summed sketch of every supernode is zero, so that a round has nothing to sample
def NothingLeft (e : Emulation n T p) : Prop :=
  ∀ v, (∑ u ∈ classOf e.query (e.query.dsu.rep v), (e.sketches u).buckets) p.detBucket = 0

theorem EmulationInv.spanning_iff (h : EmulationInv E G e)
    (hcf : ∀ A, CollisionFree E.xxh p (cutEdges G A)) :
    IsSpanningForest G (forestGraph e.query.spanningForest) ↔ NothingLeft e := by
  have hcomplete := complete_iff (K := forestGraph e.query.spanningForest) E.vertices_lt
    h.sketches hcf
  have hleft : NothingLeft e ↔ Complete e.sketches (forestGraph e.query.spanningForest) := by
    refine forall_congr' fun v => ?_
    rw [component_classOf h.forest.rep v]
  rw [hleft,hcomplete]
  constructor
  · intro hspan u v huv
    exact (hspan.spans u v).mpr huv
  · intro hall
    exact ⟨h.forest.sub,h.forest.acyclic,fun u v => ⟨fun huv => huv.mono h.forest.sub,hall u v⟩⟩

structure Verdict (E : QueryEnv n T) (G : SimpleGraph (Fin n)) (e : Emulation n T p)
    (res : Emulation n T p × Ended) : Prop where
  returned : res.2 = .returned ↔ ∀ e', Rounds E e e' → Supplied e'
  forest : ForestInv G res.1.query
  spanning : IsSpanningForest G (forestGraph res.1.query.spanningForest) ↔
    ∀ e', Rounds E e e' → Supplied e' ∨ NothingLeft e'

theorem boruvkaLoop_verdict (hE : E.Consistent ∨ G = ⊥)
    (hcf : ∀ A, CollisionFree E.xxh p (cutEdges G A)) (fuel : ℕ) (h : EmulationInv E G e)
    (h0 : e.roundNum = 0 → Supplied e) (hfuel : p.numSamples + 1 ≤ fuel + e.roundNum) :
    Verdict E G e (boruvkaLoop E fuel e) := by
  induction fuel generalizing e with
  | zero =>
    have hle := h.le
    omega
  | succ fuel ih =>
    by_cases hsup : Supplied e
    · obtain ⟨m,hm,hforest,hcorrect⟩ := h.round_ok hcf hsup
      cases m with
      | false =>
        have hlast : (performBoruvkaRound E e).2 ≠ .ok true := by
          rw [hm]
          decide
        rw [boruvkaLoop_returned hm]
        refine ⟨?_,hforest,?_⟩
        · rw [forall_rounds_of_last hlast]
          exact iff_of_true rfl hsup
        · rw [forall_rounds_of_last hlast]
          exact iff_of_true (hcorrect rfl).forest (.inl hsup)
      | true =>
        have hE' : E.Consistent := by
          by_cases h0 : e.roundNum = 0
          · exact hE.resolve_right fun hG => absurd (h.round_empty hG h0 hsup hm) (by decide)
          · exact h.parts h0
        obtain ⟨dsu,mergeInstr,hrun,_,hinv⟩ := h.next hE' hsup hforest
        have hnext : NextRound E e { (performBoruvkaRound E e).1 with
            query := { (performBoruvkaRound E e).1.query with dsu := dsu }
            mergeInstr := mergeInstr
            roundNum := (performBoruvkaRound E e).1.roundNum + 1 } :=
          ⟨hm,dsu,mergeInstr,hrun,rfl⟩
        have hnum := (performBoruvkaRound_frame E (e := e)).num
        obtain ⟨hreturned,hforest,hspanning⟩ := ih hinv
          (fun h => absurd h (Nat.succ_ne_zero _)) (by simp only; omega)
        rw [boruvkaLoop_next hm hrun]
        refine ⟨?_,hforest,?_⟩
        · rw [forall_rounds_of_next hnext,hreturned]
          exact (and_iff_right hsup).symm
        · rw [forall_rounds_of_next hnext,hspanning]
          exact (and_iff_right (.inl hsup)).symm
    · have hne : e.roundNum ≠ 0 := fun h => hsup (h0 h)
      obtain ⟨err,herr⟩ := h.round_throws hsup
      have hlast : (performBoruvkaRound E e).2 ≠ .ok true := by
        rw [herr]
        exact fun h => by cases h
      have hquery := h.round_exhausted (h.parts hne) hne hsup
      rw [boruvkaLoop_threw herr]
      refine ⟨?_,?_,?_⟩
      · rw [forall_rounds_of_last hlast]
        exact iff_of_false (fun h => by cases h) hsup
      · rw [hquery]
        exact h.forest
      · rw [hquery,forall_rounds_of_last hlast,h.spanning_iff hcf]
        exact (or_iff_right hsup).symm

theorem boruvkaEmulation_verdict (hE : E.Consistent ∨ G = ⊥)
    (hcf : ∀ A, CollisionFree E.xxh p (cutEdges G A)) {sk : Fin n → Sketch p}
    (hsk : Sketches E.xxh G sk) (hidx : ∀ v, (sk v).sampleIdx < p.numSamples)
    (dsu : DisjointSetUnionMT n) :
    Verdict E G (startEmulation T sk dsu) (boruvkaEmulation E sk dsu) :=
  boruvkaLoop_verdict hE hcf _ (start_inv hsk dsu) (fun _ => hidx) (Nat.le_add_right _ _)

end GraphZeppelin.Boruvka
