import GraphZeppelin.Boruvka.SampledRounds
import GraphZeppelin.Lib.CutContraction
import GraphZeppelin.Sketch.Dimensions
import GraphZeppelin.Sketch.SampleExact

namespace GraphZeppelin.Boruvka
open Dsu QueryState SpanningForest Sketch CutContraction

variable {n T : ℕ} {p : SketchParams}

section Fail

variable {xxh : XxHash} {G K : SimpleGraph (Fin n)} {sk : Fin n → Sketch p} {r : ℕ} {v : Fin n}

def SampleFails (xxh : XxHash) (skt : Sketch p) : Prop :=
  ∃ smp, (skt.sample xxh).map Prod.snd = .ok smp ∧ smp.result = .fail

open Classical in
noncomputable def failedComponents (xxh : XxHash) (G : SimpleGraph (Fin n)) (sk : Fin n → Sketch p)
    (r : ℕ) : Finset (sampledGraph xxh sk r).ConnectedComponent :=
  (openComponents G (sampledGraph xxh sk r)).filter fun c =>
    ∃ v, (sampledGraph xxh sk r).connectedComponentMk v = c ∧
      SampleFails xxh (supernodeSketch sk (sampledGraph xxh sk r) r v)

theorem mem_failedComponents {c : (sampledGraph xxh sk r).ConnectedComponent} :
    c ∈ failedComponents xxh G sk r ↔ c ∈ openComponents G (sampledGraph xxh sk r) ∧
      ∃ v, (sampledGraph xxh sk r).connectedComponentMk v = c ∧
        SampleFails xxh (supernodeSketch sk (sampledGraph xxh sk r) r v) := by
  classical exact Finset.mem_filter

variable [DecidableRel G.Adj]

theorem supernodeSketch_holds (hn : n < 2 ^ 32) (hsk : Sketches xxh G sk)
    (K : SimpleGraph (Fin n)) (r : ℕ) (v : Fin n) :
    (supernodeSketch sk K r v).buckets = setBuckets xxh p (cutEdges G (component K v)) :=
  hsk.sum hn (component K v)

theorem supernodeSketch_idx_lt (hidx : ∀ v, (sk v).sampleIdx < p.numSamples)
    (hr : r < p.numSamples) (K : SimpleGraph (Fin n)) (v : Fin n) :
    (supernodeSketch sk K r v).sampleIdx < p.numSamples := by
  rw [supernodeSketch]
  split
  · exact hidx v
  · exact hr

theorem mem_component_iff_mk {u : Fin n} :
    u ∈ component K v ↔ K.connectedComponentMk u = K.connectedComponentMk v :=
  mem_component.trans SimpleGraph.ConnectedComponent.eq.symm

theorem cut_ne_empty (h : Leaves G K (K.connectedComponentMk v)) :
    cutEdges G (component K v) ≠ ∅ := by
  intro hempty
  obtain ⟨u,w,hu,hadj,hw⟩ := h
  have hmem := (cutEdges_eq_empty_iff G).mp hempty u (mem_component_iff_mk.mpr hu) w hadj
  exact hw (mem_component_iff_mk.mp hmem)

-- a supernode with edges leaving it that does not FAIL draws one of them
theorem drawn_leaves (hn : n < 2 ^ 32) (hsk : Sketches xxh G sk)
    (hcf : ∀ A, CollisionFree xxh p (cutEdges G A)) (hidx : ∀ v, (sk v).sampleIdx < p.numSamples)
    (hr : r < p.numSamples) (hleaves : Leaves G K (K.connectedComponentMk v))
    (hfail : ¬ SampleFails xxh (supernodeSketch sk K r v)) :
    ∃ u w, u ∈ component K v ∧ w ∉ component K v ∧ G.Adj u w ∧
      (sampledEdge xxh (supernodeSketch sk K r v)).Adj u w := by
  have hbuckets := supernodeSketch_holds hn hsk K r v
  obtain ⟨smp,hsmp,hspec⟩ := sample_spec (hcf (component K v)) (supernodeSketch_idx_lt hidx hr K v)
    fun b _ => congrFun hbuckets b
  have hmap : ((supernodeSketch sk K r v).sample xxh).map Prod.snd = .ok smp := by
    rw [hsmp]
    rfl
  cases hres : smp.result with
  | zero => exact absurd (hspec.zero_iff.mp hres) (cut_ne_empty hleaves)
  | fail => exact absurd ⟨smp,hmap,hres⟩ hfail
  | good =>
    obtain ⟨hlt,hadj,hside⟩ := sampled_edge hn (hspec.good_mem hres)
    have hdrawn : (sampledEdge xxh (supernodeSketch sk K r v)).Adj
        (⟨_,hlt.1⟩ : Fin n) ⟨_,hlt.2⟩ := by
      rw [sampledEdge,hmap]
      simp only [drawnEdge,hres,dif_pos hlt.1,dif_pos hlt.2]
      exact (SimpleGraph.edge_adj ..).mpr ⟨.inl ⟨rfl,rfl⟩,hadj.ne⟩
    rcases hside with ⟨h1,h2⟩ | ⟨h1,h2⟩
    · exact ⟨_,_,h1,h2,hadj,hdrawn⟩
    · exact ⟨_,_,h2,h1,hadj.symm,hdrawn.symm⟩

theorem openComponents_succ_le (hn : n < 2 ^ 32) (hsk : Sketches xxh G sk)
    (hcf : ∀ A, CollisionFree xxh p (cutEdges G A)) (hidx : ∀ v, (sk v).sampleIdx < p.numSamples)
    (hr : r < p.numSamples) :
    2 * (openComponents G (sampledGraph xxh sk (r + 1))).card ≤
      (openComponents G (sampledGraph xxh sk r)).card + (failedComponents xxh G sk r).card := by
  refine contract le_sup_left fun c hc hfail => ?_
  induction c using SimpleGraph.ConnectedComponent.ind with
  | _ v =>
    have hleaves := mem_openComponents.mp hc
    have hdraws : ¬ SampleFails xxh (supernodeSketch sk (sampledGraph xxh sk r) r v) := fun h =>
      hfail (mem_failedComponents.mpr ⟨hc,v,rfl,h⟩)
    obtain ⟨u,w,hu,hw,hadj,hdrawn⟩ := drawn_leaves hn hsk hcf hidx hr hleaves hdraws
    refine ⟨u,w,mem_component_iff_mk.mp hu,hadj,fun h => hw (mem_component_iff_mk.mpr h),?_⟩
    exact SimpleGraph.Adj.reachable (.inr (SimpleGraph.iSup_adj.mpr ⟨v,hdrawn⟩))

theorem complete_iff_no_open (hn : n < 2 ^ 32) (hsk : Sketches xxh G sk)
    (hcf : ∀ A, CollisionFree xxh p (cutEdges G A)) :
    Complete sk K ↔ openComponents G K = ∅ :=
  (complete_iff hn hsk hcf).trans openComponents_eq_empty_iff.symm

theorem not_sampleFails {S : Finset VecT} {skt : Sketch p} (hS : S.card ≤ 1)
    (hcf : CollisionFree xxh p S) (hs : skt.buckets = setBuckets xxh p S)
    (hr : skt.sampleIdx < p.numSamples) : ¬ SampleFails xxh skt := by
  rintro ⟨smp,hsmp,hres⟩
  obtain ⟨smp',ex,hsample,_,hspec⟩ := sample_exhaustive_exact hcf hs hr
  rw [hsample] at hsmp
  obtain rfl : smp' = smp := Except.ok.inj hsmp
  exact absurd (hspec.fail.mp hres).1 (by omega)

theorem failedComponents_of_single (hn : n < 2 ^ 32) (hsk : Sketches xxh G sk)
    (hcf : ∀ A, CollisionFree xxh p (cutEdges G A)) (hidx : ∀ v, (sk v).sampleIdx < p.numSamples)
    (hr : r < p.numSamples) (h : ∀ A, (cutEdges G A).card ≤ 1) :
    failedComponents xxh G sk r = ∅ := by
  refine Finset.eq_empty_of_forall_notMem fun c hc => ?_
  obtain ⟨_,v,_,hfails⟩ := mem_failedComponents.mp hc
  exact not_sampleFails (h _) (hcf _) (supernodeSketch_holds hn hsk _ r v)
    (supernodeSketch_idx_lt hidx hr _ v) hfails

end Fail

section Budget

variable {E : QueryEnv n T} {G : SimpleGraph (Fin n)} [DecidableRel G.Adj] {e : Emulation n T p}
  {sk : Fin n → Sketch p} {a b : ℕ}

def FailsAtMost (xxh : XxHash) (G : SimpleGraph (Fin n)) (sk : Fin n → Sketch p) (a b : ℕ) : Prop :=
  ∀ r < p.numSamples - 1, b * (failedComponents xxh G sk r).card ≤
    a * (openComponents G (sampledGraph xxh sk r)).card

theorem openComponents_pow_le (hsk : Sketches E.xxh G sk)
    (hcf : ∀ A, CollisionFree E.xxh p (cutEdges G A))
    (hidx : ∀ v, (sk v).sampleIdx < p.numSamples) (hfail : FailsAtMost E.xxh G sk a b) {r : ℕ}
    (hr : r ≤ p.numSamples - 1) :
    (2 * b) ^ r * (openComponents G (sampledGraph E.xxh sk r)).card ≤ (a + b) ^ r * n := by
  have hstep (k : ℕ) (hk : k < r) : 2 * b * (openComponents G (sampledGraph E.xxh sk (k + 1))).card ≤
      (a + b) * (openComponents G (sampledGraph E.xxh sk k)).card := by
    have hopen := openComponents_succ_le E.vertices_lt hsk hcf hidx (show k < p.numSamples by omega)
    have hfailed := hfail k (by omega)
    have hmul := Nat.mul_le_mul_left b hopen
    rw [Nat.mul_add] at hmul
    rw [Nat.mul_comm 2,Nat.mul_assoc,Nat.add_mul]
    omega
  have hpow := pow_mul_le (fun k => (openComponents G (sampledGraph E.xxh sk k)).card) hstep
  refine hpow.trans (Nat.mul_le_mul_left _ ?_)
  exact (openComponents_card_le _ _).trans_eq (Nat.card_fin n)

theorem two_pow_le_of_incomplete (hsk : Sketches E.xxh G sk)
    (hcf : ∀ A, CollisionFree E.xxh p (cutEdges G A))
    (hidx : ∀ v, (sk v).sampleIdx < p.numSamples) (hfail : FailsAtMost E.xxh G sk a b) {r : ℕ}
    (hr : r ≤ p.numSamples - 1) (hopen : ¬ Complete sk (sampledGraph E.xxh sk r)) :
    2 * (2 * b) ^ r ≤ (a + b) ^ r * n := by
  rw [complete_iff_no_open E.vertices_lt hsk hcf,← Finset.card_eq_zero] at hopen
  have hone := openComponents_card_ne_one G (sampledGraph E.xxh sk r)
  refine le_trans ?_ (openComponents_pow_le hsk hcf hidx hfail hr)
  rw [Nat.mul_comm]
  exact Nat.mul_le_mul_left _ (by omega)

theorem boruvkaLoop_incomplete (hE : E.Consistent) (hcf : ∀ A, CollisionFree E.xxh p (cutEdges G A))
    (hsk : Sketches E.xxh G sk) (fuel : ℕ) (h : EmulationInv E G e) (ht : Tracked E.xxh sk e)
    {r : ℕ} (hr : e.roundNum ≤ r) (hlt : r < (boruvkaLoop E fuel e).1.roundNum) :
    ¬ Complete sk (sampledGraph E.xxh sk r) := by
  induction fuel generalizing e with
  | zero => exact absurd hlt (not_lt.mpr hr)
  | succ fuel ih =>
    have hnum := (performBoruvkaRound_frame E (e := e)).num
    have hstop {res : Ended} (he : boruvkaLoop E (fuel + 1) e = ((performBoruvkaRound E e).1,res)) :
        ¬ Complete sk (sampledGraph E.xxh sk r) := by
      rw [he,hnum] at hlt
      exact absurd hlt (not_lt.mpr hr)
    by_cases hsup : Supplied e
    · obtain ⟨m,hm,hforest,_⟩ := h.round_ok hcf hsup
      have hrep := h.round_represents hE ht hsup
      cases m with
      | false => exact hstop (boruvkaLoop_returned hm)
      | true =>
        obtain ⟨dsu,mergeInstr,hrun,hdsu,hnext⟩ := h.next hE hsup hforest
        rcases Nat.eq_or_lt_of_le hr with rfl | hgt
        · exact fun hc => Bool.false_ne_true ((h.round_modified hE hcf hsk ht hsup hm).mpr hc).symm
        · rw [boruvkaLoop_next hm hrun] at hlt
          refine ih hnext (ht.next fun u v => by rw [hdsu,hdsu,hrep u v]) ?_ hlt
          simp only [hnum]
          exact hgt
    · obtain ⟨err,herr⟩ := h.round_throws hsup
      exact hstop (boruvkaLoop_threw herr)

structure Solved (G : SimpleGraph (Fin n)) (res : Emulation n T p × Ended) : Prop where
  returned : res.2 = .returned
  roots : ∀ u v, (res.1.query.dsu.findRoot u).2 = (res.1.query.dsu.findRoot v).2 ↔ G.Reachable u v
  forest : IsSpanningForest G (forestGraph res.1.query.spanningForest)

theorem boruvkaEmulation_solved (hE : E.Consistent) (hsk : Sketches E.xxh G sk)
    (hcf : ∀ A, CollisionFree E.xxh p (cutEdges G A))
    (hidx : ∀ v, (sk v).sampleIdx < p.numSamples) (hfail : FailsAtMost E.xxh G sk a b)
    (hbudget : (a + b) ^ (p.numSamples - 1) * n < 2 * (2 * b) ^ (p.numSamples - 1))
    (dsu : DisjointSetUnionMT n) : Solved G (boruvkaEmulation E sk dsu) := by
  have hpos : 0 < p.numSamples :=
    Nat.zero_lt_of_lt (hidx ⟨0,E.vertices_pos hE⟩)
  have hcomplete : Complete sk (sampledGraph E.xxh sk (p.numSamples - 1)) := by
    by_contra hopen
    exact absurd (two_pow_le_of_incomplete hsk hcf hidx hfail le_rfl hopen) (not_le.mpr hbudget)
  have hret := (boruvkaEmulation_ran hE hcf hsk hidx dsu).returned.mpr ⟨hpos,hcomplete⟩
  rcases boruvkaLoop_spec (.inl hE) hcf (p.numSamples + 1) (start_inv hsk dsu)
    (Nat.le_add_right _ _) with
    ⟨err,herr⟩ | ⟨_,hcorrect⟩
  · rw [boruvkaEmulation,herr] at hret
    cases hret
  · refine ⟨hret,fun u v => ?_,hcorrect.forest⟩
    rw [DisjointSetUnionMT.findRoot_snd,DisjointSetUnionMT.findRoot_snd]
    exact hcorrect.rep u v

theorem boruvkaEmulation_rounds (hE : E.Consistent) (hsk : Sketches E.xxh G sk)
    (hcf : ∀ A, CollisionFree E.xxh p (cutEdges G A))
    (hidx : ∀ v, (sk v).sampleIdx < p.numSamples) (hfail : FailsAtMost E.xxh G sk a b)
    (dsu : DisjointSetUnionMT n) {r : ℕ} (hr : r ≤ p.numSamples - 1)
    (hlt : r < (boruvkaEmulation E sk dsu).1.roundNum) : 2 * (2 * b) ^ r ≤ (a + b) ^ r * n :=
  two_pow_le_of_incomplete hsk hcf hidx hfail hr (boruvkaLoop_incomplete hE hcf hsk _ (start_inv hsk dsu)
    ⟨DisjointSetUnionMT.represents_fresh _,fun _ => rfl,fun _ => rfl⟩ (Nat.zero_le r) hlt)

end Budget

theorem boruvka_emulation_within_budget (E : QueryEnv n T) (hE : E.Consistent) (G : SimpleGraph (Fin n))
    [DecidableRel G.Adj] (sk : Fin n → Sketch p)
    (hsk : ∀ v, (sk v).buckets = setBuckets E.xxh p (incident G v))
    (hcf : ∀ A, CollisionFree E.xxh p (cutEdges G A))
    (hidx : ∀ v, (sk v).sampleIdx < p.numSamples) (a b : ℕ) (hfail : FailsAtMost E.xxh G sk a b)
    (hbudget : (a + b) ^ (p.numSamples - 1) * n < 2 * (2 * b) ^ (p.numSamples - 1))
    (dsu : DisjointSetUnionMT n) :
    Solved G (boruvkaEmulation E sk dsu) ∧
    ∀ r < (boruvkaEmulation E sk dsu).1.roundNum, 2 * (2 * b) ^ r ≤ (a + b) ^ r * n := by
  have hsolved := boruvkaEmulation_solved hE hsk hcf hidx hfail hbudget dsu
  refine ⟨hsolved,fun r hr => boruvkaEmulation_rounds hE hsk hcf hidx hfail dsu ?_ hr⟩
  by_contra hgt
  have hlast : p.numSamples - 1 < (boruvkaEmulation E sk dsu).1.roundNum := by omega
  have hle := boruvkaEmulation_rounds hE hsk hcf hidx hfail dsu le_rfl hlast
  exact absurd hle (not_le.mpr hbudget)

theorem pairEnv_consistent : pairEnv.Consistent := exact_consistent Nat.zero_lt_two le_rfl

def fullSketches (v : Fin 2) : Sketch fullParams :=
  ⟨0,setBuckets pairEnv.xxh fullParams (incident (⊤ : SimpleGraph (Fin 2)) v)⟩

theorem full_idx (v : Fin 2) : (fullSketches v).sampleIdx < fullParams.numSamples :=
  show 0 < 18 from Nat.zero_lt_succ 17

theorem full_failsAtMost (a b : ℕ) : FailsAtMost pairEnv.xxh ⊤ fullSketches a b := by
  intro r hr
  rw [failedComponents_of_single (by decide) (fun _ => rfl) full_collisionFree full_idx
    (Nat.lt_of_lt_pred hr) fun A => Finset.card_le_card (pair_cut A),Finset.card_empty]
  exact Nat.zero_le _

theorem boruvka_emulation_within_budget_pair :
    (boruvkaEmulation pairEnv fullSketches (.fresh fun _ => 0)).1.roundNum ≤ 1 := by
  obtain ⟨_,hrounds⟩ := boruvka_emulation_within_budget pairEnv pairEnv_consistent ⊤
    fullSketches (fun _ => rfl) full_collisionFree full_idx 0 1 (full_failsAtMost 0 1) (by decide)
    (.fresh fun _ => 0)
  by_contra hgt
  exact absurd (hrounds 1 (not_le.mp hgt)) (by decide)

section Sizing

theorem logb_five_three : 14 ≤ 19 * (Real.logb 2 5 - Real.logb 2 3) := by
  have hle : Real.logb 2 (2 ^ 14 * 3 ^ 19) ≤ Real.logb 2 (5 ^ 19) :=
    Real.logb_le_logb_of_le one_lt_two (by norm_num) (by norm_num)
  rw [Real.logb_mul (by norm_num) (by norm_num),Real.logb_pow,Real.logb_pow,Real.logb_pow,
    Real.logb_self_eq_one one_lt_two] at hle
  push_cast at hle
  linarith

theorem logb_of_short {n M : ℕ} (hn : 0 < n) (h : 2 * 5 ^ M ≤ 3 ^ M * n) :
    14 * (M : ℝ) ≤ 19 * (Real.logb 2 n - 1) := by
  have hreal : (2 : ℝ) * 5 ^ M ≤ 3 ^ M * n := by exact_mod_cast h
  have hlog : Real.logb 2 (2 * 5 ^ M) ≤ Real.logb 2 (3 ^ M * n) :=
    Real.logb_le_logb_of_le one_lt_two (by positivity) hreal
  rw [Real.logb_mul (by norm_num) (by positivity),Real.logb_mul (by positivity) (by positivity),
    Real.logb_pow,Real.logb_pow,Real.logb_self_eq_one one_lt_two] at hlog
  have hratio := mul_le_mul_of_nonneg_left logb_five_three (Nat.cast_nonneg M : (0 : ℝ) ≤ M)
  linarith

-- a fifth of the samples may FAIL: each round keeps three fifths of the open components
theorem calcCcSamples_budget {n : ℕ} {f : ℝ} {quotient : ℚ} (hn : 0 < n) (hlt : n < 2 ^ 32)
    (hf : 1 ≤ f) (hq : f * Real.logb 2 n / numSamplesDiv - 1 / 8 ≤ quotient) :
    (1 + 5) ^ (calcCcSamples quotient - 1) * n < 2 * (2 * 5) ^ (calcCcSamples quotient - 1) := by
  have hbig : 18 ≤ calcCcSamples quotient := le_max_left _ _
  obtain ⟨M,hM⟩ : ∃ M, calcCcSamples quotient = M + 1 := ⟨calcCcSamples quotient - 1,by omega⟩
  rw [hM,Nat.add_sub_cancel]
  by_contra hge
  have hshort : 2 * 5 ^ M ≤ 3 ^ M * n := by
    refine Nat.le_of_mul_le_mul_left ?_ (Nat.two_pow_pos M)
    calc 2 ^ M * (2 * 5 ^ M) = 2 * (2 * 5) ^ M := by rw [mul_pow]; ring
      _ ≤ (1 + 5) ^ M * n := not_lt.mp hge
      _ = 2 ^ M * (3 ^ M * n) := by rw [← Nat.mul_assoc,← mul_pow]; rfl
  have hrounds := logb_of_short hn hshort
  have hlog : 0 ≤ Real.logb 2 n := Real.logb_nonneg one_lt_two (by exact_mod_cast hn)
  have hlog32 : Real.logb 2 n ≤ 32 := by
    have hle : Real.logb 2 n ≤ Real.logb 2 (2 ^ 32) :=
      Real.logb_le_logb_of_le one_lt_two (by exact_mod_cast hn) (by exact_mod_cast hlt.le)
    rwa [Real.logb_pow,Real.logb_self_eq_one one_lt_two,mul_one] at hle
  have hceil : (quotient : ℝ) ≤ M + 1 := by
    have hle : quotient ≤ calcCcSamples quotient :=
      (Nat.le_ceil quotient).trans (Nat.cast_le.mpr (le_max_right _ _))
    rw [hM] at hle
    exact_mod_cast hle
  have hdiv : (numSamplesDiv : ℝ) = 0.736965594 := by
    rw [numSamplesDiv]
    norm_num
  rw [hdiv] at hq
  have hfactor : Real.logb 2 n / 0.736965594 ≤ f * Real.logb 2 n / 0.736965594 :=
    div_le_div_of_nonneg_right (le_mul_of_one_le_left hlog hf) (by norm_num)
  have hquot : Real.logb 2 n = Real.logb 2 n / 0.736965594 * 0.736965594 := by
    rw [div_mul_cancel₀ _ (by norm_num)]
  linarith

theorem boruvka_emulation_of_cc_samples (E : QueryEnv n T) (hE : E.Consistent) (G : SimpleGraph (Fin n))
    [DecidableRel G.Adj] (sk : Fin n → Sketch p)
    (hsk : ∀ v, (sk v).buckets = setBuckets E.xxh p (incident G v))
    (hcf : ∀ A, CollisionFree E.xxh p (cutEdges G A))
    (hidx : ∀ v, (sk v).sampleIdx < p.numSamples) (hfail : FailsAtMost E.xxh G sk 1 5)
    (f : ℝ) (hf : 1 ≤ f) (quotient : ℚ)
    (hq : f * Real.logb 2 n / numSamplesDiv - 1 / 8 ≤ quotient)
    (hp : p.numSamples = calcCcSamples quotient) (dsu : DisjointSetUnionMT n) :
    Solved G (boruvkaEmulation E sk dsu) := by
  refine boruvkaEmulation_solved hE hsk hcf hidx hfail ?_ dsu
  rw [hp]
  exact calcCcSamples_budget (E.vertices_pos hE) E.vertices_lt hf hq

theorem boruvka_emulation_of_cc_samples_pair :
    Solved ⊤ (boruvkaEmulation pairEnv fullSketches (.fresh fun _ => 0)) := by
  refine boruvka_emulation_of_cc_samples pairEnv pairEnv_consistent ⊤ fullSketches
    (fun _ => rfl) full_collisionFree full_idx (full_failsAtMost 1 5) 1 le_rfl (3 / 2) ?_ ?_
    (.fresh fun _ => 0)
  · rw [Nat.cast_ofNat,Real.logb_self_eq_one one_lt_two,numSamplesDiv]
    norm_num
  · have hceil : ⌈(3 / 2 : ℚ)⌉₊ ≤ 18 := Nat.ceil_le.mpr (by norm_num)
    exact (max_eq_left hceil).symm

end Sizing
end GraphZeppelin.Boruvka
