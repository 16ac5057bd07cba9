import GraphZeppelin.Boruvka.EmptyPartitions
import GraphZeppelin.Boruvka.Progress
import GraphZeppelin.Boruvka.ShortRuns

namespace GraphZeppelin.Boruvka
open Dsu FetchAdd QueryState SpanningForest Sketch Outcome

variable {n T : ℕ} {p : SketchParams} {xxh : XxHash}

section Joined

variable {G : SimpleGraph (Fin n)} [DecidableRel G.Adj] {q : QueryState n} {skt : Sketch p}
  {A : Finset (Fin n)}

-- a sketch with at most one edge, which the query has merged already
structure Joined (xxh : XxHash) (G : SimpleGraph (Fin n)) [DecidableRel G.Adj] (q : QueryState n)
    (A : Finset (Fin n)) (skt : Sketch p) : Prop where
  ready : Ready xxh G A skt
  one : (cutEdges G A).card ≤ 1
  rep : ∀ u w, u ∈ A → w ∉ A → G.Adj u w → q.dsu.rep u = q.dsu.rep w

theorem Joined.not_fail (h : Joined xxh G q A skt) (hcf : CollisionFree xxh p (cutEdges G A))
    {smp : SketchSample} (hsmp : (skt.sample xxh).map Prod.snd = .ok smp) : smp.result ≠ .fail := by
  let one : Sketch p := ⟨skt.sampleIdx,setBuckets xxh p (cutEdges G A)⟩
  have hcongr : (skt.sample xxh).map Prod.snd = (one.sample xxh).map Prod.snd :=
    sample_congr rfl h.ready.holds
  have hnot : ¬ SampleFails xxh one := not_sampleFails h.one hcf rfl h.ready.idx
  exact fun hres => hnot ⟨smp,hcongr.symm.trans hsmp,hres⟩

theorem Joined.unmodified (hn : n < 2 ^ 32) (hcf : CollisionFree xxh p (cutEdges G A))
    (h : Joined xxh G q A skt) : (sampleSupernode xxh q skt).modified = false := by
  obtain ⟨smp,hsmp,hspec⟩ := sample_spec hcf h.ready.idx h.ready.holds
  have hnot : smp.result ≠ .fail := h.not_fail hcf (by rw [hsmp]; rfl)
  unfold sampleSupernode
  rw [hsmp]
  simp only
  cases hres : smp.result with
  | fail => exact absurd hres hnot
  | zero => rfl
  | good =>
    obtain ⟨hlt,hadj,hside⟩ := sampled_edge hn (hspec.good_mem hres)
    have hrep : q.dsu.rep ⟨_,hlt.1⟩ = q.dsu.rep ⟨_,hlt.2⟩ := by
      rcases hside with ⟨h₁,h₂⟩ | ⟨h₁,h₂⟩
      · exact h.rep _ _ h₁ h₂ hadj
      · exact (h.rep _ _ h₂ h₁ hadj.symm).symm
    simp only [dif_pos hlt]
    rw [mergeEdge_snd]
    rcases q.dsu.merge_cases ⟨_,hlt.1⟩ ⟨_,hlt.2⟩ with ⟨_,hm,_⟩ | ⟨hne,_⟩
    · rw [hm]
    · exact absurd hrep hne

theorem after_joined (hn : n < 2 ^ 32) (hcf : ∀ A, CollisionFree xxh p (cutEdges G A))
    {skts : List (Sketch p)} (h : ∀ skt ∈ skts, ∃ A, Joined xxh G q A skt) :
    (after xxh q skts).modified = false := by
  induction skts with
  | nil => rfl
  | cons skt skts ih =>
    have hrest := ih fun skt' hmem => h skt' (List.mem_cons_of_mem _ hmem)
    obtain ⟨A,hready,hone,hrep⟩ := h skt List.mem_cons_self
    have hjoined : Joined xxh G (after xxh q skts).query A skt := by
      refine ⟨hready,hone,fun u w hu hw hadj => ?_⟩
      rw [after_rep hrest,after_rep hrest]
      exact hrep u w hu hw hadj
    exact Bool.or_eq_false_iff.mpr ⟨hrest,hjoined.unmodified hn (hcf A)⟩

theorem sampleSupernode_forest (h : (sampleSupernode xxh q skt).modified = false) :
    (sampleSupernode xxh q skt).query.spanningForest = q.spanningForest := by
  unfold sampleSupernode at h ⊢
  split at h
  · rfl
  · simp only at h ⊢
    split at h
    · cases h
    · rfl
    · split at h
      · next hlt =>
        rw [dif_pos hlt]
        exact mergeEdge_of_not_merged h
      · next hlt => rw [dif_neg hlt]

theorem after_forest {skts : List (Sketch p)} (h : (after xxh q skts).modified = false) :
    (after xxh q skts).query.spanningForest = q.spanningForest := by
  induction skts with
  | nil => rfl
  | cons skt skts ih =>
    obtain ⟨hrest,hskt⟩ := Bool.or_eq_false_iff.mp h
    exact (sampleSupernode_forest hskt).trans (ih hrest)

end Joined

section Order

variable {fl : Rounding} {roots : Fin n → Fin n} {instr : Fin n → MergeInstr n}

theorem before_eq_card (o : CaptureOrder n T) (hT : Tiling fl n T) (R : Fin n) :
    before (captures (localCcs (T := T) fl roots instr) o.order).total R =
      (Finset.univ.filter fun i => roots i < R).card := by
  rw [before]
  simp only [captures_total fl o roots instr hT]
  rw [← Finset.card_biUnion]
  · congr 1
    ext i
    simp
  · intro k _ k' _ hne
    rw [Function.onFun,Finset.disjoint_filter]
    exact fun i _ hk hk' => hne (hk.symm.trans hk')

theorem captureAll_pairwise (n T : ℕ) :
    (captureAll n T).order.Pairwise fun x y => x.1 < y.1 ∨ x.1 = y.1 ∧ x.2 < y.2 := by
  have hasc (m : ℕ) : (List.finRange m).Pairwise (· < ·) := List.pairwise_lt_finRange m
  refine List.pairwise_flatMap.mpr ⟨fun t _ => ?_,(hasc T).imp fun hlt x hx y hy => .inl ?_⟩
  · exact List.pairwise_map.mpr ((hasc n).imp fun hlt => .inr ⟨rfl,hlt⟩)
  · obtain ⟨_,_,rfl⟩ := List.mem_map.mp hx
    obtain ⟨_,_,rfl⟩ := List.mem_map.mp hy
    exact hlt

-- the first thread that has vertices of a component writes them where the component starts
theorem captureAll_offset {t : Fin T} {R : Fin n}
    (hx : (t,R) ∈ present (localCcs (T := T) fl roots instr) (captureAll n T).order)
    (h : ∀ t' < t, localCcs (T := T) fl roots instr t' R = []) :
    (captures (localCcs (T := T) fl roots instr) (captureAll n T).order).offset (t,R) = 0 := by
  have hpair := (captureAll_pairwise n T).filter
    fun x => decide (localCcs (T := T) fl roots instr x.1 x.2 ≠ [])
  have hnodup : (present (localCcs (T := T) fl roots instr) (captureAll n T).order).Nodup :=
    (captureAll n T).nodup.filter _
  obtain ⟨l,l',hl⟩ := List.append_of_mem hx
  rw [captures,hl]
  change (present (localCcs (T := T) fl roots instr) (captureAll n T).order).Pairwise _ at hpair
  rw [hl] at hpair hnodup
  refine offset_first (fun y hy heq => ?_) (List.nodup_cons.mp (List.nodup_append.mp hnodup).2.1).1
  have hmem : y ∈ present (localCcs (T := T) fl roots instr) (captureAll n T).order :=
    hl ▸ List.mem_append_left _ hy
  obtain ⟨t',R'⟩ := y
  obtain rfl : R' = R := heq
  rcases (List.pairwise_append.mp hpair).2.2 _ hy _ List.mem_cons_self with hlt | ⟨_,hlt⟩
  · exact (mem_present.mp hmem).2 (h t' hlt)
  · exact absurd hlt (lt_irrefl R')

theorem indices_pairwise (lo hi : ℕ) : (indices lo hi : List (Fin n)).Pairwise (· < ·) := by
  have hrange : (List.range' lo (hi - lo)).Pairwise (· < ·) := List.pairwise_lt_range'
  refine List.pairwise_filterMap.mpr (hrange.imp ?_)
  intro a b hlt i hi j hj
  simp only [Option.dite_none_right_eq_some,Option.some.injEq] at hi hj
  obtain ⟨_,rfl⟩ := hi
  obtain ⟨_,rfl⟩ := hj
  exact hlt

theorem localCcs_pairwise (roots : Fin n → Fin n) (t : Fin T) (R : Fin n) :
    (localCcs fl roots (identityInstr n) t R).Pairwise (· < ·) := by
  rw [localCcs_eq]
  exact List.pairwise_map.mpr ((indices_pairwise _ _).filter _)

theorem findRoots_identity (d : DisjointSetUnionMT n) : (findRoots d (identityInstr n)).2 = d.rep := by
  funext v
  exact DisjointSetUnionMT.findEach_snd d _ v

-- the least vertex of a component keeps its place, when the components are in vertex order
theorem Scattered.least {d : DisjointSetUnionMT n} {instr' : Fin n → MergeInstr n}
    (h : Scattered fl (captureAll n T) d (identityInstr n) instr') (hT : Tiling fl n T)
    (hne : ∀ i < T, cuts fl n T i < cuts fl n T (i + 1)) (hmono : Monotone d.rep) {i : Fin n}
    (hleast : ∀ j < i, d.rep j ≠ d.rep i) : instr' i = ⟨d.rep i,i⟩ := by
  have hwritten := h.written
  rw [findRoots_identity] at hwritten
  obtain ⟨t,ht⟩ : ∃ t : Fin T, owner fl n T i = t := ⟨⟨_,hT.owner_lt i.isLt⟩,rfl⟩
  have hmem (t' : Fin T) (j : Fin n) : j ∈ localCcs fl d.rep (identityInstr n) t' (d.rep i) ↔
      owner fl n T j = t' ∧ d.rep j = d.rep i := by
    rw [localCcs_eq]
    simp [mem_partition hT,identityInstr]
  have hself := (hmem t i).mpr ⟨ht,rfl⟩
  have hx : (t,d.rep i) ∈ present (localCcs (T := T) fl d.rep (identityInstr n))
      (captureAll n T).order :=
    mem_present.mpr ⟨(captureAll n T).all _,List.ne_nil_of_mem hself⟩
  have hoff := captureAll_offset hx fun t' hlt => by
    refine List.eq_nil_iff_forall_not_mem.mpr fun j hj => ?_
    obtain ⟨hj,hrep⟩ := (hmem t' j).mp hj
    refine hleast j ?_ hrep
    by_contra hge
    have hle : owner fl n T i ≤ owner fl n T j :=
      Partition.owner_mono (Fin.le_def.mp (not_lt.mp hge))
    rw [Fin.lt_def] at hlt
    omega
  obtain ⟨k,hk,hki⟩ := List.mem_iff_getElem.mp hself
  have hzero : k = 0 := by
    by_contra hpos
    have hlt := List.pairwise_iff_getElem.mp (localCcs_pairwise d.rep t (d.rep i)) 0 k
      (by omega) hk (Nat.pos_of_ne_zero hpos)
    rw [hki] at hlt
    exact hleast _ hlt ((hmem t _).mp (List.getElem_mem _)).2
  subst hzero
  have hplace : placed fl (captureAll n T) d.rep (identityInstr n) (t,d.rep i) = i := by
    rw [placed,placement_eq hT,hoff,before_eq_card _ hT,shift,
      recounted_of_nonempty hne _ (show owner fl n T _ ≤ T from Nat.findGreatest_le T)]
    have hbefore : (Finset.univ.filter fun v => d.rep v < d.rep i) = Finset.Iio i := by
      ext v
      simp only [Finset.mem_filter,Finset.mem_univ,true_and,Finset.mem_Iio]
      refine ⟨fun hlt => lt_of_not_ge fun hge => absurd (hmono hge) (not_le.mpr hlt),fun hlt => ?_⟩
      exact lt_of_le_of_ne (hmono hlt.le) (hleast v hlt)
    rw [hbefore,Fin.card_Iio,Nat.zero_add,Nat.add_zero]
  obtain ⟨hlt,hval⟩ := hwritten _ (mem_writes.mpr ⟨_,hx,0,hk,rfl⟩)
  rw [hki] at hval
  refine Eq.trans (congrArg instr' (Fin.ext ?_)) hval
  exact hplace.symm

end Order

section Round

variable {E : QueryEnv n T} {G : SimpleGraph (Fin n)} [DecidableRel G.Adj] {e : Emulation n T p}

structure Absorbed (G : SimpleGraph (Fin n)) [DecidableRel G.Adj] (q : QueryState n) (v : Fin n) :
    Prop where
  one : (cutEdges G {v}).card ≤ 1
  rep : ∀ w, G.Adj v w → q.dsu.rep v = q.dsu.rep w

theorem Absorbed.joined {q : QueryState n} {v : Fin n} (h : Absorbed G q v) {skt : Sketch p}
    (hready : Ready xxh G {v} skt) : Joined xxh G q {v} skt := by
  refine ⟨hready,h.one,fun u w hu _ hadj => ?_⟩
  obtain rfl := Finset.mem_singleton.mp hu
  exact h.rep w hadj

structure Unmodified (E : QueryEnv n T) (e : Emulation n T p) : Prop where
  ended : (performBoruvkaRound E e).2 = .ok false
  rep : ∀ x, (performBoruvkaRound E e).1.query.dsu.rep x = e.query.dsu.rep x
  forest : (performBoruvkaRound E e).1.query.spanningForest = e.query.spanningForest

-- vertices that no thread asks about do not keep the round from ending the query
theorem round_unmodified (hb : InBounds E.fl n T) (h0 : e.roundNum ≠ 0)
    (hr : e.roundNum < p.numSamples) (hsk : Sketches E.xxh G e.sketches)
    (hcf : ∀ A, CollisionFree E.xxh p (cutEdges G A)) (hI : (roundInput E hb e).ShortRuns)
    (hseen : ∀ t j, (roundInput E hb e).start t ≤ j → (j : ℕ) < (roundInput E hb e).stop t →
      (j = (roundInput E hb e).start t → (roundInput E hb e).rootFromLeft t = false) →
      Absorbed G e.query (e.mergeInstr j).child) : Unmodified E e := by
  have hshort := (Round.short_begin (roundInput E hb e) e.query e.globalMerges).run hI hr.le
    (E.schedule.workers e.roundNum)
  have htrack := runRound_tracks (e := e) hb
  have hcall : ∀ c ∈ (runRound E hb e).calls, ∃ v, Ready E.xxh G {v} c.sketch ∧
      Absorbed G e.query v := by
    intro c hc
    obtain ⟨j,hlo,hhi,_,hfirst,hbkt,hidx⟩ := (hshort.call c hc).at'
    have hidx : c.sketch.sampleIdx = e.roundNum := hidx
    have hv := hsk.sum E.vertices_lt {(e.mergeInstr j).child}
    rw [Finset.sum_singleton] at hv
    refine ⟨_,⟨hidx ▸ hr,?_⟩,hseen c.thr j hlo hhi hfirst⟩
    rw [hidx]
    refine holds_of_clip hr (hbkt.trans ?_)
    rw [← hv]
    rfl
  have hmod : (after E.xxh e.query ((runRound E hb e).calls.map (·.sketch))).modified = false := by
    refine after_joined E.vertices_lt hcf fun skt hskt => ?_
    obtain ⟨c,hc,rfl⟩ := List.mem_map.mp hskt
    obtain ⟨v,hready,habs⟩ := hcall c hc
    exact ⟨_,habs.joined hready⟩
  have herr : (runRound E hb e).err = none := by
    refine Option.eq_none_iff_forall_ne_some.mpr fun err herr => ?_
    obtain ⟨c,hc,q,hthrew⟩ := htrack.traced err (.inl herr)
    obtain ⟨v,hready,_⟩ := hcall c hc
    have hnone := (sampleSupernode_spec E.vertices_lt (forestInv_reset (G := G) q.dsu) (hcf {v})
      hready).err
    cases ((sampleSupernode_err q _).trans hnone).symm.trans hthrew
  have hquery : (after E.xxh e.query ((runRound E hb e).calls.map (·.sketch))).query =
      (runRound E hb e).query := htrack.query
  have hround := performBoruvkaRound_later (e := e) hb h0
  refine ⟨?_,fun x => ?_,?_⟩
  · rw [hround,herr,← htrack.modified]
    exact congrArg Except.ok hmod
  · rw [hround,← hquery]
    exact after_rep hmod x
  · rw [hround,← hquery]
    exact after_forest hmod

end Round
end GraphZeppelin.Boruvka
