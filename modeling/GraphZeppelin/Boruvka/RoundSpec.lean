import GraphZeppelin.Boruvka.RoundRun

namespace GraphZeppelin.Boruvka
open RoundInput Sketch

variable {n T : ℕ} {p : SketchParams}

namespace Round

variable {I : RoundInput n T p} [hI : I.Tiled] {s : Round n T p} {t : Fin T}

theorem WorkerInv.finish (h : s.WorkerInv I t) (hpc : (s.workers t).pc = .leave) :
    ((s.report t).setPc t .done).WorkerInv I t := by
  have hset := h.settled
  have hmerged := h.merged
  have hcalled := h.called
  have hask := h.asked
  have hend := h.ended (.inl hpc)
  simp only [hpc] at hset hmerged hcalled hask
  constructor <;> simp only [setPc,setWorker_workers]
  · exact h.lo
  · exact h.hi
  · exact .inr (h.passed (.inr hend))
  · simp [Pc.asked]
  · simp
  · simp [Pc.delivered]
  · simp
  · simp
  · simp
  · exact fun _ => hend
  · simp
  · simp
  · exact hset
  · exact hmerged
  · exact hcalled
  · exact hask

theorem Inv.step_head (h : s.Inv I) (hs : SortedByRoot I.mergeInstr)
    (hr : I.curRound ≤ p.numSamples) (hpc : (s.workers t).pc = .head) : (s.step I t).Inv I := by
  have hw := h.worker t
  obtain ⟨a,b,hb,hat,htb⟩ := hw.block hs
  have hdel : (s.workers t).pc.delivered = false := by rw [hpc]; rfl
  have hleft := hw.left_iff (by rw [hpc]; rfl) hb
  unfold step
  simp only [hpc]
  split
  · next hlt =>
    split
    · next hR =>
      exact h.of_worker rfl rfl rfl (fun u hu => setWorker_workers_ne _ hu)
        (hw.absorb hr hpc rfl hlt hR)
    · next hR =>
      have hch : AtChange I s t := by
        refine ⟨hlt,fun ⟨j,hjn⟩ hj he => hR ?_⟩
        simp only at hj
        subst hj
        exact he
      split
      · next hl =>
        have hbt := (hw.change_block hch hb).2
        have hlt' : I.owner a < I.owner b := hbt.symm ▸ hleft.mp hl
        have hfirst : t = I.owner a → s.Announced I (s.workers t).curRoot :=
          fun e => absurd hlt' (not_lt.mpr (hbt.trans e).le)
        have hpiece := (hw.local_piece hdel (.inl hch) hb).1
        have hafter := WorkerInv.afterMerge h hdel (hw.passed (.inl hch)) hb hlt' hfirst
          (.inl ⟨rfl,hch,hbt.symm⟩)
        have hinv := h.mergeInto hr hdel hb hlt' hpiece hfirst hafter
        rw [hbt] at hinv
        exact hinv
      · next hl => exact h.sampleLocal hs hpc (Bool.eq_false_of_not_eq_true hl) (.inl ⟨rfl,hch⟩)
  · next hge =>
    have hend : (s.workers t).pos = I.stop t := le_antisymm hw.hi (not_lt.mp hge)
    have hexit := hw.exits_iff hend hb
    split
    · next hor =>
      rw [Bool.or_eq_true,hexit,hleft] at hor
      have hlt : I.owner a < I.owner b := by
        rcases hor with hlt | hlt
        · exact lt_of_le_of_lt hat hlt
        · exact lt_of_lt_of_le hlt htb
      have hafter := hw.announce hs hpc hend hb hlt
      rcases Bool.eq_false_or_eq_true (s.workers t).rootFromLeft with hl | hl
      · rw [announce_of_left hl] at hafter ⊢
        exact h.of_worker rfl rfl rfl (fun u hu => setWorker_workers_ne _ hu) hafter
      · have hta : t = I.owner a := by
          refine le_antisymm (not_lt.mp fun hlt' => ?_) hat
          rw [← hleft,hl] at hlt'
          cases hlt'
        exact h.announced hs hl hb hta hlt hafter
    · next hor =>
      simp only [Bool.not_eq_true,Bool.or_eq_false_iff] at hor
      exact h.sampleLocal hs hpc hor.2 (.inr ⟨rfl,hend,hor.1⟩)

theorem Inv.step (h : s.Inv I) (hs : SortedByRoot I.mergeInstr) (hr : I.curRound ≤ p.numSamples)
    (t : Fin T) : (s.step I t).Inv I := by
  have hw := h.worker t
  obtain ⟨a,b,hb,hat,htb⟩ := hw.block hs
  cases hpc : (s.workers t).pc with
  | head => exact h.step_head hs hr hpc
  | ownQuery q =>
    simp only [Round.step,hpc,finishOwn]
    refine h.answer hs (.inl ⟨hpc,rfl⟩) ?_ ?_ (.inl ⟨rfl,rfl,hw.change (.inr ⟨q,hpc⟩)⟩) <;>
      cases q <;> simp [queryGlobal,sampleGlobal]
  | switch =>
    have hlt := (hw.change (.inl hpc)).1.trans_le (I.stop_le t)
    simp only [Round.step,hpc,dif_pos hlt]
    exact h.of_worker rfl rfl rfl (fun u hu => setWorker_workers_ne _ hu)
      (hw.switchRoot hs hr hpc rfl)
  | mergeLast g =>
    have hdel : (s.workers t).pc.delivered = false := by rw [hpc]; rfl
    obtain ⟨hend,hslot⟩ := hw.last g (.inl hpc)
    obtain ⟨hlt,rfl⟩ := hslot a b hb
    have hfirst (e : t = I.owner a) : s.Announced I (s.workers t).curRoot := by
      refine hw.announced _ hpc (Bool.eq_false_of_not_eq_true fun hl => ?_)
      exact absurd ((hw.left_iff (by rw [hpc]; rfl) hb).mp hl) (e ▸ lt_irrefl _)
    have hafter := WorkerInv.afterMerge h hdel (hw.passed (.inr hend)) hb hlt hfirst
      (.inr ⟨rfl,hend⟩)
    simp only [Round.step,hpc]
    exact h.mergeInto hr hdel hb hlt (hw.local_piece hdel (.inr hend) hb).1 hfirst hafter
  | lastQuery g q =>
    simp only [Round.step,hpc,setPc]
    refine h.answer hs (.inr hpc) ?_ ?_ (.inr ⟨rfl,(hw.last g (.inr ⟨q,hpc⟩)).1⟩) <;>
      cases q <;> simp [queryGlobal,sampleGlobal]
  | leave =>
    simp only [Round.step,hpc]
    exact h.of_worker rfl rfl rfl (fun u hu => setWorker_workers_ne _ hu) (hw.finish hpc)
  | done =>
    simp only [Round.step,hpc]
    exact h

omit hI in
theorem rootFromLeft_iff (t : Fin T) : I.rootFromLeft t = true ↔
    ∃ j : Fin n, (j : ℕ) + 1 = I.start t ∧ I.rootAt j = I.rootAt (I.start t) := by
  unfold RoundInput.rootFromLeft
  split
  · next hpos =>
    rw [decide_eq_true_eq]
    constructor
    · intro he
      exact ⟨⟨I.start t - 1,by omega⟩,by simp only; omega,he⟩
    · rintro ⟨j,hj,he⟩
      have : (⟨I.start t - 1,by omega⟩ : Fin n) = j := Fin.ext (by simp only; omega)
      rw [this]
      exact he
  · next hz =>
    simp only [Bool.false_eq_true,false_iff]
    rintro ⟨j,hj,_⟩
    omega

omit hI in
theorem not_completes_begin (q : QueryState n) (globals : Fin T → GlobalMergeData p) (t : Fin T)
    (R : Fin n) : ¬ (I.begin q globals).Completes I t R := by
  rintro ⟨ms,a,b,_,_,he,_⟩
  cases he

theorem workerInv_begin (hs : SortedByRoot I.mergeInstr) (q : QueryState n)
    (globals : Fin T → GlobalMergeData p) (t : Fin T) : (I.begin q globals).WorkerInv I t := by
  constructor <;> simp only [RoundInput.begin,RoundInput.worker]
  · exact le_rfl
  · exact le_of_lt (I.start_lt_stop t)
  · exact .inl ⟨trivial,trivial,trivial⟩
  · exact fun _ => rootFromLeft_iff t
  · simp
  · exact fun _ => ⟨(I.upTo_start t _).symm,Nat.zero_le _,fun hlt => absurd hlt (lt_irrefl _)⟩
  · simp
  · simp
  · simp
  · simp
  · simp
  · simp
  · rintro R ⟨k,hk,rfl⟩ hp
    exact absurd (hs _ k (I.owner_eq_iff.mp hk).1) (not_le.mpr hp.lt)
  · simp
  · simp
  · intro R hR
    exact absurd hR (not_completes_begin q globals t R)

theorem inv_begin (hs : SortedByRoot I.mergeInstr) (q : QueryState n)
    (globals : Fin T → GlobalMergeData p) : (I.begin q globals).Inv I where
  worker := workerInv_begin hs q globals
  slot R a b hb hlt := by
    refine ⟨List.nodup_nil,rfl,rfl,fun _ => Nat.zero_le _,fun _ hne => absurd rfl hne,.inl rfl,?_⟩
    rintro ⟨m,hm,_⟩
    cases hm
  merge m hm := by cases hm
  call c hc := by cases hc
  nodup := List.nodup_nil
  idle g := .inl rfl

theorem Inv.run (h : s.Inv I) (hs : SortedByRoot I.mergeInstr) (hr : I.curRound ≤ p.numSamples)
    (schedule : List (Fin T)) : (s.run I schedule).Inv I :=
  List.foldlRecOn (motive := fun s => s.Inv I) schedule (Round.step I) h
    fun _ hs' t _ => hs'.step hs hr t

theorem Inv.all_called (h : s.Inv I) (hs : SortedByRoot I.mergeInstr) (hf : s.Finished)
    (j : Fin n) : s.Called (I.rootAt j) := by
  obtain ⟨a,b,hb⟩ := exists_block hs j
  have hpast {t : Fin T} (ht : I.Spans t (I.rootAt j)) :
      I.rootAt j ≤ (s.workers t).curRoot := by
    have hw := h.worker t
    obtain ⟨i,hi,hlo,hR⟩ := hw.passed (.inr (hw.ended (.inr (hf t))))
    obtain ⟨k,hk,hkR⟩ := ht
    rw [← hkR,← hR]
    refine hs k i ?_
    have hkt := (I.owner_eq_iff.mp hk).2
    have hend := hw.ended (.inr (hf t))
    rw [Fin.le_def]
    omega
  have hsettled {t : Fin T} (ht : I.Spans t (I.rootAt j)) : s.Settled I t (I.rootAt j) := by
    refine (h.worker t).settled _ ht ?_
    rw [hf t]
    exact past_true.mpr (hpast ht)
  rcases eq_or_lt_of_le (I.owner_mono hb.le) with hab | hlt
  · rcases hsettled ⟨a,rfl,hb.root_first⟩ a b hb with ⟨_,hc⟩ | ⟨hlt,_⟩
    · exact hc
    · exact absurd hab (ne_of_lt hlt)
  · have hall : Finset.Icc (I.owner a) (I.owner b) ⊆
        ((s.mergesOf (I.rootAt j)).map (·.thr)).toFinset := by
      intro t ht
      rcases hsettled (hb.spans_iff.mpr (Finset.mem_Icc.mp ht)) a b hb with ⟨hab,_⟩ | ⟨_,m,hm,hmt,hmR⟩
      · exact absurd hab (ne_of_lt hlt)
      · rw [List.mem_toFinset]
        exact List.mem_map.mpr ⟨m,List.mem_filter.mpr ⟨hm,decide_eq_true hmR⟩,hmt⟩
    have hslot := h.slot _ a b hb hlt
    have hcard : I.owner b - I.owner a + 1 = (s.mergesOf (I.rootAt j)).length := by
      have heq := congrArg Finset.card (Finset.Subset.antisymm hall (h.thr_subset hb))
      rw [List.toFinset_card_of_nodup hslot.nodup,List.length_map,Fin.card_Icc] at heq
      have := Fin.lt_def.mp hlt
      omega
    cases hms : s.mergesOf (I.rootAt j) with
    | nil =>
      rw [hms,List.length_nil] at hcard
      omega
    | cons m ms =>
      have hm : m ∈ s.mergesOf (I.rootAt j) := hms ▸ List.mem_cons_self
      obtain ⟨hmR,hmslot,hmthr⟩ := h.mem_mergesOf hb hm
      have hcomp : s.Completes I m.thr (I.rootAt j) := by
        refine ⟨ms,a,b,hb,hlt,?_,?_⟩
        · rw [hms,← hmR,← hmslot]
        · rw [hms,List.length_cons] at hcard
          omega
      refine (h.worker m.thr).asked _ hcomp ?_
      rw [hf m.thr]
      exact past_true.mpr (hpast (hb.spans_iff.mpr (Finset.mem_Icc.mp hmthr)))

theorem Inv.done_le_needed (h : s.Inv I) (g : Fin T) :
    (s.globals g).numMergeDone ≤ (s.globals g).numMergeNeeded := by
  rcases h.idle g with hz | ⟨R,a,b,hb,hlt,rfl⟩
  · rw [hz]
    exact Nat.zero_le _
  · have hslot := h.slot R a b hb hlt
    have hlen : (s.mergesOf R).length ≤ I.owner b - I.owner a + 1 := by
      have hcard := Finset.card_le_card (h.thr_subset hb)
      rw [List.toFinset_card_of_nodup hslot.nodup,List.length_map,Fin.card_Icc] at hcard
      have := Fin.lt_def.mp hlt
      omega
    rw [hslot.done]
    rcases hslot.needed with hn | hn
    · have hB := (I.owner b).isLt
      have hT := I.threads_le
      have hv := I.vertices_lt
      rw [hn,GlobalMergeData.sizeMax]
      omega
    · rw [hn a b hb hlt]
      exact hlen

theorem Inv.slot_one_root (h : s.Inv I) {m m' : GlobalMerge n T} (hm : m ∈ s.merges)
    (hm' : m' ∈ s.merges) (hg : m.slot = m'.slot) : m.root = m'.root := by
  obtain ⟨a,b,hb,hlt,hs,_⟩ := h.merge m hm
  obtain ⟨a',b',hb',hlt',hs',_⟩ := h.merge m' hm'
  exact hb.slot_unique hlt hb' hlt' (hs.symm.trans (hg.trans hs'))

def fuel (I : RoundInput n T p) (s : Round n T p) (t : Fin T) : ℕ :=
  let left := I.stop t - (s.workers t).pos
  match (s.workers t).pc with
  | .head => 3 * left + 5
  | .ownQuery _ => 3 * left + 4
  | .switch => 3 * left + 3
  | .mergeLast _ => 4
  | .lastQuery _ _ => 3
  | .leave => 2
  | .done => 0

omit hI in
theorem step_workers_ne {u : Fin T} (hu : u ≠ t) : (s.step I t).workers u = s.workers u := by
  unfold step
  simp only
  split
  · split
    · split
      · simp [setWorker,hu]
      · split <;> simp [Round.mergeInto,Round.sampleLocal,hu]
    · split
      · simp only [Round.announce]
        split <;> simp [setWorker,setNeeded,hu]
      · simp [Round.sampleLocal,hu]
  · next q _ => cases q <;> simp [finishOwn,queryGlobal,sampleGlobal,setWorker,hu]
  · split <;> simp [setWorker,hu]
  · simp [Round.mergeInto,hu]
  · next g q _ => cases q <;> simp [setPc,queryGlobal,sampleGlobal,setWorker,hu]
  · simp [setPc,report,setWorker,hu]
  · rfl

omit hI in
theorem Inv.fuel_step (h : s.Inv I) (t : Fin T) : fuel I (s.step I t) t ≤ fuel I s t - 1 := by
  have hw := h.worker t
  cases hpc : (s.workers t).pc with
  | head =>
    unfold Round.step
    simp only [hpc]
    split
    · next hlt =>
      split
      · simp only [fuel,setWorker_workers,absorb,hpc]
        omega
      · split
        · simp [fuel,Round.mergeInto,hpc]
        · simp only [fuel,Round.sampleLocal,hpc,Function.update_self]
          omega
    · split
      · simp only [fuel,Round.announce,hpc,setWorker_workers]
        omega
      · simp only [fuel,Round.sampleLocal,hpc,Function.update_self]
        omega
  | ownQuery q =>
    simp only [Round.step,hpc,finishOwn,fuel,setWorker_workers]
    cases q <;> simp [queryGlobal,sampleGlobal]
  | switch =>
    have hlt := (hw.change (.inl hpc)).1
    have hlt' := hlt.trans_le (I.stop_le t)
    simp only [Round.step,hpc,dif_pos hlt',fuel,setWorker_workers,switchRoot,absorb]
    omega
  | mergeLast g => simp [Round.step,hpc,fuel,Round.mergeInto]
  | lastQuery g q => simp [Round.step,hpc,fuel,setPc]
  | leave => simp [Round.step,hpc,fuel,setPc]
  | done => simp [Round.step,hpc,fuel]

theorem Inv.fuel_run (h : s.Inv I) (hs : SortedByRoot I.mergeInstr)
    (hr : I.curRound ≤ p.numSamples) (schedule : List (Fin T)) (t : Fin T) :
    fuel I (s.run I schedule) t ≤ fuel I s t - schedule.count t := by
  induction schedule generalizing s with
  | nil => exact le_rfl
  | cons u schedule ih =>
    refine (ih (h.step hs hr u)).trans ?_
    by_cases hu : u = t
    · subst hu
      have hstep := h.fuel_step u
      rw [List.count_cons_self]
      omega
    · have hsame : fuel I (s.step I u) t = fuel I s t := by
        unfold fuel
        rw [step_workers_ne (Ne.symm hu)]
      rw [List.count_cons_of_ne hu,hsame]

omit hI in
theorem finished_of_fuel (h : ∀ t, fuel I s t = 0) : s.Finished := by
  intro t
  have ht := h t
  unfold fuel at ht
  cases hpc : (s.workers t).pc <;> simp [hpc] at ht ⊢

theorem finished_of_fair (hs : SortedByRoot I.mergeInstr) (hr : I.curRound ≤ p.numSamples)
    (q : QueryState n) (globals : Fin T → GlobalMergeData p) {schedule : List (Fin T)}
    (hfair : ∀ t, 3 * n + 5 ≤ schedule.count t) :
    ((I.begin q globals).run I schedule).Finished := by
  refine finished_of_fuel (I := I) fun t => ?_
  have hrun := (inv_begin hs q globals).fuel_run hs hr schedule t
  have hfuel : fuel I (I.begin q globals) t ≤ 3 * n + 5 := by
    have := I.stop_le t
    simp only [fuel,RoundInput.begin,RoundInput.worker]
    omega
  have := hfair t
  omega

omit hI in
theorem Inv.call_sum (h : s.Inv I) (hc : Function.Injective I.childAt) {c : Call n T p}
    (hmem : c ∈ s.calls) {b : Fin p.numBuckets} (hb : InWindow p I.curRound b) :
    c.sketch.buckets b =
      ∑ v ∈ (Finset.univ.filter fun j => I.rootAt j = c.root).image I.childAt,
        (I.sketches v).buckets b := by
  rw [Finset.sum_image fun i _ j _ he => hc he,(h.call c hmem).content,total,Finset.sum_apply]
  refine Finset.sum_congr rfl fun j _ => ?_
  rw [gain,clip_apply,if_pos hb]

theorem Inv.count_calls (h : s.Inv I) (hs : SortedByRoot I.mergeInstr) (hf : s.Finished)
    (R : Fin n) :
    (s.calls.map (·.root)).count R = if ∃ j, I.rootAt j = R then 1 else 0 := by
  split
  · next hR =>
    obtain ⟨j,rfl⟩ := hR
    obtain ⟨c,hc,he⟩ := h.all_called hs hf j
    exact List.count_eq_one_of_mem h.nodup (List.mem_map.mpr ⟨c,hc,he⟩)
  · next hR =>
    refine List.count_eq_zero_of_not_mem fun hmem => hR ?_
    obtain ⟨c,hc,rfl⟩ := List.mem_map.mp hmem
    rcases (h.call c hc).responsible with ⟨a,b,hb,_⟩ | ⟨_,a,b,hb,_⟩
    · exact ⟨a,hb.root_first⟩
    · exact ⟨a,hb.root_first⟩

omit hI in
theorem perform_boruvka_round_protocol (I : RoundInput n T p) (hfl : I.fl = .exact)
    (hpos : 0 < T) (hle : T ≤ n) (hr : I.curRound < p.numSamples)
    (hs : SortedByRoot I.mergeInstr) (hc : Function.Bijective I.childAt) (q : QueryState n)
    (globals : Fin T → GlobalMergeData p) (schedule : List (Fin T)) :
    let s := (I.begin q globals).run I schedule
    (∀ c ∈ s.calls, c.sketch.sampleIdx = I.curRound ∧
      ∀ b, b = p.detBucket ∨ InRange p I.curRound 1 b → c.sketch.buckets b =
        ∑ v ∈ (Finset.univ.filter fun j => I.rootAt j = c.root).image I.childAt,
          (I.sketches v).buckets b) ∧
    (s.calls.map (·.root)).Nodup ∧
    (s.Finished → ∀ R, (s.calls.map (·.root)).count R = if ∃ j, I.rootAt j = R then 1 else 0) ∧
    (∀ m ∈ s.merges, ∀ m' ∈ s.merges, m.slot = m'.slot → m.root = m'.root) ∧
    (∀ g, (s.globals g).numMergeDone ≤ (s.globals g).numMergeNeeded) ∧
    ((∀ t, 3 * n + 5 ≤ schedule.count t) → s.Finished) := by
  have : I.Tiled := ⟨hfl ▸ exact_consistent hpos hle⟩
  have h := (inv_begin hs q globals).run hs (le_of_lt hr) schedule
  refine ⟨fun c hmem => ⟨(h.call c hmem).idx,fun b hb => h.call_sum hc.1 hmem ⟨hr,hb⟩⟩,h.nodup,
    fun hf R => h.count_calls hs hf R,fun m hm m' hm' hg => h.slot_one_root hm hm' hg,
    h.done_le_needed,fun hfair => finished_of_fair hs (le_of_lt hr) q globals hfair⟩

theorem two_le_two : 2 ≤ 2 := le_rfl

theorem two_lt_two_pow : 2 < 2 ^ 32 := by decide

def pairRound : RoundInput 2 2 ⟨0,2,1,1⟩ where
  xxh := fun _ _ => 0
  curRound := 1
  mergeInstr j := ⟨⟨0,Nat.zero_lt_two⟩,j⟩
  sketches _ := Sketch.empty _
  fl := .exact
  inBounds := (exact_consistent Nat.zero_lt_two two_le_two).inBounds
  vertices_lt := two_lt_two_pow

theorem pairRound_protocol :
    (((pairRound.begin ⟨.fresh fun _ => 0,fun _ => ∅⟩ fun _ => ⟨.empty _,0,0⟩).run pairRound
      (List.replicate 11 0 ++ List.replicate 11 1)).calls.map (·.root)).count 0 = 1 := by
  obtain ⟨_,_,hcount,_,_,hfair⟩ := perform_boruvka_round_protocol pairRound rfl
    Nat.zero_lt_two two_le_two (by decide)
    (by intro i j _; exact le_rfl) ⟨fun _ _ h => h,fun j => ⟨j,rfl⟩⟩
    ⟨.fresh fun _ => 0,fun _ => ∅⟩ (fun _ => ⟨.empty _,0,0⟩)
    (List.replicate 11 0 ++ List.replicate 11 1)
  refine (hcount (hfair (by decide)) 0).trans ?_
  exact if_pos ⟨0,rfl⟩

end Round
end GraphZeppelin.Boruvka
