import GraphZeppelin.Boruvka.RoundSpec

namespace GraphZeppelin.Boruvka
open QueryState Sketch

variable {n T : ℕ} {p : SketchParams} {xxh : XxHash}

structure Outcome (n : ℕ) where
  query : QueryState n
  modified : Bool
  threw : Bool

namespace Outcome

def sample (xxh : XxHash) (o : Outcome n) (skt : Sketch p) : Outcome n :=
  let r := sampleSupernode xxh o.query skt
  ⟨r.query,o.modified || r.modified,o.threw || r.err.isSome⟩

def after (xxh : XxHash) (q : QueryState n) : List (Sketch p) → Outcome n
  | [] => ⟨q,false,false⟩
  | skt :: skts => (after xxh q skts).sample xxh skt

theorem after_exhausted {q : QueryState n} {skts : List (Sketch p)}
    (h : ∃ skt ∈ skts, p.numSamples ≤ skt.sampleIdx) : (after xxh q skts).threw = true := by
  induction skts with
  | nil =>
    obtain ⟨skt,hs,_⟩ := h
    cases hs
  | cons skt skts ih =>
    obtain ⟨skt',hs,hidx⟩ := h
    rw [after,sample,Bool.or_eq_true]
    rcases List.mem_cons.mp hs with rfl | hs
    · exact .inr (sampleSupernode_exhausted hidx)
    · exact .inl (ih ⟨skt',hs,hidx⟩)

theorem after_det_zero (xxh : XxHash) (q : QueryState n) {skts : List (Sketch p)}
    (h : ∀ skt ∈ skts, skt.sampleIdx < p.numSamples ∧ skt.buckets p.detBucket = 0) :
    after xxh q skts = ⟨q,false,false⟩ := by
  induction skts with
  | nil => rfl
  | cons skt skts ih =>
    obtain ⟨hidx,hdet⟩ := h skt List.mem_cons_self
    rw [after,ih fun s hs => h s (List.mem_cons_of_mem _ hs),Outcome.sample,sampleSupernode,
      sample_det_zero hidx hdet]
    rfl

variable {G : SimpleGraph (Fin n)} [DecidableRel G.Adj]

def Closed (q : QueryState n) (A : Finset (Fin n)) : Prop :=
  ∀ u ∈ A, ∀ v, q.dsu.rep u = q.dsu.rep v → v ∈ A

structure Spec (G : SimpleGraph (Fin n)) [DecidableRel G.Adj] (q : QueryState n)
    (As : List (Finset (Fin n))) (o : Outcome n) : Prop where
  threw : o.threw = false
  inv : ForestInv G o.query
  rep : o.modified = false → ∀ x, o.query.dsu.rep x = q.dsu.rep x
  cut : o.modified = false → ∀ A ∈ As, cutEdges G A = ∅

theorem after_spec (hn : n < 2 ^ 32) {q : QueryState n} (hq : ForestInv G q)
    (hcf : ∀ A, CollisionFree xxh p (cutEdges G A)) (l : List (Finset (Fin n) × Sketch p))
    (hl : ∀ x ∈ l, Ready xxh G x.1 x.2 ∧ Closed q x.1) :
    Spec G q (l.map Prod.fst) (after xxh q (l.map Prod.snd)) := by
  induction l with
  | nil => exact ⟨rfl,hq,fun _ _ => rfl,fun _ A hA => by cases hA⟩
  | cons x l ih =>
    obtain ⟨hthrew,hinv,hrep,hcut⟩ := ih fun y hy => hl y (List.mem_cons_of_mem _ hy)
    obtain ⟨hready,hclosed⟩ := hl x List.mem_cons_self
    have hs := sampleSupernode_spec hn hinv (hcf x.1) hready
    have hm : (after xxh q ((x :: l).map Prod.snd)).modified = false →
        (after xxh q (l.map Prod.snd)).modified = false ∧
        (sampleSupernode xxh (after xxh q (l.map Prod.snd)).query x.2).modified = false := by
      intro h
      exact Bool.or_eq_false_iff.mp h
    refine ⟨?_,hs.inv,fun h y => ?_,fun h A hA => ?_⟩
    · change ((after xxh q (l.map Prod.snd)).threw || _) = false
      rw [hthrew,hs.err]
      rfl
    · exact (hs.rep (hm h).2 y).trans (hrep (hm h).1 y)
    · rcases List.mem_cons.mp hA with rfl | hA
      · rcases hs.cut (hm h).2 with he | ⟨u,v,hu,hv,huv⟩
        · exact he
        · rw [hrep (hm h).1,hrep (hm h).1] at huv
          exact absurd (hclosed u hu v huv) hv
      · exact hcut (hm h).1 A hA

end Outcome

namespace Round
open Outcome

variable {I : RoundInput n T p} {q : QueryState n} {s s' : Round n T p} {t : Fin T}

def outcome (I : RoundInput n T p) (q : QueryState n) (s : Round n T p) : Outcome n :=
  after I.xxh q (s.calls.map (·.sketch))

structure Tracks (I : RoundInput n T p) (q : QueryState n) (s : Round n T p) : Prop where
  query : (outcome I q s).query = s.query
  modified : (outcome I q s).modified = s.modified
  threw : (outcome I q s).threw = true ↔
    s.err.isSome = true ∨ ∃ t, (s.workers t).localErr.isSome = true
  reported : ∀ t, (s.workers t).pc = .done → (s.workers t).localErr.isSome = true →
    s.err.isSome = true
  traced : ∀ err, (s.err = some err ∨ ∃ t, (s.workers t).localErr = some err) →
    ∃ c ∈ s.calls, ∃ q : QueryState n, (sampleSupernode I.xxh q c.sketch).err = some err

theorem Tracks.of_worker (h : s.Tracks I q) (hq : s'.query = s.query)
    (hm : s'.modified = s.modified) (he : s'.err = s.err) (hc : s'.calls = s.calls)
    (hw : ∀ u, u ≠ t → s'.workers u = s.workers u)
    (ht : (s'.workers t).localErr = (s.workers t).localErr) (hd : (s'.workers t).pc ≠ .done) :
    s'.Tracks I q := by
  have ho : outcome I q s' = outcome I q s := by rw [outcome,outcome,hc]
  have hloc (u : Fin T) : (s'.workers u).localErr = (s.workers u).localErr := by
    by_cases hu : u = t
    · subst hu
      exact ht
    · rw [hw u hu]
  refine ⟨by rw [ho,hq,h.query],by rw [ho,hm,h.modified],?_,fun u hu hl => ?_,?_⟩
  · simp only [ho,he,hloc]
    exact h.threw
  · by_cases hut : u = t
    · exact absurd (hut ▸ hu) hd
    · rw [hw u hut] at hu hl
      rw [he]
      exact h.reported u hu hl
  · simp only [he,hloc,hc]
    exact h.traced

theorem Tracks.sampled (h : s.Tracks I q) {c : Call n T p} (hc : s'.calls = c :: s.calls)
    (hq : s'.query = (sampleSupernode I.xxh s.query c.sketch).query)
    (hm : s'.modified = (s.modified || (sampleSupernode I.xxh s.query c.sketch).modified))
    (he : s'.err = s.err) (hw : ∀ u, u ≠ t → s'.workers u = s.workers u)
    (ht : (s'.workers t).localErr =
      (sampleSupernode I.xxh s.query c.sketch).err.or (s.workers t).localErr)
    (hd : (s'.workers t).pc ≠ .done) : s'.Tracks I q := by
  have ho : outcome I q s' = (outcome I q s).sample I.xxh c.sketch := by
    rw [outcome,hc]
    rfl
  refine ⟨?_,?_,?_,fun u hu hl => ?_,fun err herr => ?_⟩
  · rw [ho,hq,← h.query]
    rfl
  · rw [ho,hm,← h.query,← h.modified]
    rfl
  · rw [ho,he]
    change ((outcome I q s).threw || _) = true ↔ _
    rw [Bool.or_eq_true,h.threw,h.query,or_assoc]
    refine or_congr_right ⟨?_,?_⟩
    · rintro (⟨u,hu⟩ | herr)
      · by_cases hut : u = t
        · subst hut
          exact ⟨u,by simp [ht,hu]⟩
        · exact ⟨u,by rw [hw u hut]; exact hu⟩
      · exact ⟨t,by simp [ht,herr]⟩
    · rintro ⟨u,hu⟩
      by_cases hut : u = t
      · subst hut
        rw [ht,Option.isSome_or,Bool.or_eq_true] at hu
        rcases hu with hu | hu
        · exact .inr hu
        · exact .inl ⟨u,hu⟩
      · exact .inl ⟨u,by rw [← hw u hut]; exact hu⟩
  · by_cases hut : u = t
    · exact absurd (hut ▸ hu) hd
    · rw [he]
      rw [hw u hut] at hu hl
      exact h.reported u hu hl
  · have hold (hcase : s.err = some err ∨ ∃ u, (s.workers u).localErr = some err) :
        ∃ d ∈ s'.calls, ∃ q : QueryState n,
          (sampleSupernode I.xxh q d.sketch).err = some err := by
      obtain ⟨d,hd,hsampled⟩ := h.traced err hcase
      exact ⟨d,hc ▸ List.mem_cons_of_mem c hd,hsampled⟩
    rw [he] at herr
    rcases herr with herr | ⟨u,hu⟩
    · exact hold (.inl herr)
    · by_cases hut : u = t
      · subst hut
        rw [ht,Option.or_eq_some_iff] at hu
        rcases hu with hu | ⟨_,hu⟩
        · exact ⟨c,hc ▸ List.mem_cons_self,_,hu⟩
        · exact hold (.inr ⟨u,hu⟩)
      · exact hold (.inr ⟨u,hw u hut ▸ hu⟩)

theorem Tracks.leave (h : s.Tracks I q) : ((s.report t).setPc t .done).Tracks I q := by
  have hloc (u : Fin T) : (((s.report t).setPc t .done).workers u).localErr =
      (s.workers u).localErr := by
    by_cases hu : u = t
    · subst hu
      simp [setPc,report]
    · rw [setPc,setWorker_workers_ne _ hu]
      rfl
  have herr : ((s.report t).setPc t .done).err = (s.workers t).localErr.or s.err := rfl
  refine ⟨h.query,h.modified,?_,fun u hu hl => ?_,fun err hcase => ?_⟩
  · change (outcome I q s).threw = true ↔ _
    rw [h.threw,herr,Option.isSome_or,Bool.or_eq_true]
    simp only [hloc]
    constructor
    · rintro (he | hl)
      · exact .inl (.inr he)
      · exact .inr hl
    · rintro ((he | he) | hl)
      · exact .inr ⟨t,he⟩
      · exact .inl he
      · exact .inr hl
  · rw [hloc] at hl
    rw [herr,Option.isSome_or,Bool.or_eq_true]
    by_cases hut : u = t
    · exact .inl (hut ▸ hl)
    · rw [setPc,setWorker_workers_ne _ hut] at hu
      exact .inr (h.reported u hu hl)
  · refine h.traced err ?_
    simp only [hloc,herr,Option.or_eq_some_iff] at hcase
    rcases hcase with (hl | ⟨_,he⟩) | hl
    · exact .inr ⟨t,hl⟩
    · exact .inl he
    · exact .inr hl

theorem Tracks.step (h : s.Tracks I q) (t : Fin T) : (s.step I t).Tracks I q := by
  have hne : ∀ u, u ≠ t → (s.step I t).workers u = s.workers u := fun u hu => step_workers_ne hu
  have hlocal {next : Pc T} (hn : next ≠ .done)
      (hw : ∀ u, u ≠ t → (s.sampleLocal I t next).workers u = s.workers u) :
      (s.sampleLocal I t next).Tracks I q :=
    h.sampled (c := ⟨t,(s.workers t).curRoot,(s.workers t).localSketch⟩) rfl rfl rfl rfl hw
      (by simp [Round.sampleLocal]) (by simpa [Round.sampleLocal] using hn)
  cases hpc : (s.workers t).pc with
  | head =>
    simp only [Round.step,hpc] at hne ⊢
    split at hne
    · next hlt =>
      rw [dif_pos hlt]
      split at hne
      · next hR =>
        rw [if_pos hR]
        exact h.of_worker rfl rfl rfl rfl hne (by simp [absorb]) (by simp [absorb])
      · next hR =>
        rw [if_neg hR]
        split at hne
        · next hl =>
          rw [if_pos hl]
          exact h.of_worker rfl rfl rfl rfl hne (by simp [Round.mergeInto])
            (by simp [Round.mergeInto])
        · next hl =>
          rw [if_neg hl]
          exact hlocal (by simp) hne
    · next hge =>
      rw [dif_neg hge]
      split at hne
      · next hor =>
        rw [if_pos hor]
        refine h.of_worker ?_ ?_ ?_ ?_ hne (by simp [Round.announce]) (by simp [Round.announce])
        all_goals
          simp only [Round.announce]
          split <;> rfl
      · next hor =>
        rw [if_neg hor]
        exact hlocal (by simp) hne
  | ownQuery ready =>
    simp only [Round.step,hpc] at hne ⊢
    cases ready with
    | false =>
      exact h.of_worker rfl rfl rfl rfl hne (by simp [finishOwn,queryGlobal])
        (by simp [finishOwn])
    | true =>
      exact h.sampled (c := ⟨t,(s.workers t).curRoot,(s.globals t).sketch⟩) rfl rfl rfl rfl hne
        (by simp [finishOwn,queryGlobal,sampleGlobal]) (by simp [finishOwn])
  | switch =>
    simp only [Round.step,hpc] at hne ⊢
    split at hne
    · next hlt =>
      rw [dif_pos hlt]
      exact h.of_worker rfl rfl rfl rfl hne (by simp [switchRoot,absorb])
        (by simp [switchRoot,absorb])
    · next hlt =>
      rw [dif_neg hlt]
      exact h
  | mergeLast g =>
    simp only [Round.step,hpc] at hne ⊢
    exact h.of_worker rfl rfl rfl rfl hne (by simp [Round.mergeInto]) (by simp [Round.mergeInto])
  | lastQuery g ready =>
    simp only [Round.step,hpc] at hne ⊢
    cases ready with
    | false =>
      exact h.of_worker rfl rfl rfl rfl hne (by simp [setPc,queryGlobal]) (by simp [setPc])
    | true =>
      exact h.sampled (c := ⟨t,(s.workers t).curRoot,(s.globals g).sketch⟩) rfl rfl rfl rfl hne
        (by simp [setPc,queryGlobal,sampleGlobal]) (by simp [setPc])
  | leave =>
    simp only [Round.step,hpc]
    exact h.leave
  | done =>
    simp only [Round.step,hpc]
    exact h

theorem tracks_begin (globals : Fin T → GlobalMergeData p) :
    (I.begin q globals).Tracks I q := by
  refine ⟨rfl,rfl,?_,fun u hu => ?_,fun err herr => ?_⟩
  · simp [outcome,RoundInput.begin,RoundInput.worker,after]
  · simp [RoundInput.begin,RoundInput.worker] at hu
  · simp [RoundInput.begin,RoundInput.worker] at herr

theorem Tracks.run (h : s.Tracks I q) (schedule : List (Fin T)) :
    (s.run I schedule).Tracks I q :=
  List.foldlRecOn (motive := fun s => s.Tracks I q) schedule (Round.step I) h
    fun _ hs t _ => hs.step t

theorem Tracks.threw_iff (h : s.Tracks I q) (hf : s.Finished) :
    (outcome I q s).threw = s.err.isSome := by
  rw [Bool.eq_iff_iff,h.threw]
  refine ⟨?_,.inl⟩
  rintro (he | ⟨t,ht⟩)
  · exact he
  · exact h.reported t (hf t) ht

end Round
end GraphZeppelin.Boruvka
