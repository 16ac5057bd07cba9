import GraphZeppelin.Boruvka.RoundInv

namespace GraphZeppelin.Boruvka
open RoundInput Sketch

variable {n T : ℕ} {p : SketchParams}

namespace Round

variable {I : RoundInput n T p} {s s' : Round n T p} {t u : Fin T} {R : Fin n}

theorem Inv.sampled (h : s.Inv I) {c : Call n T p} (hct : c.thr = t)
    (hm : s'.merges = s.merges) (hc : s'.calls = c :: s.calls)
    (hw : ∀ u, u ≠ t → s'.workers u = s.workers u) (ht : s'.WorkerInv I t)
    (hnew : ¬ s.Called c.root) (hok : s.CallInv I c)
    (hdone : ∀ g, (s'.globals g).numMergeDone = (s.globals g).numMergeDone)
    (hneed : ∀ g, (s'.globals g).numMergeNeeded = (s.globals g).numMergeNeeded)
    (hbkt : ∀ g, (s'.globals g).sketch.buckets = (s.globals g).sketch.buckets)
    (hidx : ∀ R a b, I.IsBlock R a b → I.owner a < I.owner b → R ≠ c.root →
      (s'.globals (I.owner b)).sketch.sampleIdx = (s.globals (I.owner b)).sketch.sampleIdx) :
    s'.Inv I := by
  have hann (R : Fin n) : s'.Announced I R ↔ s.Announced I R := by simp only [Announced,hneed]
  have hmoves : Moves I s s' t := by
    refine ⟨hw,by simp [hm],fun m hmem => .inl (hm ▸ hmem),by simp +contextual [hc],
      fun c' hc' => ?_,fun u _ R => completes_congr hm,fun R ha => (hann R).mpr ha⟩
    rw [hc] at hc'
    rcases List.mem_cons.mp hc' with rfl | hold
    · exact .inr hct
    · exact .inl hold
  have hcall {R : Fin n} (hR : ¬ s'.Called R) : R ≠ c.root ∧ ¬ s.Called R := by
    refine ⟨fun e => hR ⟨c,by simp [hc],e.symm⟩,fun hold => hR (hold.mono hmoves.calls_sub)⟩
  refine ⟨h.moved hmoves ht,fun R a b hab hlt => ?_,?_,fun c' hc' => ?_,?_,?_⟩
  · have hslot := h.slot R a b hab hlt
    have hms : s'.mergesOf R = s.mergesOf R := by simp only [mergesOf,hm]
    refine ⟨?_,?_,?_,fun hR => ?_,fun hR hne => ?_,?_,?_⟩
    · rw [hms]
      exact hslot.nodup
    · rw [hms,hdone]
      exact hslot.done
    · rw [hms,hbkt]
      exact hslot.content
    · rw [hidx R a b hab hlt (hcall hR).1]
      exact hslot.idx_le (hcall hR).2
    · rw [hidx R a b hab hlt (hcall hR).1]
      exact hslot.idx (hcall hR).2 (hms ▸ hne)
    · rw [hneed,hann]
      exact hslot.needed
    · rw [hms,hann]
      exact hslot.first
  · rw [hm]
    exact h.merge
  · rw [hc] at hc'
    have hold : s.CallInv I c' := by
      rcases List.mem_cons.mp hc' with rfl | hold
      · exact hok
      · exact h.call c' hold
    refine ⟨hold.content,hold.idx,?_⟩
    rw [Responsible,completes_congr hm]
    exact hold.responsible
  · rw [hc,List.map_cons,List.nodup_cons]
    refine ⟨fun hmem => hnew ?_,h.nodup⟩
    obtain ⟨c',hc',he⟩ := List.mem_map.mp hmem
    exact ⟨c',hc',he⟩
  · intro g
    rw [hdone]
    exact h.idle g

theorem Responsible.unique (h : s.Responsible I t R) (h' : s.Responsible I u R) : t = u := by
  rcases h with ⟨a,b,hab,hAB,rfl⟩ | ⟨ms,a,b,hab,hAB,he,_⟩ <;>
    rcases h' with ⟨a',b',hab',hAB',rfl⟩ | ⟨ms',a',b',hab',hAB',he',_⟩
  · rw [(hab.unique hab').1]
  · obtain ⟨rfl,rfl⟩ := hab.unique hab'
    exact absurd hAB (ne_of_lt hAB')
  · obtain ⟨rfl,rfl⟩ := hab.unique hab'
    exact absurd hAB' (ne_of_lt hAB)
  · rw [he] at he'
    injection he' with hhead
    injection hhead

theorem Inv.not_called (h : s.Inv I) (hr : s.Responsible I t (s.workers t).curRoot)
    (hpc : (s.workers t).pc.asked = false) : ¬ s.Called (s.workers t).curRoot := by
  rintro ⟨c,hc,hR⟩
  have hcr := (h.call c hc).responsible
  rw [hR] at hcr
  have hp := (h.worker t).called c hc (hcr.unique hr)
  rw [hpc,hR] at hp
  exact lt_irrefl _ hp.lt

theorem Inv.mem_mergesOf (h : s.Inv I) {a b : Fin n} (hb : I.IsBlock R a b) {m : GlobalMerge n T}
    (hm : m ∈ s.mergesOf R) : m.root = R ∧ m.slot = I.owner b ∧
      m.thr ∈ Finset.Icc (I.owner a) (I.owner b) := by
  obtain ⟨hmem,hR⟩ := List.mem_filter.mp hm
  have hR := of_decide_eq_true hR
  obtain ⟨a',b',hb',_,hslot,hthr⟩ := h.merge m hmem
  rw [hR] at hb'
  obtain ⟨rfl,rfl⟩ := hb.unique hb'
  exact ⟨hR,hslot,Finset.mem_Icc.mpr hthr⟩

theorem Inv.thr_subset (h : s.Inv I) {a b : Fin n} (hb : I.IsBlock R a b) :
    ((s.mergesOf R).map (·.thr)).toFinset ⊆ Finset.Icc (I.owner a) (I.owner b) := by
  intro t ht
  obtain ⟨m,hm,rfl⟩ := List.mem_map.mp (List.mem_toFinset.mp ht)
  exact (h.mem_mergesOf hb hm).2.2

theorem Inv.thr_eq (h : s.Inv I) {a b : Fin n} (hb : I.IsBlock R a b)
    (hlt : I.owner a < I.owner b)
    (hfull : I.owner b - I.owner a + 1 ≤ (s.mergesOf R).length) :
    ((s.mergesOf R).map (·.thr)).toFinset = Finset.Icc (I.owner a) (I.owner b) := by
  refine Finset.eq_of_subset_of_card_le (h.thr_subset hb) ?_
  rw [List.toFinset_card_of_nodup (h.slot R a b hb hlt).nodup,List.length_map,Fin.card_Icc]
  have := Fin.lt_def.mp hlt
  omega

theorem Inv.slot_total [I.Tiled] (h : s.Inv I) {a b : Fin n} (hb : I.IsBlock R a b)
    (hlt : I.owner a < I.owner b)
    (hfull : I.owner b - I.owner a + 1 ≤ (s.mergesOf R).length) :
    (s.globals (I.owner b)).sketch.buckets = I.total R := by
  have hslot := h.slot R a b hb hlt
  rw [hslot.content,← hb.sum_piece,← h.thr_eq hb hlt hfull,List.sum_toFinset _ hslot.nodup,
    List.map_map]
  rfl

theorem Inv.not_merged (h : s.Inv I) (hpc : (s.workers t).pc.delivered = false) :
    t ∉ (s.mergesOf (s.workers t).curRoot).map (·.thr) := by
  intro ht
  obtain ⟨m,hm,hmt⟩ := List.mem_map.mp ht
  obtain ⟨hmem,hR⟩ := List.mem_filter.mp hm
  have hp := (h.worker t).merged m hmem hmt
  rw [hpc,of_decide_eq_true hR] at hp
  exact lt_irrefl _ hp.lt

theorem Inv.not_full [I.Tiled] (h : s.Inv I) (hpc : (s.workers t).pc.delivered = false)
    {a b : Fin n} (hb : I.IsBlock (s.workers t).curRoot a b) (hlt : I.owner a < I.owner b) :
    (s.mergesOf (s.workers t).curRoot).length ≤ I.owner b - I.owner a := by
  by_contra hfull
  have hthr := h.thr_eq hb hlt (by omega)
  have ht : t ∈ Finset.Icc (I.owner a) (I.owner b) :=
    Finset.mem_Icc.mpr (hb.spans_iff.mp (h.worker t).spans)
  rw [← hthr,List.mem_toFinset] at ht
  exact h.not_merged hpc ht

section MergeInto

variable {g : Fin T} {next : Bool → Pc T}

theorem mergesOf_mergeInto_self : (s.mergeInto I t g next).mergesOf (s.workers t).curRoot =
    ⟨g,t,(s.workers t).curRoot⟩ :: s.mergesOf (s.workers t).curRoot := by
  simp [mergesOf,mergeInto]

theorem mergesOf_mergeInto_ne (hR : (s.workers t).curRoot ≠ R) :
    (s.mergeInto I t g next).mergesOf R = s.mergesOf R := by
  simp [mergesOf,mergeInto,hR]

theorem mergeInto_needed (g' : Fin T) : ((s.mergeInto I t g next).globals g').numMergeNeeded =
    (s.globals g').numMergeNeeded := by
  by_cases hg : g' = g
  · subst hg
    simp [mergeInto,GlobalMergeData.mergeGlobal]
  · simp [mergeInto,hg]

theorem mergeInto_announced :
    (s.mergeInto I t g next).Announced I R ↔ s.Announced I R := by
  simp only [Announced,mergeInto_needed]

variable {a b : Fin n}

theorem completes_mergeInto_self (hb : I.IsBlock (s.workers t).curRoot a b)
    (hlt : I.owner a < I.owner b) :
    (s.mergeInto I t (I.owner b) next).Completes I t (s.workers t).curRoot ↔
      (s.mergesOf (s.workers t).curRoot).length = I.owner b - I.owner a := by
  constructor
  · rintro ⟨ms,a',b',hb',_,he,hlen⟩
    obtain ⟨rfl,rfl⟩ := hb.unique hb'
    rw [mergesOf_mergeInto_self] at he
    injection he with _ hms
    rw [hms,hlen]
  · intro hlen
    exact ⟨_,a,b,hb,hlt,mergesOf_mergeInto_self,hlen⟩

theorem Inv.completes_mono [I.Tiled] (h : s.Inv I) (hpc : (s.workers t).pc.delivered = false)
    (hb : I.IsBlock (s.workers t).curRoot a b) (hlt : I.owner a < I.owner b)
    (hc : s.Completes I u R) : (s.mergeInto I t g next).Completes I u R := by
  by_cases hR : (s.workers t).curRoot = R
  · subst hR
    obtain ⟨ms,a',b',hb',_,he,hlen⟩ := hc
    obtain ⟨rfl,rfl⟩ := hb.unique hb'
    have hnf := h.not_full hpc hb hlt
    rw [he,List.length_cons] at hnf
    omega
  · obtain ⟨ms,a',b',hb',hlt',he,hlen⟩ := hc
    exact ⟨ms,a',b',hb',hlt',(mergesOf_mergeInto_ne hR).trans he,hlen⟩

theorem completes_mergeInto_ne (hu : u ≠ t) (hc : (s.mergeInto I t g next).Completes I u R) :
    s.Completes I u R := by
  obtain ⟨ms,a',b',hb',hlt',he,hlen⟩ := hc
  by_cases hR : (s.workers t).curRoot = R
  · subst hR
    rw [mergesOf_mergeInto_self] at he
    injection he with hhead
    injection hhead with _ hthr
    exact absurd hthr.symm hu
  · exact ⟨ms,a',b',hb',hlt',(mergesOf_mergeInto_ne hR).symm.trans he,hlen⟩

theorem Inv.mergeInto_ready [I.Tiled] (h : s.Inv I) (next : Bool → Pc T)
    (hpc : (s.workers t).pc.delivered = false) (hb : I.IsBlock (s.workers t).curRoot a b)
    (hlt : I.owner a < I.owner b)
    (hfirst : t = I.owner a → s.Announced I (s.workers t).curRoot) :
    ((s.globals (I.owner b)).mergeGlobal I.curRound (s.workers t).localSketch).queryReady = true ↔
      (s.mergeInto I t (I.owner b) next).Completes I t (s.workers t).curRoot := by
  have hslot := h.slot _ a b hb hlt
  have hnf := h.not_full hpc hb hlt
  rw [completes_mergeInto_self hb hlt,GlobalMergeData.queryReady,decide_eq_true_eq]
  simp only [GlobalMergeData.mergeGlobal,hslot.done]
  have hB := (I.owner b).isLt
  have hT := I.threads_le
  have hn := I.vertices_lt
  rcases hslot.needed with hneed | hneed
  · rw [hneed]
    refine ⟨fun hle => absurd hle ?_,fun hlen => ?_⟩
    · unfold GlobalMergeData.sizeMax
      omega
    · have hann : s.Announced I (s.workers t).curRoot := by
        by_cases hta : t = I.owner a
        · exact hfirst hta
        · have hsub : Finset.Icc (I.owner a) (I.owner b) \ {t} ⊆
              ((s.mergesOf (s.workers t).curRoot).map (·.thr)).toFinset := by
            refine (Finset.eq_of_subset_of_card_le ?_ ?_).symm.subset
            · intro v hv
              refine Finset.mem_sdiff.mpr ⟨h.thr_subset hb hv,fun he => ?_⟩
              rw [Finset.mem_singleton] at he
              subst he
              exact h.not_merged hpc (List.mem_toFinset.mp hv)
            · have ht : t ∈ Finset.Icc (I.owner a) (I.owner b) :=
                Finset.mem_Icc.mpr (hb.spans_iff.mp (h.worker t).spans)
              rw [List.toFinset_card_of_nodup hslot.nodup,List.length_map,
                Finset.card_sdiff_of_subset (Finset.singleton_subset_iff.mpr ht),Fin.card_Icc,
                Finset.card_singleton,hlen]
              omega
          have hmem : I.owner a ∈ Finset.Icc (I.owner a) (I.owner b) \ {t} := by
            simp [le_of_lt hlt,Ne.symm hta]
          obtain ⟨m,hm,hmt⟩ := List.mem_map.mp (List.mem_toFinset.mp (hsub hmem))
          exact hslot.first ⟨m,hm,hmt⟩
      rw [hann a b hb hlt] at hneed
      unfold GlobalMergeData.sizeMax at hneed
      omega
  · rw [hneed a b hb hlt]
    omega

theorem Inv.mergeInto [I.Tiled] (h : s.Inv I) (hr : I.curRound ≤ p.numSamples)
    (hpc : (s.workers t).pc.delivered = false)
    (hb : I.IsBlock (s.workers t).curRoot a b) (hlt : I.owner a < I.owner b)
    (hpiece : (s.workers t).localSketch.buckets = I.piece t (s.workers t).curRoot)
    (hfirst : t = I.owner a → s.Announced I (s.workers t).curRoot)
    (ht : (s.mergeInto I t (I.owner b) next).WorkerInv I t) :
    (s.mergeInto I t (I.owner b) next).Inv I := by
  have hclip : clip p I.curRound (s.workers t).localSketch.buckets =
      I.piece t (s.workers t).curRoot := by rw [hpiece,piece,clip_upTo]
  have htIcc := hb.spans_iff.mp (h.worker t).spans
  have hmoves : Moves I s (s.mergeInto I t (I.owner b) next) t := by
    refine ⟨fun u hu => by simp [Round.mergeInto,hu],fun m hm => List.mem_cons_of_mem _ hm,
      fun m hm => ?_,fun c hc => hc,fun c hc => .inl hc,
      fun u hu R => ⟨completes_mergeInto_ne hu,h.completes_mono hpc hb hlt⟩,
      fun R ha => mergeInto_announced.mpr ha⟩
    rcases List.mem_cons.mp hm with rfl | hm
    · exact .inr rfl
    · exact .inl hm
  refine ⟨h.moved hmoves ht,fun R a' b' hb' hlt' => ?_,fun m hm => ?_,fun c hc => ?_,h.nodup,
    fun g => ?_⟩
  · by_cases hR : (s.workers t).curRoot = R
    · subst hR
      obtain ⟨rfl,rfl⟩ := hb.unique hb'
      have hslot := h.slot _ a b hb hlt
      have hglob : (s.mergeInto I t (I.owner b) next).globals (I.owner b) =
          (s.globals (I.owner b)).mergeGlobal I.curRound (s.workers t).localSketch := by
        simp [Round.mergeInto]
      have hidx (hnc : ¬ s.Called (s.workers t).curRoot) :
          ((s.mergeInto I t (I.owner b) next).globals (I.owner b)).sketch.sampleIdx =
            I.curRound := by
        rw [hglob]
        exact rangeMerge_sampleIdx _ hr (hslot.idx_le hnc)
      refine ⟨?_,?_,?_,fun hnc => (hidx hnc).le,fun hnc _ => hidx hnc,?_,?_⟩
      · rw [mergesOf_mergeInto_self,List.map_cons,List.nodup_cons]
        exact ⟨h.not_merged hpc,hslot.nodup⟩
      · rw [mergesOf_mergeInto_self,List.length_cons,hglob,← hslot.done]
        rfl
      · rw [mergesOf_mergeInto_self,List.map_cons,List.sum_cons,hglob,← hslot.content]
        change (rangeMerge _ _ _ _).buckets = _
        rw [rangeMerge_buckets,hclip,add_comm]
      · rw [mergeInto_needed,mergeInto_announced]
        exact hslot.needed
      · rw [mergesOf_mergeInto_self,mergeInto_announced]
        rintro ⟨m,hm,hmt⟩
        rcases List.mem_cons.mp hm with rfl | hm
        · exact hfirst hmt
        · exact hslot.first ⟨m,hm,hmt⟩
    · have hslot := h.slot R a' b' hb' hlt'
      have hne : I.owner b' ≠ I.owner b := fun e => hR (hb'.slot_unique hlt' hb hlt e).symm
      have hglob : (s.mergeInto I t (I.owner b) next).globals (I.owner b') =
          s.globals (I.owner b') := by simp [Round.mergeInto,hne]
      have hms : (s.mergeInto I t (I.owner b) next).mergesOf R = s.mergesOf R :=
        mergesOf_mergeInto_ne hR
      refine ⟨?_,?_,?_,?_,?_,?_,?_⟩
      · rw [hms]
        exact hslot.nodup
      · rw [hms,hglob]
        exact hslot.done
      · rw [hms,hglob]
        exact hslot.content
      · rw [hglob]
        exact hslot.idx_le
      · rw [hms,hglob]
        exact hslot.idx
      · rw [mergeInto_needed,mergeInto_announced]
        exact hslot.needed
      · rw [hms,mergeInto_announced]
        exact hslot.first
  · rcases List.mem_cons.mp hm with rfl | hm
    · exact ⟨a,b,hb,hlt,rfl,htIcc⟩
    · exact h.merge m hm
  · obtain ⟨h1,h2,h3⟩ := h.call c hc
    exact ⟨h1,h2,h3.imp_right (h.completes_mono hpc hb hlt)⟩
  · by_cases hg : g = I.owner b
    · exact .inr ⟨_,a,b,hb,hlt,hg.symm⟩
    · have hglob : (s.mergeInto I t (I.owner b) next).globals g = s.globals g := by
        simp [Round.mergeInto,hg]
      rw [hglob]
      exact h.idle g

end MergeInto

section Announce

variable {a b : Fin n}

theorem announce_of_left (hl : (s.workers t).rootFromLeft = true) :
    s.announce I t = s.setPc t (.mergeLast
      (I.lastPartitionOfRoot (s.workers t).curRoot (I.start t))) := by
  simp [announce,setPc,hl]

theorem announce_globals [I.Tiled] (hl : (s.workers t).rootFromLeft = false)
    (hs : SortedByRoot I.mergeInstr) (hb : I.IsBlock (s.workers t).curRoot a b) (ht : t ≤ I.owner b) :
    (s.announce I t).globals = Function.update s.globals (I.owner b)
      { s.globals (I.owner b) with numMergeNeeded := I.owner b - t + 1 } := by
  have hle : I.start t ≤ b := (I.start_mono ht).trans (I.owner_eq_iff.mp rfl).1
  have htb : (t : ℕ) ≤ I.owner b := ht
  have hneed : GlobalMergeData.needed (I.owner b) t = I.owner b - t + 1 := by
    refine GlobalMergeData.needed_eq htb ?_
    have := (I.owner b).isLt
    have := I.threads_le
    have := I.vertices_lt
    omega
  simp only [announce,hl,hb.findLast hs hle,← hneed]
  rfl

theorem Inv.announced [I.Tiled] (h : s.Inv I) (hs : SortedByRoot I.mergeInstr)
    (hl : (s.workers t).rootFromLeft = false) (hb : I.IsBlock (s.workers t).curRoot a b)
    (hta : t = I.owner a) (hlt : I.owner a < I.owner b)
    (ht : (s.announce I t).WorkerInv I t) : (s.announce I t).Inv I := by
  have hg := announce_globals (I := I) hl hs hb (hta ▸ le_of_lt hlt)
  have hsame (g : Fin T) : ((s.announce I t).globals g).sketch = (s.globals g).sketch ∧
      ((s.announce I t).globals g).numMergeDone = (s.globals g).numMergeDone := by
    rw [hg]
    by_cases he : g = I.owner b
    · subst he
      simp
    · simp [he]
  have hm : (s.announce I t).merges = s.merges := by simp [announce,hl,setNeeded,setWorker]
  have hc : (s.announce I t).calls = s.calls := by simp [announce,hl,setNeeded,setWorker]
  have hself : (s.announce I t).Announced I (s.workers t).curRoot := by
    intro a' b' hb' _
    obtain ⟨rfl,rfl⟩ := hb.unique hb'
    rw [hg,← hta]
    simp
  have hother {R : Fin n} {a' b' : Fin n} (hb' : I.IsBlock R a' b') (hlt' : I.owner a' < I.owner b')
      (hR : (s.workers t).curRoot ≠ R) :
      (s.announce I t).globals (I.owner b') = s.globals (I.owner b') := by
    have hne : I.owner b' ≠ I.owner b := fun e => hR (hb'.slot_unique hlt' hb hlt e).symm
    rw [hg]
    simp [hne]
  have hann (R : Fin n) (ha : s.Announced I R) : (s.announce I t).Announced I R := by
    by_cases hR : (s.workers t).curRoot = R
    · exact hR ▸ hself
    · intro a' b' hb' hlt'
      rw [hother hb' hlt' hR]
      exact ha a' b' hb' hlt'
  have hmoves : Moves I s (s.announce I t) t := by
    refine ⟨fun u hu => ?_,by simp [hm],fun m hmem => .inl (hm ▸ hmem),by simp [hc],
      fun c hcm => .inl (hc ▸ hcm),fun u _ R => completes_congr hm,hann⟩
    simp [announce,hl,setNeeded,setWorker,hu]
  refine ⟨h.moved hmoves ht,fun R a' b' hb' hlt' => ?_,?_,fun c hcm => ?_,?_,fun g => ?_⟩
  · have hslot := h.slot R a' b' hb' hlt'
    have hms : (s.announce I t).mergesOf R = s.mergesOf R := by simp only [mergesOf,hm]
    refine ⟨hms ▸ hslot.nodup,?_,?_,?_,?_,?_,?_⟩
    · rw [hms,(hsame _).2]
      exact hslot.done
    · rw [hms,(hsame _).1]
      exact hslot.content
    · rw [called_congr hc,(hsame _).1]
      exact hslot.idx_le
    · rw [called_congr hc,hms,(hsame _).1]
      exact hslot.idx
    · by_cases hR : (s.workers t).curRoot = R
      · exact .inr (hR ▸ hself)
      · rw [hother hb' hlt' hR]
        exact hslot.needed.imp_right (hann R)
    · rw [hms]
      exact fun hf => hann R (hslot.first hf)
  · rw [hm]
    exact h.merge
  · rw [hc] at hcm
    obtain ⟨h1,h2,h3⟩ := h.call c hcm
    exact ⟨h1,h2,h3.imp_right (completes_congr hm).mpr⟩
  · rw [hc]
    exact h.nodup
  · rw [(hsame g).2]
    exact h.idle g

end Announce
end Round
end GraphZeppelin.Boruvka
