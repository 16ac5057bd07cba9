import GraphZeppelin.Boruvka.RoundStep

namespace GraphZeppelin.Boruvka
open RoundInput Sketch

variable {n T : ℕ} {p : SketchParams}

namespace Round

variable {I : RoundInput n T p} [hI : I.Tiled] {s s' : Round n T p} {t u : Fin T} {R : Fin n}

@[simp] theorem setWorker_workers (w : Worker n T p) : (s.setWorker t w).workers t = w := by
  simp [setWorker]

theorem setWorker_workers_ne (w : Worker n T p) (hu : u ≠ t) :
    (s.setWorker t w).workers u = s.workers u := by
  simp [setWorker,hu]

omit hI in
theorem WorkerInv.absorb (h : s.WorkerInv I t) (hr : I.curRound ≤ p.numSamples)
    (hpc : (s.workers t).pc = .head) {i : Fin n} (hi : (i : ℕ) = (s.workers t).pos)
    (hlt : (s.workers t).pos < I.stop t) (hR : I.rootAt i = (s.workers t).curRoot) :
    (s.setWorker t (Round.absorb I (s.workers t) i)).WorkerInv I t := by
  have hlo := h.lo
  have hc := h.content
  have hsettled := h.settled
  have hmerged := h.merged
  have hcalled := h.called
  have hasked := h.asked
  have hleft := h.left
  simp only [hpc] at hc hsettled hmerged hcalled hasked hleft
  have hsi : I.start t ≤ i := by
    rw [Fin.le_def]
    omega
  have hidx : (rangeMerge (s.workers t).localSketch (I.sketches (I.childAt i)) I.curRound
      1).sampleIdx = I.curRound := rangeMerge_sampleIdx _ hr (hc rfl).2.1
  constructor <;> simp only [setWorker_workers,Round.absorb]
  · omega
  · omega
  · exact .inr ⟨i,by omega,hsi,hR⟩
  · exact fun _ => hleft rfl
  · simp
  · intro _
    refine ⟨?_,hidx.le,fun _ => hidx⟩
    rw [rangeMerge_buckets,(hc rfl).1,← hi,← hR,I.upTo_succ hsi]
    rfl
  · simp
  · simp
  · simp
  · simp
  · simp
  · simp
  · exact hsettled
  · exact hmerged
  · exact hcalled
  · exact hasked

omit hI in
theorem Inv.root_after (hs : SortedByRoot I.mergeInstr) (h : s.WorkerInv I t) {i : Fin n}
    (hi : (i : ℕ) = (s.workers t).pos) (hR : I.rootAt i ≠ (s.workers t).curRoot) :
    I.start t < i ∧ (s.workers t).curRoot < I.rootAt i ∧
      ∀ j, j < i → I.rootAt j ≤ (s.workers t).curRoot := by
  rcases h.cur with ⟨hp,_,hroot⟩ | ⟨j,hj,hlo,hroot⟩
  · have : i = I.start t := Fin.ext (hi.trans hp)
    exact absurd (this ▸ hroot) hR
  · have hji : j < i := by
      rw [Fin.lt_def]
      omega
    refine ⟨lt_of_le_of_lt hlo hji,lt_of_le_of_ne (hroot ▸ hs j i (le_of_lt hji)) (Ne.symm hR),?_⟩
    intro k hk
    refine (hs k j ?_).trans_eq hroot
    rw [Fin.lt_def] at hk
    rw [Fin.le_def]
    omega

omit hI in
theorem WorkerInv.switchRoot (h : s.WorkerInv I t) (hs : SortedByRoot I.mergeInstr)
    (hr : I.curRound ≤ p.numSamples) (hpc : (s.workers t).pc = .switch) {i : Fin n}
    (hi : (i : ℕ) = (s.workers t).pos) :
    (s.setWorker t (Round.switchRoot I (s.workers t) i)).WorkerInv I t := by
  have hlo := h.lo
  have hlt := (h.change (.inl hpc)).1
  have hne := (h.change (.inl hpc)).2 i hi
  have hleft := h.switched hpc
  obtain ⟨hsi,hgt,hbelow⟩ := Inv.root_after hs h hi hne
  have hsettled := h.settled
  have hmerged := h.merged
  have hcalled := h.called
  have hasked := h.asked
  simp only [hpc] at hsettled hmerged hcalled hasked
  have hidx : (rangeMerge (s.workers t).localSketch.zeroContents (I.sketches (I.childAt i))
      I.curRound 1).sampleIdx = I.curRound := rangeMerge_sampleIdx _ hr (Nat.zero_le _)
  have hpast {R : Fin n} {c : Bool} (hp : Past c R (s.workers t).curRoot) :
      Past false R (I.rootAt i) := .inl (lt_of_le_of_lt hp.le hgt)
  constructor <;> simp only [setWorker_workers,Round.switchRoot,Round.absorb]
  · omega
  · omega
  · exact .inr ⟨i,by omega,le_of_lt hsi,rfl⟩
  · intro _
    rw [hleft]
    refine ⟨(fun e => by cases e),?_⟩
    rintro ⟨j,hj,hjR⟩
    have hji : j < i := by
      rw [Fin.lt_def] at hsi ⊢
      omega
    exact absurd (hbelow j hji) (not_le.mpr (hjR ▸ hgt))
  · simp
  · intro _
    refine ⟨?_,hidx.le,fun _ => hidx⟩
    obtain ⟨a,b,hb⟩ := exists_block hs i
    have ha : (i : ℕ) ≤ a := by
      by_contra hlt'
      have hai : a < i := not_le.mp hlt'
      exact absurd (hbelow a hai) (not_le.mpr (hb.root_first ▸ hgt))
    rw [rangeMerge_buckets,zeroContents_buckets,← hi,I.upTo_succ (le_of_lt hsi),
      hb.upTo_eq_zero ha]
    rfl
  · simp
  · simp
  · simp
  · simp
  · simp
  · simp
  · intro R hR hp
    refine hsettled R hR (past_true.mpr ?_)
    obtain ⟨k,hk,rfl⟩ := hR
    refine hbelow k ?_
    by_contra hki
    exact absurd (hs i k (not_lt.mp hki)) (not_le.mpr hp.lt)
  · exact fun m hm hmt => hpast (hmerged m hm hmt)
  · exact fun c hc hct => hpast (hcalled c hc hct)
  · intro R hR hp
    obtain ⟨ms,a,b,_,_,he,_⟩ := id hR
    have hm : (⟨I.owner b,t,R⟩ : GlobalMerge n T) ∈ s.merges :=
      (List.mem_filter.mp (he ▸ List.mem_cons_self : _ ∈ s.mergesOf R)).1
    exact hasked R hR (hmerged _ hm rfl)

def AtChange (I : RoundInput n T p) (s : Round n T p) (t : Fin T) : Prop :=
  (s.workers t).pos < I.stop t ∧
    ∀ j : Fin n, (j : ℕ) = (s.workers t).pos → I.rootAt j ≠ (s.workers t).curRoot

def Passed (I : RoundInput n T p) (s : Round n T p) (t : Fin T) : Prop :=
  ∃ j : Fin n, (j : ℕ) + 1 = (s.workers t).pos ∧ I.start t ≤ j ∧ I.rootAt j = (s.workers t).curRoot

theorem WorkerInv.passed (h : s.WorkerInv I t)
    (hend : AtChange I s t ∨ (s.workers t).pos = I.stop t) : s.Passed I t := by
  have hss := I.start_lt_stop t
  rcases h.cur with ⟨hp,_,hroot⟩ | hj
  · rcases hend with hend | hend
    · exact absurd hroot (hend.2 (I.start t) hp.symm)
    · omega
  · exact hj

omit hI in
theorem WorkerInv.afterQuery (h : s.WorkerInv I t) (hpass : s.Passed I t)
    (hpos : (s'.workers t).pos = (s.workers t).pos)
    (hcur : (s'.workers t).curRoot = (s.workers t).curRoot)
    (hnext : ((s'.workers t).pc = .switch ∧ (s'.workers t).rootFromLeft = false ∧
      AtChange I s t) ∨ ((s'.workers t).pc = .leave ∧ (s.workers t).pos = I.stop t))
    (hm : s'.merges = s.merges) (hcs : ∀ c ∈ s.calls, c ∈ s'.calls)
    (hcn : ∀ c ∈ s'.calls, c ∈ s.calls ∨ c.root = (s.workers t).curRoot)
    (hset : s'.Settled I t (s.workers t).curRoot)
    (hask : s.Completes I t (s.workers t).curRoot → s'.Called (s.workers t).curRoot) :
    s'.WorkerInv I t := by
  have hasked : (s'.workers t).pc.asked = true := by
    rcases hnext with ⟨hpc,_⟩ | ⟨hpc,_⟩ <;> rw [hpc] <;> rfl
  have hdel : (s'.workers t).pc.delivered = true := by
    rcases hnext with ⟨hpc,_⟩ | ⟨hpc,_⟩ <;> rw [hpc] <;> rfl
  have hpc : (s'.workers t).pc = .switch ∨ (s'.workers t).pc = .leave :=
    hnext.imp And.left And.left
  have hsub : ∀ m ∈ s.merges, m ∈ s'.merges := by simp [hm]
  constructor <;> try simp only [hpos,hcur,hasked,hdel]
  · exact h.lo
  · exact h.hi
  · exact .inr hpass
  · simp
  · intro he
    rcases hnext with ⟨_,hl,_⟩ | ⟨hpc,_⟩
    · exact hl
    · simp [hpc] at he
  · simp
  · intro he
    rcases hnext with ⟨_,_,hch⟩ | ⟨hpc,_⟩
    · exact hch
    · simp [hpc] at he
  · intro q hq
    rcases hpc with hpc | hpc <;> simp [hpc] at hq
  · intro g hg
    rcases hpc with hpc | hpc <;> simp [hpc] at hg
  · intro he
    rcases hnext with ⟨hpc,_⟩ | ⟨_,hp⟩
    · simp [hpc] at he
    · exact hp
  · intro g hg
    rcases hpc with hpc | hpc <;> simp [hpc] at hg
  · intro q hq
    rcases hpc with hpc | hpc <;> simp [hpc] at hq
  · intro R hR hp
    rcases hp with hlt | ⟨_,rfl⟩
    · exact (h.settled R hR (.inl hlt)).mono hsub hcs
    · exact hset
  · intro m hmem hmt
    exact past_true.mpr (h.merged m (hm ▸ hmem) hmt).le
  · intro c hc hct
    rcases hcn c hc with hold | hnew
    · exact past_true.mpr (h.called c hold hct).le
    · exact .inr ⟨rfl,hnew⟩
  · intro R hR hp
    rw [completes_congr hm] at hR
    rcases hp with hlt | ⟨_,rfl⟩
    · exact (h.asked R hR (.inl hlt)).mono hcs
    · exact hask hR

theorem WorkerInv.change_block (h : s.WorkerInv I t) (hch : AtChange I s t) {a b : Fin n}
    (hb : I.IsBlock (s.workers t).curRoot a b) : (b : ℕ) < (s.workers t).pos ∧ I.owner b = t := by
  obtain ⟨j,hj,hlo,hR⟩ := h.passed (.inl hch)
  have hjb := (hb.iff j).mp hR
  have hpos := hch.1
  have hbp : (b : ℕ) < (s.workers t).pos := by
    by_contra hge
    refine hch.2 ⟨(s.workers t).pos,hpos.trans_le (I.stop_le t)⟩ rfl ((hb.iff _).mpr ?_)
    simp only [Fin.le_def] at hjb ⊢
    omega
  refine ⟨hbp,I.owner_eq_iff.mpr ⟨hlo.trans hjb.2,by omega⟩⟩

theorem WorkerInv.exits_iff (h : s.WorkerInv I t) (hend : (s.workers t).pos = I.stop t)
    {a b : Fin n} (hb : I.IsBlock (s.workers t).curRoot a b) :
    I.rootExitsRight t = true ↔ t < I.owner b := by
  obtain ⟨j,hj,hlo,hR⟩ := h.passed (.inr hend)
  have hjb := (hb.iff j).mp hR
  have hbn := b.isLt
  rw [I.lt_owner_iff,rootExitsRight]
  split
  · next hlt =>
    have he : (⟨I.stop t - 1,by omega⟩ : Fin n) = j := Fin.ext (by simp only; omega)
    rw [decide_eq_true_eq,he,hR,eq_comm,hb.iff]
    simp only [Fin.le_def] at hjb ⊢
    omega
  · next hge =>
    simp only [Bool.false_eq_true,false_iff]
    omega

theorem WorkerInv.local_piece (h : s.WorkerInv I t) (hpc : (s.workers t).pc.delivered = false)
    (hend : AtChange I s t ∨ (s.workers t).pos = I.stop t) {a b : Fin n}
    (hb : I.IsBlock (s.workers t).curRoot a b) :
    (s.workers t).localSketch.buckets = I.piece t (s.workers t).curRoot ∧
      (s.workers t).localSketch.sampleIdx = I.curRound := by
  obtain ⟨hc,_,hidx⟩ := h.content hpc
  obtain ⟨j,hj,hlo,_⟩ := h.passed hend
  refine ⟨hc.trans (hb.upTo_eq_piece h.hi (hend.imp_left fun hch => (h.change_block hch hb).1)),
    hidx ?_⟩
  rw [Fin.le_def] at hlo
  omega

theorem Inv.sampleLocal (h : s.Inv I) (hs : SortedByRoot I.mergeInstr)
    (hpc : (s.workers t).pc = .head) (hl : (s.workers t).rootFromLeft = false) {next : Pc T}
    (hnext : (next = .switch ∧ AtChange I s t) ∨
      (next = .leave ∧ (s.workers t).pos = I.stop t ∧ I.rootExitsRight t = false)) :
    (s.sampleLocal I t next).Inv I := by
  have hw := h.worker t
  obtain ⟨a,b,hb,hat,htb⟩ := hw.block hs
  have hend : AtChange I s t ∨ (s.workers t).pos = I.stop t :=
    hnext.imp And.right fun e => e.2.1
  have hta : t = I.owner a := by
    refine le_antisymm (not_lt.mp fun hlt => ?_) hat
    rw [← hw.left_iff (by rw [hpc]; rfl) hb,hl] at hlt
    cases hlt
  have hbt : I.owner b = t := by
    rcases hnext with ⟨_,hch⟩ | ⟨_,hp,hex⟩
    · exact (hw.change_block hch hb).2
    · refine le_antisymm (not_lt.mp fun hlt => ?_) htb
      rw [← hw.exits_iff hp hb,hex] at hlt
      cases hlt
  have hab : I.owner a = I.owner b := hta.symm.trans hbt.symm
  have hresp : s.Responsible I t (s.workers t).curRoot := .inl ⟨a,b,hb,hab,hta⟩
  obtain ⟨hpiece,hidx⟩ := hw.local_piece (by rw [hpc]; rfl) hend hb
  have hcalled : (s.sampleLocal I t next).Called (s.workers t).curRoot :=
    ⟨_,List.mem_cons_self,rfl⟩
  refine h.sampled (t := t) (c := ⟨t,(s.workers t).curRoot,(s.workers t).localSketch⟩) rfl rfl rfl
    (fun u hu => by simp [Round.sampleLocal,hu]) ?_ (h.not_called hresp (by rw [hpc]; rfl))
    ⟨?_,hidx,hresp⟩ (fun _ => rfl) (fun _ => rfl) (fun _ => rfl) fun _ _ _ _ _ _ => rfl
  · refine hw.afterQuery (hw.passed hend) (by simp [Round.sampleLocal]) (by simp [Round.sampleLocal])
      ?_ rfl (fun c hc => List.mem_cons_of_mem _ hc) (fun c hc => ?_) ?_ fun _ => hcalled
    · simp only [Round.sampleLocal,Function.update_self]
      exact hnext.imp (fun e => ⟨e.1,hl,e.2⟩) fun e => ⟨e.1,e.2.1⟩
    · rcases List.mem_cons.mp hc with rfl | hc
      · exact .inr rfl
      · exact .inl hc
    · intro a' b' hb'
      obtain ⟨rfl,rfl⟩ := hb.unique hb'
      exact .inl ⟨hab,hcalled⟩
  · have halone := hb.piece_alone hab
    rw [← hta] at halone
    exact hpiece.trans halone

theorem Inv.answer (h : s.Inv I) (hs : SortedByRoot I.mergeInstr) {g : Fin T} {q : Bool}
    (hpc : ((s.workers t).pc = .ownQuery q ∧ g = t) ∨ (s.workers t).pc = .lastQuery g q)
    {w : Worker n T p} (hpos : w.pos = (s.workers t).pos) (hcur : w.curRoot = (s.workers t).curRoot)
    (hnext : (w.pc = .switch ∧ w.rootFromLeft = false ∧ AtChange I s t) ∨
      (w.pc = .leave ∧ (s.workers t).pos = I.stop t)) :
    ((s.queryGlobal I t g q).setWorker t w).Inv I := by
  have hw := h.worker t
  obtain ⟨a,b,hb,-,-⟩ := hw.block hs
  have hdel : (s.workers t).pc.delivered = true := by
    rcases hpc with ⟨hpc,_⟩ | hpc <;> rw [hpc] <;> rfl
  have hasked : (s.workers t).pc.asked = false := by
    rcases hpc with ⟨hpc,_⟩ | hpc <;> rw [hpc] <;> rfl
  have hready := hw.ready q (hpc.imp And.left fun e => ⟨g,e⟩)
  have hslot : I.owner a < I.owner b ∧ g = I.owner b := by
    rcases hpc with ⟨hpc,rfl⟩ | hpc
    · exact hw.own q hpc a b hb
    · exact (hw.last g (.inr ⟨q,hpc⟩)).2 a b hb
  obtain ⟨hlt,rfl⟩ := hslot
  have hset : s.Settled I t (s.workers t).curRoot :=
    hw.settled _ hw.spans (hdel ▸ .inr ⟨rfl,rfl⟩)
  have hpass : s.Passed I t := hw.passed (hnext.imp (fun e => e.2.2) And.right)
  cases q with
  | false =>
    refine h.of_worker rfl rfl rfl (fun u hu => setWorker_workers_ne w hu) ?_
    refine hw.afterQuery hpass (by simp [hpos]) (by simp [hcur]) ?_ rfl (fun _ hc => hc)
      (fun _ hc => .inl hc) hset fun hc => ?_
    · rw [setWorker_workers]
      exact hnext
    · exact absurd (hready.mpr hc) (by simp)
  | true =>
    have hcomp := hready.mp rfl
    obtain ⟨ms,a',b',hb',_,he,hlen⟩ := id hcomp
    obtain ⟨rfl,rfl⟩ := hb.unique hb'
    have hnc := h.not_called (.inr hcomp) hasked
    have hfull : I.owner b - I.owner a + 1 ≤ (s.mergesOf (s.workers t).curRoot).length := by
      rw [he,List.length_cons,hlen]
    have hglob (g : Fin T) (hg : g ≠ I.owner b) :
        (s.sampleGlobal I t (I.owner b)).globals g = s.globals g := by
      simp [Round.sampleGlobal,hg]
    have hcalled : (s.sampleGlobal I t (I.owner b)).Called (s.workers t).curRoot :=
      ⟨_,List.mem_cons_self,rfl⟩
    have hsub : ∀ c ∈ s.calls, c ∈ (s.sampleGlobal I t (I.owner b)).calls :=
      fun c hc => List.mem_cons_of_mem _ hc
    have hset' : (s.sampleGlobal I t (I.owner b)).Settled I t (s.workers t).curRoot :=
      Settled.mono (s := s) (fun _ hm => hm) hsub hset
    refine h.sampled (t := t)
      (c := ⟨t,(s.workers t).curRoot,(s.globals (I.owner b)).sketch⟩) rfl rfl rfl
      (fun u hu => by simp [queryGlobal,setWorker,Round.sampleGlobal,hu]) ?_ hnc
      ⟨h.slot_total hb hlt hfull,(h.slot _ a b hb hlt).idx hnc (by simp [he]),.inr hcomp⟩
      (fun g => ?_) (fun g => ?_) (fun g => ?_) fun R a' b' hb' hlt' hR => ?_
    · refine hw.afterQuery hpass (by simp [hpos]) (by simp [hcur]) ?_ rfl hsub (fun c hc => ?_)
        hset' fun _ => hcalled
      · rw [setWorker_workers]
        exact hnext
      · rcases List.mem_cons.mp hc with rfl | hc
        · exact .inr rfl
        · exact .inl hc
    · by_cases hg : g = I.owner b
      · subst hg
        simp [queryGlobal,setWorker,Round.sampleGlobal]
      · exact congrArg _ (hglob g hg)
    · by_cases hg : g = I.owner b
      · subst hg
        simp [queryGlobal,setWorker,Round.sampleGlobal]
      · exact congrArg _ (hglob g hg)
    · by_cases hg : g = I.owner b
      · subst hg
        simp [queryGlobal,setWorker,Round.sampleGlobal,sampleSupernode_buckets]
      · exact congrArg (fun d => d.sketch.buckets) (hglob g hg)
    · have hne : I.owner b' ≠ I.owner b := fun e => hR (hb'.slot_unique hlt' hb hlt e)
      exact congrArg (fun d => d.sketch.sampleIdx) (hglob _ hne)

omit hI in
theorem mergeInto_worker (g : Fin T) (next : Bool → Pc T) :
    (s.mergeInto I t g next).workers t = { s.workers t with
      pc := next ((s.globals g).mergeGlobal I.curRound (s.workers t).localSketch).queryReady } := by
  simp [Round.mergeInto]

theorem WorkerInv.afterMerge (h : s.Inv I) {next : Bool → Pc T} {a b : Fin n}
    (hpc : (s.workers t).pc.delivered = false) (hpass : s.Passed I t)
    (hb : I.IsBlock (s.workers t).curRoot a b) (hlt : I.owner a < I.owner b)
    (hfirst : t = I.owner a → s.Announced I (s.workers t).curRoot)
    (hnext : (next = .ownQuery ∧ AtChange I s t ∧ t = I.owner b) ∨
      (next = .lastQuery (I.owner b) ∧ (s.workers t).pos = I.stop t)) :
    (s.mergeInto I t (I.owner b) next).WorkerInv I t := by
  have hw := h.worker t
  have hold : (s.workers t).pc.asked = false := by
    cases hp : (s.workers t).pc <;> rw [hp] at hpc <;> first | rfl | cases hpc
  have hready := h.mergeInto_ready next hpc hb hlt hfirst
  have hsettled := hw.settled
  have hmerged := hw.merged
  have hcalled := hw.called
  have hask := hw.asked
  simp only [hpc] at hsettled hmerged
  simp only [hold] at hcalled hask
  have hsub : ∀ m ∈ s.merges, m ∈ (s.mergeInto I t (I.owner b) next).merges :=
    fun m hm => List.mem_cons_of_mem _ hm
  have hasked (q : Bool) : (next q).asked = false := by
    rcases hnext with ⟨rfl,_⟩ | ⟨rfl,_⟩ <;> rfl
  have hdel (q : Bool) : (next q).delivered = true := by
    rcases hnext with ⟨rfl,_⟩ | ⟨rfl,_⟩ <;> rfl
  constructor <;> simp only [mergeInto_worker,hasked,hdel]
  · exact hw.lo
  · exact hw.hi
  · exact .inr hpass
  · exact fun _ => hw.left hold
  · intro he
    rcases hnext with ⟨rfl,_⟩ | ⟨rfl,_⟩ <;> cases he
  · simp
  · intro he
    rcases hnext with ⟨_,hch,_⟩ | ⟨rfl,_⟩
    · exact hch
    · simp at he
  · intro q hq a' b' hb'
    obtain ⟨rfl,rfl⟩ := hb.unique hb'
    rcases hnext with ⟨_,_,ht⟩ | ⟨rfl,_⟩
    · exact ⟨hlt,ht⟩
    · simp at hq
  · intro g hg
    rcases hnext with ⟨rfl,_⟩ | ⟨rfl,hp⟩
    · simp at hg
    · refine ⟨hp,fun a' b' hb' => ?_⟩
      obtain ⟨rfl,rfl⟩ := hb.unique hb'
      simp only [reduceCtorEq,Pc.lastQuery.injEq,false_or] at hg
      exact ⟨hlt,hg.choose_spec.1.symm⟩
  · intro he
    rcases hnext with ⟨rfl,_⟩ | ⟨rfl,_⟩ <;> simp at he
  · intro g hg
    rcases hnext with ⟨rfl,_⟩ | ⟨rfl,_⟩ <;> simp at hg
  · intro q hq
    rw [← hready]
    rcases hnext with ⟨rfl,_⟩ | ⟨rfl,_⟩
    · simp only [Pc.ownQuery.injEq,reduceCtorEq,exists_false,or_false] at hq
      rw [hq]
    · simp only [Pc.lastQuery.injEq,reduceCtorEq,false_or] at hq
      rw [hq.choose_spec.2]
  · intro R hR hp
    rcases hp with hlt' | ⟨_,rfl⟩
    · exact Settled.mono (s := s) hsub (fun _ hc => hc) (hsettled R hR (.inl hlt'))
    · intro a' b' hb'
      obtain ⟨rfl,rfl⟩ := hb.unique hb'
      exact .inr ⟨hlt,_,List.mem_cons_self,rfl,rfl⟩
  · intro m hm hmt
    rcases List.mem_cons.mp hm with rfl | hm
    · exact .inr ⟨rfl,rfl⟩
    · exact past_true.mpr (hmerged m hm hmt).le
  · exact hcalled
  · intro R hR hp
    have hne : (s.workers t).curRoot ≠ R := ne_of_gt hp.lt
    obtain ⟨ms,a',b',hb',hlt',he,hlen⟩ := hR
    exact hask R ⟨ms,a',b',hb',hlt',(mergesOf_mergeInto_ne hne).symm.trans he,hlen⟩ hp

theorem WorkerInv.announce (h : s.WorkerInv I t) (hs : SortedByRoot I.mergeInstr)
    (hpc : (s.workers t).pc = .head) (hend : (s.workers t).pos = I.stop t) {a b : Fin n}
    (hb : I.IsBlock (s.workers t).curRoot a b) (hlt : I.owner a < I.owner b) :
    (s.announce I t).WorkerInv I t := by
  have hspan := hb.spans_iff.mp h.spans
  have hle : I.start t ≤ b := (I.start_mono hspan.2).trans (I.owner_eq_iff.mp rfl).1
  have hwork : (s.announce I t).workers t =
      { s.workers t with pc := .mergeLast (I.owner b) } := by
    simp [Round.announce,hb.findLast hs hle]
  have hm : (s.announce I t).merges = s.merges := by
    simp only [Round.announce]
    split <;> rfl
  have hc : (s.announce I t).calls = s.calls := by
    simp only [Round.announce]
    split <;> rfl
  have hset := h.settled
  have hmerged := h.merged
  have hcalled := h.called
  have hask := h.asked
  have hleft := h.left
  have hcont := h.content
  simp only [hpc] at hset hmerged hcalled hask hleft hcont
  constructor <;> simp only [hwork]
  · exact h.lo
  · exact h.hi
  · exact .inr (h.passed (.inr hend))
  · exact fun _ => hleft rfl
  · simp
  · exact fun _ => hcont rfl
  · simp
  · simp
  · intro g hg
    refine ⟨hend,fun a' b' hb' => ?_⟩
    obtain ⟨rfl,rfl⟩ := hb.unique hb'
    simp only [Pc.mergeLast.injEq,reduceCtorEq,exists_false,or_false] at hg
    exact ⟨hlt,hg.symm⟩
  · simp
  · intro g _ hl a' b' hb' _
    obtain ⟨rfl,rfl⟩ := hb.unique hb'
    have hta : t = I.owner a := by
      refine le_antisymm (not_lt.mp fun hlt' => ?_) hspan.1
      rw [← h.left_iff (by rw [hpc]; rfl) hb,hl] at hlt'
      cases hlt'
    rw [announce_globals hl hs hb hspan.2,← hta]
    simp
  · simp
  · intro R hR hp
    exact (hset R hR hp).mono (by simp [hm]) (by simp [hc])
  · rw [hm]
    exact hmerged
  · rw [hc]
    exact hcalled
  · intro R hR hp
    rw [completes_congr hm] at hR
    rw [called_congr hc]
    exact hask R hR hp

end Round
end GraphZeppelin.Boruvka
