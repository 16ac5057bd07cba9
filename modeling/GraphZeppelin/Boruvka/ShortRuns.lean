import GraphZeppelin.Boruvka.Pieces

namespace GraphZeppelin.Boruvka
open RoundInput Sketch

variable {n T : ℕ} {p : SketchParams}

-- inside a range no two neighbours have one root, and a root that leaves a range is given back to it
structure RoundInput.ShortRuns (I : RoundInput n T p) : Prop where
  nonempty : ∀ t, (I.start t : ℕ) < I.stop t
  single : ∀ t (i j : Fin n), I.start t ≤ i → (i : ℕ) + 1 = j → (j : ℕ) < I.stop t →
    I.rootAt i ≠ I.rootAt j
  own : ∀ t (j : Fin n), I.rootExitsRight t = true → (j : ℕ) + 1 = I.stop t →
    I.lastPartitionOfRoot (I.rootAt j) (I.start t) = t
  once : ∀ t, I.rootFromLeft t = true →
    (I.start t : ℕ) + 1 < I.stop t ∧ I.rootExitsRight t = false

namespace Round

variable {I : RoundInput n T p} {s s' : Round n T p} {t : Fin T}

-- nobody tells a thread how many merges its slot waits for, unless its own last root leaves its range
structure Quiet (I : RoundInput n T p) (t : Fin T) (g : GlobalMergeData p) : Prop where
  silent : I.rootFromLeft t = true → g.numMergeNeeded = GlobalMergeData.sizeMax ∧ g.numMergeDone ≤ 1
  blank : I.rootFromLeft t = false → g.sketch.buckets = 0 ∧ g.sketch.sampleIdx ≤ I.curRound

structure Holding (I : RoundInput n T p) (t : Fin T) (j : Fin n) (w : Worker n T p) : Prop where
  lo : I.start t ≤ j
  hi : (j : ℕ) < I.stop t
  pos : w.pos = j + 1
  root : w.curRoot = I.rootAt j

structure Loaded (I : RoundInput n T p) (j : Fin n) (skt : Sketch p) : Prop where
  buckets : skt.buckets = I.gain j
  idx : skt.sampleIdx = I.curRound

inductive ShortAt (I : RoundInput n T p) (t : Fin T) (w : Worker n T p) (g : GlobalMergeData p) :
    Prop
  | enter (pc : w.pc = .head) (pos : w.pos = I.start t) (root : w.curRoot = I.rootAt (I.start t))
    (left : w.rootFromLeft = I.rootFromLeft t)
    (blank : w.localSketch.buckets = 0 ∧ w.localSketch.sampleIdx ≤ I.curRound)
    (slot : Quiet I t g) (done : g.numMergeDone = 0)
  | run (j : Fin n) (pc : w.pc = .head) (at' : Holding I t j w)
    (left : w.rootFromLeft = true → j = I.start t)
    (first : j = I.start t → w.rootFromLeft = I.rootFromLeft t)
    (loaded : Loaded I j w.localSketch) (slot : Quiet I t g)
    (done : w.rootFromLeft = true → g.numMergeDone = 0)
  | own (j : Fin n) (pc : w.pc = .ownQuery false) (at' : Holding I t j w)
    (more : (j : ℕ) + 1 < I.stop t) (slot : Quiet I t g)
  | switch (j : Fin n) (pc : w.pc = .switch) (at' : Holding I t j w)
    (more : (j : ℕ) + 1 < I.stop t) (left : w.rootFromLeft = false) (slot : Quiet I t g)
  | mergeLast (j : Fin n) (pc : w.pc = .mergeLast t) (at' : Holding I t j w)
    (loaded : Loaded I j w.localSketch) (right : I.rootFromLeft t = false)
    (blank : g.sketch.buckets = 0 ∧ g.sketch.sampleIdx ≤ I.curRound)
  | lastQuery (j : Fin n) (q : Bool) (pc : w.pc = .lastQuery t q) (at' : Holding I t j w)
    (loaded : Loaded I j g.sketch) (right : I.rootFromLeft t = false)
  | ended (pc : w.pc = .leave ∨ w.pc = .done)

structure CallShort (I : RoundInput n T p) (c : Call n T p) : Prop where
  at' : ∃ j, I.start c.thr ≤ j ∧ (j : ℕ) < I.stop c.thr ∧ I.rootAt j = c.root ∧
    (j = I.start c.thr → I.rootFromLeft c.thr = false) ∧ Loaded I j c.sketch

structure Short (I : RoundInput n T p) (s : Round n T p) : Prop where
  thread : ∀ t, ShortAt I t (s.workers t) (s.globals t)
  call : ∀ c ∈ s.calls, CallShort I c

theorem Short.update (h : s.Short I) (hw : ∀ u, u ≠ t → s'.workers u = s.workers u)
    (hg : ∀ u, u ≠ t → s'.globals u = s.globals u)
    (ht : ShortAt I t (s'.workers t) (s'.globals t))
    (hc : ∀ c ∈ s'.calls, c ∈ s.calls ∨ CallShort I c) : s'.Short I := by
  refine ⟨fun u => ?_,fun c hmem => (hc c hmem).elim (h.call c) id⟩
  by_cases hu : u = t
  · exact hu ▸ ht
  · rw [hw u hu,hg u hu]
    exact h.thread u

theorem Short.move (h : s.Short I) {w : Worker n T p} (ht : ShortAt I t w (s.globals t)) :
    (s.setWorker t w).Short I := by
  refine h.update (t := t) (fun u hu => Function.update_of_ne hu ..) (fun _ _ => rfl) ?_
    fun c hc => .inl hc
  simp only [setWorker,Function.update_self]
  exact ht

theorem loaded_rangeMerge {skt : Sketch p} (hr : I.curRound ≤ p.numSamples)
    (hb : skt.buckets = 0 ∧ skt.sampleIdx ≤ I.curRound) (j : Fin n) :
    Loaded I j (skt.rangeMerge (I.sketches (I.childAt j)) I.curRound 1) := by
  refine ⟨?_,rangeMerge_sampleIdx _ hr hb.2⟩
  rw [rangeMerge_buckets,hb.1,zero_add]
  rfl

theorem Loaded.merged {skt other : Sketch p} {j : Fin n} (hr : I.curRound ≤ p.numSamples)
    (h : Loaded I j other) (hb : skt.buckets = 0 ∧ skt.sampleIdx ≤ I.curRound) :
    Loaded I j (skt.rangeMerge other I.curRound 1) := by
  refine ⟨?_,rangeMerge_sampleIdx _ hr hb.2⟩
  rw [rangeMerge_buckets,hb.1,zero_add,h.buckets,gain,clip_clip]

theorem Short.sampleLocal (h : s.Short I) {j : Fin n} (ha : Holding I t j (s.workers t))
    (hl : Loaded I j (s.workers t).localSketch)
    (hfirst : j = I.start t → I.rootFromLeft t = false) {next : Pc T}
    (ht : ∀ skt err, ShortAt I t
      { s.workers t with localSketch := skt,localErr := err,pc := next } (s.globals t)) :
    (s.sampleLocal I t next).Short I := by
  refine h.update (t := t) (fun u hu => Function.update_of_ne hu ..) (fun _ _ => rfl) ?_
    fun c hc => ?_
  · simp only [Round.sampleLocal,Function.update_self]
    exact ht _ _
  · rcases List.mem_cons.mp hc with rfl | hc
    · exact .inr ⟨j,ha.lo,ha.hi,ha.root.symm,hfirst,hl⟩
    · exact .inl hc

theorem Short.mergeInto (h : s.Short I) {next : Bool → Pc T}
    (ht : ShortAt I t
      { s.workers t with pc := next ((s.globals t).mergeGlobal I.curRound
        (s.workers t).localSketch).queryReady }
      ((s.globals t).mergeGlobal I.curRound (s.workers t).localSketch)) :
    (s.mergeInto I t t next).Short I := by
  refine h.update (t := t) (fun u hu => Function.update_of_ne hu ..)
    (fun u hu => Function.update_of_ne hu ..) ?_ fun c hc => .inl hc
  simp only [Round.mergeInto,Function.update_self]
  exact ht

theorem Short.announce (h : s.Short I) (hI : I.ShortRuns) {j : Fin n}
    (ha : Holding I t j (s.workers t)) (hl : Loaded I j (s.workers t).localSketch)
    (hlast : I.stop t = j + 1) (hexit : I.rootExitsRight t = true)
    (hleft : (s.workers t).rootFromLeft = false) (hslot : Quiet I t (s.globals t)) :
    (s.announce I t).Short I := by
  have hright : I.rootFromLeft t = false := by
    by_contra hne
    have hfalse := (hI.once t (Bool.eq_true_of_not_eq_false hne)).2
    exact Bool.false_ne_true (hfalse.symm.trans hexit)
  have hgoal : s.announce I t =
      (s.setNeeded t t).setWorker t { s.workers t with pc := .mergeLast t } := by
    simp only [Round.announce,ha.root,hI.own t j hexit hlast.symm,hleft]
    rfl
  rw [hgoal]
  refine h.update (t := t) (fun u hu => Function.update_of_ne hu ..)
    (fun u hu => Function.update_of_ne hu ..) ?_ fun c hc => .inl hc
  simp only [setNeeded,setWorker,Function.update_self]
  exact .mergeLast j rfl ⟨ha.lo,ha.hi,ha.pos,ha.root⟩ hl hright (hslot.blank hright)

theorem Short.head (h : s.Short I) (hI : I.ShortRuns) (hr : I.curRound ≤ p.numSamples)
    (hpc : (s.workers t).pc = .head) : (s.step I t).Short I := by
  have hstep (i : Fin n) (hi : (i : ℕ) = (s.workers t).pos) (hlt : (i : ℕ) < I.stop t) :
      s.step I t = if I.rootAt i = (s.workers t).curRoot then
        s.setWorker t (absorb I (s.workers t) i)
      else if (s.workers t).rootFromLeft then s.mergeInto I t t .ownQuery
      else s.sampleLocal I t .switch := by
    have hpos : (s.workers t).pos < I.stop t := hi ▸ hlt
    have heq : (⟨(s.workers t).pos,hpos.trans_le (I.stop_le t)⟩ : Fin n) = i := Fin.ext hi.symm
    simp only [Round.step,hpc]
    rw [dif_pos hpos,heq]
  cases h.thread t with
  | enter _ pos root left blank slot done =>
    rw [hstep (I.start t) pos.symm (hI.nonempty t),if_pos root.symm]
    refine h.move (.run (I.start t) rfl ⟨le_rfl,hI.nonempty t,?_,root⟩ (fun _ => rfl)
      (fun _ => left) (loaded_rangeMerge hr blank _) slot fun _ => done)
    simp only [absorb,pos]
  | run j _ ha left first loaded slot done =>
    by_cases hmore : (j : ℕ) + 1 < I.stop t
    · have hne : I.rootAt ⟨j + 1,hmore.trans_le (I.stop_le t)⟩ ≠ (s.workers t).curRoot := by
        rw [ha.root]
        exact (hI.single t j _ ha.lo rfl hmore).symm
      rw [hstep ⟨j + 1,hmore.trans_le (I.stop_le t)⟩ ha.pos.symm hmore,if_neg hne]
      cases hleft : (s.workers t).rootFromLeft with
      | true =>
        have hfrom : I.rootFromLeft t = true := (first (left hleft)).symm.trans hleft
        have hdone := done hleft
        obtain ⟨hneeded,_⟩ := slot.silent hfrom
        have hready : ((s.globals t).mergeGlobal I.curRound
            (s.workers t).localSketch).queryReady = false := by
          simp [GlobalMergeData.queryReady,GlobalMergeData.mergeGlobal,hneeded,hdone,
            GlobalMergeData.sizeMax]
        rw [if_pos rfl]
        refine h.mergeInto (.own j (by rw [hready]) ⟨ha.lo,ha.hi,ha.pos,ha.root⟩ hmore ?_)
        refine ⟨fun _ => ⟨hneeded,?_⟩,fun hfalse => ?_⟩
        · simp [GlobalMergeData.mergeGlobal,hdone]
        · exact absurd (hfalse.symm.trans hfrom) Bool.false_ne_true
      | false =>
        rw [if_neg Bool.false_ne_true]
        exact h.sampleLocal ha loaded (fun hj => (first hj).symm.trans hleft) fun skt err =>
          .switch j rfl ⟨ha.lo,ha.hi,ha.pos,ha.root⟩ hmore hleft slot
    · have hstop : I.stop t = j + 1 := le_antisymm (not_lt.mp hmore) ha.hi
      have hleft : (s.workers t).rootFromLeft = false := by
        by_contra hne
        have htrue := Bool.eq_true_of_not_eq_false hne
        have hj := left htrue
        have hlong := (hI.once t ((first hj).symm.trans htrue)).1
        rw [← hj] at hlong
        exact hmore hlong
      have hend : ¬ (s.workers t).pos < I.stop t := by rw [ha.pos,hstop]; exact lt_irrefl _
      simp only [Round.step,hpc,hleft,Bool.or_false]
      rw [dif_neg hend]
      split
      · next hexit => exact h.announce hI ha loaded hstop hexit hleft slot
      · exact h.sampleLocal ha loaded (fun hj => (first hj).symm.trans hleft) fun skt err =>
          .ended (.inl rfl)
  | own _ pc => cases hpc.symm.trans pc
  | switch _ pc => cases hpc.symm.trans pc
  | mergeLast _ pc => cases hpc.symm.trans pc
  | lastQuery _ _ pc => cases hpc.symm.trans pc
  | ended pc => rcases pc with pc | pc <;> cases hpc.symm.trans pc

theorem Short.lastQuery (h : s.Short I) {j : Fin n} {q : Bool}
    (ha : Holding I t j (s.workers t)) (hl : Loaded I j (s.globals t).sketch)
    (hright : I.rootFromLeft t = false) :
    ((s.queryGlobal I t t q).setPc t .leave).Short I := by
  cases q with
  | false => exact h.move (.ended (.inl rfl))
  | true =>
    refine h.update (t := t) (fun u hu => ?_) (fun u hu => ?_) ?_ fun c hc => ?_
    · simp [queryGlobal,sampleGlobal,setPc,setWorker,hu]
    · simp [queryGlobal,sampleGlobal,setPc,setWorker,hu]
    · simp only [queryGlobal,setPc,setWorker,Function.update_self]
      exact .ended (.inl rfl)
    · rcases List.mem_cons.mp hc with rfl | hc
      · exact .inr ⟨j,ha.lo,ha.hi,ha.root.symm,fun _ => hright,hl⟩
      · exact .inl hc

theorem Short.step (h : s.Short I) (hI : I.ShortRuns) (hr : I.curRound ≤ p.numSamples)
    (t : Fin T) : (s.step I t).Short I := by
  cases h.thread t with
  | enter pc => exact h.head hI hr pc
  | run j pc => exact h.head hI hr pc
  | own j pc ha more slot =>
    simp only [Round.step,pc]
    exact h.move (.switch j rfl ⟨ha.lo,ha.hi,ha.pos,ha.root⟩ more rfl slot)
  | switch j pc ha more left slot =>
    have hlt : (s.workers t).pos < n := by
      rw [ha.pos]
      exact more.trans_le (I.stop_le t)
    have hne (i : Fin n) (hi : (i : ℕ) = j + 1) : i ≠ I.start t := by
      intro heq
      have hlo := ha.lo
      rw [← heq,Fin.le_def] at hlo
      omega
    simp only [Round.step,pc]
    rw [dif_pos hlt]
    refine h.move (.run ⟨_,hlt⟩ rfl ⟨?_,?_,rfl,rfl⟩ (fun htrue => ?_) (fun hj => ?_)
      (loaded_rangeMerge hr ⟨rfl,Nat.zero_le _⟩ _) slot fun htrue => ?_)
    · refine ha.lo.trans (Fin.le_def.mpr ?_)
      simp only [ha.pos]
      exact Nat.le_succ _
    · simp only [ha.pos]
      exact more
    · exact absurd (left.symm.trans htrue) Bool.false_ne_true
    · exact absurd hj (hne _ ha.pos)
    · exact absurd (left.symm.trans htrue) Bool.false_ne_true
  | mergeLast j pc ha loaded right blank =>
    simp only [Round.step,pc]
    exact h.mergeInto (.lastQuery j _ rfl ⟨ha.lo,ha.hi,ha.pos,ha.root⟩ (loaded.merged hr blank) right)
  | lastQuery j q pc ha loaded right =>
    simp only [Round.step,pc]
    exact h.lastQuery ha loaded right
  | ended pc =>
    rcases pc with pc | pc
    · simp only [Round.step,pc]
      refine h.update (t := t) (fun u hu => Function.update_of_ne hu ..) (fun _ _ => rfl) ?_
        fun c hc => .inl hc
      simp only [setPc,setWorker,Function.update_self]
      exact .ended (.inr rfl)
    · simp only [Round.step,pc]
      exact h

theorem short_begin (I : RoundInput n T p) (q : QueryState n) (globals : Fin T → GlobalMergeData p) :
    (I.begin q globals).Short I := by
  refine ⟨fun t => ?_,fun c hc => by cases hc⟩
  refine .enter rfl rfl rfl rfl ⟨rfl,Nat.zero_le _⟩ ⟨fun _ => ⟨rfl,Nat.zero_le _⟩,fun _ => ⟨rfl,?_⟩⟩ rfl
  exact Nat.zero_le _

theorem Short.run (h : s.Short I) (hI : I.ShortRuns) (hr : I.curRound ≤ p.numSamples)
    (schedule : List (Fin T)) : (s.run I schedule).Short I :=
  List.foldlRecOn (motive := fun s => s.Short I) schedule (Round.step I) h
    fun _ hs t _ => hs.step hI hr t

end Round
end GraphZeppelin.Boruvka
