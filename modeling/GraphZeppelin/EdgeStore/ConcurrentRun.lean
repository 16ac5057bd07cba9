import GraphZeppelin.EdgeStore.ConcurrentSpec

namespace GraphZeppelin.EdgeStore.Concurrent

variable {n T : ℕ} {tag : Fin n → Fin n → ℕ} {sys : System n T} {t : Fin T}
  {N : Fin n → Fin n → ℕ}

theorem sum_comp_update {β : Type*} (F : β → ℕ) (th : Fin T → β) (t : Fin T) (x : β) :
    ∑ i, F (Function.update th t x i) = F x + ∑ i ∈ Finset.univ.erase t, F (th i) := by
  rw [← Finset.add_sum_erase _ _ (Finset.mem_univ t),Function.update_self]
  congr 1
  exact Finset.sum_congr rfl fun i hi => by rw [Function.update_of_ne (Finset.ne_of_mem_erase hi)]

theorem sum_split {β : Type*} (F : β → ℕ) (th : Fin T → β) (t : Fin T) :
    ∑ i, F (th i) = F (th t) + ∑ i ∈ Finset.univ.erase t, F (th i) :=
  (Finset.add_sum_erase _ _ (Finset.mem_univ t)).symm

def Thread.outstanding (v u : Fin n) (th : Thread n) : ℕ :=
  th.pc.submitting v u + (th.jobs.map (Job.submitted v u)).sum

namespace System

def pcs (sys : System n T) (t : Fin T) : Pc n := (sys.threads t).pc

def total (sys : System n T) (g : ℕ) (v u : Fin n) : ℕ :=
  sys.delivered g v u + ∑ t, reachAll (sys.threads t).pc.pending g v u

def outstanding (sys : System n T) (v u : Fin n) : ℕ :=
  ∑ t, (sys.threads t).outstanding v u

def advanced (sys : System n T) (t : Fin T) : System n T :=
  let o := (sys.pcs t).step sys.store
  { store := o.store
    threads := Function.update sys.threads t ⟨o.pc,(sys.threads t).jobs⟩
    delivered := fun g v u => sys.delivered g v u + reachAll o.sent g v u }

theorem step_cases (tag : Fin n → Fin n → ℕ) (sys : System n T) (t : Fin T) :
    (∃ job jobs, sys.threads t = ⟨.idle,job :: jobs⟩ ∧
      sys.step tag t = sys.setThread t ⟨job.start tag sys.store,jobs⟩) ∨
    sys.step tag t = sys.advanced t := by
  unfold step
  split
  · next ht =>
    refine .inr ?_
    rw [advanced,pcs,ht]
    simp only [Pc.step,reachAll_nil,Nat.add_zero]
    rw [← ht,Function.update_eq_self]
  · next job jobs ht => exact .inl ⟨job,jobs,ht,rfl⟩
  · next pc jobs _ _ ht =>
    refine .inr ?_
    rw [advanced,pcs,ht]
    rfl

theorem pcs_update (sys : System n T) (t : Fin T) (th : Thread n) :
    (sys.setThread t th).pcs = Function.update sys.pcs t th.pc := by
  funext t'
  by_cases ht : t' = t
  · subst ht
    simp only [pcs,setThread,Function.update_self]
  · simp only [pcs,setThread,Function.update_of_ne ht]

end System

theorem Control.step (h : Control sys.store sys.pcs) (hsafe : (sys.pcs t).Safe sys.store) :
    Control (sys.step tag t).store (sys.step tag t).pcs := by
  rcases System.step_cases tag sys t with ⟨job,jobs,ht,hstep⟩ | hstep
  · rw [hstep,System.pcs_update]
    have hidle : sys.pcs t = .idle := by rw [System.pcs,ht]
    exact h.rest (passive_start tag sys.store job) (by rw [hidle]; rfl) (by simp [hidle,Pc.holds])
  · have hpcs : (sys.advanced t).pcs = Function.update sys.pcs t ((sys.pcs t).step sys.store).pc :=
      System.pcs_update sys t ⟨_,_⟩
    rw [hstep,hpcs]
    exact h.pcStep hsafe

structure Data (tag : Fin n → Fin n → ℕ) (N : Fin n → Fin n → ℕ) (sys : System n T) : Prop where
  sound : Sound tag sys.total N sys.store
  exact : ∀ t, (sys.pcs t).ExactTags tag
  above : ∀ g v u, tag v u < g → sys.delivered g v u = 0

def Balances (N N' : Fin n → Fin n → ℕ) (sys sys' : System n T) : Prop :=
  ∀ v u, N' v u + sys'.outstanding v u = N v u + sys.outstanding v u

theorem exactTags_update {pc : Pc n} (h : ∀ t, (sys.pcs t).ExactTags tag) (hpc : pc.ExactTags tag)
    (t' : Fin T) : (Function.update sys.pcs t pc t').ExactTags tag := by
  by_cases ht : t' = t
  · subst ht
    rwa [Function.update_self]
  · rw [Function.update_of_ne ht]
    exact h t'

theorem Data.advanced (h : Data tag N sys) (hsafe : (sys.pcs t).Safe sys.store) :
    ∃ N', Data tag N' (sys.advanced t) ∧ Balances N N' sys (sys.advanced t) := by
  have hsplit (g : ℕ) (v u : Fin n) : sys.total g v u = sys.delivered g v u +
      (∑ i ∈ Finset.univ.erase t, reachAll (sys.threads i).pc.pending g v u) +
        reachAll (sys.pcs t).pending g v u := by
    rw [System.total,sum_split (fun th : Thread n => reachAll th.pc.pending g v u) sys.threads t,
      System.pcs]
    omega
  obtain ⟨hsound,hsub⟩ := Pc.step_sound (h.sound.congr hsplit fun _ _ => rfl) (h.exact t) hsafe
  obtain ⟨hexact,hsent⟩ := Pc.step_exact h.sound (h.exact t)
  refine ⟨_,⟨hsound.congr (fun g v u => ?_) fun _ _ => rfl,?_,fun g v u hg => ?_⟩,fun v u => ?_⟩
  · rw [System.total,System.advanced]
    simp only
    rw [sum_comp_update (fun th : Thread n => reachAll th.pc.pending g v u)]
    simp only
    omega
  · have hpcs : (sys.advanced t).pcs = Function.update sys.pcs t ((sys.pcs t).step sys.store).pc :=
      System.pcs_update sys t ⟨_,_⟩
    rw [hpcs]
    exact exactTags_update h.exact hexact
  · rw [System.advanced]
    simp only
    rw [h.above g v u hg,reachAll_above hsent hg]
  · rw [System.outstanding,System.outstanding,sum_split (Thread.outstanding v u) sys.threads t,
      System.advanced]
    simp only
    rw [sum_comp_update (Thread.outstanding v u),Thread.outstanding,Thread.outstanding,hsub,
      System.pcs]
    simp only
    omega

theorem Sound.submit_low {s : EdgeStore n} {D : ℕ → Fin n → Fin n → ℕ} (h : Sound tag D N s)
    {src : Fin n} {all : List (SubgraphTaggedUpdate n)} (hall : Exact tag src all)
    (hlow : (all.filter fun e => s.curSubgraph ≤ e.subgraph) = []) :
    Sound tag (fun g v u => D g v u + sketched src s.curSubgraph all g v u)
      (fun v u => N v u + submitted src all v u) s :=
  fun bound hb => (h bound hb).submit_low (hall.wellTagged bound) hlow

structure Started (tag : Fin n → Fin n → ℕ) (D : ℕ → Fin n → Fin n → ℕ) (N : Fin n → Fin n → ℕ)
    (s : EdgeStore n) (job : Job n) (N' : Fin n → Fin n → ℕ) : Prop where
  sound : Sound tag (fun g v u => D g v u + reachAll (job.start tag s).pending g v u) N' s
  exact : (job.start tag s).ExactTags tag
  submitted : ∀ v u, N' v u + (job.start tag s).submitting v u = N v u + job.submitted v u

theorem Sound.start {s : EdgeStore n} {D : ℕ → Fin n → Fin n → ℕ} (h : Sound tag D N s)
    (job : Job n) : ∃ N', Started tag D N s job N' := by
  cases job with
  | flush => exact ⟨N,h,.nil,fun _ _ => rfl⟩
  | batch src dsts =>
    have hall := exact_tagged tag src dsts
    by_cases hlow : ((tagged tag src dsts).filter fun e => s.curSubgraph ≤ e.subgraph) = []
    · have hstart : (Job.batch src dsts).start tag s =
          (sketchCall src s.curSubgraph (tagged tag src dsts)).returned [] := if_pos hlow
      refine ⟨_,(h.submit_low hall hlow).congr (fun g v u => ?_) fun _ _ => rfl,?_,fun v u => ?_⟩
      · rw [hstart,returned_pending,reachAll_sketchCall,reachAll_nil,add_zero]
      · rw [hstart]
        exact returning_exact _ ((sketchCall_exact hall).append .nil)
      · rw [hstart,returned_submitting,add_zero,submitted_tagged]
    · have hstart : (Job.batch src dsts).start tag s =
          .insert src s.curSubgraph (tagged tag src dsts) := if_neg hlow
      refine ⟨N,h.congr (fun g v u => ?_) fun _ _ => rfl,?_,fun v u => ?_⟩
      · rw [hstart]
        rfl
      · rw [hstart]
        exact hall
      · rw [hstart,Pc.submitting,submitted_tagged]

theorem Data.start (h : Data tag N sys) {job : Job n} {jobs : List (Job n)}
    (ht : sys.threads t = ⟨.idle,job :: jobs⟩) :
    ∃ N', Data tag N' (sys.setThread t ⟨job.start tag sys.store,jobs⟩) ∧
      Balances N N' sys (sys.setThread t ⟨job.start tag sys.store,jobs⟩) := by
  obtain ⟨N',hsound,hexact,hsub⟩ := h.sound.start job
  refine ⟨N',⟨hsound.congr (fun g v u => ?_) fun _ _ => rfl,?_,h.above⟩,fun v u => ?_⟩
  · rw [System.total,System.total,System.setThread]
    simp only
    rw [sum_comp_update (fun th : Thread n => reachAll th.pc.pending g v u),
      sum_split (fun th : Thread n => reachAll th.pc.pending g v u) sys.threads t,ht]
    simp only [Pc.pending,reachAll_nil]
    omega
  · rw [System.pcs_update]
    exact exactTags_update h.exact hexact
  · have hv := hsub v u
    rw [System.outstanding,System.outstanding,sum_split (Thread.outstanding v u) sys.threads t,
      System.setThread]
    simp only
    rw [sum_comp_update (Thread.outstanding v u),ht,Thread.outstanding,Thread.outstanding,
      List.map_cons,List.sum_cons]
    simp only [Pc.submitting] at hv ⊢
    omega

theorem Data.step (h : Data tag N sys) (hsafe : (sys.pcs t).Safe sys.store) :
    ∃ N', Data tag N' (sys.step tag t) ∧ Balances N N' sys (sys.step tag t) := by
  rcases System.step_cases tag sys t with ⟨job,jobs,ht,hstep⟩ | hstep
  · rw [hstep]
    exact h.start ht
  · rw [hstep]
    exact h.advanced hsafe

theorem Data.run (h : Data tag N sys) (hcontrol : Control sys.store sys.pcs)
    {schedule : List (Fin T)} (hsteady : sys.Steady tag schedule) :
    Control (sys.run tag schedule).store (sys.run tag schedule).pcs ∧
      ∃ N', Data tag N' (sys.run tag schedule) ∧ Balances N N' sys (sys.run tag schedule) := by
  induction schedule generalizing sys N with
  | nil => exact ⟨hcontrol,N,h,fun _ _ => rfl⟩
  | cons t schedule ih =>
    obtain ⟨hsafe,hsteady⟩ := hsteady
    obtain ⟨N₁,hdata₁,hbal₁⟩ := h.step hsafe
    obtain ⟨hcontrol',N₂,hdata₂,hbal₂⟩ := ih hdata₁ (hcontrol.step hsafe) hsteady
    exact ⟨hcontrol',N₂,hdata₂,fun v u => (hbal₂ v u).trans (hbal₁ v u)⟩

section Start

variable (maxEdges start needs : ℕ) (jobs : Fin T → List (Job n))

theorem control_new : Control (System.new maxEdges start needs jobs).store
    (System.new maxEdges start needs jobs).pcs :=
  ⟨le_rfl,Nat.le_succ _,fun _ => trivial,fun _ => .inr fun _ => rfl,fun _ _ => rfl,
    fun h => absurd h (lt_irrefl _),fun _ => .inl rfl⟩

theorem data_new (tag : Fin n → Fin n → ℕ) :
    Data tag (fun _ _ => 0) (System.new maxEdges start needs jobs) := by
  refine ⟨fun bound hb => ?_,fun _ => .nil,fun _ _ _ _ => rfl⟩
  have htotal : (System.new maxEdges start needs jobs).total = fun _ _ _ => 0 := by
    funext g v u
    exact (Nat.zero_add _).trans (Finset.sum_eq_zero fun _ _ => rfl)
  rw [htotal]
  exact Balanced.of_new hb

theorem outstanding_new (v u : Fin n) :
    (System.new maxEdges start needs jobs).outstanding v u = submissions jobs v u :=
  Finset.sum_congr rfl fun _ _ => Nat.zero_add _

end Start

theorem Control.settled (h : Control sys.store sys.pcs) (hfin : sys.Finished)
    (hm : ¬ sys.store.contractInProgress) (v : Fin n) : sys.store.vertexContracted v = true := by
  rcases h.held v with hv | ⟨hlt,_⟩ | ⟨t,hv⟩
  · exact hv
  · exact absurd hlt hm
  · rw [System.pcs,hfin t] at hv
    exact hv.elim

theorem Data.accounted (h : Data tag N sys) (hcontrol : Control sys.store sys.pcs)
    (hfin : sys.Finished) (hm : ¬ sys.store.contractInProgress) : Accounted tag N sys := by
  have htotal (g : ℕ) (v u : Fin n) : sys.total g v u = sys.delivered g v u := by
    refine (congrArg (sys.delivered g v u + ·) (Finset.sum_eq_zero fun t _ => ?_)).trans
      (Nat.add_zero _)
    rw [hfin t]
    rfl
  have hbal := h.sound sys.store.curSubgraph le_rfl
  have hset (v : Fin n) := hbal.settled v (hcontrol.settled hfin hm v)
  refine ⟨fun g v u hg hd => ?_,h.above,fun v u hd => ?_⟩
  · have hdue : (sys.total g v u : ZMod 2) = due tag N g v u := by
      rcases Nat.lt_or_eq_of_le (Nat.succ_le_of_lt hg) with hlt | heq
      · exact hbal.low g v u hlt
      · exact (hset v).last u g heq
    rw [htotal,due,if_pos hd] at hdue
    exact (ZMod.natCast_eq_natCast_iff' _ _ 2).mp hdue
  · have hstored := (hset v).stored u
    rw [due,if_pos hd] at hstored
    exact (ZMod.natCast_eq_natCast_iff' _ _ 2).mp hstored

theorem interleaved_ingestion_correct (tag : Fin n → Fin n → ℕ) (maxEdges start needs : ℕ)
    (jobs : Fin T → List (Job n)) {schedule : List (Fin T)}
    (hsteady : (System.new maxEdges start needs jobs).Steady tag schedule)
    (hfin : ((System.new maxEdges start needs jobs).run tag schedule).Finished)
    (hm : ¬ ((System.new maxEdges start needs jobs).run tag schedule).store.contractInProgress) :
    Accounted tag (submissions jobs) ((System.new maxEdges start needs jobs).run tag schedule) := by
  obtain ⟨hcontrol,N,hdata,hbal⟩ := (data_new maxEdges start needs jobs tag).run
    (control_new maxEdges start needs jobs) hsteady
  have hN : N = submissions jobs := by
    funext v u
    have hnone : ((System.new maxEdges start needs jobs).run tag schedule).outstanding v u = 0 := by
      refine Finset.sum_eq_zero fun t _ => ?_
      rw [hfin t]
      rfl
    have hv := hbal v u
    rwa [hnone,Nat.add_zero,Nat.zero_add,outstanding_new] at hv
  rw [← hN]
  exact hdata.accounted hcontrol hfin hm

def pairTag (_ _ : Fin 2) : ℕ := 5

def pairJobs (t : Fin 2) : List (Job 2) :=
  if t = 0 then [.batch 1 [0],.batch 0 [1]] else [.batch 0 [1],.batch 1 [0]]

def steadySchedule : List (Fin 2) :=
  List.replicate 12 0 ++ [1] ++ List.replicate 4 0 ++ List.replicate 10 1

theorem interleaved_ingestion_pair :
    (System.new 1 1 0 pairJobs).Steady pairTag steadySchedule ∧
      Accounted pairTag (submissions pairJobs)
        ((System.new 1 1 0 pairJobs).run pairTag steadySchedule) := by
  have hsteady : (System.new 1 1 0 pairJobs).Steady pairTag steadySchedule := by decide +kernel
  exact ⟨hsteady,interleaved_ingestion_correct pairTag 1 1 0 pairJobs hsteady (by decide +kernel)
    (by decide +kernel)⟩

def staleSchedule : List (Fin 2) :=
  List.replicate 12 0 ++ List.replicate 11 1 ++ List.replicate 3 0

theorem interleaved_ingestion_stale :
    ((System.new 1 1 0 pairJobs).run pairTag staleSchedule).Finished ∧
      ¬ ((System.new 1 1 0 pairJobs).run pairTag staleSchedule).store.contractInProgress ∧
      ¬ Accounted pairTag (submissions pairJobs)
        ((System.new 1 1 0 pairJobs).run pairTag staleSchedule) := by
  refine ⟨by decide +kernel,by decide +kernel,fun h => ?_⟩
  have hparity := h.handed 1 1 0 (by decide +kernel) (by decide)
  exact absurd hparity (by decide +kernel)

end GraphZeppelin.EdgeStore.Concurrent
