import GraphZeppelin.CC.KForests
import GraphZeppelin.Driver.Basic

namespace GraphZeppelin.Driver
open Boruvka Sketch CC GraphSketchDriver

variable {n w T : ℕ} {p : SketchParams} {xxh : XxHash}

def oddHalves (hs : List (Fin n × Fin n)) (v : Fin n) : Finset VecT :=
  (Finset.univ.filter fun u => Odd (hs.count (v,u))).image (edgeIdx v)

theorem oddHalves_eq_empty_iff {hs : List (Fin n × Fin n)} {v : Fin n} :
    oddHalves hs v = ∅ ↔ ∀ u, Even (hs.count (v,u)) := by
  simp [oddHalves,Finset.filter_eq_empty_iff]

theorem received_eq_setBuckets (hn : n < 2 ^ 32) (hs : List (Fin n × Fin n)) (v : Fin n) :
    received xxh p v hs = setBuckets xxh p (oddHalves hs v) := by
  have hinj : Set.InjOn (edgeIdx v) (Finset.univ.filter fun u => Odd (hs.count (v,u))) := by
    intro u _ u' _ h
    rcases (edgeIdx_eq_iff hn).mp h with ⟨_,h⟩ | ⟨h,h'⟩
    · exact h
    · exact h'.trans h
  have hsum : (hs.map (half xxh p v)).sum =
      ∑ h with Odd (hs.count h), half xxh p v h := by
    rw [XorGroup.list_sum_eq_odd]
    refine Finset.sum_congr (Finset.ext fun h => ?_) fun _ _ => rfl
    rw [lawful_beq_subsingleton instBEqOfDecidableEq (instBEqProd (α := Fin n) (β := Fin n))]
    simp only [Finset.mem_filter,List.mem_toFinset,Finset.mem_univ,true_and,and_iff_right_iff_imp]
    exact fun hh => List.count_pos_iff.mp hh.pos
  rw [received,hsum,setBuckets,oddHalves,Finset.sum_image hinj,
    Finset.sum_filter,Fintype.sum_prod_type,Finset.sum_filter,Finset.sum_eq_single v]
  · refine Finset.sum_congr rfl fun u _ => ?_
    simp [half]
  · intro u _ hu
    refine Finset.sum_eq_zero fun u' _ => ?_
    simp [half,hu]
  · exact fun hv => absurd (Finset.mem_univ v) hv

theorem applyUpdateBatch_spec {a a' : CCSketchAlg n w p} {b : Batch n w}
    (h : a.applyUpdateBatch xxh b.thrId b.srcVertex b.dstVertices = .ok a') :
    (∀ v, (a'.sketches v).buckets = (a.sketches v).buckets + received xxh p v b.halves) ∧
      a'.query = a.query ∧ a'.dsuValid = a.dsuValid ∧ a'.sharedDsuValid = a.sharedDsuValid := by
  have hl : a.updateLocked = false := by
    by_contra hl
    rw [CCSketchAlg.applyUpdateBatch,if_pos (Bool.eq_true_of_not_eq_false hl)] at h
    cases h
  obtain ⟨a'',h',_,hb⟩ := CCSketchAlg.applyUpdateBatch_ok xxh hl b
  obtain rfl : a' = a'' := Except.ok.inj (h.symm.trans h')
  refine ⟨hb,?_⟩
  rw [CCSketchAlg.applyUpdateBatch,if_neg (by simp [hl])] at h
  cases h
  exact ⟨rfl,rfl,rfl⟩

def Accounted (xxh : XxHash) (G : SimpleGraph (Fin n)) [DecidableRel G.Adj]
    (d : GraphSketchDriver n w p) : Prop :=
  ∀ v, (d.sketchingAlg.sketches v).buckets + received xxh p v (d.pending ++ d.gts) =
    setBuckets xxh p (incident G v)

section Inv

variable {G : SimpleGraph (Fin n)} [DecidableRel G.Adj] {d d' : GraphSketchDriver n w p}

theorem Accounted.sketches_iff (hn : n < 2 ^ 32) (h : Accounted xxh G d) (hp : d.pending = [])
    (hgts : ∀ v, CollisionFree xxh p (oddHalves d.gts v)) :
    Sketches xxh G d.sketchingAlg.sketches ↔ d.Drained := by
  refine forall_congr' fun v => ?_
  have hb := h v
  rw [hp,List.nil_append,received_eq_setBuckets hn] at hb
  rw [← hb,left_eq_add,← oddHalves_eq_empty_iff]
  refine ⟨fun h0 => (det_eq_zero_iff (hgts v)).mp (congrFun h0 _),fun h0 => ?_⟩
  rw [h0,setBuckets,Finset.sum_empty]

theorem Accounted.sketches (hn : n < 2 ^ 32) (h : Accounted xxh G d) (hp : d.pending = [])
    (hd : d.Drained) : Sketches xxh G d.sketchingAlg.sketches := by
  intro v
  have hb := h v
  rwa [hp,List.nil_append,received_eq_setBuckets hn,oddHalves_eq_empty_iff.mpr (hd v),setBuckets,
    Finset.sum_empty,add_zero] at hb

theorem deliver_spec (hd : Deliver xxh d d') :
    (Accounted xxh G d → Accounted xxh G d') ∧ (d.sketchingAlg.EagerInv G →
      d'.sketchingAlg.EagerInv G) ∧ d'.pending = d.pending ∧
      d'.sketchingAlg.sharedDsuValid = d.sketchingAlg.sharedDsuValid := by
  obtain ⟨b,rest,alg,hperm,hok⟩ := hd
  obtain ⟨hb,hq,hv,hs⟩ := applyUpdateBatch_spec hok
  refine ⟨fun h v => ?_,fun h => ⟨?_,fun hval => ?_⟩,rfl,hs⟩
  · simp only
    rw [hb,← h v,received_append,received_append,received_perm xxh v hperm,received_append]
    abel
  · exact hs.trans (h.shared.trans hv.symm)
  · rw [hq]
    exact h.correct (hv ▸ hval)

theorem delivers_spec (hd : Delivers xxh d d') :
    (Accounted xxh G d → Accounted xxh G d') ∧ (d.sketchingAlg.EagerInv G →
      d'.sketchingAlg.EagerInv G) ∧ d'.pending = d.pending ∧
      d'.sketchingAlg.sharedDsuValid = d.sketchingAlg.sharedDsuValid := by
  induction hd with
  | refl => exact ⟨id,id,rfl,rfl⟩
  | tail _ hstep ih =>
    obtain ⟨ha,he,hp,hs⟩ := ih
    obtain ⟨ha',he',hp',hs'⟩ := deliver_spec (G := G) hstep
    exact ⟨ha' ∘ ha,he' ∘ he,hp'.trans hp,hs'.trans hs⟩

theorem prepQuery_spec {code : QueryCode} (hd : PrepQuery xxh code d d') :
    (Accounted xxh G d → Accounted xxh G d') ∧ (d.sketchingAlg.EagerInv G →
      d'.sketchingAlg.EagerInv G) ∧ d'.pending = d.pending ∧
      d'.sketchingAlg.sharedDsuValid = d.sketchingAlg.sharedDsuValid := by
  rw [PrepQuery] at hd
  split at hd
  · subst hd
    exact ⟨id,id,rfl,rfl⟩
  · exact delivers_spec hd

theorem Accounted.query (h : Accounted xxh G d) (E : QueryEnv n T) :
    Accounted xxh G
      { d with sketchingAlg := (d.sketchingAlg.connectedComponents E).1 } := by
  intro v
  rw [← h v]
  exact congrArg (· + _) (CCSketchAlg.connectedComponents_buckets E d.sketchingAlg v)

theorem settled_query (hn : n < 2 ^ 32) (ha : Accounted xxh G d)
    (he : d.sketchingAlg.EagerInv G) (hp : d.pending = []) {E : QueryEnv n T} (hE : E.xxh = xxh)
    (hs : d.Settled E) (hcf : ∀ A, CollisionFree xxh p (cutEdges G A))
    {cc : ConnectedComponents n} (hok : (d.sketchingAlg.connectedComponents E).2 = .ok cc) :
    (d.sketchingAlg.connectedComponents E).1.EagerInv G ∧
      ∀ u v, cc.isConnected u v = true ↔ G.Reachable u v := by
  subst hE
  obtain ⟨he',_,hconn⟩ := he.afterQuery (hs.imp_right fun h => .inl h.2)
    (hs.imp_right fun h => ha.sketches hn hp h.1) hcf hok
  exact ⟨he',hconn⟩

end Inv

theorem accounted_new (priority : Fin n → ℕ) :
    Accounted xxh (currentGraph []) (.new (CCSketchAlg.new w p priority)) := by
  intro v
  have hnone : incident (currentGraph ([] : List (Edge n))) v = ∅ := by
    simp [incident,currentGraph,toggles]
  rw [hnone,setBuckets,Finset.sum_empty]
  exact add_zero _

theorem Accounted.preInsert (hn : n < 2 ^ 32) {es : List (Edge n)} {d : GraphSketchDriver n w p}
    (h : Accounted xxh (currentGraph es) d) (upd : GraphUpdate n) :
    Accounted xxh (currentGraph (es ++ [upd.edge])) (d.preInsert upd) := by
  intro v
  rw [setBuckets_toggle hn (currentGraph_concat es upd.edge),← h v,GraphSketchDriver.preInsert]
  simp only [CCSketchAlg.preInsert_sketches,received_append,halfUpdates]
  abel

theorem Accounted.insert {G : SimpleGraph (Fin n)} [DecidableRel G.Adj]
    {d : GraphSketchDriver n w p} (h : Accounted xxh G d) {x : Fin n × Fin n}
    {rest : List (Fin n × Fin n)} (hperm : d.pending.Perm (x :: rest)) :
    Accounted xxh G { d with pending := rest,gts := x :: d.gts } := by
  intro v
  rw [← h v]
  exact congrArg _ (received_perm xxh v (List.perm_middle.trans (hperm.symm.append_right _)))

theorem GraphSketchDriver.Reach.accounted (hn : n < 2 ^ 32) {settled : Prop} {es : List (Edge n)}
    {d : GraphSketchDriver n w p} (h : Reach xxh settled es d) :
    Accounted xxh (currentGraph es) d := by
  induction h with
  | new priority => exact accounted_new priority
  | preInsert upd _ ih => exact ih.preInsert hn upd
  | insert h rest _ hperm ih => exact ih.insert hperm
  | deliver _ hd ih => exact (deliver_spec hd).1 ih
  | query E cc _ hp hE hcf hprep hok ih => exact ((prepQuery_spec hprep).1 ih).query E

theorem GraphSketchDriver.Reach.eager (hn : n < 2 ^ 32) {settled : Prop} {es : List (Edge n)}
    {d : GraphSketchDriver n w p} (h : Reach xxh settled es d) (hs : settled) :
    d.sketchingAlg.EagerInv (currentGraph es) := by
  induction h with
  | new priority =>
    refine ⟨rfl,fun _ => ?_⟩
    rw [currentGraph_nil]
    exact CCSketchAlg.correct_new priority
  | preInsert upd _ ih =>
    rw [currentGraph_concat]
    exact (ih hs).preInsert upd
  | insert h rest _ hperm ih => exact ih hs
  | deliver _ hd ih => exact (deliver_spec hd).2.1 (ih hs)
  | query E cc h hp hE hcf hprep hok ih =>
    obtain ⟨ha,he,hp',_⟩ := prepQuery_spec (G := currentGraph _) hprep
    exact (settled_query hn (ha (h.accounted hn)) (he (ih hs.1)) (hp'.trans hp) hE hs.2 hcf hok).1

structure Saved (xxh : XxHash) (es : List (Edge n)) (d : GraphSketchDriver n w p) {T T' : ℕ}
    (E : QueryEnv n T) (E' : QueryEnv n T') : Prop where
  sketches : ∀ v, (writeBinary d.sketchingAlg).buckets v =
    setBuckets xxh p (incident (currentGraph es) v)
  components : ∀ (w' : ℕ) (priority : Fin n → ℕ) (cc cc' : ConnectedComponents n),
    (d.sketchingAlg.connectedComponents E).2 = .ok cc →
    ((constructFromSerializedData w' priority (writeBinary d.sketchingAlg)).connectedComponents
      E').2 = .ok cc' →
    ∀ u v, cc.isConnected u v = cc'.isConnected u v

theorem constructed_inv {G : SimpleGraph (Fin n)} (w : ℕ) (priority : Fin n → ℕ)
    (file : SerializedData n p) : (constructFromSerializedData w priority file).EagerInv G :=
  ⟨rfl,fun h => by cases h⟩

theorem write_binary_iff (hn : n < 2 ^ 32) {settled : Prop} {es : List (Edge n)}
    {d d' d'' : GraphSketchDriver n w p} (h : Reach xxh settled es d) (hp : d.ProcessedUntil)
    (hprep : PrepQuery xxh .connectivity d d') (hmore : Delivers xxh d' d'')
    (hcf : ∀ A, CollisionFree xxh p (cutEdges (currentGraph es) A))
    (hgts : ∀ v, CollisionFree xxh p (oddHalves d''.gts v)) {T T' : ℕ} (E : QueryEnv n T)
    (E' : QueryEnv n T') (hE : E.xxh = xxh) (hE' : E'.xxh = xxh) :
    (Saved xxh es d'' E E' → d''.Drained) ∧
    (settled → d''.sketchingAlg.sharedDsuValid = true ∨ E.Consistent → E'.Consistent →
      d''.Drained → Saved xxh es d'' E E') := by
  obtain ⟨ha,he,hp',_⟩ := prepQuery_spec (G := currentGraph es) hprep
  obtain ⟨ha',he',hp'',_⟩ := delivers_spec (G := currentGraph es) hmore
  have hacc := ha' (ha (h.accounted hn))
  have hpend : d''.pending = [] := hp''.trans (hp'.trans hp)
  refine ⟨fun hsaved => (hacc.sketches_iff hn hpend hgts).mp hsaved.sketches,
    fun hs hset hcons hd => ?_⟩
  have hsk := hacc.sketches hn hpend hd
  refine ⟨hsk,fun w' priority cc cc' hok hok' u v => ?_⟩
  obtain ⟨_,hconn⟩ := settled_query hn hacc (he' (he (h.eager hn hs))) hpend hE
    (hset.imp_right fun hc => ⟨hd,hc⟩) hcf hok
  have hsk' : Sketches E'.xxh (currentGraph es)
      (constructFromSerializedData w' priority (writeBinary d''.sketchingAlg)).sketches := hE' ▸ hsk
  obtain ⟨_,_,hconn'⟩ := (constructed_inv w' priority (writeBinary d''.sketchingAlg)).afterQuery
    (.inr (.inl hcons)) (.inr hsk') (hE' ▸ hcf) hok'
  exact Bool.eq_iff_iff.mpr ((hconn u v).trans (hconn' u v).symm)

section Pair

def pairBuffered : GraphSketchDriver 2 1 fullParams :=
  { sketchingAlg := (CCSketchAlg.new 1 fullParams fun _ => 0).preInsert
      ⟨⟨⟨0,Nat.zero_lt_two⟩,⟨1,Nat.one_lt_two⟩⟩,.insert⟩
    pending := []
    gts := [(⟨1,Nat.one_lt_two⟩,⟨0,Nat.zero_lt_two⟩),(⟨0,Nat.zero_lt_two⟩,⟨1,Nat.one_lt_two⟩)] }

theorem reach_pairBuffered : Reach pairEnv.xxh True [⟨0,1⟩] pairBuffered :=
  .insert _ [] (.insert _ [(1,0)] (.preInsert ⟨⟨0,1⟩,.insert⟩ (.new fun _ => 0)) .rfl) .rfl

theorem current_collisionFree (A : Finset (Fin 2)) :
    CollisionFree pairEnv.xxh fullParams (cutEdges (currentGraph [(⟨0,1⟩ : Edge 2)]) A) := by
  refine (full_collisionFree A).mono fun i hi => ?_
  obtain ⟨u,v,hu,hv,huv,hi⟩ := (mem_cutEdges _).mp hi
  exact (mem_cutEdges _).mpr ⟨u,v,hu,hv,huv.ne,hi⟩

theorem write_binary_delivered : ∃ d : GraphSketchDriver 2 1 fullParams,
    Reach pairEnv.xxh True [⟨0,1⟩] d ∧ d.sketchingAlg.hasCachedQuery .connectivity = true ∧
      Saved pairEnv.xxh [⟨0,1⟩] d (CCSketchAlg.pairRun.env 0) (CCSketchAlg.pairRun.env 0) := by
  have hreach := (reach_pairBuffered.deliver (.batchCallback ⟨0,1,[0]⟩ [(0,1)] _ .rfl rfl)).deliver
    (.batchCallback ⟨0,0,[1]⟩ [] _ .rfl rfl)
  refine ⟨_,hreach,rfl,(write_binary_iff (by decide) hreach rfl rfl .refl current_collisionFree
    (fun v => ?_) (CCSketchAlg.pairRun.env 0) (CCSketchAlg.pairRun.env 0) rfl rfl).2 trivial
    (.inl rfl) CCSketchAlg.pairRun_consistent fun v u => ?_⟩
  · exact .of_subset_singleton (i := 1) (by simp [oddHalves]) (by decide) (by decide)
  · exact Even.zero

theorem write_binary_buffered :
    Reach pairEnv.xxh True [⟨0,1⟩] pairBuffered ∧ pairBuffered.ProcessedUntil ∧
    PrepQuery pairEnv.xxh .connectivity pairBuffered pairBuffered ∧
    (∀ A, CollisionFree pairEnv.xxh fullParams (cutEdges (currentGraph [(⟨0,1⟩ : Edge 2)]) A)) ∧
    (pairBuffered.sketchingAlg.connectedComponents (CCSketchAlg.pairRun.env 0)).2.toOption.map
      (·.isConnected 0 1) = some true ∧
    ((constructFromSerializedData 1 (fun _ => 0) (writeBinary pairBuffered.sketchingAlg)
      ).connectedComponents (CCSketchAlg.pairRun.env 0)).2.toOption.map (·.isConnected 0 1) =
        some false ∧
    ¬ Saved pairEnv.xxh [⟨0,1⟩] pairBuffered (CCSketchAlg.pairRun.env 0)
      (CCSketchAlg.pairRun.env 0) := by
  refine ⟨reach_pairBuffered,rfl,rfl,current_collisionFree,by decide,by decide,
    fun h => ?_⟩
  have hdet := congrFun (h.sketches 0) fullParams.detBucket
  revert hdet
  decide

end Pair

end GraphZeppelin.Driver
