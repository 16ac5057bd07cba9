import GraphZeppelin.CC.StreamThreadsSpec
import GraphZeppelin.Driver.SavedState

open SpanningForest PointerForest

namespace GraphZeppelin.Driver
open Boruvka Sketch CC GraphSketchDriver

variable {n w k : ℕ} {p : SketchParams} {xxh : XxHash}

structure Counted (n w : ℕ) (p : SketchParams) where
  driver : GraphSketchDriver n w p
  totalUpdates : ℕ

inductive BatchCallback (xxh : XxHash) (c : Counted n w p) : Counted n w p → Prop
  | mk (b : Batch n w) (rest : List (Fin n × Fin n)) (alg : CCSketchAlg n w p) :
      c.driver.gts.Perm (b.halves ++ rest) →
      c.driver.sketchingAlg.applyUpdateBatch xxh b.thrId b.srcVertex b.dstVertices = .ok alg →
      BatchCallback xxh c ⟨{ c.driver with sketchingAlg := alg,gts := rest },
        c.totalUpdates + b.dstVertices.length⟩

inductive Processing (xxh : XxHash) (c : Counted n w p) : List (Edge n) → Counted n w p → Prop
  | resume : Processing xxh c [] c
  | preInsert {es : List (Edge n)} {c' : Counted n w p} (upd : GraphUpdate n) :
      Processing xxh c es c' →
      Processing xxh c (es ++ [upd.edge]) { c' with driver := c'.driver.preInsert upd }
  | insert {es : List (Edge n)} {c' : Counted n w p} (h : Fin n × Fin n)
      (rest : List (Fin n × Fin n)) : Processing xxh c es c' →
      c'.driver.pending.Perm (h :: rest) →
      Processing xxh c es
        { c' with driver := { c'.driver with pending := rest,gts := h :: c'.driver.gts } }
  | callback {es : List (Edge n)} {c' c'' : Counted n w p} : Processing xxh c es c' →
      BatchCallback xxh c' c'' → Processing xxh c es c''

theorem preInsert_unlocked (a : CCSketchAlg n w p) (upd : GraphUpdate n) :
    (a.preInsert upd).updateLocked = a.updateLocked := by
  unfold CCSketchAlg.preInsert
  split
  · simp only
    split
    · rfl
    · split <;> rfl
  · rfl

structure CountedInv (xxh : XxHash) (es : List (Edge n)) (c : Counted n w p) : Prop where
  accounted : Accounted xxh (currentGraph es) c.driver
  eager : c.driver.sketchingAlg.EagerInv (currentGraph es)
  unlocked : c.driver.sketchingAlg.updateLocked = false
  count : c.totalUpdates + c.driver.pending.length + c.driver.gts.length = 2 * es.length

section Ingest

variable {es : List (Edge n)} {c c' : Counted n w p}

theorem CountedInv.preInsert (hn : n < 2 ^ 32) (h : CountedInv xxh es c) (upd : GraphUpdate n) :
    CountedInv xxh (es ++ [upd.edge]) { c with driver := c.driver.preInsert upd } := by
  refine ⟨h.accounted.preInsert hn upd,?_,?_,?_⟩
  · rw [currentGraph_concat]
    exact h.eager.preInsert upd
  · exact (preInsert_unlocked _ upd).trans h.unlocked
  · have hcount := h.count
    simp only [GraphSketchDriver.preInsert,halfUpdates,List.length_append,List.length_cons,
      List.length_nil]
    omega

theorem CountedInv.insert (h : CountedInv xxh es c) {x : Fin n × Fin n}
    {rest : List (Fin n × Fin n)} (hperm : c.driver.pending.Perm (x :: rest)) :
    CountedInv xxh es { c with driver := { c.driver with pending := rest,gts := x :: c.driver.gts } }
    := by
  refine ⟨h.accounted.insert hperm,h.eager,h.unlocked,?_⟩
  have hcount := h.count
  have hlen := hperm.length_eq
  simp only [List.length_cons] at hlen ⊢
  omega

theorem CountedInv.callback (h : CountedInv xxh es c) (hcb : BatchCallback xxh c c') :
    CountedInv xxh es c' ∧ c'.driver.pending = c.driver.pending ∧
      c'.driver.sketchingAlg.sharedDsuValid = c.driver.sketchingAlg.sharedDsuValid := by
  obtain ⟨b,rest,alg,hperm,hok⟩ := hcb
  obtain ⟨hacc,heager,hpend,hshared⟩ :=
    deliver_spec (G := currentGraph es) (.batchCallback b rest alg hperm hok)
  obtain ⟨alg',hok',hl,_⟩ := CCSketchAlg.applyUpdateBatch_ok xxh h.unlocked b
  obtain rfl : alg' = alg := Except.ok.inj (hok'.symm.trans hok)
  refine ⟨⟨hacc h.accounted,heager h.eager,hl,?_⟩,hpend,hshared⟩
  have hcount := h.count
  have hlen := hperm.length_eq
  rw [List.length_append,Batch.halves,List.length_map] at hlen
  simp only
  omega

theorem CountedInv.callbacks (h : CountedInv xxh es c)
    (hcb : Relation.ReflTransGen (BatchCallback xxh) c c') :
    CountedInv xxh es c' ∧ c'.driver.pending = c.driver.pending ∧
      c'.driver.sketchingAlg.sharedDsuValid = c.driver.sketchingAlg.sharedDsuValid := by
  induction hcb with
  | refl => exact ⟨h,rfl,rfl⟩
  | tail _ hstep ih =>
    obtain ⟨hinv,hp,hs⟩ := ih
    obtain ⟨hinv',hp',hs'⟩ := hinv.callback hstep
    exact ⟨hinv',hp'.trans hp,hs'.trans hs⟩

theorem CountedInv.processing (hn : n < 2 ^ 32) (h : CountedInv xxh es c) {new : List (Edge n)}
    (hp : Processing xxh c new c') : CountedInv xxh (es ++ new) c' := by
  induction hp with
  | resume =>
    rw [List.append_nil]
    exact h
  | preInsert upd _ ih =>
    rw [← List.append_assoc]
    exact ih.preInsert hn upd
  | insert x rest _ hperm ih => exact ih.insert hperm
  | callback _ hcb ih => exact (ih.callback hcb).1

end Ingest

-- process_stream_until: the stream threads, each with what it has still to hand to the gutters.
structure Streaming (n w k : ℕ) (p : SketchParams) where
  inserts : StreamThreads.State n k
  buffered : Fin k → List (Fin n × Fin n)
  counted : Counted n w p

def halvesOf (o : Option (GraphUpdate n)) : List (Fin n × Fin n) := o.toList.flatMap halfUpdates

-- The update whose pre_insert comes back with the thread's next step.
def returning (s : StreamThreads.State n k) (t : Fin k) : Option (GraphUpdate n) :=
  match s.threads t with
  | ⟨todo,.idle⟩ => match todo with
    | [] => none
    | upd :: _ => if s.dsuValid then none else some upd
  | ⟨_,.unlock upd⟩ => some upd
  | ⟨_,.lock _⟩ | ⟨_,.merge _ _⟩ | ⟨_,.insert _⟩ | ⟨_,.find _⟩ | ⟨_,.invalidate _⟩ |
    ⟨_,.invalidateShared _⟩ => none

namespace Streaming

def start (c : Counted n w p) (programs : Fin k → List (GraphUpdate n)) : Streaming n w k p :=
  ⟨.start c.driver.sketchingAlg programs,fun _ => [],c⟩

def preInsert (priority : Fin n → ℕ) (st : Streaming n w k p) (t : Fin k) (choice : Bool) :
    Streaming n w k p :=
  { st with
    inserts := st.inserts.step priority (t,choice)
    buffered := Function.update st.buffered t (halvesOf (returning st.inserts t)) }

def insert (st : Streaming n w k p) (t : Fin k) (h : Fin n × Fin n)
    (rest : List (Fin n × Fin n)) : Streaming n w k p :=
  { st with
    buffered := Function.update st.buffered t rest
    counted := { st.counted with
      driver := { st.counted.driver with gts := h :: st.counted.driver.gts } } }

def Joined (st : Streaming n w k p) : Prop := st.inserts.Finished ∧ ∀ t, st.buffered t = []

def collect (priority : Fin n → ℕ) (st : Streaming n w k p)
    (h : Climbs (Dsu.Below priority) st.inserts.parent) : Counted n w p :=
  { st.counted with
    driver := { st.counted.driver with
      sketchingAlg := { st.counted.driver.sketchingAlg with
        query := ⟨⟨st.inserts.parent,priority,h⟩,st.inserts.spanningForest⟩
        dsuValid := st.inserts.dsuValid
        sharedDsuValid := st.inserts.sharedDsuValid } } }

end Streaming

inductive ThreadStep (priority : Fin n → ℕ) (st : Streaming n w k p) : Streaming n w k p → Prop
  | preInsert (t : Fin k) (choice : Bool) : st.buffered t = [] →
      ThreadStep priority st (st.preInsert priority t choice)
  | insert (t : Fin k) (h : Fin n × Fin n) (rest : List (Fin n × Fin n)) :
      st.buffered t = h :: rest → ThreadStep priority st (st.insert t h rest)

inductive Stream (xxh : XxHash) (priority : Fin n → ℕ) (st : Streaming n w k p) :
    Streaming n w k p → Prop
  | thread {st' : Streaming n w k p} : ThreadStep priority st st' → Stream xxh priority st st'
  | callback {c : Counted n w p} : BatchCallback xxh st.counted c →
      Stream xxh priority st { st with counted := c }

def Streamed (xxh : XxHash) (c : Counted n w p) (programs : Fin k → List (GraphUpdate n))
    (c' : Counted n w p) : Prop :=
  ∃ st h, Relation.ReflTransGen (Stream xxh c.driver.sketchingAlg.query.dsu.priority)
    (.start c programs) st ∧ st.Joined ∧ c' = st.collect c.driver.sketchingAlg.query.dsu.priority h

-- programs deals the updates of the stream out to the threads.
def Dealt (programs : Fin k → List (GraphUpdate n)) (es : List (Edge n)) : Prop :=
  (∑ t, (programs t : Multiset (GraphUpdate n))).map GraphUpdate.edge = es

def adopt (a b : CCSketchAlg n w p) : CCSketchAlg n w p :=
  { a with query := b.query,dsuValid := b.dsuValid,sharedDsuValid := b.sharedDsuValid }

theorem adopt_preInsert (a b : CCSketchAlg n w p) (upd : GraphUpdate n) :
    adopt a (b.preInsert upd) = (adopt a b).preInsert upd := by
  simp only [CCSketchAlg.preInsert,apply_ite (adopt a)]
  rfl

theorem adopt_applyUpdateBatch {a b alg : CCSketchAlg n w p} {thrId : Fin w} {srcVertex : Fin n}
    {dstVertices : List (Fin n)} (h : a.applyUpdateBatch xxh thrId srcVertex dstVertices = .ok alg) :
    (adopt a b).applyUpdateBatch xxh thrId srcVertex dstVertices =
      .ok (adopt alg b) := by
  unfold CCSketchAlg.applyUpdateBatch at h ⊢
  split at h
  · cases h
  · next hl =>
    cases h
    exact if_neg hl

section Refinement
open StreamThreads

variable {c : Counted n w p} {programs : Fin k → List (GraphUpdate n)} {st st' : Streaming n w k p}

def effective : InsertPc n → Option (GraphUpdate n)
  | .insert upd | .invalidate upd | .invalidateShared upd | .unlock upd => some upd
  | .idle | .lock _ | .merge _ _ | .find _ => none

-- What the updates in effect have still to bring into the gutters.
def leftover (s : StreamThreads.State n k) (buffered : Fin k → List (Fin n × Fin n)) (t : Fin k) :
    Multiset (Fin n × Fin n) :=
  buffered t + (halvesOf (effective (s.threads t).pc) : Multiset (Fin n × Fin n))

theorem leftover_move {priority : Fin n → ℕ} {s s' : StreamThreads.State n k} {t : Fin k}
    {o : Option (Fin k × GraphUpdate n)} (hm : Move priority s t o s') :
    (halvesOf (returning s t) : Multiset (Fin n × Fin n)) + halvesOf (effective (s'.threads t).pc) =
      halvesOf (effective (s.threads t).pc) + halvesOf (o.map Prod.snd) := by
  cases hm with
  | done hth => simp [returning,hth,effective,halvesOf]
  | blocked hth => simp [returning,hth,effective,halvesOf]
  | skip hth hv => simp [returning,hth,hv,effective,halvesOf,State.goto]
  | enter hth hv => simp [returning,hth,hv,effective,halvesOf,State.goto]
  | lock hth hfree => simp [returning,hth,effective,halvesOf,State.goto]
  | search hth hstep => simp [returning,hth,effective,halvesOf,State.goto]
  | linked hth hstep => simp [returning,hth,effective,halvesOf,State.goto]
  | related hth hstep => simp [returning,hth,effective,halvesOf,State.goto]
  | insert hth => simp [returning,hth,effective,halvesOf,State.goto]
  | hit hth hmem => simp [returning,hth,effective,halvesOf,State.goto]
  | miss hth hmem => simp [returning,hth,effective,halvesOf,State.goto]
  | invalidate hth => simp [returning,hth,effective,halvesOf,State.goto]
  | invalidateShared hth => simp [returning,hth,effective,halvesOf,State.goto]
  | unlock hth => simp [returning,hth,effective,halvesOf,State.goto]

theorem threads_move {priority : Fin n → ℕ} {s s' : StreamThreads.State n k} {t u : Fin k}
    {o : Option (Fin k × GraphUpdate n)} (hm : Move priority s t o s') (hu : u ≠ t) :
    s'.threads u = s.threads u := by
  cases hm <;> first | rfl | exact Function.update_of_ne hu _ _

-- c' is where the single-threaded process_stream_until stands after the updates in effect.
structure Refines (xxh : XxHash) (c : Counted n w p) (programs : Fin k → List (GraphUpdate n))
    (us : List (Fin k × GraphUpdate n)) (st : Streaming n w k p) (c' : Counted n w p) : Prop where
  processing : Processing xxh c (us.map fun u => u.2.edge) c'
  gts : c'.driver.gts = st.counted.driver.gts
  total : c'.totalUpdates = st.counted.totalUpdates
  joined : st.counted.driver.ProcessedUntil
  alg : c'.driver.sketchingAlg =
    adopt st.counted.driver.sketchingAlg (replay c.driver.sketchingAlg us)
  pending : (c'.driver.pending : Multiset (Fin n × Fin n)) = ∑ t, leftover st.inserts st.buffered t
  own : ∀ t, ownUpdates t us ++ (st.inserts.threads t).remaining = programs t
  sim : Sim (replay c.driver.sketchingAlg us) st.inserts
  inv : Inv c.driver.sketchingAlg.query.dsu.priority st.inserts

theorem refines_start (hc : c.driver.sketchingAlg.sharedDsuValid = c.driver.sketchingAlg.dsuValid)
    (hp : c.driver.ProcessedUntil) (programs : Fin k → List (GraphUpdate n)) :
    Refines xxh c programs [] (.start c programs) c where
  processing := .resume
  gts := rfl
  total := rfl
  joined := hp
  alg := rfl
  pending := by
    rw [show c.driver.pending = [] from hp]
    simp [leftover,Streaming.start,State.start,effective,halvesOf]
  own _ := rfl
  sim := sim_start _ programs
  inv := inv_start hc programs

section Step

variable {us : List (Fin k × GraphUpdate n)} {c' : Counted n w p}

theorem sum_leftover_move {priority : Fin n → ℕ} {s s' : StreamThreads.State n k} {t : Fin k}
    {o : Option (Fin k × GraphUpdate n)} {buffered : Fin k → List (Fin n × Fin n)}
    (hm : Move priority s t o s') (hb : buffered t = []) :
    ∑ u, leftover s' (Function.update buffered t (halvesOf (returning s t))) u =
      ∑ u, leftover s buffered u + halvesOf (o.map Prod.snd) := by
  have hsum := Trace.sum_changed_at (i := t) (leftover s buffered)
    (leftover s' (Function.update buffered t (halvesOf (returning s t)))) fun u hu => by
      rw [leftover,leftover,threads_move hm hu,Function.update_of_ne hu]
  have hbefore : leftover s buffered t = halvesOf (effective (s.threads t).pc) := by
    rw [leftover,hb]
    exact zero_add _
  have hafter : leftover s' (Function.update buffered t (halvesOf (returning s t))) t =
      halvesOf (effective (s.threads t).pc) + halvesOf (o.map Prod.snd) := by
    rw [leftover,Function.update_self]
    exact leftover_move hm
  rw [hbefore,hafter] at hsum
  refine add_right_cancel (hsum.trans ?_)
  rw [add_comm (halvesOf (effective (s.threads t).pc) : Multiset (Fin n × Fin n)),add_assoc]

theorem replay_concat (a : CCSketchAlg n w p) (us : List (Fin k × GraphUpdate n))
    (u : Fin k × GraphUpdate n) : replay a (us ++ [u]) = (replay a us).preInsert u.2 := by
  rw [replay,List.foldl_append]
  rfl

theorem Refines.preInsert (h : Refines xxh c programs us st c') (t : Fin k) (choice : Bool)
    (hb : st.buffered t = []) :
    ∃ us c', Refines xxh c programs us
      (st.preInsert c.driver.sketchingAlg.query.dsu.priority t choice) c' := by
  have hm := step_moves c.driver.sketchingAlg.query.dsu.priority st.inserts (t,choice)
  have hleft := sum_leftover_move hm hb
  have hown (u : Fin k) := (congrArg (ownUpdates u us ++ ·) (remaining_move hm u)).trans (h.own u)
  have hsim := h.sim.move h.inv hm
  have hinv := h.inv.move hm
  cases ho : st.inserts.applies c.driver.sketchingAlg.query.dsu.priority (t,choice) with
  | none =>
    rw [ho] at hleft hown hsim
    refine ⟨us,c',h.processing,h.gts,h.total,h.joined,h.alg,?_,hown,hsim,hinv⟩
    exact (h.pending.trans (add_zero _).symm).trans hleft.symm
  | some u =>
    rw [ho] at hleft hown hsim
    refine ⟨us ++ [u],{ c' with driver := c'.driver.preInsert u.2 },?_,h.gts,h.total,h.joined,?_,?_,
      fun v => ?_,?_,hinv⟩
    · rw [List.map_append]
      exact .preInsert u.2 h.processing
    · rw [replay_concat,adopt_preInsert]
      exact congrArg (·.preInsert u.2) h.alg
    · refine Eq.trans ?_ hleft.symm
      rw [← h.pending,Multiset.coe_add]
      exact congrArg (fun l => ((c'.driver.pending ++ l : List _) : Multiset (Fin n × Fin n)))
        (List.flatMap_singleton _ _).symm
    · rw [ownUpdates_append,List.append_assoc]
      exact hown v
    · rw [replay_concat]
      exact hsim

theorem Refines.insert (h : Refines xxh c programs us st c') {t : Fin k} {x : Fin n × Fin n}
    {rest : List (Fin n × Fin n)} (hb : st.buffered t = x :: rest) :
    ∃ c', Refines xxh c programs us (st.insert t x rest) c' := by
  have hsum := Trace.sum_changed_at (i := t) (leftover st.inserts st.buffered)
    (leftover st.inserts (Function.update st.buffered t rest)) fun u hu => by
      rw [leftover,leftover,Function.update_of_ne hu]
  have hbefore : leftover st.inserts st.buffered t =
      {x} + leftover st.inserts (Function.update st.buffered t rest) t := by
    rw [leftover,leftover,hb,Function.update_self,← add_assoc]
    rfl
  have hall : (c'.driver.pending : Multiset (Fin n × Fin n)) =
      {x} + ∑ u, leftover st.inserts (Function.update st.buffered t rest) u := by
    rw [h.pending]
    rw [hbefore,← add_assoc] at hsum
    rw [add_comm]
    exact (add_right_cancel hsum).symm
  have hmem : x ∈ c'.driver.pending := by
    rw [← Multiset.mem_coe,hall]
    exact Multiset.mem_add.mpr (.inl (Multiset.mem_singleton_self x))
  obtain ⟨l₁,l₂,hsplit⟩ := List.append_of_mem hmem
  have hperm : c'.driver.pending.Perm (x :: (l₁ ++ l₂)) := hsplit ▸ List.perm_middle
  refine ⟨_,.insert x (l₁ ++ l₂) h.processing hperm,congrArg (x :: ·) h.gts,h.total,h.joined,h.alg,
    ?_,h.own,h.sim,h.inv⟩
  rw [Multiset.coe_eq_coe.mpr hperm] at hall
  exact (Multiset.cons_inj_right x).mp hall

theorem Refines.callback (h : Refines xxh c programs us st c') {c₁ : Counted n w p}
    (hcb : BatchCallback xxh st.counted c₁) :
    ∃ c', Refines xxh c programs us { st with counted := c₁ } c' := by
  obtain ⟨b,rest,alg,hperm,hok⟩ := hcb
  have hok' : c'.driver.sketchingAlg.applyUpdateBatch xxh b.thrId b.srcVertex b.dstVertices =
      .ok (adopt alg (replay c.driver.sketchingAlg us)) := by
    rw [h.alg]
    exact adopt_applyUpdateBatch hok
  refine ⟨_,.callback h.processing (.mk b rest _ (h.gts ▸ hperm) hok'),rfl,?_,h.joined,rfl,h.pending,
    h.own,h.sim,h.inv⟩
  exact congrArg (· + b.dstVertices.length) h.total

theorem Refines.run {c' : Counted n w p} (h : Refines xxh c programs us st c')
    (hrun : Relation.ReflTransGen (Stream xxh c.driver.sketchingAlg.query.dsu.priority) st st') :
    ∃ us c', Refines xxh c programs us st' c' := by
  induction hrun with
  | refl => exact ⟨us,c',h⟩
  | tail _ hstep ih =>
    obtain ⟨us,c',h⟩ := ih
    cases hstep with
    | thread ht =>
      cases ht with
      | preInsert t choice hb => exact h.preInsert t choice hb
      | insert t x rest hb => exact ⟨us,h.insert hb⟩
    | callback hcb => exact ⟨us,h.callback hcb⟩

end Step

section Join

variable {us : List (Fin k × GraphUpdate n)} {c' : Counted n w p}

theorem sum_ownUpdates (us : List (Fin k × GraphUpdate n)) :
    ∑ t, (ownUpdates t us : Multiset (GraphUpdate n)) = (us.map Prod.snd : List (GraphUpdate n)) := by
  induction us with
  | nil => simp [ownUpdates]
  | cons u us ih =>
    have hcons (t : Fin k) : (ownUpdates t (u :: us) : Multiset (GraphUpdate n)) =
        (if u.1 = t then {u.2} else 0) + (ownUpdates t us : Multiset (GraphUpdate n)) := by
      by_cases hu : u.1 = t
      · simp [ownUpdates,hu]
      · simp [ownUpdates,hu]
    simp only [hcons,Finset.sum_add_distrib,ih,Finset.sum_ite_eq,Finset.mem_univ,if_true]
    rfl

theorem Refines.dealt (h : Refines xxh c programs us st c') (hj : st.Joined) {es : List (Edge n)}
    (hd : Dealt programs es) : (us.map fun u => u.2.edge).Perm es := by
  have hown (t : Fin k) : programs t = ownUpdates t us := by
    have ht := h.own t
    rw [hj.1 t] at ht
    exact ht.symm.trans (List.append_nil _)
  rw [← Multiset.coe_eq_coe,← hd]
  simp only [hown]
  rw [sum_ownUpdates,Multiset.map_coe,List.map_map]
  rfl

theorem Refines.pending_nil (h : Refines xxh c programs us st c') (hj : st.Joined) :
    c'.driver.ProcessedUntil := by
  have hnone (t : Fin k) : leftover st.inserts st.buffered t = 0 := by
    rw [leftover,hj.1 t,hj.2 t]
    rfl
  have hp := h.pending
  rw [Finset.sum_eq_zero fun t _ => hnone t] at hp
  exact (Multiset.coe_eq_zero _).mp hp

theorem Refines.eager (h : Refines xxh c programs us st c') (hj : st.Joined)
    {G : SimpleGraph (Fin n)} (hG : c'.driver.sketchingAlg.EagerInv G)
    (hclimbs : Climbs (Dsu.Below c.driver.sketchingAlg.query.dsu.priority) st.inserts.parent) :
    (st.collect _ hclimbs).driver.sketchingAlg.EagerInv G := by
  obtain ⟨hv,hforest⟩ := h.sim.finished hj.1
  refine ⟨h.inv.finished hj.1,fun hs => ?_⟩
  have hs' : (replay c.driver.sketchingAlg us).dsuValid = true := hv.symm.trans hs
  rw [h.alg] at hG
  have hc : Correct G (replay c.driver.sketchingAlg us).query := hG.correct hs'
  have hf := hforest hs'
  refine ⟨fun u v => (h.sim.classes hs' u v).symm.trans (hc.rep u v),?_,?_⟩
  · change IsSpanningForest G (forestGraph st.inserts.spanningForest)
    rw [hf]
    exact hc.forest
  · change Keyed st.inserts.spanningForest
    rw [hf]
    exact hc.keyed

theorem currentGraph_perm {es es' : List (Edge n)} (h : es.Perm es') :
    currentGraph es = currentGraph es' := by
  ext a b
  change (a ≠ b ∧ Odd (toggles es a b)) ↔ (a ≠ b ∧ Odd (toggles es' a b))
  rw [toggles,h.countP_eq]
  rfl

theorem CountedInv.perm {es es' : List (Edge n)} (hc : CountedInv xxh es c) (h : es.Perm es') :
    CountedInv xxh es' c := by
  refine ⟨fun v => ?_,?_,hc.unlocked,h.length_eq ▸ hc.count⟩
  · rw [hc.accounted v]
    refine congrArg _ (Finset.ext fun u => ?_)
    simp only [incident,currentGraph_perm h]
  · rw [← currentGraph_perm h]
    exact hc.eager

theorem CountedInv.streamed (hn : n < 2 ^ 32) {es new : List (Edge n)} (hc : CountedInv xxh es c)
    (hp : c.driver.ProcessedUntil) (hd : Dealt programs new) (hs : Streamed xxh c programs c') :
    CountedInv xxh (es ++ new) c' ∧ c'.driver.ProcessedUntil := by
  obtain ⟨st,hclimbs,hrun,hj,rfl⟩ := hs
  obtain ⟨us,c₁,h⟩ := (refines_start hc.eager.shared hp programs).run hrun
  have hinv := (hc.processing hn h.processing).perm ((h.dealt hj hd).append_left es)
  have hpend : c₁.driver.pending = st.counted.driver.pending := (h.pending_nil hj).trans h.joined.symm
  refine ⟨⟨fun v => ?_,h.eager hj hinv.eager hclimbs,?_,?_⟩,h.joined⟩
  · have hb := hinv.accounted v
    rw [h.alg,hpend,h.gts] at hb
    exact hb
  · have hl := hinv.unlocked
    rw [h.alg] at hl
    exact hl
  · have hcount := hinv.count
    rw [h.total,hpend,h.gts] at hcount
    exact hcount

end Join

section Completion

variable {priority : Fin n → ℕ}

theorem exists_drained (priority : Fin n → ℕ) (st : Streaming n w k p) (t : Fin k) :
    ∃ st', Relation.ReflTransGen (ThreadStep priority) st st' ∧ st'.inserts = st.inserts ∧
      st'.buffered = Function.update st.buffered t [] := by
  induction hb : st.buffered t generalizing st with
  | nil => exact ⟨st,.refl,rfl,by rw [← hb,Function.update_eq_self]⟩
  | cons x rest ih =>
    obtain ⟨st',hrun,hi,hb'⟩ := ih (st.insert t x rest) (Function.update_self ..)
    refine ⟨st',.head (.insert t x rest hb) hrun,hi,hb'.trans ?_⟩
    exact Function.update_idem ..

theorem exists_all_drained (priority : Fin n → ℕ) (ts : List (Fin k))
    (st : Streaming n w k p) :
    ∃ st', Relation.ReflTransGen (ThreadStep priority) st st' ∧ st'.inserts = st.inserts ∧
      ∀ t, t ∈ ts ∨ st.buffered t = [] → st'.buffered t = [] := by
  induction ts generalizing st with
  | nil => exact ⟨st,.refl,rfl,fun t ht => ht.resolve_left List.not_mem_nil⟩
  | cons u ts ih =>
    obtain ⟨st₁,hrun₁,hi₁,hb₁⟩ := exists_drained priority st u
    obtain ⟨st₂,hrun₂,hi₂,hb₂⟩ := ih st₁
    refine ⟨st₂,hrun₁.trans hrun₂,hi₂.trans hi₁,fun t ht => hb₂ t ?_⟩
    rw [hb₁]
    by_cases htu : t = u
    · exact .inr (htu ▸ Function.update_self ..)
    · rw [Function.update_of_ne htu]
      exact ht.imp_left fun hmem => (List.mem_cons.mp hmem).resolve_left htu

theorem exists_inserted (priority : Fin n → ℕ) (sched : List (Fin k × Bool))
    (st : Streaming n w k p) :
    ∃ st', Relation.ReflTransGen (ThreadStep priority) st st' ∧
      st'.inserts = st.inserts.run priority sched := by
  induction sched generalizing st with
  | nil => exact ⟨st,.refl,rfl⟩
  | cons l sched ih =>
    obtain ⟨st₁,hrun₁,hi₁,hb₁⟩ := exists_drained priority st l.1
    obtain ⟨st₂,hrun₂,hi₂⟩ := ih (st₁.preInsert priority l.1 l.2)
    have hb : st₁.buffered l.1 = [] := hb₁ ▸ Function.update_self ..
    refine ⟨st₂,(hrun₁.tail (.preInsert l.1 l.2 hb)).trans hrun₂,hi₂.trans ?_⟩
    rw [Streaming.preInsert,hi₁]
    rfl

theorem exists_joined {st : Streaming n w k p} (h : Inv priority st.inserts) :
    ∃ st', Relation.ReflTransGen (ThreadStep priority) st st' ∧ st'.Joined := by
  obtain ⟨sched,hf⟩ := h.completes
  obtain ⟨st₁,hrun₁,hi₁⟩ := exists_inserted priority sched st
  obtain ⟨st₂,hrun₂,hi₂,hb₂⟩ := exists_all_drained priority (List.finRange k) st₁
  refine ⟨st₂,hrun₁.trans hrun₂,?_,fun t => hb₂ t (.inl (List.mem_finRange t))⟩
  rw [hi₂,hi₁]
  exact hf

end Completion

end Refinement

end GraphZeppelin.Driver
