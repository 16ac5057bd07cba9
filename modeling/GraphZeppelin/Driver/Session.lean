import GraphZeppelin.CC.Certificate
import GraphZeppelin.CC.FailedQuery
import GraphZeppelin.Driver.Streaming

open SpanningForest

namespace GraphZeppelin.Driver
open Boruvka Sketch CC GraphSketchDriver

variable {n w T : ℕ} {p : SketchParams} {xxh : XxHash}

def Flushed (xxh : XxHash) (code : QueryCode) (c c' : Counted n w p) : Prop :=
  if c.driver.sketchingAlg.hasCachedQuery code then c' = c
  else Relation.ReflTransGen (BatchCallback xxh) c c'

inductive Event (n : ℕ) where
  | processStreamUntil (es : List (Edge n))
  | prepQuery (code : QueryCode)
  | connectedComponents (cc : ConnectedComponents n)
  | pointQuery (u v : Fin n) (connected : Bool)
  | calcSpanningForest (sf : SpanningForest n)
  | calcDisjointSpanningForests (k : ℕ) (SFs : List (SpanningForest n))

def Event.edges : Event n → List (Edge n)
  | .processStreamUntil es => es
  | _ => []

def processed (evs : List (Event n)) : List (Edge n) := evs.flatMap Event.edges

def Counted.withAlg (c : Counted n w p) (alg : CCSketchAlg n w p) : Counted n w p :=
  { c with driver := { c.driver with sketchingAlg := alg } }

inductive Query (xxh : XxHash) (d : GraphSketchDriver n w p) :
    Prop → Event n → CCSketchAlg n w p → Prop
  | connectedComponents {T : ℕ} (E : QueryEnv n T) {cc alg} : E.xxh = xxh →
      d.sketchingAlg.connectedComponents E = (alg,.ok cc) →
      Query xxh d (d.Settled E) (.connectedComponents cc) alg
  | pointQuery {T : ℕ} (E : QueryEnv n T) (u v : Fin n) {b alg} : E.xxh = xxh →
      d.sketchingAlg.pointQuery E u v = (alg,.ok b) →
      Query xxh d (d.Settled E) (.pointQuery u v b) alg
  | calcSpanningForest {T : ℕ} (E : QueryEnv n T) (o : ForestOrder n) {sf alg} : E.xxh = xxh →
      d.sketchingAlg.calcSpanningForest E o = (alg,.ok sf) →
      Query xxh d (d.Settled E) (.calcSpanningForest sf) alg
  | calcDisjointSpanningForests {T : ℕ} (Q : QueryRun n T) (k : ℕ) {SFs alg} : Q.xxh = xxh →
      d.sketchingAlg.calcDisjointSpanningForests Q k = (alg,.ok SFs) →
      Query xxh d (d.Drained ∧ Q.Consistent) (.calcDisjointSpanningForests k SFs) alg

-- settled says that every query so far was
inductive Session (xxh : XxHash) : Prop → List (Event n) → Counted n w p → Prop
  | start (priority : Fin n → ℕ) :
      Session xxh True [] ⟨.new (CCSketchAlg.new w p priority),0⟩
  | processStreamUntil {settled evs c c'} {k : ℕ} (programs : Fin k → List (GraphUpdate n))
      (es : List (Edge n)) : Session xxh settled evs c → Dealt programs es →
      Streamed xxh c programs c' → Session xxh settled (evs ++ [.processStreamUntil es]) c'
  | prepQuery {settled evs c c'} (code : QueryCode) : Session xxh settled evs c →
      Flushed xxh code c c' → Session xxh settled (evs ++ [.prepQuery code]) c'
  | query {settled settled' evs c ev alg} : Session xxh settled evs c →
      Query xxh c.driver settled' ev alg →
      Session xxh (settled ∧ settled') (evs ++ [ev]) (c.withAlg alg)

def Answers (G : SimpleGraph (Fin n)) : Event n → Prop
  | .connectedComponents cc => (∀ u v, cc.isConnected u v = true ↔ G.Reachable u v) ∧
    cc.size = Nat.card G.ConnectedComponent
  | .pointQuery u v connected => connected = true ↔ G.Reachable u v
  | .calcSpanningForest sf => sf.Proper ∧ IsSpanningForest G sf.graph
  | .calcDisjointSpanningForests k SFs => SFs.length = k ∧ Stepwise CC.Spanning G SFs ∧
    Certifies G k (sfsEdges SFs)
  | _ => True

def Answered (evs : List (Event n)) : Prop :=
  ∀ pre ev, pre ++ [ev] <+: evs → Answers (currentGraph (processed pre)) ev

theorem answered_concat {evs : List (Event n)} {ev : Event n} (h : Answered evs)
    (hev : Answers (currentGraph (processed evs)) ev) : Answered (evs ++ [ev]) := by
  intro pre ev' hpre
  rcases List.prefix_concat_iff.mp hpre with heq | hpre
  · obtain ⟨rfl,hlast⟩ := List.append_inj' heq rfl
    cases List.singleton_inj.mp hlast
    exact hev
  · exact h pre ev' hpre

theorem processed_concat (evs : List (Event n)) (ev : Event n) :
    processed (evs ++ [ev]) = processed evs ++ ev.edges := by
  rw [processed,List.flatMap_append,List.flatMap_singleton]
  rfl

section Queries

variable {a alg : CCSketchAlg n w p} {E : QueryEnv n T}

theorem connectedComponents_ok {cc : ConnectedComponents n}
    (hok : a.connectedComponents E = (alg,.ok cc)) :
    (∃ d, cc = (ConnectedComponents.ofDsu d).2) ∧ alg.sharedDsuValid = true ∧
      (a.updateLocked = false → alg.updateLocked = false) := by
  by_cases hv : a.sharedDsuValid = true
  · rw [CCSketchAlg.connectedComponents_cached hv] at hok
    cases hok
    exact ⟨⟨_,rfl⟩,hv,id⟩
  · simp only [CCSketchAlg.connectedComponents,if_neg hv] at hok
    rcases CCSketchAlg.refresh_cases E a with ⟨hnone,hl,_,hs⟩ | ⟨⟨err,herr⟩,_⟩
    · rw [hnone] at hok
      cases hok
      exact ⟨⟨_,rfl⟩,hs,fun _ => hl⟩
    · rw [herr] at hok
      cases hok

theorem size_of_connectedComponents {G : SimpleGraph (Fin n)} {cc : ConnectedComponents n}
    (hok : a.connectedComponents E = (alg,.ok cc))
    (hconn : ∀ u v, cc.isConnected u v = true ↔ G.Reachable u v) :
    cc.size = Nat.card G.ConnectedComponent := by
  obtain ⟨⟨d,rfl⟩,_⟩ := connectedComponents_ok hok
  exact ConnectedComponents.size_ofDsu fun u v =>
    (ConnectedComponents.isConnected_ofDsu d u v).symm.trans (hconn u v)

theorem calcSpanningForest_ok {o : ForestOrder n} {sf : SpanningForest n}
    (hok : a.calcSpanningForest E o = (alg,.ok sf)) :
    ∃ cc, a.connectedComponents E = (alg,.ok cc) ∧ sf = .ofForest o alg.query.spanningForest := by
  simp only [CCSketchAlg.calcSpanningForest] at hok
  split at hok
  · cases hok
  · next cc hcc =>
    cases hok
    exact ⟨cc,Prod.ext rfl hcc,rfl⟩

structure Pointed (G : SimpleGraph (Fin n)) (a alg : CCSketchAlg n w p) (u v : Fin n) (b : Bool) :
    Prop where
  answer : b = true ↔ G.Reachable u v
  buckets : ∀ x, (alg.sketches x).buckets = (a.sketches x).buckets
  eager : alg.EagerInv G
  valid : alg.sharedDsuValid = true
  unlocked : a.updateLocked = false → alg.updateLocked = false

theorem pointed_of_correct {G : SimpleGraph (Fin n)} {b : CCSketchAlg n w p}
    (hc : Correct G b.query) (hd : b.dsuValid = true) (hs : b.sharedDsuValid = true) (u v : Fin n) :
    Pointed G b { b with query := { b.query with dsu := ((b.query.dsu.findRoot u).1.findRoot v).1 } }
      u v (decide ((b.query.dsu.findRoot u).2 = ((b.query.dsu.findRoot u).1.findRoot v).2)) := by
  refine ⟨?_,fun _ => rfl,⟨hs.trans hd.symm,fun _ => hc.of_forest rfl ?_ hc.forest⟩,hs,id⟩
  · rw [decide_eq_true_eq,Dsu.DisjointSetUnionMT.findRoot_snd,Dsu.DisjointSetUnionMT.findRoot_snd,
      Dsu.DisjointSetUnionMT.rep_findRoot]
    exact hc.rep u v
  · exact fun x => (Dsu.DisjointSetUnionMT.rep_findRoot _ v x).trans
      (Dsu.DisjointSetUnionMT.rep_findRoot _ u x)

theorem pointQuery_ok {G : SimpleGraph (Fin n)} [DecidableRel G.Adj] (h : a.EagerInv G)
    (hE : a.sharedDsuValid = true ∨ E.Consistent)
    (hs : a.sharedDsuValid = true ∨ Sketches E.xxh G a.sketches)
    (hcf : ∀ A, CollisionFree E.xxh p (cutEdges G A)) {u v : Fin n} {b : Bool}
    (hok : a.pointQuery E u v = (alg,.ok b)) : Pointed G a alg u v b := by
  by_cases hv : a.dsuValid = true
  · simp only [CCSketchAlg.pointQuery,if_pos hv] at hok
    cases hok
    exact pointed_of_correct (h.correct hv) hv (h.shared.trans hv) u v
  · simp only [CCSketchAlg.pointQuery,if_neg hv] at hok
    rcases CCSketchAlg.refresh_cases E a with ⟨hnone,hl,_⟩ | ⟨⟨err,herr⟩,_⟩
    · have hvs : ¬ a.sharedDsuValid = true := fun hsv => hv (h.shared.symm.trans hsv)
      obtain ⟨hd,hs',hc⟩ := CCSketchAlg.refresh_correct (.inl (hE.resolve_left hvs))
        (hs.resolve_left hvs) hcf hnone
      rw [hnone] at hok
      cases hok
      have hp := pointed_of_correct hc hd hs' u v
      exact ⟨hp.answer,fun x => CCSketchAlg.refresh_buckets E a x,hp.eager,hp.valid,fun _ => hl⟩
    · rw [herr] at hok
      cases hok

theorem updateEdges_unlocked (type : UpdateType) (es : List (Edge n)) (a : CCSketchAlg n w p) :
    (a.updateEdges xxh type es).updateLocked = a.updateLocked := by
  induction es generalizing a with
  | nil => rfl
  | cons e es ih =>
    exact (ih _).trans (preInsert_unlocked a ⟨e,type⟩)

theorem deleteForests_unlocked {Q : QueryRun n T} (k i maxRounds : ℕ)
    (SFs : List (SpanningForest n)) {a : CCSketchAlg n w p} (hl : a.updateLocked = false)
    {r : ℕ × List (SpanningForest n)} (hrun : a.deleteForests Q k i maxRounds SFs = (alg,.ok r)) :
    alg.updateLocked = false := by
  induction k generalizing i maxRounds SFs a with
  | zero =>
    cases hrun
    exact hl
  | succ k ih =>
    rw [CCSketchAlg.deleteForests] at hrun
    split at hrun
    · cases hrun
    · next sf hsf =>
      obtain ⟨cc,hcc,_⟩ := calcSpanningForest_ok (Prod.ext rfl hsf)
      refine ih _ _ _ ?_ hrun
      rw [updateEdges_unlocked]
      exact (connectedComponents_ok hcc).2.2 hl

theorem calcDisjointSpanningForests_unlocked {Q : QueryRun n T} {k : ℕ}
    {SFs : List (SpanningForest n)} (hl : a.updateLocked = false)
    (hrun : a.calcDisjointSpanningForests Q k = (alg,.ok SFs)) : alg.updateLocked = false := by
  rw [CCSketchAlg.calcDisjointSpanningForests] at hrun
  split at hrun
  · cases hrun
  · next maxRounds SFs' hok =>
    cases hrun
    rw [CCSketchAlg.reinsertForests_eq,updateEdges_unlocked]
    exact deleteForests_unlocked _ _ _ _ hl (Prod.ext rfl hok)

end Queries

structure SessionInv (xxh : XxHash) (evs : List (Event n)) (c : Counted n w p) : Prop where
  counted : CountedInv xxh (processed evs) c
  joined : c.driver.ProcessedUntil
  answered : Answered evs

namespace SessionInv

variable {evs : List (Event n)} {c c' : Counted n w p}

theorem start (priority : Fin n → ℕ) :
    SessionInv xxh [] (⟨.new (CCSketchAlg.new w p priority),0⟩ : Counted n w p) := by
  refine ⟨⟨accounted_new priority,⟨rfl,fun _ => ?_⟩,rfl,rfl⟩,rfl,fun pre ev hpre => ?_⟩
  · rw [processed,List.flatMap_nil,currentGraph_nil]
    exact CCSketchAlg.correct_new priority
  · exact absurd hpre.length_le (by simp)

theorem prepQuery (h : SessionInv xxh evs c) (code : QueryCode) (hf : Flushed xxh code c c') :
    SessionInv xxh (evs ++ [.prepQuery code]) c' := by
  have hproc : processed (evs ++ [.prepQuery code]) = processed evs :=
    (processed_concat _ _).trans (List.append_nil _)
  rw [Flushed] at hf
  split at hf
  · subst hf
    exact ⟨hproc.symm ▸ h.counted,h.joined,answered_concat h.answered trivial⟩
  · obtain ⟨hinv,hp,_⟩ := h.counted.callbacks hf
    exact ⟨hproc.symm ▸ hinv,hp.trans h.joined,answered_concat h.answered trivial⟩

theorem processStreamUntil (hn : n < 2 ^ 32) (h : SessionInv xxh evs c) {k : ℕ}
    {programs : Fin k → List (GraphUpdate n)} {es : List (Edge n)} (hd : Dealt programs es)
    (hs : Streamed xxh c programs c') :
    SessionInv xxh (evs ++ [.processStreamUntil es]) c' := by
  obtain ⟨hinv,hjoined⟩ := h.counted.streamed hn h.joined hd hs
  refine ⟨?_,hjoined,answered_concat h.answered trivial⟩
  rw [processed_concat]
  exact hinv

structure Replied (xxh : XxHash) (evs : List (Event n)) (ev : Event n) (c : Counted n w p)
    (alg : CCSketchAlg n w p) : Prop where
  silent : ev.edges = []
  buckets : ∀ v, (alg.sketches v).buckets = (c.driver.sketchingAlg.sketches v).buckets
  eager : alg.EagerInv (currentGraph (processed evs))
  unlocked : alg.updateLocked = false
  answer : Answers (currentGraph (processed evs)) ev

theorem reply (h : SessionInv xxh evs c) {ev : Event n} {alg : CCSketchAlg n w p}
    (hr : Replied xxh evs ev c alg) : SessionInv xxh (evs ++ [ev]) (c.withAlg alg) := by
  have hproc : processed (evs ++ [ev]) = processed evs := by
    rw [processed_concat,hr.silent,List.append_nil]
  refine ⟨?_,h.joined,answered_concat h.answered hr.answer⟩
  rw [hproc]
  refine ⟨fun v => ?_,hr.eager,hr.unlocked,h.counted.count⟩
  rw [← h.counted.accounted v]
  exact congrArg (· + _) (hr.buckets v)

theorem sketches (hn : n < 2 ^ 32) (h : SessionInv xxh evs c) (hd : c.driver.Drained) :
    Sketches xxh (currentGraph (processed evs)) c.driver.sketchingAlg.sketches :=
  h.counted.accounted.sketches hn h.joined hd

variable {T : ℕ} {E : QueryEnv n T} {alg : CCSketchAlg n w p}

theorem connectedComponents (hn : n < 2 ^ 32) (h : SessionInv xxh evs c)
    (hs : c.driver.Settled E) (hE : E.xxh = xxh)
    (hcf : ∀ A, CollisionFree xxh p (cutEdges (currentGraph (processed evs)) A))
    {cc : ConnectedComponents n}
    (hok : c.driver.sketchingAlg.connectedComponents E = (alg,.ok cc)) :
    Replied xxh evs (.connectedComponents cc) c alg := by
  have hcc : (c.driver.sketchingAlg.connectedComponents E).2 = .ok cc := by rw [hok]
  obtain ⟨he,hconn⟩ :=
    settled_query hn h.counted.accounted h.counted.eager h.joined hE hs hcf hcc
  have hb (v : Fin n) := CCSketchAlg.connectedComponents_buckets E c.driver.sketchingAlg v
  obtain ⟨_,_,hun⟩ := connectedComponents_ok hok
  rw [hok] at he hb
  exact ⟨rfl,hb,he,hun h.counted.unlocked,hconn,size_of_connectedComponents hok hconn⟩

theorem calcSpanningForest (hn : n < 2 ^ 32) (h : SessionInv xxh evs c)
    (hs : c.driver.Settled E) (hE : E.xxh = xxh)
    (hcf : ∀ A, CollisionFree xxh p (cutEdges (currentGraph (processed evs)) A))
    {o : ForestOrder n} {sf : SpanningForest n}
    (hok : c.driver.sketchingAlg.calcSpanningForest E o = (alg,.ok sf)) :
    Replied xxh evs (.calcSpanningForest sf) c alg := by
  obtain ⟨cc,hcc,rfl⟩ := calcSpanningForest_ok hok
  have hr := h.connectedComponents hn hs hE hcf hcc
  have hc := hr.eager.correct (hr.eager.shared.symm.trans (connectedComponents_ok hcc).2.1)
  refine ⟨rfl,hr.buckets,hr.eager,hr.unlocked,CC.SpanningForest.proper_ofForest o hc.keyed,?_⟩
  rw [CC.SpanningForest.graph_ofForest]
  exact hc.forest

theorem pointQuery (hn : n < 2 ^ 32) (h : SessionInv xxh evs c) (hs : c.driver.Settled E)
    (hE : E.xxh = xxh)
    (hcf : ∀ A, CollisionFree xxh p (cutEdges (currentGraph (processed evs)) A)) {u v : Fin n}
    {b : Bool} (hok : c.driver.sketchingAlg.pointQuery E u v = (alg,.ok b)) :
    Replied xxh evs (.pointQuery u v b) c alg := by
  subst hE
  have hp := pointQuery_ok h.counted.eager (hs.imp_right And.right)
    (hs.imp_right fun hd => h.sketches hn hd.1) hcf hok
  exact ⟨rfl,hp.buckets,hp.eager,hp.unlocked h.counted.unlocked,hp.answer⟩

theorem calcDisjointSpanningForests {Q : QueryRun n T} (hn : n < 2 ^ 32)
    (h : SessionInv xxh evs c) (hs : c.driver.Drained ∧ Q.Consistent) (hQ : Q.xxh = xxh)
    (hcf : ∀ A, CollisionFree xxh p (cutEdges (currentGraph (processed evs)) A)) {k : ℕ}
    {SFs : List (SpanningForest n)}
    (hok : c.driver.sketchingAlg.calcDisjointSpanningForests Q k = (alg,.ok SFs)) :
    Replied xxh evs (.calcDisjointSpanningForests k SFs) c alg := by
  subst hQ
  have hsk := h.sketches hn hs.1
  obtain ⟨hg,hlen,hspan⟩ := CCSketchAlg.Good.calcDisjointSpanningForests (.inl hs.2)
    ⟨hsk,h.counted.eager⟩ hok hcf
  exact ⟨rfl,fun v => (hg.sketches v).trans (hsk v).symm,hg.eager,
    calcDisjointSpanningForests_unlocked h.counted.unlocked hok,hlen,hspan,hlen ▸ hspan.certifies⟩

theorem query (hn : n < 2 ^ 32) (h : SessionInv xxh evs c)
    (hcf : ∀ A, CollisionFree xxh p (cutEdges (currentGraph (processed evs)) A)) {ev : Event n}
    {settled : Prop} (hq : Query xxh c.driver settled ev alg) (hs : settled) :
    SessionInv xxh (evs ++ [ev]) (c.withAlg alg) := by
  cases hq with
  | connectedComponents E hE hok => exact h.reply (h.connectedComponents hn hs hE hcf hok)
  | pointQuery E u v hE hok => exact h.reply (h.pointQuery hn hs hE hcf hok)
  | calcSpanningForest E o hE hok => exact h.reply (h.calcSpanningForest hn hs hE hcf hok)
  | calcDisjointSpanningForests Q k hQ hok =>
    exact h.reply (h.calcDisjointSpanningForests hn hs hQ hcf hok)

end SessionInv

theorem Session.inv (hn : n < 2 ^ 32) {settled : Prop} {evs : List (Event n)} {c : Counted n w p}
    (h : Session xxh settled evs c) (hs : settled) (hcf : ∀ pre, pre <+: evs → ∀ A,
      CollisionFree xxh p (cutEdges (currentGraph (processed pre)) A)) :
    SessionInv xxh evs c := by
  induction h with
  | start priority => exact .start priority
  | processStreamUntil programs es _ hd hstr ih =>
    exact (ih hs fun pre hpre => hcf pre
      (hpre.trans (List.prefix_append _ _))).processStreamUntil hn hd hstr
  | prepQuery code _ hf ih =>
    exact (ih hs fun pre hpre => hcf pre (hpre.trans (List.prefix_append _ _))).prepQuery code hf
  | query _ hq ih =>
    exact (ih hs.1 fun pre hpre => hcf pre (hpre.trans (List.prefix_append _ _))).query hn
      (hcf _ (List.prefix_append _ _)) hq hs.2

theorem session_answers_correct (hn : n < 2 ^ 32) {settled : Prop} {evs : List (Event n)}
    {c : Counted n w p} (h : Session xxh settled evs c) (hs : settled)
    (hcf : ∀ pre, pre <+: evs → ∀ A,
      CollisionFree xxh p (cutEdges (currentGraph (processed pre)) A)) :
    Answered evs ∧
    (c.driver.gts = [] → c.totalUpdates = 2 * (processed evs).length) ∧
    (∀ (k : ℕ) (programs : Fin k → List (GraphUpdate n)) st, Relation.ReflTransGen
        (Stream xxh c.driver.sketchingAlg.query.dsu.priority) (.start c programs) st →
      ∃ st', Relation.ReflTransGen
        (Stream xxh c.driver.sketchingAlg.query.dsu.priority) st st' ∧ st'.Joined) := by
  have hinv := h.inv hn hs hcf
  refine ⟨hinv.answered,fun hgts => ?_,fun k programs st hrun => ?_⟩
  · have hcount := hinv.counted.count
    rw [hgts,show c.driver.pending = [] from hinv.joined] at hcount
    exact hcount
  · obtain ⟨us,c',h⟩ :=
      (refines_start hinv.counted.eager.shared hinv.joined programs).run hrun
    obtain ⟨st',hrun',hj⟩ := exists_joined h.inv
    exact ⟨st',Relation.ReflTransGen.mono (fun _ _ => .thread) _ _ hrun',hj⟩

section Pair

def pairEvents : List (Event 2) :=
  [.processStreamUntil [⟨⟨0,Nat.zero_lt_two⟩,⟨1,Nat.one_lt_two⟩⟩],.prepQuery .kSpanningForests,
    .calcDisjointSpanningForests 2 [⟨[⟨⟨0,Nat.zero_lt_two⟩,⟨1,Nat.one_lt_two⟩⟩]⟩,⟨[]⟩]]

def pairStart : Counted 2 1 fullParams := ⟨.new (CCSketchAlg.new 1 fullParams fun _ => 0),0⟩

def pairThreads (t : Fin 2) : List (GraphUpdate 2) :=
  if t.val = 0 then [StreamThreads.pairUpdate .insert] else []

def pairInserted (m : ℕ) : Streaming 2 1 2 fullParams :=
  (fun st => st.preInsert (fun _ => 0) ⟨0,Nat.zero_lt_two⟩ false)^[m] (.start pairStart pairThreads)

def pairStreamed : Streaming 2 1 2 fullParams :=
  ((pairInserted 16).insert ⟨0,Nat.zero_lt_two⟩ (⟨0,Nat.zero_lt_two⟩,⟨1,Nat.one_lt_two⟩)
    [(⟨1,Nat.one_lt_two⟩,⟨0,Nat.zero_lt_two⟩)]).insert ⟨0,Nat.zero_lt_two⟩
      (⟨1,Nat.one_lt_two⟩,⟨0,Nat.zero_lt_two⟩) []

theorem pairInserted_run {m : ℕ} (h : ∀ i < m, (pairInserted i).buffered 0 = []) :
    Relation.ReflTransGen (Stream pairEnv.xxh fun _ => 0) (.start pairStart pairThreads)
      (pairInserted m) := by
  induction m with
  | zero => exact .refl
  | succ m ih =>
    rw [pairInserted,Function.iterate_succ_apply']
    exact (ih fun i hi => h i (Nat.lt_succ_of_lt hi)).tail
      (.thread (.preInsert _ false (h m (Nat.lt_succ_self m))))

theorem pairInserted_counted (m : ℕ) : (pairInserted m).counted = pairStart := by
  induction m with
  | zero => rfl
  | succ m ih =>
    rw [pairInserted,Function.iterate_succ_apply']
    exact ih

theorem pairStreamed_run :
    Relation.ReflTransGen (Stream pairEnv.xxh fun _ => 0) (.start pairStart pairThreads)
      pairStreamed ∧ pairStreamed.Joined := by
  have hinserted : (pairInserted 16).buffered 0 = [(0,1),(1,0)] := by decide
  have hrest : ((pairInserted 16).insert 0 (0,1) [(1,0)]).buffered 0 = [(1,0)] := by
    decide
  have hrun := pairInserted_run (m := 16) (by decide)
  refine ⟨(hrun.tail (.thread (.insert _ _ _ hinserted))).tail (.thread (.insert _ _ _ hrest)),?_,?_⟩
  · exact of_decide_eq_true (by decide : decide (pairInserted 16).inserts.Finished = true)
  · decide

theorem pairStreamed_climbs :
    PointerForest.Climbs (Dsu.Below fun _ => 0) pairStreamed.inserts.parent := by
  have hvalid : pairStart.driver.sketchingAlg.sharedDsuValid =
    pairStart.driver.sketchingAlg.dsuValid := rfl
  have hpending : pairStart.driver.ProcessedUntil := rfl
  obtain ⟨us,c',href⟩ := (refines_start hvalid hpending pairThreads).run pairStreamed_run.1
  exact href.inv.climbs

def pairCollected : Counted 2 1 fullParams :=
  ⟨⟨{ CCSketchAlg.new 1 fullParams fun _ => 0 with
      query := ⟨⟨pairStreamed.inserts.parent,fun _ => 0,pairStreamed_climbs⟩,
        pairStreamed.inserts.spanningForest⟩
      dsuValid := pairStreamed.inserts.dsuValid
      sharedDsuValid := pairStreamed.inserts.sharedDsuValid },[],
    [(⟨1,Nat.one_lt_two⟩,⟨0,Nat.zero_lt_two⟩),(⟨0,Nat.zero_lt_two⟩,⟨1,Nat.one_lt_two⟩)]⟩,0⟩

theorem pairStreamed_collect :
    pairCollected = pairStreamed.collect (fun _ => 0) pairStreamed_climbs := by
  have hcounted : pairStreamed.counted =
      ⟨⟨CCSketchAlg.new 1 fullParams fun _ => 0,[],[(1,0),(0,1)]⟩,0⟩ := by
    rw [pairStreamed,Streaming.insert,Streaming.insert,pairInserted_counted]
    rfl
  rw [Streaming.collect,hcounted]
  rfl

theorem pairCollected_session :
    Session pairEnv.xxh True [.processStreamUntil [⟨0,1⟩]] pairCollected := by
  have hstreamed : Streamed pairEnv.xxh pairStart pairThreads pairCollected :=
    ⟨_,pairStreamed_climbs,pairStreamed_run.1,pairStreamed_run.2,pairStreamed_collect⟩
  exact .processStreamUntil pairThreads [⟨0,1⟩] (.start fun _ => 0) rfl hstreamed

theorem session_answers_pair : ∃ (c : Counted 2 1 fullParams) (settled : Prop),
    Session pairEnv.xxh settled pairEvents c ∧ settled ∧ Answered pairEvents ∧
      c.totalUpdates = 2 := by
  have hstart : Relation.ReflTransGen (BatchCallback pairEnv.xxh) pairCollected pairCollected :=
    .refl
  have hflush := (hstart.tail (.mk ⟨0,1,[0]⟩ [(0,1)] _ .rfl rfl)).tail (.mk ⟨0,0,[1]⟩ [] _ .rfl rfl)
  have hprep := Session.prepQuery .kSpanningForests pairCollected_session hflush
  have hsession : Session pairEnv.xxh _ pairEvents _ :=
    hprep.query (.calcDisjointSpanningForests CCSketchAlg.pairRun 2 rfl
      (Prod.mk.eta.symm.trans (congrArg (Prod.mk _) (by decide))))
  have hall := session_answers_correct (by decide) hsession
    ⟨trivial,fun _ _ => Even.zero,CCSketchAlg.pairRun_consistent⟩ fun pre _ A =>
      (full_collisionFree A).mono (cutEdges_mono le_top A)
  exact ⟨_,_,hsession,⟨trivial,fun _ _ => Even.zero,CCSketchAlg.pairRun_consistent⟩,hall.1,
    hall.2.1 rfl⟩

end Pair

end GraphZeppelin.Driver
