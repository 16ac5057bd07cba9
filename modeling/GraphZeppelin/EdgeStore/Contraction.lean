import GraphZeppelin.Lib.Trace
import GraphZeppelin.EdgeStore.Sequential

namespace GraphZeppelin.EdgeStore

variable {n : ℕ} {s s' : EdgeStore n} {src v : Fin n} {data : List (SubgraphTaggedUpdate n)}

def total (s : EdgeStore n) : ℕ := ∑ v, (s.adjlist v).length

structure Contents (s : EdgeStore n) : Prop where
  size : s.numEdges = s.total % 2 ^ 64
  contracted : ∀ v, s.vertexContracted v = true → ∀ e ∈ s.adjlist v, s.curSubgraph ≤ e.subgraph
  pending : ∀ v, ∀ e ∈ s.adjlist v, s.trueMinSubgraph ≤ e.subgraph

theorem total_setBuffer (s : EdgeStore n) (src : Fin n) (data : List (SubgraphTaggedUpdate n)) :
    (s.setBuffer src data).total + (s.adjlist src).length = s.total + data.length := by
  have h := Trace.sum_changed_at (i := src) (fun v => (s.adjlist v).length)
    (fun v => ((s.setBuffer src data).adjlist v).length)
    fun v hv => by rw [setBuffer_adjlist_ne hv]
  simp only [setBuffer_adjlist_self] at h
  exact h

theorem numEdges_setBuffer (h : s.numEdges = s.total % 2 ^ 64) :
    (s.setBuffer src data).numEdges = (s.setBuffer src data).total % 2 ^ 64 := by
  have htotal := total_setBuffer s src data
  have hnum : (s.setBuffer src data).numEdges =
    ((s.numEdges + data.length - (s.adjlist src).length : ℤ) % 2 ^ 64).toNat := rfl
  omega

namespace Contents

theorem setBuffer (h : s.Contents) (hlo : s.trueMinSubgraph ≤ s.curSubgraph)
    (hdata : ∀ e ∈ data, s.curSubgraph ≤ e.subgraph) : (s.setBuffer src data).Contents := by
  refine ⟨numEdges_setBuffer h.size,fun v hv e he => ?_,fun v e he => ?_⟩
  · by_cases hvs : v = src
    · subst hvs
      rw [setBuffer_adjlist_self] at he
      exact hdata e he
    · rw [setBuffer_adjlist_ne hvs] at he
      exact h.contracted v hv e he
  · by_cases hvs : v = src
    · subst hvs
      rw [setBuffer_adjlist_self] at he
      exact hlo.trans (hdata e he)
    · rw [setBuffer_adjlist_ne hvs] at he
      exact h.pending v e he

theorem mark (h : s.Contents) (hv : ∀ e ∈ s.adjlist v, s.curSubgraph ≤ e.subgraph) :
    (s.markContracted v).Contents := by
  refine ⟨h.size,fun w hw e he => ?_,h.pending⟩
  by_cases hwv : w = v
  · subst hwv
    exact hv e he
  · rw [markContracted_ne hwv] at hw
    exact h.contracted w hw e he

theorem fetch (h : s.Contents) (k : ℕ) : { s with needsContraction := k : EdgeStore n }.Contents :=
  ⟨h.size,h.contracted,h.pending⟩

theorem contract (h : s.Contents) (hlo : s.trueMinSubgraph ≤ s.curSubgraph)
    (hv : s.vertexContracted v = false) : (s.vertexContract v).1.Contents := by
  rw [vertexContract_of_not hv]
  have hkeep : ∀ e ∈ (s.adjlist v).filter fun e => s.curSubgraph ≤ e.subgraph,
      s.curSubgraph ≤ e.subgraph := fun e he => of_decide_eq_true (List.mem_filter.mp he).2
  have hset : (s.setBuffer v _).Contents := h.setBuffer hlo hkeep
  exact hset.mark (by rw [setBuffer_adjlist_self]; exact hkeep)

theorem skip (h : s.Contents) (hv : s.needsContract v = false) : (s.markContracted v).Contents := by
  refine h.mark fun e he => ?_
  rcases needsContract_false hv with hc | hnil
  · exact h.contracted v hc e he
  · rw [hnil] at he
    cases he

-- the last vertex has been fetched, so every flag is set
theorem finish (h : s.Contents) (hlt : s.trueMinSubgraph < s.curSubgraph)
    (hall : ∀ v, s.vertexContracted v = true) : s.finishContraction.Contents :=
  ⟨h.size,h.contracted,fun v e he => (Nat.succ_le_of_lt hlt).trans (h.contracted v (hall v) e he)⟩

theorem check (h : s.Contents) : s.checkIfTooBig.Contents := by
  unfold checkIfTooBig beginContraction
  split
  · exact h
  · split
    · exact h
    · exact ⟨h.size,(fun _ hv => by cases hv),h.pending⟩

theorem prepared (h : s.Contents) (hs : s.Sequential) (src : Fin n) :
    (s.prepared src).1.Contents ∧ (s.prepared src).1.vertexContracted src = true := by
  unfold EdgeStore.prepared
  split
  · next hc =>
    refine ⟨h.contract hs.lo hc.2,?_⟩
    rw [vertexContract_of_not hc.2]
    exact markContracted_self
  · next hc =>
    refine ⟨h,?_⟩
    rcases hs.flag src with hflag | hlt
    · exact hflag
    · by_contra hflag
      exact hc ⟨hlt,Bool.eq_false_of_not_eq_true hflag⟩

theorem insertLocked {f : ℕ} {ds : List (SubgraphTaggedUpdate n)} {r : Inserted n}
    (h : s.Contents) (hs : s.Sequential) (hds : ∀ e ∈ ds, s.curSubgraph ≤ e.subgraph)
    (hr : s.insertLocked src f ds = .ok r) :
    r.store.Contents ∧ r.store.vertexContracted src = true := by
  obtain ⟨us,hus,rfl⟩ := insertLocked_ok hr
  obtain ⟨hc,hflag⟩ := h.prepared hs src
  have hframe := prepared_frame s src
  refine ⟨hc.setBuffer (by rw [hframe.cur,hframe.trueMin]; exact hs.lo) fun e he => ?_,hflag⟩
  rcases mergeUpdates_mem he with he | he
  · exact hc.contracted src hflag e he
  · rw [hframe.cur]
    exact hds e (mem_of_skipStale hus he)

end Contents

structure Contraction (s : EdgeStore n) : Prop extends Sequential s,Contents s

structure Moved (s : EdgeStore n) (r : EdgeStore n × TaggedUpdateBatch n) : Prop where
  state : r.1.Contraction
  cur : r.1.curSubgraph = s.curSubgraph
  first : r.2.firstEsSubgraph = s.curSubgraph
  min : r.2.minSubgraph = s.curSubgraph - 1
  progress : r.1.trueMinSubgraph = r.1.curSubgraph ∨
    s.needsContraction < r.1.needsContraction ∧ r.1.trueMinSubgraph < r.1.curSubgraph
  found : r.2.dstsData ≠ [] → ∃ v, s.needsContract v = true
  fewer : ∀ v, r.1.needsContract v = true → s.needsContract v = true

theorem needsContract_mark {v w : Fin n} (h : (s.markContracted v).needsContract w = true) :
    s.needsContract w = true := by
  by_cases hw : w = v
  · subst hw
    have hflag := needsContract_true h
    rw [markContracted_self] at hflag
    cases hflag
  · rw [needsContract,markContracted_ne hw] at h
    exact h

theorem needsContract_contract {v w : Fin n} (hv : s.vertexContracted v = false)
    (h : (s.vertexContract v).1.needsContract w = true) : s.needsContract w = true := by
  rw [vertexContract_of_not hv] at h
  by_cases hw : w = v
  · subst hw
    have hflag := needsContract_true h
    rw [setBuffer_vertexContracted,markContracted_self] at hflag
    cases hflag
  · rw [needsContract,setBuffer_adjlist_ne hw,setBuffer_vertexContracted,markContracted_ne hw] at h
    exact h

theorem Contraction.advance [NeZero n] (hn : n < 2 ^ 32) (h : s.Contraction)
    (hlt : s.trueMinSubgraph < s.curSubgraph) :
    ∃ r, s.vertexAdvanceSubgraph s.curSubgraph = .ok r ∧ Moved s r := by
  obtain ⟨t,⟨ht,hcur,hmin,hmono,hfewer⟩,hres⟩ := vertexAdvanceLoop_rule
    (P := fun t => t.Contraction ∧ t.curSubgraph = s.curSubgraph ∧
      t.trueMinSubgraph = s.trueMinSubgraph ∧ s.needsContraction ≤ t.needsContraction ∧
      ∀ v, t.needsContract v = true → s.needsContract v = true)
    (c := s.curSubgraph) hn (fun t hneeds ⟨ht,hcur,hmin,hmono,hfewer⟩ hnc =>
      ⟨⟨ht.toSequential.mark (by omega) hneeds,(ht.toContents.fetch _).skip hnc⟩,hcur,hmin,
        Nat.le_succ_of_le hmono,fun v hv => hfewer v (needsContract_mark (s := t.fetchNext) hv)⟩)
    (n + 1) ⟨h,rfl,rfl,le_rfl,fun _ hv => hv⟩ (h.fetched hlt).1 (Nat.le_add_right _ _)
  have hlt' : t.trueMinSubgraph < t.curSubgraph := by omega
  rw [vertexAdvanceSubgraph]
  rcases hres with ⟨hneeds,hnc,hloop⟩ | ⟨heq,hloop⟩
  · have hv : t.fetchNext.vertexContracted ⟨t.needsContraction,hneeds⟩ = false :=
      needsContract_true hnc
    have hc : t.fetchNext.Contents := ht.toContents.fetch _
    have hframe := vertexContract_frame t.fetchNext ⟨t.needsContraction,hneeds⟩
    refine ⟨_,hloop,⟨ht.toSequential.contract hlt' hneeds hnc,hc.contract ht.lo hv⟩,
      hframe.cur.trans hcur,rfl,rfl,.inr ⟨?_,?_⟩,fun _ => ⟨_,hfewer _ hnc⟩,
      fun v hv' => hfewer v (needsContract_contract (s := t.fetchNext) hv hv')⟩
    · rw [hframe.needs]
      exact Nat.lt_succ_of_le hmono
    · rw [hframe.cur,hframe.trueMin]
      exact hlt'
  · have hall (v : Fin n) : t.vertexContracted v = true :=
      (ht.fetched hlt').2 v (heq.symm ▸ v.isLt)
    exact ⟨_,hloop,⟨ht.toSequential.finish hlt' heq _,(ht.toContents.fetch _).finish hlt' hall⟩,
      hcur,rfl,rfl,.inl (le_antisymm hlt' ht.hi),fun hne => absurd rfl hne,hfewer⟩

structure Admits (s : EdgeStore n) (ds : List (SubgraphTaggedUpdate n))
    (r : EdgeStore n × TaggedUpdateBatch n) : Prop where
  state : r.1.Contraction
  grow : r.1.curSubgraph = s.curSubgraph ∨ ds ≠ [] ∧ r.1.curSubgraph = s.curSubgraph + 1
  first : r.2.firstEsSubgraph = s.curSubgraph
  min : r.2.minSubgraph = s.curSubgraph - 1
  pos : r.2.dstsData ≠ [] → 0 < s.curSubgraph

theorem Contraction.insert [NeZero n] (hn : n < 2 ^ 32) (h : s.Contraction) (src : Fin n)
    (ds : List (SubgraphTaggedUpdate n)) (hds : ∀ e ∈ ds, s.curSubgraph ≤ e.subgraph) :
    ∃ r, s.insertAdjEdges src s.curSubgraph ds = .ok r ∧ Admits s ds r := by
  unfold insertAdjEdges
  by_cases hnil : ds = []
  · rw [if_pos hnil]
    exact ⟨_,rfl,h,.inl rfl,rfl,rfl,fun he => absurd rfl he⟩
  rw [if_neg hnil]
  have hsort (e : SubgraphTaggedUpdate n) : e ∈ sortUpdates ds ↔ e ∈ ds :=
    (sortUpdates_perm ds).mem_iff
  obtain ⟨e,he⟩ := List.exists_mem_of_ne_nil ds hnil
  obtain ⟨r,hr⟩ := exists_insertLocked s src s.curSubgraph ⟨e,(hsort e).mpr he,hds e he⟩
  obtain ⟨hc,hv⟩ := h.toContents.insertLocked h.toSequential (fun e he => hds e ((hsort e).mp he)) hr
  obtain ⟨hframe,hcur⟩ := insertLocked_frame hr
  have hstate : r.store.Contraction := ⟨h.toSequential.insertLocked hr hv,hc⟩
  simp only [hr]
  rw [hcur]
  split
  · next hadv =>
    have hlt : r.store.trueMinSubgraph < r.store.curSubgraph := hframe.cur ▸ hadv.2
    obtain ⟨q,hq,hm⟩ := hstate.advance hn hlt
    rw [hframe.cur] at hq
    exact ⟨q,hq,hm.state,.inl (hm.cur.trans hframe.cur),hm.first.trans hframe.cur,
      by rw [hm.min,hframe.cur],fun _ => Nat.zero_lt_of_lt hadv.2⟩
  · have hcheck := hstate.toSequential.check
    rw [hframe.cur] at hcheck
    exact ⟨_,rfl,⟨hcheck.1,hstate.toContents.check⟩,hcheck.2.imp_right fun hg => ⟨hnil,hg⟩,rfl,rfl,
      insertLocked_ret_pos hr⟩

inductive Op (n : ℕ) where
  | insertAdjEdges (src : Fin n) (dstData : List (SubgraphTaggedUpdate n))
  | vertexAdvanceSubgraph
deriving DecidableEq, Repr

def Op.Allowed (s : EdgeStore n) : Op n → Prop
  | .insertAdjEdges _ dstData => ∀ e ∈ dstData, s.curSubgraph ≤ e.subgraph
  | .vertexAdvanceSubgraph => s.contractInProgress

def Op.apply [NeZero n] (s : EdgeStore n) : Op n →
    Except StoreError (EdgeStore n × TaggedUpdateBatch n)
  | .insertAdjEdges src dstData => s.insertAdjEdges src s.curSubgraph dstData
  | .vertexAdvanceSubgraph => s.vertexAdvanceSubgraph s.curSubgraph

inductive Reach [NeZero n] : EdgeStore n → Prop
  | new (maxEdges startSubgraph needsContraction : ℕ) :
      Reach (new n maxEdges startSubgraph needsContraction)
  | call {s : EdgeStore n} {r : EdgeStore n × TaggedUpdateBatch n} (op : Op n) :
      Reach s → op.Allowed s → op.apply s = .ok r → Reach r.1

structure Returns (r : EdgeStore n × TaggedUpdateBatch n) : Prop where
  state : r.1.Contraction
  labels : r.2.dstsData ≠ [] → 1 ≤ r.2.firstEsSubgraph ∧ r.2.minSubgraph = r.2.firstEsSubgraph - 1

theorem Contraction.new (maxEdges startSubgraph needsContraction : ℕ) :
    (new n maxEdges startSubgraph needsContraction).Contraction :=
  ⟨⟨le_rfl,Nat.le_succ _,fun _ _ => rfl,fun h => absurd h (lt_irrefl _)⟩,
    ⟨by simp [EdgeStore.new,total],(fun _ _ _ he => by cases he),fun _ _ he => by cases he⟩⟩

theorem Contraction.call [NeZero n] (hn : n < 2 ^ 32) (h : s.Contraction) {op : Op n}
    (hop : op.Allowed s) : ∃ r, op.apply s = .ok r ∧ Returns r := by
  cases op with
  | insertAdjEdges src dstData =>
    obtain ⟨r,hr,ha⟩ := h.insert hn src dstData hop
    refine ⟨r,hr,ha.state,fun hret => ?_⟩
    rw [ha.first,ha.min]
    exact ⟨ha.pos hret,rfl⟩
  | vertexAdvanceSubgraph =>
    obtain ⟨r,hr,hm⟩ := h.advance hn hop
    refine ⟨r,hr,hm.state,fun _ => ?_⟩
    rw [hm.first,hm.min]
    exact ⟨Nat.zero_lt_of_lt hop,rfl⟩

theorem Reach.contraction [NeZero n] (hn : n < 2 ^ 32) (h : Reach s) : s.Contraction := by
  induction h with
  | new maxEdges start needs => exact .new maxEdges start needs
  | call op _ hop hr ih =>
    obtain ⟨r,hr',hret⟩ := ih.call hn hop
    rw [hr] at hr'
    cases hr'
    exact hret.state

def finishAdvance [NeZero n] : ℕ → EdgeStore n → Except StoreError (EdgeStore n)
  | 0, _ => .error .running
  | fuel + 1, s =>
    if s.contractInProgress then
      match s.vertexAdvanceSubgraph s.curSubgraph with
      | .ok r => finishAdvance fuel r.1
      | .error err => .error err
    else .ok s

-- the fetches left until the cursor has met num_vertices once for each pending subgraph
def fetchesLeft (s : EdgeStore n) : ℕ :=
  (s.curSubgraph - s.trueMinSubgraph) * 2 ^ 32 + (n + 2 ^ 32 - s.needsContraction) % 2 ^ 32

theorem advance_past [NeZero n] (c : ℕ) (h : n < s.needsContraction) :
    s.vertexAdvanceSubgraph c = .ok (s.fetchContraction.1,⟨0,c - 1,c,[]⟩) := by
  have hge : ¬ s.fetchContraction.2 < n := not_lt.mpr (le_of_lt h)
  have hne : s.fetchContraction.2 ≠ n := ne_of_gt h
  rw [vertexAdvanceSubgraph,vertexAdvanceLoop]
  simp only [dif_neg hge,if_neg hne]

theorem advance_fetchesLeft [NeZero n] (hn : n < 2 ^ 32) (hneeds : s.needsContraction < 2 ^ 32)
    (hlt : s.contractInProgress) : ∃ r, s.vertexAdvanceSubgraph s.curSubgraph = .ok r ∧
      r.1.needsContraction < 2 ^ 32 ∧ r.1.fetchesLeft < s.fetchesLeft := by
  have hlt : s.trueMinSubgraph < s.curSubgraph := hlt
  by_cases hle : s.needsContraction ≤ n
  · obtain ⟨t,⟨hcur,hmin,hmono⟩,hres⟩ := vertexAdvanceLoop_rule
      (P := fun t => t.curSubgraph = s.curSubgraph ∧ t.trueMinSubgraph = s.trueMinSubgraph ∧
        s.needsContraction ≤ t.needsContraction)
      (c := s.curSubgraph) hn (fun t _ ⟨hcur,hmin,hmono⟩ _ => ⟨hcur,hmin,Nat.le_succ_of_le hmono⟩)
      (n + 1) ⟨rfl,rfl,le_rfl⟩ hle (Nat.le_add_right _ _)
    rcases hres with ⟨hlast,_,hloop⟩ | ⟨hlast,hloop⟩
    · have hframe := vertexContract_frame t.fetchNext ⟨t.needsContraction,hlast⟩
      refine ⟨_,hloop,?_,?_⟩
      · rw [hframe.needs]
        change t.needsContraction + 1 < 2 ^ 32
        omega
      · rw [fetchesLeft,fetchesLeft,hframe.cur,hframe.trueMin,hframe.needs]
        change (t.curSubgraph - t.trueMinSubgraph) * 2 ^ 32 +
          (n + 2 ^ 32 - (t.needsContraction + 1)) % 2 ^ 32 < _
        rw [hcur,hmin]
        omega
    · refine ⟨_,hloop,Nat.mod_lt _ (by norm_num),?_⟩
      rw [fetchesLeft,fetchesLeft]
      change (t.curSubgraph - (t.trueMinSubgraph + 1)) * 2 ^ 32 +
        (n + 2 ^ 32 - (t.needsContraction + 1) % 2 ^ 32) % 2 ^ 32 < _
      rw [hcur,hmin]
      omega
  · refine ⟨_,advance_past _ (not_le.mp hle),Nat.mod_lt _ (by norm_num),?_⟩
    rw [fetchesLeft,fetchesLeft]
    change (s.curSubgraph - s.trueMinSubgraph) * 2 ^ 32 +
      (n + 2 ^ 32 - (s.needsContraction + 1) % 2 ^ 32) % 2 ^ 32 < _
    omega

theorem finishAdvance_bounded [NeZero n] (hn : n < 2 ^ 32) (k : ℕ)
    (hneeds : s.needsContraction < 2 ^ 32) (hk : s.fetchesLeft < k) :
    ∃ s', s.finishAdvance k = .ok s' ∧ ¬ s'.contractInProgress := by
  induction k generalizing s with
  | zero => omega
  | succ k ih =>
    rw [finishAdvance]
    split
    · next hlt =>
      obtain ⟨r,hr,hneeds',hless⟩ := advance_fetchesLeft hn hneeds hlt
      rw [hr]
      exact ih hneeds' (by omega)
    · next hdone => exact ⟨s,rfl,hdone⟩

theorem finishAdvance_terminates [NeZero n] (hn : n < 2 ^ 32) (s : EdgeStore n) :
    ∃ fuel s', s.finishAdvance fuel = .ok s' ∧ ¬ s'.contractInProgress := by
  by_cases hneeds : s.needsContraction < 2 ^ 32
  · exact ⟨_,finishAdvance_bounded hn (s.fetchesLeft + 1) hneeds (Nat.lt_succ_self _)⟩
  · have hnext : s.fetchContraction.1.needsContraction < 2 ^ 32 := Nat.mod_lt _ (by norm_num)
    obtain ⟨s',hs',hdone⟩ := finishAdvance_bounded hn (s.fetchContraction.1.fetchesLeft + 1) hnext
      (Nat.lt_succ_self _)
    by_cases hlt : s.contractInProgress
    · refine ⟨s.fetchContraction.1.fetchesLeft + 1 + 1,s',?_,hdone⟩
      rw [finishAdvance,if_pos hlt,advance_past _ (by omega)]
      exact hs'
    · exact ⟨1,s,if_neg hlt,hlt⟩

theorem contraction_invariant [NeZero n] (hn : n < 2 ^ 32) :
    (∀ s : EdgeStore n, Reach s → s.numEdges = s.total % 2 ^ 64 ∧
      s.trueMinSubgraph ≤ s.curSubgraph ∧ s.curSubgraph ≤ s.trueMinSubgraph + 1 ∧
      (∀ v, ∀ e ∈ s.adjlist v,
        (if s.vertexContracted v then s.curSubgraph else s.trueMinSubgraph) ≤ e.subgraph) ∧
      (¬ s.contractInProgress → ∀ v, ∀ e ∈ s.adjlist v, s.curSubgraph ≤ e.subgraph) ∧
      ∀ op : Op n, op.Allowed s → ∃ r, op.apply s = .ok r ∧ (r.2.dstsData ≠ [] →
        1 ≤ r.2.firstEsSubgraph ∧ r.2.minSubgraph = r.2.firstEsSubgraph - 1)) ∧
    ∀ s : EdgeStore n, ∃ fuel s', s.finishAdvance fuel = .ok s' ∧ ¬ s'.contractInProgress := by
  refine ⟨fun s hreach => ?_,finishAdvance_terminates hn⟩
  have h := hreach.contraction hn
  refine ⟨h.size,h.lo,h.hi,fun v e he => ?_,fun hdone v e he => ?_,fun op hop => ?_⟩
  · split
    · next hv => exact h.contracted v hv e he
    · exact h.pending v e he
  · exact h.contracted v (h.done (le_antisymm h.lo (not_lt.mp hdone)) v) e he
  · obtain ⟨r,hr,hret⟩ := h.call hn hop
    exact ⟨r,hr,hret.labels⟩

instance (s : EdgeStore n) (op : Op n) : Decidable (op.Allowed s) :=
  match op with
  | .insertAdjEdges _ dstData =>
    inferInstanceAs (Decidable (∀ e ∈ dstData, s.curSubgraph ≤ e.subgraph))
  | .vertexAdvanceSubgraph => inferInstanceAs (Decidable s.contractInProgress)

def allowedCall [NeZero n] (s : EdgeStore n) (op : Op n) : Except StoreError (EdgeStore n) :=
  if op.Allowed s then (op.apply s).map Prod.fst else .error .outOfBounds

theorem Reach.calls [NeZero n] {s s' : EdgeStore n} (hs : Reach s) {ops : List (Op n)}
    (h : ops.foldlM allowedCall s = .ok s') : Reach s' := by
  induction ops generalizing s with
  | nil =>
    cases h
    exact hs
  | cons op ops ih =>
    rw [List.foldlM_cons,allowedCall] at h
    split at h
    · next hop =>
      cases hr : op.apply s with
      | error e =>
        rw [hr] at h
        cases h
      | ok r =>
        rw [hr] at h
        exact ih (hs.call op hop hr) h
    · cases h

def Midway (s : EdgeStore n) (u v : Fin n) : Prop :=
  s.contractInProgress ∧ s.vertexContracted u = true ∧ s.vertexContracted v = false ∧
    s.adjlist u ≠ []

instance (s : EdgeStore n) (u v : Fin n) : Decidable (Midway s u v) :=
  inferInstanceAs (Decidable (_ ∧ _ ∧ _ ∧ _))

theorem contraction_invariant_two :
    (∃ s : EdgeStore 2, Reach s ∧ Midway s 0 1 ∧ s.numEdges = s.total % 2 ^ 64 ∧
      (∀ v, ∀ e ∈ s.adjlist v,
        (if s.vertexContracted v then s.curSubgraph else s.trueMinSubgraph) ≤ e.subgraph) ∧
      ∃ r, Op.vertexAdvanceSubgraph.apply s = .ok r) ∧
    ∃ fuel s', (new 2 0 0 7).beginContraction.finishAdvance fuel = .ok s' ∧
      ¬ s'.contractInProgress := by
  obtain ⟨hreach,hends⟩ := contraction_invariant (n := 2) (by norm_num)
  refine ⟨?_,hends _⟩
  -- the second batch fills the store, and the contraction takes vertex 0 first
  let ops : List (Op 2) :=
    [.insertAdjEdges 0 [⟨0,1⟩],.insertAdjEdges 0 [⟨1,1⟩],.vertexAdvanceSubgraph]
  have hrun : (ops.foldlM allowedCall (new 2 2 0 7)).map (fun s => decide (Midway s 0 1)) =
      .ok true := by decide +kernel
  cases hops : ops.foldlM allowedCall (new 2 2 0 7) with
  | error e =>
    rw [hops] at hrun
    cases hrun
  | ok s =>
    rw [hops] at hrun
    have hmid : Midway s 0 1 := of_decide_eq_true (Except.ok.inj hrun)
    have hs : Reach s := (Reach.new 2 0 7).calls hops
    obtain ⟨hsize,_,_,hsubgraphs,_,hcall⟩ := hreach s hs
    obtain ⟨r,hr,_⟩ := hcall .vertexAdvanceSubgraph hmid.1
    exact ⟨s,hs,hmid,hsize,hsubgraphs,r,hr⟩

end GraphZeppelin.EdgeStore
