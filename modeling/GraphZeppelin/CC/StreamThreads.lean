import GraphZeppelin.CC.EagerDsu
import GraphZeppelin.Dsu.Linearizable

open SpanningForest PointerForest

namespace GraphZeppelin.CC

variable {n k w : ℕ} {p : SketchParams}

def GraphUpdate.src (upd : GraphUpdate n) : Fin n := min upd.edge.src upd.edge.dst

def GraphUpdate.dst (upd : GraphUpdate n) : Fin n := max upd.edge.src upd.edge.dst

-- pre_insert of several stream threads, one access of shared memory at a time.
namespace StreamThreads
open Dsu Dsu.Concurrent

inductive InsertPc (n : ℕ) where
  | idle
  | lock (upd : GraphUpdate n)
  | merge (upd : GraphUpdate n) (pc : Pc n)
  | insert (upd : GraphUpdate n)
  | find (upd : GraphUpdate n)
  | invalidate (upd : GraphUpdate n)
  | invalidateShared (upd : GraphUpdate n)
  | unlock (upd : GraphUpdate n)
deriving DecidableEq

structure Thread (n : ℕ) where
  todo : List (GraphUpdate n)
  pc : InsertPc n
deriving DecidableEq

structure State (n k : ℕ) where
  parent : Fin n → Fin n
  spanningForest : Fin n → Finset (Fin n)
  spanningForestMtx : Fin n → Option (Fin k)
  dsuValid : Bool
  sharedDsuValid : Bool
  threads : Fin k → Thread n

def State.start (a : CCSketchAlg n w p) (programs : Fin k → List (GraphUpdate n)) : State n k where
  parent := a.query.dsu.parent
  spanningForest := a.query.spanningForest
  spanningForestMtx _ := none
  dsuValid := a.dsuValid
  sharedDsuValid := a.sharedDsuValid
  threads t := ⟨programs t,.idle⟩

def State.goto (s : State n k) (t : Fin k) (todo : List (GraphUpdate n)) (pc : InsertPc n) :
    State n k :=
  { s with threads := Function.update s.threads t ⟨todo,pc⟩ }

-- A thread whose lock_guard is refused stays where it is.
def State.step (priority : Fin n → ℕ) (s : State n k) (l : Fin k × Bool) : State n k :=
  match s.threads l.1 with
  | ⟨todo,.idle⟩ => match todo with
    | [] => s
    | upd :: todo => s.goto l.1 todo (if s.dsuValid then .lock upd else .idle)
  | ⟨todo,.lock upd⟩ =>
    if s.spanningForestMtx upd.src = none then
      { s.goto l.1 todo (.merge upd (Call.merge upd.src upd.dst).start) with
        spanningForestMtx := Function.update s.spanningForestMtx upd.src (some l.1) }
    else s
  | ⟨todo,.merge upd pc⟩ => match pc.step priority s.parent l.2 with
    | (parent,.next pc') => { s.goto l.1 todo (.merge upd pc') with parent := parent }
    | (parent,.returned true) => { s.goto l.1 todo (.insert upd) with parent := parent }
    | (parent,.returned false) => { s.goto l.1 todo (.find upd) with parent := parent }
  | ⟨todo,.insert upd⟩ =>
    { s.goto l.1 todo (.unlock upd) with
      spanningForest := Function.update s.spanningForest upd.src
        (insert upd.dst (s.spanningForest upd.src)) }
  | ⟨todo,.find upd⟩ =>
    s.goto l.1 todo (if upd.dst ∈ s.spanningForest upd.src then .invalidate upd else .unlock upd)
  | ⟨todo,.invalidate upd⟩ => { s.goto l.1 todo (.invalidateShared upd) with dsuValid := false }
  | ⟨todo,.invalidateShared upd⟩ =>
    { s.goto l.1 todo (.unlock upd) with sharedDsuValid := false }
  | ⟨todo,.unlock upd⟩ =>
    { s.goto l.1 todo .idle with
      spanningForestMtx := Function.update s.spanningForestMtx upd.src none }

def State.run (priority : Fin n → ℕ) (s : State n k) (sched : List (Fin k × Bool)) : State n k :=
  sched.foldl (State.step priority) s

def State.Finished (s : State n k) : Prop := ∀ t, s.threads t = ⟨[],.idle⟩

instance (s : State n k) : Decidable s.Finished := inferInstanceAs (Decidable (∀ _, _))

-- The update that takes effect in this step: at the link, at the look-up or, once the DSU is
-- invalid, at the test of dsu_valid.
def State.applies (priority : Fin n → ℕ) (s : State n k) (l : Fin k × Bool) :
    Option (Fin k × GraphUpdate n) :=
  match s.threads l.1 with
  | ⟨todo,.idle⟩ => match todo with
    | [] => none
    | upd :: _ => if s.dsuValid then none else some (l.1,upd)
  | ⟨_,.merge upd pc⟩ => match pc.step priority s.parent l.2 with
    | (_,.returned true) => some (l.1,upd)
    | _ => none
  | ⟨_,.find upd⟩ => some (l.1,upd)
  | ⟨_,.lock _⟩ | ⟨_,.insert _⟩ | ⟨_,.invalidate _⟩ | ⟨_,.invalidateShared _⟩ | ⟨_,.unlock _⟩ => none

def applied (priority : Fin n → ℕ) :
    State n k → List (Fin k × Bool) → List (Fin k × GraphUpdate n)
  | _, [] => []
  | s, l :: sched => (s.applies priority l).toList ++ applied priority (s.step priority l) sched

inductive Move (priority : Fin n → ℕ) (s : State n k) (t : Fin k) :
    Option (Fin k × GraphUpdate n) → State n k → Prop
  | done : s.threads t = ⟨[],.idle⟩ → Move priority s t none s
  | blocked {upd : GraphUpdate n} {todo : List (GraphUpdate n)} :
      s.threads t = ⟨todo,.lock upd⟩ → Move priority s t none s
  | skip {upd : GraphUpdate n} {todo : List (GraphUpdate n)} :
      s.threads t = ⟨upd :: todo,.idle⟩ → s.dsuValid = false →
      Move priority s t (some (t,upd)) (s.goto t todo .idle)
  | enter {upd : GraphUpdate n} {todo : List (GraphUpdate n)} :
      s.threads t = ⟨upd :: todo,.idle⟩ → s.dsuValid = true →
      Move priority s t none (s.goto t todo (.lock upd))
  | lock {upd : GraphUpdate n} {todo : List (GraphUpdate n)} :
      s.threads t = ⟨todo,.lock upd⟩ → s.spanningForestMtx upd.src = none →
      Move priority s t none
        { s.goto t todo (.merge upd (Call.merge upd.src upd.dst).start) with
          spanningForestMtx := Function.update s.spanningForestMtx upd.src (some t) }
  | search {upd : GraphUpdate n} {todo : List (GraphUpdate n)} {pc pc' : Pc n} {c : Bool}
      {parent : Fin n → Fin n} : s.threads t = ⟨todo,.merge upd pc⟩ →
      pc.step priority s.parent c = (parent,.next pc') →
      Move priority s t none { s.goto t todo (.merge upd pc') with parent := parent }
  | linked {upd : GraphUpdate n} {todo : List (GraphUpdate n)} {pc : Pc n} {c : Bool}
      {parent : Fin n → Fin n} : s.threads t = ⟨todo,.merge upd pc⟩ →
      pc.step priority s.parent c = (parent,.returned true) →
      Move priority s t (some (t,upd)) { s.goto t todo (.insert upd) with parent := parent }
  | related {upd : GraphUpdate n} {todo : List (GraphUpdate n)} {pc : Pc n} {c : Bool}
      {parent : Fin n → Fin n} : s.threads t = ⟨todo,.merge upd pc⟩ →
      pc.step priority s.parent c = (parent,.returned false) →
      Move priority s t none { s.goto t todo (.find upd) with parent := parent }
  | insert {upd : GraphUpdate n} {todo : List (GraphUpdate n)} :
      s.threads t = ⟨todo,.insert upd⟩ → Move priority s t none
        { s.goto t todo (.unlock upd) with
          spanningForest := Function.update s.spanningForest upd.src
            (Insert.insert upd.dst (s.spanningForest upd.src)) }
  | hit {upd : GraphUpdate n} {todo : List (GraphUpdate n)} :
      s.threads t = ⟨todo,.find upd⟩ → upd.dst ∈ s.spanningForest upd.src →
      Move priority s t (some (t,upd)) (s.goto t todo (.invalidate upd))
  | miss {upd : GraphUpdate n} {todo : List (GraphUpdate n)} :
      s.threads t = ⟨todo,.find upd⟩ → upd.dst ∉ s.spanningForest upd.src →
      Move priority s t (some (t,upd)) (s.goto t todo (.unlock upd))
  | invalidate {upd : GraphUpdate n} {todo : List (GraphUpdate n)} :
      s.threads t = ⟨todo,.invalidate upd⟩ →
      Move priority s t none { s.goto t todo (.invalidateShared upd) with dsuValid := false }
  | invalidateShared {upd : GraphUpdate n} {todo : List (GraphUpdate n)} :
      s.threads t = ⟨todo,.invalidateShared upd⟩ →
      Move priority s t none { s.goto t todo (.unlock upd) with sharedDsuValid := false }
  | unlock {upd : GraphUpdate n} {todo : List (GraphUpdate n)} :
      s.threads t = ⟨todo,.unlock upd⟩ → Move priority s t none
        { s.goto t todo .idle with
          spanningForestMtx := Function.update s.spanningForestMtx upd.src none }

theorem step_moves (priority : Fin n → ℕ) (s : State n k) (l : Fin k × Bool) :
    Move priority s l.1 (s.applies priority l) (s.step priority l) := by
  unfold State.step State.applies
  rcases hth : s.threads l.1 with ⟨todo,pc⟩
  cases pc with
  | idle =>
    cases todo with
    | nil => exact .done hth
    | cons upd todo =>
      simp only
      cases hv : s.dsuValid with
      | false => exact .skip hth hv
      | true => exact .enter hth hv
  | lock upd =>
    simp only
    split
    · next hfree => exact .lock hth hfree
    · exact .blocked hth
  | merge upd pc =>
    simp only
    rcases hstep : pc.step priority s.parent l.2 with ⟨parent,pc' | m⟩
    · exact .search hth hstep
    · cases m with
      | true => exact .linked hth hstep
      | false => exact .related hth hstep
  | insert upd => exact .insert hth
  | find upd =>
    simp only
    split
    · next hmem => exact .hit hth hmem
    · next hmem => exact .miss hth hmem
  | invalidate upd => exact .invalidate hth
  | invalidateShared upd => exact .invalidateShared hth
  | unlock upd => exact .unlock hth

def InsertPc.holds : InsertPc n → Option (Fin n)
  | .idle | .lock _ => none
  | .merge upd _ | .insert upd | .find upd | .invalidate upd | .invalidateShared upd |
    .unlock upd => some upd.src

def InsertPc.Good (priority : Fin n → ℕ) (parent : Fin n → Fin n) : InsertPc n → Prop
  | .merge upd pc => PcInv priority parent (.merge upd.src upd.dst) pc
  | .find upd => root parent upd.src = root parent upd.dst
  | .idle | .lock _ | .insert _ | .invalidate _ | .invalidateShared _ | .unlock _ => True

def InsertPc.Inserting (x y : Fin n) (pc : InsertPc n) : Prop :=
  ∃ upd, pc = .insert upd ∧ upd.src = x ∧ upd.dst = y

def InsertPc.Failing (pc : InsertPc n) : Prop := ∃ upd, pc = .invalidate upd

def InsertPc.Closing (pc : InsertPc n) : Prop := ∃ upd, pc = .invalidateShared upd

theorem InsertPc.Good.evolves {priority : Fin n → ℕ} {parent parent' : Fin n → Fin n}
    (he : Evolves parent parent') {pc : InsertPc n} (h : pc.Good priority parent) :
    pc.Good priority parent' := by
  cases pc with
  | merge upd pc =>
    have hpc : PcInv priority parent (.merge upd.src upd.dst) pc := h
    exact hpc.evolves he
  | find upd => exact he.classes _ _ h
  | idle | lock | insert | invalidate | invalidateShared | unlock => trivial

section Threads

variable {threads : Fin k → Thread n} {t : Fin k} {todo : List (GraphUpdate n)}
  {pc pc' : InsertPc n}

theorem exists_thread {f : InsertPc n → Prop} (hth : (threads t).pc = pc) :
    (∃ u, f (threads u).pc) ↔ f pc ∨ ∃ u, u ≠ t ∧ f (threads u).pc := by
  constructor
  · rintro ⟨u,hu⟩
    by_cases hut : u = t
    · exact .inl (hth ▸ hut ▸ hu)
    · exact .inr ⟨u,hut,hu⟩
  · rintro (h | ⟨u,_,hu⟩)
    · exact ⟨t,hth.symm ▸ h⟩
    · exact ⟨u,hu⟩

theorem exists_update {f : InsertPc n → Prop} :
    (∃ u, f (Function.update threads t ⟨todo,pc'⟩ u).pc) ↔
      f pc' ∨ ∃ u, u ≠ t ∧ f (threads u).pc := by
  rw [exists_thread (congrArg Thread.pc (Function.update_self t ⟨todo,pc'⟩ threads))]
  refine or_congr_right (exists_congr fun u => and_congr_right fun hu => ?_)
  rw [Function.update_of_ne hu]

theorem exists_update_iff (hth : (threads t).pc = pc) {f : InsertPc n → Prop} (hf : f pc' ↔ f pc) :
    (∃ u, f (Function.update threads t ⟨todo,pc'⟩ u).pc) ↔ ∃ u, f (threads u).pc := by
  rw [exists_update,exists_thread hth,hf]

theorem good_update {priority : Fin n → ℕ} {parent parent' : Fin n → Fin n}
    (h : ∀ u, (threads u).pc.Good priority parent) (he : Evolves parent parent')
    (hpc : pc'.Good priority parent') (u : Fin k) :
    (Function.update threads t ⟨todo,pc'⟩ u).pc.Good priority parent' := by
  by_cases hu : u = t
  · subst hu
    rwa [Function.update_self]
  · rw [Function.update_of_ne hu]
    exact (h u).evolves he

end Threads

def Locked (mtx : Fin n → Option (Fin k)) (threads : Fin k → Thread n) : Prop :=
  ∀ x t, mtx x = some t ↔ (threads t).pc.holds = some x

section Locks

variable {mtx : Fin n → Option (Fin k)} {threads : Fin k → Thread n} {t : Fin k}
  {todo : List (GraphUpdate n)} {pc pc' : InsertPc n}

theorem Locked.same (h : Locked mtx threads) (hth : (threads t).pc = pc)
    (hpc : pc'.holds = pc.holds) : Locked mtx (Function.update threads t ⟨todo,pc'⟩) := by
  intro x u
  rw [h x u]
  by_cases hu : u = t
  · subst hu
    rw [Function.update_self,hth,hpc]
  · rw [Function.update_of_ne hu]

theorem Locked.acquire (h : Locked mtx threads) {x : Fin n} (hfree : mtx x = none)
    (hth : (threads t).pc = pc) (hpc : pc.holds = none) (hpc' : pc'.holds = some x) :
    Locked (Function.update mtx x (some t)) (Function.update threads t ⟨todo,pc'⟩) := by
  intro y u
  have hy := h y u
  by_cases hu : u = t
  · subst hu
    rw [hth,hpc] at hy
    by_cases hxy : y = x
    · subst hxy
      simp [hpc']
    · simp [Function.update_of_ne hxy,hpc',hy,Ne.symm hxy]
  · by_cases hxy : y = x
    · subst hxy
      simp only [hfree,reduceCtorEq,false_iff] at hy
      simp [Function.update_of_ne hu,hy,Ne.symm hu]
    · simp only [Function.update_of_ne hu,Function.update_of_ne hxy]
      exact hy

theorem Locked.release (h : Locked mtx threads) {x : Fin n} (hth : (threads t).pc = pc)
    (hpc : pc.holds = some x) (hpc' : pc'.holds = none) :
    Locked (Function.update mtx x none) (Function.update threads t ⟨todo,pc'⟩) := by
  have hx : mtx x = some t := (h x t).mpr (hth ▸ hpc)
  intro y u
  have hy := h y u
  by_cases hu : u = t
  · subst hu
    rw [hth,hpc] at hy
    by_cases hxy : y = x
    · subst hxy
      simp [hpc']
    · simp [Function.update_of_ne hxy,hpc',hy,Ne.symm hxy]
  · by_cases hxy : y = x
    · subst hxy
      rw [hx] at hy
      simp only [Function.update_self,Function.update_of_ne hu,← hy]
      simp [Ne.symm hu]
    · simp only [Function.update_of_ne hu,Function.update_of_ne hxy]
      exact hy

theorem Locked.exclusive (h : Locked mtx threads) {u : Fin k} {x : Fin n}
    (ht : (threads t).pc.holds = some x) (hu : (threads u).pc.holds = some x) : t = u :=
  Option.some.inj (((h x t).mpr ht).symm.trans ((h x u).mpr hu))

end Locks

structure Inv (priority : Fin n → ℕ) (s : State n k) : Prop where
  climbs : Climbs (Below priority) s.parent
  pcs : ∀ t, (s.threads t).pc.Good priority s.parent
  locks : Locked s.spanningForestMtx s.threads
  closing : (∃ t, (s.threads t).pc.Closing) → s.dsuValid = false
  shared : s.sharedDsuValid = false → s.dsuValid = false
  closed : s.dsuValid = false → s.sharedDsuValid = false ∨ ∃ t, (s.threads t).pc.Closing

section Invariant

variable {priority : Fin n → ℕ} {s s' : State n k} {t : Fin k}
  {o : Option (Fin k × GraphUpdate n)}

theorem inv_start {a : CCSketchAlg n w p} (ha : a.sharedDsuValid = a.dsuValid)
    (programs : Fin k → List (GraphUpdate n)) :
    Inv a.query.dsu.priority (State.start a programs) where
  climbs := a.query.dsu.climbs
  pcs _ := trivial
  locks x t := by simp [State.start,InsertPc.holds]
  closing h := by
    obtain ⟨t,upd,h⟩ := h
    cases h
  shared h := ha.symm.trans h
  closed h := .inl (ha.trans h)

-- The flags stay as they are when no thread enters or leaves invalidateShared.
theorem Inv.threads (h : Inv priority s) {parent : Fin n → Fin n} {todo : List (GraphUpdate n)}
    {pc pc' : InsertPc n} {mtx : Fin n → Option (Fin k)} {sf : Fin n → Finset (Fin n)}
    (hclimbs : Climbs (Below priority) parent) (he : Evolves s.parent parent)
    (hth : (s.threads t).pc = pc) (hpc : pc'.Good priority parent)
    (hlocks : Locked mtx (Function.update s.threads t ⟨todo,pc'⟩))
    (hclose : pc'.Closing ↔ pc.Closing) :
    Inv priority { s.goto t todo pc' with
      parent := parent,spanningForest := sf,spanningForestMtx := mtx } where
  climbs := hclimbs
  pcs := good_update h.pcs he hpc
  locks := hlocks
  closing hc := h.closing ((exists_update_iff hth hclose).mp hc)
  shared := h.shared
  closed hv := (h.closed hv).imp_right (exists_update_iff hth hclose).mpr

theorem Inv.merge_spec (h : Inv priority s) {upd : GraphUpdate n} {todo : List (GraphUpdate n)}
    {pc : Pc n} {c : Bool} {out : (Fin n → Fin n) × Out n} (hth : s.threads t = ⟨todo,.merge upd pc⟩)
    (hstep : pc.step priority s.parent c = out) :
    StepSpec priority s.parent (.merge upd.src upd.dst) out := by
  have hgood := h.pcs t
  rw [hth] at hgood
  have hpc : PcInv priority s.parent (.merge upd.src upd.dst) pc := hgood
  exact hstep ▸ pcStep_spec h.climbs c hpc

theorem Inv.move (h : Inv priority s) (hm : Move priority s t o s') : Inv priority s' := by
  have hrefl := Evolves.refl s.parent
  cases hm with
  | done | blocked => exact h
  | skip hth hv =>
    exact h.threads h.climbs hrefl (congrArg Thread.pc hth) trivial
      (h.locks.same (congrArg Thread.pc hth) rfl) (by simp [InsertPc.Closing])
  | enter hth hv =>
    exact h.threads h.climbs hrefl (congrArg Thread.pc hth) trivial
      (h.locks.same (congrArg Thread.pc hth) rfl) (by simp [InsertPc.Closing])
  | lock hth hfree =>
    exact h.threads h.climbs hrefl (congrArg Thread.pc hth) (pcInv_start priority s.parent (.merge _ _))
      (h.locks.acquire hfree (congrArg Thread.pc hth) rfl rfl) (by simp [InsertPc.Closing])
  | search hth hstep =>
    cases h.merge_spec hth hstep with
    | next hq hpc =>
      exact h.threads (hq.climbs h.climbs) (hq.evolves h.climbs) (congrArg Thread.pc hth) hpc
        (h.locks.same (congrArg Thread.pc hth) rfl) (by simp [InsertPc.Closing])
  | linked hth hstep =>
    cases h.merge_spec hth hstep with
    | linked hc hy hb hm =>
      exact h.threads (climbs_update h.climbs hb) (linked_evolves h.climbs hy hb)
        (congrArg Thread.pc hth) trivial (h.locks.same (congrArg Thread.pc hth) rfl)
        (by simp [InsertPc.Closing])
  | related hth hstep =>
    cases h.merge_spec hth hstep with
    | returned hq hr =>
      exact h.threads (hq.climbs h.climbs) (hq.evolves h.climbs) (congrArg Thread.pc hth)
        (hr _ _ rfl) (h.locks.same (congrArg Thread.pc hth) rfl) (by simp [InsertPc.Closing])
  | insert hth =>
    exact h.threads h.climbs hrefl (congrArg Thread.pc hth) trivial
      (h.locks.same (congrArg Thread.pc hth) rfl) (by simp [InsertPc.Closing])
  | hit hth hmem =>
    exact h.threads h.climbs hrefl (congrArg Thread.pc hth) trivial
      (h.locks.same (congrArg Thread.pc hth) rfl) (by simp [InsertPc.Closing])
  | miss hth hmem =>
    exact h.threads h.climbs hrefl (congrArg Thread.pc hth) trivial
      (h.locks.same (congrArg Thread.pc hth) rfl) (by simp [InsertPc.Closing])
  | @invalidate upd todo hth =>
    have hclose : ∃ u, (Function.update s.threads t ⟨todo,.invalidateShared upd⟩ u).pc.Closing :=
      exists_update.mpr (.inl ⟨upd,rfl⟩)
    exact ⟨h.climbs,good_update h.pcs hrefl trivial,h.locks.same (congrArg Thread.pc hth) rfl,
      fun _ => rfl,fun _ => rfl,fun _ => .inr hclose⟩
  | @invalidateShared upd todo hth =>
    have hv : s.dsuValid = false := h.closing ⟨t,upd,congrArg Thread.pc hth⟩
    exact ⟨h.climbs,good_update h.pcs hrefl trivial,h.locks.same (congrArg Thread.pc hth) rfl,
      fun _ => hv,fun _ => hv,fun _ => .inl rfl⟩
  | unlock hth =>
    exact h.threads h.climbs hrefl (congrArg Thread.pc hth) trivial
      (h.locks.release (congrArg Thread.pc hth) rfl rfl) (by simp [InsertPc.Closing])

theorem Inv.run (h : Inv priority s) (sched : List (Fin k × Bool)) :
    Inv priority (s.run priority sched) :=
  List.foldlRecOn sched _ h fun _ h l _ => h.move (step_moves priority _ l)

end Invariant

end StreamThreads
end GraphZeppelin.CC
