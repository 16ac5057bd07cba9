import GraphZeppelin.Dsu.ConcurrentSpec

namespace GraphZeppelin.Dsu.Concurrent
open PointerForest SpanningForest SimpleGraph

variable {n k : ℕ} {priority : Fin n → ℕ}

structure Return (n k : ℕ) where
  thread : Fin k
  call : Call n
  merged : Bool
deriving DecidableEq

def State.returning (priority : Fin n → ℕ) (s : State n k) (l : Fin k × Bool) :
    Option (Return n k) :=
  match (s.threads l.1).cur with
  | none => none
  | some (call,pc) => match pc.step priority s.parent l.2 with
    | (_,.next _) => none
    | (_,.returned m) => some ⟨l.1,call,m⟩

def returns (priority : Fin n → ℕ) : State n k → List (Fin k × Bool) → List (Return n k)
  | _, [] => []
  | s, l :: sched =>
    (s.returning priority l).toList ++ returns priority (s.step priority l) sched

def Call.apply (d : DisjointSetUnionMT n) : Call n → DisjointSetUnionMT n × Bool
  | .findRoot u => ((d.findRoot u).1,false)
  | .merge a b => ((d.merge a b).1,(d.merge a b).2.merged)

def replay : DisjointSetUnionMT n → List (Call n) → DisjointSetUnionMT n × List Bool
  | d, [] => (d,[])
  | d, call :: calls =>
    ((replay (call.apply d).1 calls).1,(call.apply d).2 :: (replay (call.apply d).1 calls).2)

section Agreement

variable {programs : Fin k → List (Call n)} {s : State n k} {d : DisjointSetUnionMT n}

theorem apply_unlinked {es : List (Fin n × Fin n)} (hd : d.Represents (pairGraph es))
    {call : Call n} (h : ∀ a b, call = .merge a b → (pairGraph es).Reachable a b) :
    (call.apply d).2 = false ∧ (call.apply d).1.Represents (pairGraph es) := by
  cases call with
  | findRoot u => exact ⟨rfl,hd.findRoot u⟩
  | merge a b =>
    rcases d.merge_cases a b with ⟨_,hm,hrep⟩ | ⟨hne,_⟩
    · exact ⟨congrArg DSUMergeRet.merged hm,fun x y => (by
        rw [Call.apply,hrep,hrep]
        exact hd x y)⟩
    · exact absurd ((hd a b).mpr (h a b rfl)) hne

theorem apply_linked {es : List (Fin n × Fin n)} (hd : d.Represents (pairGraph es))
    {a b : Fin n} (h : ¬ (pairGraph es).Reachable a b) :
    ((Call.merge a b).apply d).2 = true ∧
      ((Call.merge a b).apply d).1.Represents (pairGraph ((a,b) :: es)) :=
  ⟨(hd.merged_iff a b).mpr h,hd.merge a b⟩

theorem returning_spec (h : Inv priority programs s) (hd : d.Represents (pairGraph s.merged))
    (l : Fin k × Bool) : match s.returning priority l with
      | none => (s.step priority l).merged = s.merged
      | some r => (r.call.apply d).2 = r.merged ∧
          (r.call.apply d).1.Represents (pairGraph (s.step priority l).merged) := by
  have ht := h.threads l.1
  unfold State.returning State.step
  rcases hth : s.threads l.1 with ⟨todo,cur⟩
  rw [hth] at ht
  rcases cur with _ | ⟨call,pc⟩
  · cases todo <;> rfl
  · have hspec := pcStep_spec h.trees.climbs l.2 (ht.pc call pc rfl)
    simp only
    generalize pc.step priority s.parent l.2 = out at hspec
    cases hspec with
    | next hq hpc => rfl
    | returned hq hm =>
      have hrec : recordMerge call false s.merged = s.merged := by cases call <;> rfl
      simp only [hrec]
      exact apply_unlinked hd fun a b he => ((h.trees.quiet hq).classes a b).mp (hm a b he)
    | @linked a b x y hc hy hb hm =>
      subst hc
      refine apply_linked hd fun hr => ?_
      exact not_matches_of_below h.trees.climbs hy hb hm ((h.trees.classes a b).mpr hr)

theorem replay_returns (h : Inv priority programs s) (hd : d.Represents (pairGraph s.merged))
    (sched : List (Fin k × Bool)) :
    (replay d ((returns priority s sched).map Return.call)).2 =
        (returns priority s sched).map Return.merged ∧
      (replay d ((returns priority s sched).map Return.call)).1.Represents
        (pairGraph (sched.foldl (State.step priority) s).merged) := by
  induction sched generalizing s d with
  | nil => exact ⟨rfl,hd⟩
  | cons l sched ih =>
    have hspec := returning_spec h hd l
    rw [returns,List.foldl_cons]
    cases hr : s.returning priority l with
    | none =>
      simp only [hr] at hspec
      exact ih (step_inv h l) (hspec ▸ hd)
    | some r =>
      simp only [hr] at hspec
      obtain ⟨hm,hd'⟩ := ih (step_inv h l) hspec.2
      exact ⟨congrArg₂ List.cons hspec.1 hm,hd'⟩

end Agreement

section Order

def Thread.remaining (th : Thread n) : List (Call n) :=
  (th.cur.map Prod.fst).toList ++ th.todo

def ownCalls (t : Fin k) (rs : List (Return n k)) : List (Call n) :=
  (rs.filter fun r => r.thread = t).map Return.call

theorem ownCalls_append (t : Fin k) (rs rs' : List (Return n k)) :
    ownCalls t (rs ++ rs') = ownCalls t rs ++ ownCalls t rs' := by
  rw [ownCalls,List.filter_append,List.map_append]
  rfl

theorem remaining_step (s : State n k) (l : Fin k × Bool) (t : Fin k) :
    ownCalls t (s.returning priority l).toList ++ ((s.step priority l).threads t).remaining =
      (s.threads t).remaining := by
  unfold State.returning State.step
  rcases hth : s.threads l.1 with ⟨todo,cur⟩
  by_cases ht : t = l.1
  · subst ht
    rw [hth]
    rcases cur with _ | ⟨call,pc⟩
    · rcases todo with _ | ⟨call,rest⟩
      · simp [ownCalls,hth]
      · simp [ownCalls,Thread.remaining]
    · simp only
      rcases pc.step priority s.parent l.2 with ⟨p',pc' | m⟩
      · simp [ownCalls,Thread.remaining]
      · simp [ownCalls,Thread.remaining]
  · have ht' : l.1 ≠ t := fun e => ht e.symm
    rcases cur with _ | ⟨call,pc⟩
    · rcases todo with _ | ⟨call,rest⟩
      · simp [ownCalls]
      · simp [ownCalls,ht]
    · simp only
      rcases pc.step priority s.parent l.2 with ⟨p',pc' | m⟩
      · simp [ownCalls,ht]
      · simp [ownCalls,ht,ht']

theorem remaining_run (s : State n k) (sched : List (Fin k × Bool)) (t : Fin k) :
    ownCalls t (returns priority s sched) ++
      ((sched.foldl (State.step priority) s).threads t).remaining = (s.threads t).remaining := by
  induction sched generalizing s with
  | nil => rfl
  | cons l sched ih =>
    rw [returns,ownCalls_append,List.foldl_cons,List.append_assoc,ih]
    exact remaining_step s l t

end Order

-- A call whose thread runs alone: no spurious failure, no other thread in between.
inductive FindSolo : (Fin n → Fin n) → FindPc n → (Fin n → Fin n) → Fin n → Prop
  | returned {p p' : Fin n → Fin n} {f : FindPc n} {v : Fin n} :
      f.step p false = (p',.returned v) → FindSolo p f p' v
  | next {p p₁ p' : Fin n → Fin n} {f f₁ : FindPc n} {v : Fin n} :
      f.step p false = (p₁,.next f₁) → FindSolo p₁ f₁ p' v → FindSolo p f p' v

inductive Finishes (priority : Fin n → ℕ) : (Fin n → Fin n) → Pc n → Prop
  | returned {p p' : Fin n → Fin n} {pc : Pc n} {m : Bool} :
      pc.step priority p false = (p',.returned m) → Finishes priority p pc
  | next {p p' : Fin n → Fin n} {pc pc' : Pc n} :
      pc.step priority p false = (p',.next pc') → Finishes priority p' pc' →
      Finishes priority p pc

structure Settled (priority : Fin n → ℕ) (p p' : Fin n → Fin n) : Prop where
  climbs : Climbs (Below priority) p'
  fixed : ∀ x, p x = x → p' x = x

namespace FindSolo

variable {p : Fin n → Fin n}

theorem settled_store (hp : Climbs (Below priority) p) {u q : Fin n} (hu : p u ≠ u)
    (hq : Below priority u q) : Settled priority p (Function.update p u q) := by
  refine ⟨climbs_update hp hq,fun x hx => ?_⟩
  have hne : x ≠ u := fun e => hu (e ▸ hx)
  rwa [Function.update_of_ne hne]

theorem of_test {u : Fin n} {p' : Fin n → Fin n} {v : Fin n}
    (h : FindSolo p (if p (p u) = p u then .ret u else .loadParent u) p' v) :
    FindSolo p (.start u) p' v :=
  .next rfl (.next rfl (.next rfl (.next rfl h)))

theorem start (hp : Climbs (Below priority) p) (u : Fin n) :
    ∃ p' v, FindSolo p (.start u) p' v ∧ Settled priority p p' ∧ p' v = v := by
  induction hc : {z | Below priority u z}.ncard using Nat.strong_induction_on
    generalizing p u with
  | _ c ih =>
    by_cases hroot : p (p u) = p u
    · refine ⟨p,p u,of_test ?_,⟨hp,fun _ h => h⟩,hroot⟩
      rw [if_pos hroot]
      exact .returned rfl
    · have hu : p u ≠ u := fun e => hroot (congrArg p e)
      have hq : Below priority u (p (p u)) := parent_above hp (hp u hu)
      have hset := settled_store hp hu hq
      obtain ⟨p',v,hrun,hs,hv⟩ := ih _ (hc ▸ ncard_above_lt hq) hset.climbs (p (p u)) rfl
      refine ⟨p',v,of_test ?_,⟨hs.climbs,fun x hx => hs.fixed x (hset.fixed x hx)⟩,hv⟩
      rw [if_neg hroot]
      refine .next rfl (.next rfl (.next rfl (.next ?_ hrun)))
      simp only [FindPc.step,Function.update_self]

theorem of_step {f f₁ : FindPc n} {p₁ : Fin n → Fin n} (hstep : f.step p false = (p₁,.next f₁))
    (hs : Settled priority p p₁)
    (h : ∃ p' v, FindSolo p₁ f₁ p' v ∧ Settled priority p₁ p') :
    ∃ p' v, FindSolo p f p' v ∧ Settled priority p p' := by
  obtain ⟨p',v,hrun,hs'⟩ := h
  exact ⟨p',v,.next hstep hrun,hs'.climbs,fun x hx => hs'.fixed x (hs.fixed x hx)⟩

theorem ret (hp : Climbs (Below priority) p) (u : Fin n) :
    ∃ p' v, FindSolo p (.ret u) p' v ∧ Settled priority p p' :=
  ⟨p,p u,.returned rfl,hp,fun _ h => h⟩

theorem advance (hp : Climbs (Below priority) p) (u : Fin n) :
    ∃ p' v, FindSolo p (.advance u) p' v ∧ Settled priority p p' := by
  obtain ⟨p',v,hrun,hs,_⟩ := start hp (p u)
  exact ⟨p',v,.next rfl hrun,hs⟩

theorem store (hp : Climbs (Below priority) p) {u q : Fin n} (hu : p u ≠ u)
    (hq : Below priority u q) :
    ∃ p' v, FindSolo p (.store u q) p' v ∧ Settled priority p p' :=
  of_step rfl (settled_store hp hu hq) (advance (settled_store hp hu hq).climbs u)

theorem loadGrandparent (hp : Climbs (Below priority) p) {u x : Fin n} (hu : p u ≠ u)
    (hx : Below priority u x) :
    ∃ p' v, FindSolo p (.loadGrandparent u x) p' v ∧ Settled priority p p' :=
  of_step rfl ⟨hp,fun _ h => h⟩ (store hp hu (parent_above hp hx))

theorem loadParent (hp : Climbs (Below priority) p) {u : Fin n} (hu : p u ≠ u) :
    ∃ p' v, FindSolo p (.loadParent u) p' v ∧ Settled priority p p' :=
  of_step rfl ⟨hp,fun _ h => h⟩ (loadGrandparent hp hu (hp u hu))

theorem test_value (hp : Climbs (Below priority) p) {o u y z : Fin n}
    (h : FindInv priority p o (.test u (.value y) (some z))) :
    ∃ p' v, FindSolo p (.test u (.value y) (some z)) p' v ∧ Settled priority p p' := by
  have hnext := (findStep_spec hp false h).2
  refine of_step rfl ⟨hp,fun _ h => h⟩ ?_
  simp only [FindPc.step] at hnext
  split at hnext
  · next hyz =>
    rw [if_pos hyz]
    exact ret hp u
  · next hyz =>
    rw [if_neg hyz]
    exact loadParent hp hnext.2

theorem test_right (hp : Climbs (Below priority) p) {o u z : Fin n} {lhs : Operand n}
    (h : FindInv priority p o (.test u lhs (some z))) :
    ∃ p' v, FindSolo p (.test u lhs (some z)) p' v ∧ Settled priority p p' := by
  have hid : Settled priority p p := ⟨hp,fun _ h => h⟩
  cases lhs with
  | value y => exact test_value hp h
  | inner x => exact of_step rfl hid (test_value hp (findInv_test_load h))
  | unread =>
    exact of_step rfl hid
      (of_step rfl hid (test_value hp (findInv_test_load (findInv_test_load h))))

theorem exists_of_inv (hp : Climbs (Below priority) p) {o : Fin n} {f : FindPc n}
    (h : FindInv priority p o f) : ∃ p' v, FindSolo p f p' v ∧ Settled priority p p' := by
  have hid : Settled priority p p := ⟨hp,fun _ h => h⟩
  cases f with
  | test u lhs rhs =>
    cases rhs with
    | some z => exact test_right hp h
    | none =>
      have hright := test_right hp (findInv_test_right h)
      cases lhs with
      | unread => exact of_step rfl hid hright
      | inner x => exact of_step rfl hid hright
      | value y => exact of_step rfl hid hright
  | loadParent u => exact loadParent hp h.2
  | loadGrandparent u x => exact loadGrandparent hp h.2.1 h.2.2.1
  | store u q => exact store hp h.2.1 h.2.2.1
  | advance u => exact advance hp u
  | ret u => exact ret hp u

end FindSolo

namespace Finishes

variable {p p' : Fin n → Fin n} {f : FindPc n} {v : Fin n}

theorem findRoot (h : FindSolo p f p' v) : Finishes priority p (.findRoot f) := by
  induction h with
  | returned hs => exact .returned (by rw [Pc.step,hs])
  | next hs _ ih => exact .next (by rw [Pc.step,hs]) ih

theorem mergeFirst {swapped : Bool} {other : Fin n} (h : FindSolo p f p' v)
    (hrest : Finishes priority p' (.mergeSecond swapped v (.start other))) :
    Finishes priority p (.mergeFirst swapped f other) := by
  induction h with
  | returned hs => exact .next (by rw [Pc.step,hs]) hrest
  | next hs _ ih => exact .next (by rw [Pc.step,hs]) (ih hrest)

theorem mergeSecond {swapped : Bool} {w : Fin n} (h : FindSolo p f p' v)
    (hcas : ∀ x y, (y = v ∨ y = w) → Finishes priority p' (.mergeCas x y)) :
    Finishes priority p (.mergeSecond swapped w f) := by
  induction h with
  | next hs _ ih => exact .next (by rw [Pc.step,hs]) (ih hcas)
  | @returned p p' f v hs =>
    have hcompare (a b : Fin n) (hab : a = v ∧ b = w ∨ a = w ∧ b = v)
        (hstep : (Pc.mergeSecond swapped w f).step priority p false =
          (p',compareRoots priority a b)) : Finishes priority p (.mergeSecond swapped w f) := by
      unfold compareRoots at hstep
      split at hstep
      · exact .returned hstep
      · next hne =>
        refine .next hstep (hcas _ _ ?_)
        rcases orderEdge_cases priority hne with ⟨he,_⟩ | ⟨he,_⟩ <;> rw [he]
        · exact hab.elim (fun h => .inr h.2) (fun h => .inl h.2)
        · exact hab.elim (fun h => .inl h.1) (fun h => .inr h.1)
    cases swapped
    · exact hcompare w v (.inr ⟨rfl,rfl⟩) (by rw [Pc.step,hs]; rfl)
    · exact hcompare v w (.inl ⟨rfl,rfl⟩) (by rw [Pc.step,hs]; rfl)

theorem mergeCas_fixed {x y : Fin n} (hy : p y = y) : Finishes priority p (.mergeCas x y) :=
  .returned (by rw [Pc.step,if_pos ⟨hy,rfl⟩])

theorem mergeHead (hp : Climbs (Below priority) p) (a b : Fin n) :
    Finishes priority p (.mergeHead a b) := by
  obtain ⟨p₁,v,hfirst,hs₁,hv⟩ := FindSolo.start hp a
  obtain ⟨p₂,w,hsecond,hs₂,hw⟩ := FindSolo.start hs₁.climbs b
  refine .next rfl (mergeFirst hfirst (mergeSecond hsecond fun x y hy => mergeCas_fixed ?_))
  rcases hy with rfl | rfl
  · exact hw
  · exact hs₂.fixed _ hv

theorem mergeCas (hp : Climbs (Below priority) p) (x y : Fin n) :
    Finishes priority p (.mergeCas x y) := by
  by_cases hy : p y = y
  · exact mergeCas_fixed hy
  · have hstep : (Pc.mergeCas x y).step priority p false = (p,.next (.mergeHead x (p y))) := by
      rw [Pc.step,if_neg fun h => hy h.1]
    exact .next hstep (mergeHead hp x (p y))

theorem of_inv (hp : Climbs (Below priority) p) {call : Call n} {pc : Pc n}
    (h : PcInv priority p call pc) : Finishes priority p pc := by
  cases call with
  | findRoot u =>
    cases pc with
    | findRoot f =>
      obtain ⟨p',v,hrun,_⟩ := FindSolo.exists_of_inv hp h
      exact findRoot hrun
    | mergeHead | mergeFirst | mergeSecond | mergeCas => exact h.elim
  | merge a b =>
    cases pc with
    | findRoot f => exact h.elim
    | mergeHead x y => exact mergeHead hp x y
    | mergeFirst swapped f y =>
      obtain ⟨o,hf,_⟩ := h
      obtain ⟨p₁,v,hfirst,hs₁⟩ := FindSolo.exists_of_inv hp hf
      obtain ⟨p₂,w,hsecond,hs₂,_⟩ := FindSolo.start hs₁.climbs y
      exact mergeFirst hfirst (mergeSecond hsecond fun x y _ => mergeCas hs₂.climbs x y)
    | mergeSecond swapped x f =>
      obtain ⟨o,hf,_⟩ := h
      obtain ⟨p₁,v,hsecond,hs₁⟩ := FindSolo.exists_of_inv hp hf
      exact mergeSecond hsecond fun x y _ => mergeCas hs₁.climbs x y
    | mergeCas x y => exact mergeCas hp x y

theorem step_next {s : State n k} {t : Fin k} {c : Bool} {call : Call n} {pc pc' : Pc n}
    (hcur : (s.threads t).cur = some (call,pc))
    (hstep : pc.step priority s.parent c = (p',.next pc')) :
    (s.step priority (t,c)).parent = p' ∧
      ((s.step priority (t,c)).threads t).cur = some (call,pc') := by
  unfold State.step
  rcases hth : s.threads t with ⟨todo,cur⟩
  rw [hth] at hcur
  cases hcur
  simp only [hstep]
  exact ⟨trivial,by rw [Function.update_self]⟩

theorem returns_alone {pc : Pc n} (h : Finishes priority p pc) {s : State n k} {t : Fin k}
    {call : Call n} (hp : s.parent = p) (hcur : (s.threads t).cur = some (call,pc)) :
    ∃ m merged, returns priority s (List.replicate m (t,false)) = [⟨t,call,merged⟩] := by
  induction h generalizing s with
  | @returned p p' pc m hstep =>
    subst hp
    refine ⟨1,m,?_⟩
    simp only [List.replicate_one,returns,State.returning,hcur,hstep]
    rfl
  | @next p p' pc pc' hstep _ ih =>
    subst hp
    obtain ⟨hp',hcur'⟩ := step_next hcur hstep
    obtain ⟨m,merged,hrest⟩ := ih hp' hcur'
    refine ⟨m + 1,merged,?_⟩
    rw [List.replicate_succ,returns,hrest]
    simp only [State.returning,hcur,hstep]
    rfl

end Finishes

end GraphZeppelin.Dsu.Concurrent
