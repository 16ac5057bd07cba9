import GraphZeppelin.Dsu.Concurrent

namespace GraphZeppelin.Dsu.Concurrent
open PointerForest SpanningForest SimpleGraph

variable {n k : ℕ} {priority : Fin n → ℕ}

structure TreesInv (priority : Fin n → ℕ) (p : Fin n → Fin n) (es : List (Fin n × Fin n)) :
    Prop where
  climbs : Climbs (Below priority) p
  classes : ∀ x y, root p x = root p y ↔ (pairGraph es).Reachable x y
  acyclic : (pairGraph es).IsAcyclic
  count : es.length + {x | p x = x}.ncard = n

theorem treesInv_init (priority : Fin n → ℕ) : TreesInv priority id [] where
  climbs _ hx := absurd rfl hx
  classes x y := by simp [pairGraph,root_of_fixed]
  acyclic := isAcyclic_bot
  count := by simp

theorem TreesInv.quiet {p p' : Fin n → Fin n} {es : List (Fin n × Fin n)}
    (h : TreesInv priority p es) (hq : Quiet priority p p') : TreesInv priority p' es where
  climbs := hq.climbs h.climbs
  classes x y := by rw [hq.root_eq h.climbs,hq.root_eq h.climbs]; exact h.classes x y
  acyclic := h.acyclic
  count := by simpa only [hq.fixed_iff h.climbs] using h.count

theorem not_matches_of_below {p : Fin n → Fin n} (hp : Climbs (Below priority) p)
    {a b x y : Fin n} (hy : p y = y) (hb : Below priority y x) (hm : Matches p x y a b) :
    root p a ≠ root p b := by
  have hxy : root p x ≠ root p y := by
    rw [root_of_fixed hy]
    exact ne_of_above (root_above hp hb)
  intro he
  rcases hm with ⟨hx,hy'⟩ | ⟨hx,hy'⟩
  · exact hxy (by rw [hx,he,hy'])
  · exact hxy (by rw [hx,← he,hy'])

theorem ncard_fixed_link {p : Fin n → Fin n} {x y : Fin n} (hy : p y = y)
    (hb : Below priority y x) :
    {z | Function.update p y x z = z}.ncard + 1 = {z | p z = z}.ncard := by
  have hset : {z | Function.update p y x z = z} = {z | p z = z} \ {y} := by
    ext z
    by_cases hz : z = y
    · subst hz
      simp [ne_of_above hb]
    · simp [hz]
  rw [hset]
  exact Set.ncard_sdiff_singleton_add_one (show y ∈ {z | p z = z} from hy) (Set.toFinite _)

theorem TreesInv.linked {p : Fin n → Fin n} {es : List (Fin n × Fin n)}
    (h : TreesInv priority p es) {a b x y : Fin n} (hy : p y = y) (hb : Below priority y x)
    (hm : Matches p x y a b) : TreesInv priority (Function.update p y x) ((a,b) :: es) where
  climbs := climbs_update h.climbs hb
  classes u v := by
    rw [root_link_eq_iff h.climbs hy hb,pairGraph,reachable_sup_edge,← h.classes,← h.classes,
      ← h.classes,← h.classes,← h.classes]
    have hry := root_of_fixed hy
    rcases hm with ⟨hx',hy'⟩ | ⟨hx',hy'⟩
    · rw [hry] at hy'
      rw [hx',hy']
      constructor
      · rintro (he | ⟨hu,hv⟩ | ⟨hu,hv⟩)
        · exact .inl he
        · exact .inr (.inr ⟨hu,hv.symm⟩)
        · exact .inr (.inl ⟨hu,hv.symm⟩)
      · rintro (he | ⟨hu,hv⟩ | ⟨hu,hv⟩)
        · exact .inl he
        · exact .inr (.inr ⟨hu,hv.symm⟩)
        · exact .inr (.inl ⟨hu,hv.symm⟩)
    · rw [hry] at hy'
      rw [hx',hy']
      constructor
      · rintro (he | ⟨hu,hv⟩ | ⟨hu,hv⟩)
        · exact .inl he
        · exact .inr (.inl ⟨hu,hv.symm⟩)
        · exact .inr (.inr ⟨hu,hv.symm⟩)
      · rintro (he | ⟨hu,hv⟩ | ⟨hu,hv⟩)
        · exact .inl he
        · exact .inr (.inl ⟨hu,hv.symm⟩)
        · exact .inr (.inr ⟨hu,hv.symm⟩)
  acyclic := by
    refine h.acyclic.sup_edge_of_not_reachable fun hr => ?_
    exact not_matches_of_below h.climbs hy hb hm ((h.classes a b).mpr hr)
  count := by
    have hc := h.count
    have hl := ncard_fixed_link hy hb
    simp only [List.length_cons]
    omega

theorem linked_evolves {p : Fin n → Fin n} (hp : Climbs (Below priority) p) {x y : Fin n}
    (hy : p y = y) (hb : Below priority y x) : Evolves p (Function.update p y x) where
  fixed z hz := by
    by_cases hzy : z = y
    · rwa [hzy]
    · rwa [Function.update_of_ne hzy] at hz
  classes u v huv := (root_link_eq_iff hp hy hb u v).mpr (.inl huv)

def Thread.Pending (th : Thread n) (call : Call n) : Prop :=
  call ∈ th.todo ∨ ∃ pc, th.cur = some (call,pc)

structure ThreadInv (priority : Fin n → ℕ) (p : Fin n → Fin n) (program : List (Call n))
    (th : Thread n) : Prop where
  pc : ∀ call pc, th.cur = some (call,pc) → PcInv priority p call pc
  own : ∀ call, th.Pending call → call ∈ program
  done : ∀ a b, Call.merge a b ∈ program →
    root p a = root p b ∨ th.Pending (.merge a b)

theorem threadInv_init (priority : Fin n → ℕ) (p : Fin n → Fin n) (program : List (Call n)) :
    ThreadInv priority p program ⟨program,none⟩ where
  pc _ _ h := by cases h
  own call h := h.elim id (fun ⟨_,h⟩ => by cases h)
  done a b h := .inr (.inl h)

theorem ThreadInv.evolves {p p' : Fin n → Fin n} {program : List (Call n)} {th : Thread n}
    (h : ThreadInv priority p program th) (he : Evolves p p') :
    ThreadInv priority p' program th where
  pc call pc hc := (h.pc call pc hc).evolves he
  own := h.own
  done a b hab := (h.done a b hab).imp (he.classes a b) id

theorem ThreadInv.begin {p : Fin n → Fin n} {program rest : List (Call n)} {call : Call n}
    (h : ThreadInv priority p program ⟨call :: rest,none⟩) :
    ThreadInv priority p program ⟨rest,some (call,call.start)⟩ where
  pc c pc hc := by
    cases hc
    exact pcInv_start priority p call
  own c hc := by
    refine h.own c (.inl ?_)
    rcases hc with hc | ⟨pc,hc⟩
    · exact List.mem_cons_of_mem _ hc
    · cases hc
      exact List.mem_cons_self
  done a b hab := by
    refine (h.done a b hab).imp id fun hp => ?_
    rcases hp with hp | ⟨pc,hp⟩
    · rcases List.mem_cons.mp hp with rfl | hp
      · exact .inr ⟨_,rfl⟩
      · exact .inl hp
    · cases hp

theorem ThreadInv.next {p : Fin n → Fin n} {program rest : List (Call n)} {call : Call n}
    {pc pc' : Pc n} (h : ThreadInv priority p program ⟨rest,some (call,pc)⟩)
    (hpc : PcInv priority p call pc') : ThreadInv priority p program ⟨rest,some (call,pc')⟩ where
  pc c pc hc := by
    cases hc
    exact hpc
  own c hc := by
    refine h.own c (hc.imp id fun ⟨_,hc⟩ => ?_)
    cases hc
    exact ⟨pc,rfl⟩
  done a b hab := by
    refine (h.done a b hab).imp id fun hp => hp.imp id fun ⟨_,hp⟩ => ?_
    cases hp
    exact ⟨pc',rfl⟩

theorem ThreadInv.returned {p : Fin n → Fin n} {program rest : List (Call n)} {call : Call n}
    {pc : Pc n} (h : ThreadInv priority p program ⟨rest,some (call,pc)⟩)
    (hm : ∀ a b, call = .merge a b → root p a = root p b) :
    ThreadInv priority p program ⟨rest,none⟩ where
  pc _ _ hc := by cases hc
  own c hc := h.own c (.inl (hc.elim id fun ⟨_,hc⟩ => by cases hc))
  done a b hab := by
    rcases h.done a b hab with he | hp | ⟨_,hp⟩
    · exact .inl he
    · exact .inr (.inl hp)
    · cases hp
      exact .inl (hm a b rfl)

structure Inv (priority : Fin n → ℕ) (programs : Fin k → List (Call n)) (s : State n k) :
    Prop where
  trees : TreesInv priority s.parent s.merged
  threads : ∀ t, ThreadInv priority s.parent (programs t) (s.threads t)
  passed : ∀ e ∈ s.merged, ∃ t, Call.merge e.1 e.2 ∈ programs t

theorem inv_init (priority : Fin n → ℕ) (programs : Fin k → List (Call n)) :
    Inv priority programs (State.init programs) where
  trees := treesInv_init priority
  threads t := threadInv_init priority id (programs t)
  passed e he := by cases he

theorem threads_update {p p' : Fin n → Fin n} {programs : Fin k → List (Call n)}
    {threads : Fin k → Thread n} (h : ∀ t, ThreadInv priority p (programs t) (threads t))
    (he : Evolves p p') {t : Fin k} {th : Thread n} (ht : ThreadInv priority p' (programs t) th)
    (t' : Fin k) : ThreadInv priority p' (programs t') (Function.update threads t th t') := by
  by_cases hne : t' = t
  · subst hne
    simpa using ht
  · rw [Function.update_of_ne hne]
    exact (h t').evolves he

theorem step_inv {programs : Fin k → List (Call n)} {s : State n k}
    (h : Inv priority programs s) (l : Fin k × Bool) :
    Inv priority programs (s.step priority l) := by
  have ht := h.threads l.1
  unfold State.step
  rcases hth : s.threads l.1 with ⟨todo,cur⟩
  rw [hth] at ht
  rcases cur with _ | ⟨call,pc⟩
  · rcases todo with _ | ⟨call,rest⟩
    · exact h
    · exact ⟨h.trees,threads_update h.threads (.refl _) ht.begin,h.passed⟩
  · have hspec := pcStep_spec h.trees.climbs l.2 (ht.pc call pc rfl)
    simp only
    generalize pc.step priority s.parent l.2 = out at hspec
    cases hspec with
    | next hq hpc =>
      have he := hq.evolves h.trees.climbs
      exact ⟨h.trees.quiet hq,threads_update h.threads he ((ht.evolves he).next hpc),h.passed⟩
    | returned hq hm =>
      have he := hq.evolves h.trees.climbs
      have hrec : recordMerge call false s.merged = s.merged := by cases call <;> rfl
      refine ⟨?_,threads_update h.threads he ((ht.evolves he).returned hm),?_⟩
      · simpa only [hrec] using h.trees.quiet hq
      · simpa only [hrec] using h.passed
    | @linked a b x y hc hy hb hm =>
      subst hc
      have he := linked_evolves h.trees.climbs hy hb
      have htrees := h.trees.linked hy hb hm
      have hab : root (Function.update s.parent y x) a = root (Function.update s.parent y x) b :=
        (htrees.classes a b).mpr (reachable_edge a b)
      refine ⟨htrees,threads_update h.threads he ((ht.evolves he).returned ?_),?_⟩
      · intro a' b' heq
        cases heq
        exact hab
      · intro e hmem
        rcases List.mem_cons.mp hmem with rfl | hmem
        · exact ⟨l.1,ht.own _ (.inr ⟨pc,rfl⟩)⟩
        · exact h.passed e hmem

theorem run_inv (priority : Fin n → ℕ) (programs : Fin k → List (Call n))
    (sched : List (Fin k × Bool)) : Inv priority programs (run priority programs sched) :=
  List.foldlRecOn sched _ (inv_init priority programs) fun _ h l _ => step_inv h l

theorem Inv.store_not_root {programs : Fin k → List (Call n)} {s : State n k}
    (h : Inv priority programs s) {t : Fin k} {u q : Fin n} (hs : s.StoreReady t u q) :
    s.parent u ≠ u := by
  obtain ⟨call,pc,hc,hf⟩ := hs
  have hpc := (h.threads t).pc call pc hc
  cases call with
  | findRoot v =>
    cases pc with
    | findRoot f =>
      cases hf
      exact hpc.2.1
    | mergeHead | mergeFirst | mergeSecond | mergeCas => exact hpc.elim
  | merge a b =>
    cases pc with
    | findRoot f => exact hpc.elim
    | mergeHead | mergeCas => cases hf
    | mergeFirst sw f y =>
      obtain ⟨o,hi,_⟩ := hpc
      cases hf
      exact hi.2.1
    | mergeSecond sw x f =>
      obtain ⟨o,hi,_⟩ := hpc
      cases hf
      exact hi.2.1

theorem climbs_acyclic {p : Fin n → Fin n} (hp : Climbs (Below priority) p) {x : Fin n} {m : ℕ}
    (hm : 0 < m) (h : p^[m] x = x) : p x = x := by
  by_contra hx
  have habove (j : ℕ) : Below priority x (p^[j + 1] x) := by
    induction j with
    | zero => exact hp x hx
    | succ j ih =>
      rw [Function.iterate_succ_apply']
      exact parent_above hp ih
  obtain ⟨j,rfl⟩ := Nat.exists_eq_succ_of_ne_zero (Nat.pos_iff_ne_zero.mp hm)
  exact ne_of_above (habove j) h

theorem Inv.finished_classes {programs : Fin k → List (Call n)} {s : State n k}
    (h : Inv priority programs s) (hf : s.Finished) (x y : Fin n) :
    root s.parent x = root s.parent y ↔ (mergeGraph programs).Reachable x y := by
  have hequiv : Equivalence fun u v => root s.parent u = root s.parent v :=
    ⟨fun _ => rfl,Eq.symm,Eq.trans⟩
  have hdone (a b : Fin n) (t : Fin k) (hab : Call.merge a b ∈ programs t) :
      root s.parent a = root s.parent b := by
    rcases (h.threads t).done a b hab with he | hp
    · exact he
    · rw [hf t] at hp
      rcases hp with hp | ⟨_,hp⟩ <;> cases hp
  constructor
  · intro hxy
    refine ((h.trees.classes x y).mp hxy).mono fun u v huv => ?_
    obtain ⟨hne,hmem⟩ := pairGraph_adj.mp huv
    exact (fromRel_adj _ _ _).mpr ⟨hne,hmem.imp (h.passed (u,v)) (h.passed (v,u))⟩
  · refine reachable_of_adj hequiv fun u v huv => ?_
    obtain ⟨_,⟨t,ht⟩ | ⟨t,ht⟩⟩ := (fromRel_adj _ _ _).mp huv
    · exact hdone u v t ht
    · exact (hdone v u t ht).symm

theorem Inv.finished_forest {programs : Fin k → List (Call n)} {s : State n k}
    (h : Inv priority programs s) (hf : s.Finished) :
    IsSpanningForest (mergeGraph programs) (pairGraph s.merged) where
  sub u v huv := by
    obtain ⟨hne,hmem⟩ := pairGraph_adj.mp huv
    exact (fromRel_adj _ _ _).mpr ⟨hne,hmem.imp (h.passed (u,v)) (h.passed (v,u))⟩
  acyclic := h.trees.acyclic
  spans u v := by rw [← h.trees.classes,h.finished_classes hf]

theorem Inv.finished_count {programs : Fin k → List (Call n)} {s : State n k}
    (h : Inv priority programs s) (hf : s.Finished) :
    s.merged.length + Nat.card (mergeGraph programs).ConnectedComponent = n := by
  rw [card_components_of_classes (h.finished_classes hf) (root_root h.trees.climbs)]
  simpa only [fixed_iff_root h.trees.climbs] using h.trees.count

theorem interleaved_calls_correct (priority : Fin n → ℕ) (programs : Fin k → List (Call n))
    (sched : List (Fin k × Bool)) :
    (∀ x, (run priority programs sched).parent x ≠ x →
      Below priority x ((run priority programs sched).parent x)) ∧
    (∀ x m, 0 < m → (run priority programs sched).parent^[m] x = x →
      (run priority programs sched).parent x = x) ∧
    (∀ t u q, (run priority programs sched).StoreReady t u q →
      (run priority programs sched).parent u ≠ u) ∧
    ((run priority programs sched).Finished →
      (∀ x y, root (run priority programs sched).parent x =
          root (run priority programs sched).parent y ↔
        (mergeGraph programs).Reachable x y) ∧
      IsSpanningForest (mergeGraph programs) (pairGraph (run priority programs sched).merged) ∧
      (run priority programs sched).merged.length +
        Nat.card (mergeGraph programs).ConnectedComponent = n) := by
  have h := run_inv priority programs sched
  refine ⟨h.trees.climbs,fun x m hm => climbs_acyclic h.trees.climbs hm,
    fun t u q => h.store_not_root,fun hf => ?_⟩
  exact ⟨h.finished_classes hf,h.finished_forest hf,h.finished_count hf⟩

def crossedMerges (x y z : Fin n) (t : Fin 2) : List (Call n) :=
  if t.val = 0 then [.merge x y,.merge y z] else [.merge z y,.findRoot x]

def roundRobin (k rounds : ℕ) : List (Fin k × Bool) :=
  (List.replicate rounds ((List.finRange k).map (·,false))).flatten

theorem interleaved_calls_finish : ∃ s : State 3 2,
    s = run (fun _ => 0) (crossedMerges 0 1 2) (roundRobin 2 40) ∧ s.Finished ∧
    s.merged = [(2,1),(0,1)] ∧
    ∀ x y, root s.parent x = root s.parent y ↔ (mergeGraph (crossedMerges 0 1 2)).Reachable x y := by
  have hf : (run (fun _ => 0) (crossedMerges (0 : Fin 3) 1 2) (roundRobin 2 40)).Finished := by
    decide +kernel
  have hall := (interleaved_calls_correct (fun _ => 0) (crossedMerges (0 : Fin 3) 1 2)
    (roundRobin 2 40)).2.2.2
  exact ⟨_,rfl,hf,by decide +kernel,(hall hf).1⟩

end GraphZeppelin.Dsu.Concurrent
