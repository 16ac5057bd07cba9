import GraphZeppelin.Dsu.Basic

namespace GraphZeppelin.Dsu.Concurrent
open PointerForest SpanningForest SimpleGraph

variable {n k : ℕ}

inductive Call (n : ℕ) where
  | findRoot (u : Fin n)
  | merge (a b : Fin n)
deriving DecidableEq

inductive Operand (n : ℕ) where
  | unread
  | inner (x : Fin n)
  | value (y : Fin n)
deriving DecidableEq

def Operand.load (p : Fin n → Fin n) (u : Fin n) : Operand n → Operand n
  | .unread => .inner (p u)
  | .inner x => .value (p x)
  | .value y => .value y

inductive FindPc (n : ℕ) where
  | test (u : Fin n) (lhs : Operand n) (rhs : Option (Fin n))
  | loadParent (u : Fin n)
  | loadGrandparent (u x : Fin n)
  | store (u q : Fin n)
  | advance (u : Fin n)
  | ret (u : Fin n)
deriving DecidableEq

def FindPc.start (u : Fin n) : FindPc n := .test u .unread none

inductive FindOut (n : ℕ) where
  | next (f : FindPc n)
  | returned (v : Fin n)

-- The loads of the two operands of != may come in either order; c picks the next one.
def FindPc.step (p : Fin n → Fin n) (c : Bool) : FindPc n → (Fin n → Fin n) × FindOut n
  | .test u (.value y) (some z) => (p,.next (if y = z then .ret u else .loadParent u))
  | .test u (.value y) none => (p,.next (.test u (.value y) (some (p u))))
  | .test u lhs (some z) => (p,.next (.test u (lhs.load p u) (some z)))
  | .test u lhs none =>
    (p,.next (if c then .test u (lhs.load p u) none else .test u lhs (some (p u))))
  | .loadParent u => (p,.next (.loadGrandparent u (p u)))
  | .loadGrandparent u x => (p,.next (.store u (p x)))
  | .store u q => (Function.update p u q,.next (.advance u))
  | .advance u => (p,.next (.start (p u)))
  | .ret u => (p,.returned (p u))

inductive Pc (n : ℕ) where
  | findRoot (f : FindPc n)
  | mergeHead (a b : Fin n)
  | mergeFirst (swapped : Bool) (f : FindPc n) (other : Fin n)
  | mergeSecond (swapped : Bool) (v : Fin n) (f : FindPc n)
  | mergeCas (a b : Fin n)
deriving DecidableEq

inductive Out (n : ℕ) where
  | next (pc : Pc n)
  | returned (merged : Bool)

def Call.start : Call n → Pc n
  | .findRoot u => .findRoot (.start u)
  | .merge a b => .mergeHead a b

def compareRoots (priority : Fin n → ℕ) (a b : Fin n) : Out n :=
  if a = b then .returned false
  else .next (.mergeCas (orderEdge priority a b).1 (orderEdge priority a b).2)

-- compare_exchange_weak: on failure, genuine or spurious (c), b becomes the value found.
def Pc.step (priority : Fin n → ℕ) (p : Fin n → Fin n) (c : Bool) :
    Pc n → (Fin n → Fin n) × Out n
  | .findRoot f => match f.step p c with
    | (p',.next f') => (p',.next (.findRoot f'))
    | (p',.returned _) => (p',.returned false)
  | .mergeHead a b =>
    (p,.next (if c then .mergeFirst true (.start b) a else .mergeFirst false (.start a) b))
  | .mergeFirst swapped f other => match f.step p c with
    | (p',.next f') => (p',.next (.mergeFirst swapped f' other))
    | (p',.returned v) => (p',.next (.mergeSecond swapped v (.start other)))
  | .mergeSecond swapped v f => match f.step p c with
    | (p',.next f') => (p',.next (.mergeSecond swapped v f'))
    | (p',.returned w) =>
      (p',if swapped then compareRoots priority w v else compareRoots priority v w)
  | .mergeCas a b =>
    if p b = b ∧ c = false then (Function.update p b a,.returned true)
    else (p,.next (.mergeHead a (p b)))

structure Thread (n : ℕ) where
  todo : List (Call n)
  cur : Option (Call n × Pc n)
deriving DecidableEq

structure State (n k : ℕ) where
  parent : Fin n → Fin n
  threads : Fin k → Thread n
  merged : List (Fin n × Fin n)

def State.init (programs : Fin k → List (Call n)) : State n k where
  parent := id
  threads t := ⟨programs t,none⟩
  merged := []

def recordMerge : Call n → Bool → List (Fin n × Fin n) → List (Fin n × Fin n)
  | .merge a b, true, es => (a,b) :: es
  | _, _, es => es

def State.step (priority : Fin n → ℕ) (s : State n k) (l : Fin k × Bool) : State n k :=
  match s.threads l.1 with
  | ⟨[],none⟩ => s
  | ⟨call :: rest,none⟩ =>
    { s with threads := Function.update s.threads l.1 ⟨rest,some (call,call.start)⟩ }
  | ⟨rest,some (call,pc)⟩ => match pc.step priority s.parent l.2 with
    | (p,.next pc') =>
      { s with
        parent := p
        threads := Function.update s.threads l.1 ⟨rest,some (call,pc')⟩ }
    | (p,.returned m) =>
      { parent := p
        threads := Function.update s.threads l.1 ⟨rest,none⟩
        merged := recordMerge call m s.merged }

def run (priority : Fin n → ℕ) (programs : Fin k → List (Call n))
    (sched : List (Fin k × Bool)) : State n k :=
  sched.foldl (State.step priority) (State.init programs)

def State.Finished (s : State n k) : Prop := ∀ t, s.threads t = ⟨[],none⟩

instance (s : State n k) : Decidable s.Finished := inferInstanceAs (Decidable (∀ _, _))

def Pc.search : Pc n → Option (FindPc n)
  | .findRoot f => some f
  | .mergeFirst _ f _ => some f
  | .mergeSecond _ _ f => some f
  | _ => none

def State.StoreReady (s : State n k) (t : Fin k) (u q : Fin n) : Prop :=
  ∃ call pc, (s.threads t).cur = some (call,pc) ∧ pc.search = some (.store u q)

def mergeGraph (programs : Fin k → List (Call n)) : SimpleGraph (Fin n) :=
  fromRel fun a b => ∃ t, Call.merge a b ∈ programs t

structure Evolves (p p' : Fin n → Fin n) : Prop where
  fixed : ∀ x, p' x = x → p x = x
  classes : ∀ x y, root p x = root p y → root p' x = root p' y

theorem Evolves.refl (p : Fin n → Fin n) : Evolves p p := ⟨fun _ h => h,fun _ _ h => h⟩

def FindInv (priority : Fin n → ℕ) (p : Fin n → Fin n) (o : Fin n) : FindPc n → Prop
  | .test u lhs rhs => root p u = root p o ∧
      (p u = u → (lhs = .unread ∨ lhs = .inner u ∨ lhs = .value u) ∧ (rhs = none ∨ rhs = some u))
  | .loadParent u => root p u = root p o ∧ p u ≠ u
  | .loadGrandparent u x =>
      root p u = root p o ∧ p u ≠ u ∧ Below priority u x ∧ root p x = root p u
  | .store u q =>
      root p u = root p o ∧ p u ≠ u ∧ Below priority u q ∧ root p q = root p u
  | .advance u => root p u = root p o
  | .ret u => root p u = root p o

theorem findInv_start (priority : Fin n → ℕ) (p : Fin n → Fin n) {u o : Fin n}
    (h : root p u = root p o) : FindInv priority p o (.start u) :=
  ⟨h,fun _ => ⟨.inl rfl,.inl rfl⟩⟩

theorem FindInv.evolves {priority : Fin n → ℕ} {p p' : Fin n → Fin n} {o : Fin n}
    (he : Evolves p p') {f : FindPc n} (h : FindInv priority p o f) :
    FindInv priority p' o f := by
  cases f with
  | test u lhs rhs => exact ⟨he.classes _ _ h.1,fun hu => h.2 (he.fixed u hu)⟩
  | loadParent u => exact ⟨he.classes _ _ h.1,fun hu => h.2 (he.fixed u hu)⟩
  | loadGrandparent u x =>
    exact ⟨he.classes _ _ h.1,fun hu => h.2.1 (he.fixed u hu),h.2.2.1,he.classes _ _ h.2.2.2⟩
  | store u q =>
    exact ⟨he.classes _ _ h.1,fun hu => h.2.1 (he.fixed u hu),h.2.2.1,he.classes _ _ h.2.2.2⟩
  | advance u => exact he.classes _ _ h
  | ret u => exact he.classes _ _ h

-- Every access of findRoot keeps the trees; only the store writes, and never at a root.
inductive Quiet (priority : Fin n → ℕ) (p : Fin n → Fin n) : (Fin n → Fin n) → Prop where
  | same : Quiet priority p p
  | reroute (u q : Fin n) : p u ≠ u → Below priority u q → root p q = root p u →
      Quiet priority p (Function.update p u q)

theorem Quiet.climbs {priority : Fin n → ℕ} {p p' : Fin n → Fin n}
    (hp : Climbs (Below priority) p) (h : Quiet priority p p') : Climbs (Below priority) p' := by
  cases h with
  | same => exact hp
  | reroute u q _ hb _ => exact climbs_update hp hb

theorem Quiet.root_eq {priority : Fin n → ℕ} {p p' : Fin n → Fin n}
    (hp : Climbs (Below priority) p) (h : Quiet priority p p') (x : Fin n) :
    root p' x = root p x := by
  cases h with
  | same => rfl
  | reroute u q hu hb hq => exact root_reroute hp hu hb hq x

theorem Quiet.fixed_iff {priority : Fin n → ℕ} {p p' : Fin n → Fin n}
    (hp : Climbs (Below priority) p) (h : Quiet priority p p') (x : Fin n) :
    p' x = x ↔ p x = x := by
  rw [fixed_iff_root (h.climbs hp),fixed_iff_root hp,h.root_eq hp]

theorem Quiet.evolves {priority : Fin n → ℕ} {p p' : Fin n → Fin n}
    (hp : Climbs (Below priority) p) (h : Quiet priority p p') : Evolves p p' where
  fixed x := (h.fixed_iff hp x).mp
  classes x y hxy := by rwa [h.root_eq hp,h.root_eq hp]

theorem findInv_test_load {priority : Fin n → ℕ} {p : Fin n → Fin n} {o u : Fin n}
    {lhs : Operand n} {rhs : Option (Fin n)} (h : FindInv priority p o (.test u lhs rhs)) :
    FindInv priority p o (.test u (lhs.load p u) rhs) := by
  refine ⟨h.1,fun hu => ⟨?_,(h.2 hu).2⟩⟩
  rcases (h.2 hu).1 with rfl | rfl | rfl
  · exact .inr (.inl (by rw [Operand.load,hu]))
  · exact .inr (.inr (by rw [Operand.load,hu]))
  · exact .inr (.inr rfl)

theorem findInv_test_right {priority : Fin n → ℕ} {p : Fin n → Fin n} {o u : Fin n}
    {lhs : Operand n} {rhs : Option (Fin n)} (h : FindInv priority p o (.test u lhs rhs)) :
    FindInv priority p o (.test u lhs (some (p u))) :=
  ⟨h.1,fun hu => ⟨(h.2 hu).1,.inr (by rw [hu])⟩⟩

theorem findStep_spec {priority : Fin n → ℕ} {p : Fin n → Fin n}
    (hp : Climbs (Below priority) p) (c : Bool) {o : Fin n} {f : FindPc n}
    (h : FindInv priority p o f) :
    Quiet priority p (f.step p c).1 ∧ match (f.step p c).2 with
      | .next f' => FindInv priority (f.step p c).1 o f'
      | .returned v => root (f.step p c).1 v = root (f.step p c).1 o := by
  cases f with
  | test u lhs rhs =>
    cases rhs with
    | some z =>
      cases lhs with
      | unread => exact ⟨.same,findInv_test_load h⟩
      | inner x => exact ⟨.same,findInv_test_load h⟩
      | value y =>
        simp only [FindPc.step]
        refine ⟨.same,?_⟩
        split
        · exact h.1
        · next hyz =>
          refine ⟨h.1,fun hu => hyz ?_⟩
          obtain ⟨hl,hr⟩ := h.2 hu
          simp only [reduceCtorEq,Operand.value.injEq,false_or] at hl
          simp only [reduceCtorEq,Option.some.injEq,false_or] at hr
          rw [hl,hr]
    | none =>
      cases lhs with
      | unread =>
        cases c
        · exact ⟨.same,findInv_test_right h⟩
        · exact ⟨.same,findInv_test_load h⟩
      | inner x =>
        cases c
        · exact ⟨.same,findInv_test_right h⟩
        · exact ⟨.same,findInv_test_load h⟩
      | value y => exact ⟨.same,findInv_test_right h⟩
  | loadParent u => exact ⟨.same,h.1,h.2,hp u h.2,root_parent hp u⟩
  | loadGrandparent u x =>
    obtain ⟨ho,hu,hb,hx⟩ := h
    exact ⟨.same,ho,hu,parent_above hp hb,(root_parent hp x).trans hx⟩
  | store u q =>
    obtain ⟨ho,hu,hb,hq⟩ := h
    have hquiet : Quiet priority p (Function.update p u q) := .reroute u q hu hb hq
    exact ⟨hquiet,(hquiet.evolves hp).classes _ _ ho⟩
  | advance u => exact ⟨.same,findInv_start priority p ((root_parent hp u).trans h)⟩
  | ret u => exact ⟨.same,(root_parent hp u).trans h⟩

def Matches (p : Fin n → Fin n) (x y a b : Fin n) : Prop :=
  (root p x = root p a ∧ root p y = root p b) ∨ (root p x = root p b ∧ root p y = root p a)

theorem Matches.swap {p : Fin n → Fin n} {x y a b : Fin n} (h : Matches p x y a b) :
    Matches p y x a b :=
  h.elim (fun h => .inr h.symm) (fun h => .inl h.symm)

theorem Matches.evolves {p p' : Fin n → Fin n} (he : Evolves p p') {x y a b : Fin n}
    (h : Matches p x y a b) : Matches p' x y a b :=
  h.imp (fun h => ⟨he.classes _ _ h.1,he.classes _ _ h.2⟩)
    (fun h => ⟨he.classes _ _ h.1,he.classes _ _ h.2⟩)

theorem Matches.replace {p : Fin n → Fin n} {x x' y a b : Fin n} (h : Matches p x y a b)
    (hx : root p x' = root p x) : Matches p x' y a b := by
  unfold Matches at *
  rwa [hx]

theorem Matches.connected {p : Fin n → Fin n} {x a b : Fin n} (h : Matches p x x a b) :
    root p a = root p b :=
  h.elim (fun h => h.1.symm.trans h.2) (fun h => h.2.symm.trans h.1)

def MergeInv (priority : Fin n → ℕ) (p : Fin n → Fin n) (a b : Fin n) : Pc n → Prop
  | .findRoot _ => False
  | .mergeHead x y => Matches p x y a b
  | .mergeFirst _ f y => ∃ o, FindInv priority p o f ∧ Matches p o y a b
  | .mergeSecond _ x f => ∃ o, FindInv priority p o f ∧ Matches p x o a b
  | .mergeCas x y => Matches p x y a b ∧ Below priority y x

def PcInv (priority : Fin n → ℕ) (p : Fin n → Fin n) : Call n → Pc n → Prop
  | .findRoot u, .findRoot f => FindInv priority p u f
  | .findRoot _, _ => False
  | .merge a b, pc => MergeInv priority p a b pc

theorem MergeInv.evolves {priority : Fin n → ℕ} {p p' : Fin n → Fin n} (he : Evolves p p')
    {a b : Fin n} {pc : Pc n} (h : MergeInv priority p a b pc) : MergeInv priority p' a b pc := by
  cases pc with
  | findRoot f => exact h
  | mergeHead x y => exact Matches.evolves he h
  | mergeFirst sw f y =>
    obtain ⟨o,hf,hm⟩ := h
    exact ⟨o,hf.evolves he,hm.evolves he⟩
  | mergeSecond sw x f =>
    obtain ⟨o,hf,hm⟩ := h
    exact ⟨o,hf.evolves he,hm.evolves he⟩
  | mergeCas x y => exact ⟨h.1.evolves he,h.2⟩

theorem PcInv.evolves {priority : Fin n → ℕ} {p p' : Fin n → Fin n} (he : Evolves p p')
    {call : Call n} {pc : Pc n} (h : PcInv priority p call pc) : PcInv priority p' call pc := by
  cases call with
  | findRoot u => cases pc <;> first | exact FindInv.evolves he h | exact h
  | merge a b => exact MergeInv.evolves he h

theorem pcInv_start (priority : Fin n → ℕ) (p : Fin n → Fin n) (call : Call n) :
    PcInv priority p call call.start := by
  cases call with
  | findRoot u => exact findInv_start priority p rfl
  | merge a b => exact .inl ⟨rfl,rfl⟩

-- What one step of a call can do: a quiet access, or the compare-and-swap that links a root.
inductive StepSpec (priority : Fin n → ℕ) (p : Fin n → Fin n) (call : Call n) :
    (Fin n → Fin n) × Out n → Prop where
  | next {p' : Fin n → Fin n} {pc' : Pc n} : Quiet priority p p' →
      PcInv priority p' call pc' → StepSpec priority p call (p',.next pc')
  | returned {p' : Fin n → Fin n} : Quiet priority p p' →
      (∀ a b, call = .merge a b → root p' a = root p' b) →
      StepSpec priority p call (p',.returned false)
  | linked {a b x y : Fin n} : call = .merge a b → p y = y → Below priority y x →
      Matches p x y a b → StepSpec priority p call (Function.update p y x,.returned true)

theorem compareRoots_spec {priority : Fin n → ℕ} {p p' : Fin n → Fin n} {a b x y : Fin n}
    (hq : Quiet priority p p') (h : Matches p' x y a b) :
    StepSpec priority p (.merge a b) (p',compareRoots priority x y) := by
  unfold compareRoots
  split
  · next hxy =>
    subst hxy
    refine .returned hq fun a' b' he => ?_
    cases he
    exact h.connected
  · next hxy =>
    refine .next hq ?_
    rcases orderEdge_cases priority hxy with ⟨he,hb⟩ | ⟨he,hb⟩
    · rw [he]
      exact ⟨h,hb⟩
    · rw [he]
      exact ⟨h.swap,hb⟩

theorem pcStep_spec {priority : Fin n → ℕ} {p : Fin n → Fin n}
    (hp : Climbs (Below priority) p) (c : Bool) {call : Call n} {pc : Pc n}
    (h : PcInv priority p call pc) : StepSpec priority p call (pc.step priority p c) := by
  cases call with
  | findRoot u =>
    cases pc with
    | findRoot f =>
      obtain ⟨hq,hf⟩ := findStep_spec hp c (show FindInv priority p u f from h)
      simp only [Pc.step]
      rcases hs : f.step p c with ⟨p',f' | v⟩
      · simp only [hs] at hq hf
        exact .next hq hf
      · simp only [hs] at hq
        exact .returned hq (fun _ _ he => by cases he)
    | mergeHead | mergeFirst | mergeSecond | mergeCas => exact h.elim
  | merge a b =>
    cases pc with
    | findRoot f => exact h.elim
    | mergeHead x y =>
      have hm : Matches p x y a b := h
      cases c
      · exact .next .same ⟨x,findInv_start priority p rfl,hm⟩
      · exact .next .same ⟨y,findInv_start priority p rfl,hm.swap⟩
    | mergeFirst sw f y =>
      obtain ⟨o,hf,hm⟩ := h
      obtain ⟨hq,hf'⟩ := findStep_spec hp c hf
      simp only [Pc.step]
      rcases hs : f.step p c with ⟨p',f' | v⟩
      · simp only [hs] at hq hf'
        exact .next hq ⟨o,hf',hm.evolves (hq.evolves hp)⟩
      · simp only [hs] at hq hf'
        exact .next hq ⟨y,findInv_start priority p' rfl,
          (hm.evolves (hq.evolves hp)).replace hf'⟩
    | mergeSecond sw x f =>
      obtain ⟨o,hf,hm⟩ := h
      obtain ⟨hq,hf'⟩ := findStep_spec hp c hf
      simp only [Pc.step]
      rcases hs : f.step p c with ⟨p',f' | w⟩
      · simp only [hs] at hq hf'
        exact .next hq ⟨o,hf',hm.evolves (hq.evolves hp)⟩
      · simp only [hs] at hq hf'
        have hm' := ((hm.evolves (hq.evolves hp)).swap).replace hf'
        cases sw
        · exact compareRoots_spec hq hm'.swap
        · exact compareRoots_spec hq hm'
    | mergeCas x y =>
      obtain ⟨hm,hb⟩ := h
      simp only [Pc.step]
      split
      · next hy => exact .linked rfl hy.1 hb hm
      · exact .next .same (hm.swap.replace (root_parent hp y)).swap

end GraphZeppelin.Dsu.Concurrent
