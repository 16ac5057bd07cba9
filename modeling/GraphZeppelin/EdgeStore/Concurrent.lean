import GraphZeppelin.EdgeStore.Basic

namespace GraphZeppelin.EdgeStore.Concurrent

variable {n T : ℕ}

inductive Job (n : ℕ) where
  | batch (src : Fin n) (dsts : List (Fin n))
  | flush
deriving DecidableEq, Repr

structure Call (n : ℕ) where
  sketch : List (TaggedUpdateBatch n)
  flushing : Bool
deriving DecidableEq, Repr

inductive Pc (n : ℕ) where
  | idle
  | flushTest
  | flushRead
  | insert (src : Fin n) (f : ℕ) (all : List (SubgraphTaggedUpdate n))
  | inserted (k : Call n) (src : Fin n) (cur : ℕ) (ret : List (SubgraphTaggedUpdate n))
  | advance (k : Call n) (label : ℕ)
  | fetched (k : Call n) (label : ℕ) (v : Fin n)
  | contract (k : Call n) (label : ℕ) (v : Fin n)
  | finish (k : Call n)
  | check (k : Call n) (more : TaggedUpdateBatch n)
  | begin (k : Call n) (more : TaggedUpdateBatch n)
  | deliver (b : TaggedUpdateBatch n) (rest : Call n)
  | crashed
deriving DecidableEq, Repr

def Call.returning (flushing : Bool) : List (TaggedUpdateBatch n) → Pc n
  | [] => if flushing then .flushTest else .idle
  | b :: bs => if b.dstsData = [] then returning flushing bs else .deliver b ⟨bs,flushing⟩

def Call.returned (k : Call n) (more : List (TaggedUpdateBatch n)) : Pc n :=
  returning k.flushing (k.sketch ++ more)

def sketchCall (src : Fin n) (f : ℕ) (all : List (SubgraphTaggedUpdate n)) : Call n :=
  ⟨if f = 0 then [] else [⟨src,0,f,all⟩],false⟩

structure Outcome (n : ℕ) where
  store : EdgeStore n
  pc : Pc n
  sent : List (TaggedUpdateBatch n)

-- each case is one atomic step: a read, a locked section, a fetch_add or a delivery
def Pc.step (s : EdgeStore n) : Pc n → Outcome n
  | .idle => ⟨s,.idle,[]⟩
  | .flushTest => ⟨s,if s.contractInProgress then .flushRead else .idle,[]⟩
  | .flushRead => ⟨s,.advance ⟨[],true⟩ s.curSubgraph,[]⟩
  | .insert src f all =>
    match s.insertLocked src f (sortUpdates (all.filter fun e => f ≤ e.subgraph)) with
    | .error _ => ⟨s,.crashed,[]⟩
    | .ok r => ⟨r.store,.inserted (sketchCall src f all) src r.cur r.ret,[]⟩
  | .inserted k src cur ret =>
    ⟨s,if ret = [] ∧ s.trueMinSubgraph < cur then .advance k cur
      else .check k ⟨src,cur - 1,cur,ret⟩,[]⟩
  | .advance k label =>
    let f := s.fetchContraction
    ⟨f.1,if h : f.2 < n then .fetched k label ⟨f.2,h⟩
      else if f.2 = n then .finish k else k.returned [],[]⟩
  | .fetched k label v =>
    if s.needsContract v then ⟨s,.contract k label v,[]⟩
    else ⟨s.markContracted v,.advance k label,[]⟩
  | .contract k label v =>
    let r := s.vertexContract v
    ⟨r.1,k.returned [⟨v,label - 1,label,r.2⟩],[]⟩
  | .finish k => ⟨s.finishContraction,k.returned [],[]⟩
  | .check k more => ⟨s,if s.numEdges < s.maxEdges then k.returned [more] else .begin k more,[]⟩
  | .begin k more => ⟨s.beginContraction,k.returned [more],[]⟩
  | .deliver b rest => ⟨s,rest.returned [],[b]⟩
  | .crashed => ⟨s,.crashed,[]⟩

structure Thread (n : ℕ) where
  pc : Pc n
  jobs : List (Job n)
deriving DecidableEq, Repr

def tagged (tag : Fin n → Fin n → ℕ) (src : Fin n) (dsts : List (Fin n)) :
    List (SubgraphTaggedUpdate n) :=
  dsts.map fun dst => ⟨tag src dst,dst⟩

def Job.start (tag : Fin n → Fin n → ℕ) (s : EdgeStore n) : Job n → Pc n
  | .batch src dsts =>
    let all := tagged tag src dsts
    let f := s.curSubgraph
    if (all.filter fun e => f ≤ e.subgraph) = [] then (sketchCall src f all).returned []
    else .insert src f all
  | .flush => .flushTest

structure System (n T : ℕ) where
  store : EdgeStore n
  threads : Fin T → Thread n
  delivered : ℕ → Fin n → Fin n → ℕ

namespace System

def new (maxEdges startSubgraph needsContraction : ℕ) (jobs : Fin T → List (Job n)) :
    System n T where
  store := .new n maxEdges startSubgraph needsContraction
  threads t := ⟨.idle,jobs t⟩
  delivered _ _ _ := 0

def setThread (sys : System n T) (t : Fin T) (th : Thread n) : System n T :=
  { sys with threads := Function.update sys.threads t th }

def step (tag : Fin n → Fin n → ℕ) (sys : System n T) (t : Fin T) : System n T :=
  match sys.threads t with
  | ⟨.idle,[]⟩ => sys
  | ⟨.idle,job :: jobs⟩ => sys.setThread t ⟨job.start tag sys.store,jobs⟩
  | ⟨pc,jobs⟩ =>
    let o := pc.step sys.store
    { store := o.store
      threads := Function.update sys.threads t ⟨o.pc,jobs⟩
      delivered := fun g v u => sys.delivered g v u + (o.sent.map fun b => b.reaches g v u).sum }

def run (tag : Fin n → Fin n → ℕ) (sys : System n T) (schedule : List (Fin T)) : System n T :=
  schedule.foldl (step tag) sys

def Finished (sys : System n T) : Prop := ∀ t, sys.threads t = ⟨.idle,[]⟩

instance (sys : System n T) : Decidable sys.Finished := inferInstanceAs (Decidable (∀ _, _))

end System

def Job.submitted (v u : Fin n) : Job n → ℕ
  | .batch src dsts => if src = v then dsts.count u else 0
  | .flush => 0

def submissions (jobs : Fin T → List (Job n)) (v u : Fin n) : ℕ :=
  ∑ t, ((jobs t).map (Job.submitted v u)).sum

structure Accounted (tag : Fin n → Fin n → ℕ) (N : Fin n → Fin n → ℕ) (sys : System n T) :
    Prop where
  handed : ∀ g v u, g < sys.store.curSubgraph → g ≤ tag v u →
    sys.delivered g v u % 2 = N v u % 2
  above : ∀ g v u, tag v u < g → sys.delivered g v u = 0
  kept : ∀ v u, sys.store.curSubgraph ≤ tag v u → sys.store.entries v u % 2 = N v u % 2

def Pc.Safe (s : EdgeStore n) : Pc n → Prop
  | .insert src f all =>
    (f = s.curSubgraph ∨ f + 1 = s.curSubgraph) ∧ (∃ e ∈ all, s.curSubgraph ≤ e.subgraph) ∧
      (s.vertexContracted src = true ∨ s.contractInProgress)
  | .contract _ label v => s.needsContract v = true → label = s.curSubgraph
  | .begin _ _ => s.contractInProgress ∨ ∀ v, s.needsContract v = false
  | .advance _ _ => s.needsContraction + 1 < 2 ^ 32
  | _ => True

instance (s : EdgeStore n) (pc : Pc n) : Decidable (pc.Safe s) :=
  match pc with
  | .insert src f all => inferInstanceAs (Decidable
    ((f = s.curSubgraph ∨ f + 1 = s.curSubgraph) ∧ (∃ e ∈ all, s.curSubgraph ≤ e.subgraph) ∧
      (s.vertexContracted src = true ∨ s.contractInProgress)))
  | .contract _ label v =>
    inferInstanceAs (Decidable (s.needsContract v = true → label = s.curSubgraph))
  | .begin _ _ =>
    inferInstanceAs (Decidable (s.contractInProgress ∨ ∀ v, s.needsContract v = false))
  | .advance _ _ => inferInstanceAs (Decidable (s.needsContraction + 1 < 2 ^ 32))
  | .idle | .flushTest | .flushRead | .inserted .. | .fetched .. | .finish _ | .check .. |
    .deliver .. | .crashed => isTrue trivial

def System.Steady (tag : Fin n → Fin n → ℕ) (sys : System n T) : List (Fin T) → Prop
  | [] => True
  | t :: schedule => (sys.threads t).pc.Safe sys.store ∧ (sys.step tag t).Steady tag schedule

def System.decidableSteady (tag : Fin n → Fin n → ℕ) (sys : System n T) :
    (schedule : List (Fin T)) → Decidable (sys.Steady tag schedule)
  | [] => isTrue trivial
  | t :: schedule =>
    have := (sys.step tag t).decidableSteady tag schedule
    inferInstanceAs (Decidable (_ ∧ _))

instance (tag : Fin n → Fin n → ℕ) (sys : System n T) (schedule : List (Fin T)) :
    Decidable (sys.Steady tag schedule) :=
  sys.decidableSteady tag schedule

end GraphZeppelin.EdgeStore.Concurrent
