import GraphZeppelin.Boruvka.Pieces

namespace GraphZeppelin.Boruvka
open RoundInput

variable {n T : ℕ} {p : SketchParams}

namespace Pc

def delivered : Pc T → Bool
  | .head => false
  | .mergeLast _ => false
  | _ => true

def asked : Pc T → Bool
  | .switch => true
  | .leave => true
  | .done => true
  | _ => false

end Pc

def Past (closed : Bool) (x y : Fin n) : Prop := x < y ∨ (closed = true ∧ x = y)

theorem Past.le {closed : Bool} {x y : Fin n} (h : Past closed x y) : x ≤ y := by
  rcases h with h | ⟨_,rfl⟩
  · exact le_of_lt h
  · exact le_rfl

theorem Past.lt {x y : Fin n} (h : Past false x y) : x < y := by
  rcases h with h | ⟨h,_⟩
  · exact h
  · cases h

theorem past_true {x y : Fin n} : Past true x y ↔ x ≤ y := by
  simp [Past,le_iff_lt_or_eq]

namespace Round

variable (I : RoundInput n T p) (s s' : Round n T p) (t u : Fin T) (R : Fin n)

def mergesOf : List (GlobalMerge n T) := s.merges.filter fun m => m.root = R

def Called : Prop := ∃ c ∈ s.calls, c.root = R

def Completes : Prop :=
  ∃ ms a b, I.IsBlock R a b ∧ I.owner a < I.owner b ∧
    s.mergesOf R = ⟨I.owner b,t,R⟩ :: ms ∧ ms.length = I.owner b - I.owner a

def Responsible : Prop :=
  (∃ a b, I.IsBlock R a b ∧ I.owner a = I.owner b ∧ t = I.owner a) ∨ s.Completes I t R

def Settled : Prop :=
  ∀ a b, I.IsBlock R a b → (I.owner a = I.owner b ∧ s.Called R) ∨
    (I.owner a < I.owner b ∧ ∃ m ∈ s.merges, m.thr = t ∧ m.root = R)

def Announced : Prop :=
  ∀ a b, I.IsBlock R a b → I.owner a < I.owner b →
    (s.globals (I.owner b)).numMergeNeeded = I.owner b - I.owner a + 1

structure SlotInv (a b : Fin n) : Prop where
  nodup : ((s.mergesOf R).map (·.thr)).Nodup
  done : (s.globals (I.owner b)).numMergeDone = (s.mergesOf R).length
  content : (s.globals (I.owner b)).sketch.buckets =
    ((s.mergesOf R).map fun m => I.piece m.thr R).sum
  idx_le : ¬ s.Called R → (s.globals (I.owner b)).sketch.sampleIdx ≤ I.curRound
  idx : ¬ s.Called R → s.mergesOf R ≠ [] →
    (s.globals (I.owner b)).sketch.sampleIdx = I.curRound
  needed : (s.globals (I.owner b)).numMergeNeeded = GlobalMergeData.sizeMax ∨ s.Announced I R
  first : (∃ m ∈ s.mergesOf R, m.thr = I.owner a) → s.Announced I R

structure WorkerInv : Prop where
  lo : I.start t ≤ (s.workers t).pos
  hi : (s.workers t).pos ≤ I.stop t
  cur : ((s.workers t).pos = I.start t ∧ (s.workers t).pc = .head ∧
      I.rootAt (I.start t) = (s.workers t).curRoot) ∨
    ∃ j : Fin n, (j : ℕ) + 1 = (s.workers t).pos ∧ I.start t ≤ j ∧
      I.rootAt j = (s.workers t).curRoot
  left : (s.workers t).pc.asked = false → ((s.workers t).rootFromLeft = true ↔
    ∃ j : Fin n, (j : ℕ) + 1 = I.start t ∧ I.rootAt j = (s.workers t).curRoot)
  switched : (s.workers t).pc = .switch → (s.workers t).rootFromLeft = false
  content : (s.workers t).pc.delivered = false →
    (s.workers t).localSketch.buckets = I.upTo t (s.workers t).pos (s.workers t).curRoot ∧
      (s.workers t).localSketch.sampleIdx ≤ I.curRound ∧
      (I.start t < (s.workers t).pos → (s.workers t).localSketch.sampleIdx = I.curRound)
  change : ((s.workers t).pc = .switch ∨ ∃ q, (s.workers t).pc = .ownQuery q) →
    (s.workers t).pos < I.stop t ∧
      ∀ j : Fin n, (j : ℕ) = (s.workers t).pos → I.rootAt j ≠ (s.workers t).curRoot
  own : ∀ q, (s.workers t).pc = .ownQuery q → ∀ a b, I.IsBlock (s.workers t).curRoot a b →
    I.owner a < I.owner b ∧ t = I.owner b
  last : ∀ g, ((s.workers t).pc = .mergeLast g ∨ ∃ q, (s.workers t).pc = .lastQuery g q) →
    (s.workers t).pos = I.stop t ∧ ∀ a b, I.IsBlock (s.workers t).curRoot a b →
      I.owner a < I.owner b ∧ g = I.owner b
  ended : ((s.workers t).pc = .leave ∨ (s.workers t).pc = .done) → (s.workers t).pos = I.stop t
  announced : ∀ g, (s.workers t).pc = .mergeLast g → (s.workers t).rootFromLeft = false →
    s.Announced I (s.workers t).curRoot
  ready : ∀ q, ((s.workers t).pc = .ownQuery q ∨ ∃ g, (s.workers t).pc = .lastQuery g q) →
    (q = true ↔ s.Completes I t (s.workers t).curRoot)
  settled : ∀ R, I.Spans t R → Past (s.workers t).pc.delivered R (s.workers t).curRoot →
    s.Settled I t R
  merged : ∀ m ∈ s.merges, m.thr = t → Past (s.workers t).pc.delivered m.root (s.workers t).curRoot
  called : ∀ c ∈ s.calls, c.thr = t → Past (s.workers t).pc.asked c.root (s.workers t).curRoot
  asked : ∀ R, s.Completes I t R → Past (s.workers t).pc.asked R (s.workers t).curRoot → s.Called R

structure CallInv (c : Call n T p) : Prop where
  content : c.sketch.buckets = I.total c.root
  idx : c.sketch.sampleIdx = I.curRound
  responsible : s.Responsible I c.thr c.root

structure Inv : Prop where
  worker : ∀ t, s.WorkerInv I t
  slot : ∀ R a b, I.IsBlock R a b → I.owner a < I.owner b → s.SlotInv I R a b
  merge : ∀ m ∈ s.merges, ∃ a b, I.IsBlock m.root a b ∧ I.owner a < I.owner b ∧
    m.slot = I.owner b ∧ I.owner a ≤ m.thr ∧ m.thr ≤ I.owner b
  call : ∀ c ∈ s.calls, s.CallInv I c
  nodup : (s.calls.map (·.root)).Nodup
  idle : ∀ g, (s.globals g).numMergeDone = 0 ∨
    ∃ R a b, I.IsBlock R a b ∧ I.owner a < I.owner b ∧ I.owner b = g

structure Moves : Prop where
  workers : ∀ u, u ≠ t → s'.workers u = s.workers u
  merges_sub : ∀ m ∈ s.merges, m ∈ s'.merges
  merges_new : ∀ m ∈ s'.merges, m ∈ s.merges ∨ m.thr = t
  calls_sub : ∀ c ∈ s.calls, c ∈ s'.calls
  calls_new : ∀ c ∈ s'.calls, c ∈ s.calls ∨ c.thr = t
  completes : ∀ u, u ≠ t → ∀ R, s'.Completes I u R ↔ s.Completes I u R
  announced : ∀ R, s.Announced I R → s'.Announced I R

variable {I s s' t u R}

theorem Called.mono (hs : ∀ c ∈ s.calls, c ∈ s'.calls) (h : s.Called R) : s'.Called R := by
  obtain ⟨c,hc,hR⟩ := h
  exact ⟨c,hs c hc,hR⟩

theorem Settled.mono (hm : ∀ m ∈ s.merges, m ∈ s'.merges) (hc : ∀ c ∈ s.calls, c ∈ s'.calls)
    (h : s.Settled I t R) : s'.Settled I t R := by
  intro a b hb
  rcases h a b hb with ⟨hab,hcall⟩ | ⟨hab,m,hmem,hmt⟩
  · exact .inl ⟨hab,hcall.mono hc⟩
  · exact .inr ⟨hab,m,hm m hmem,hmt⟩

theorem Moves.worker (hm : Moves I s s' t) (hu : u ≠ t) (h : s.WorkerInv I u) :
    s'.WorkerInv I u := by
  have he := hm.workers u hu
  constructor <;> rw [he]
  · exact h.lo
  · exact h.hi
  · exact h.cur
  · exact h.left
  · exact h.switched
  · exact h.content
  · exact h.change
  · exact h.own
  · exact h.last
  · exact h.ended
  · exact fun g hg hl => hm.announced _ (h.announced g hg hl)
  · exact fun q hq => (h.ready q hq).trans (hm.completes u hu _).symm
  · exact fun R hR hp => (h.settled R hR hp).mono hm.merges_sub hm.calls_sub
  · intro m hmem hmu
    rcases hm.merges_new m hmem with hold | hnew
    · exact h.merged m hold hmu
    · exact absurd (hmu.symm.trans hnew) hu
  · intro c hc hcu
    rcases hm.calls_new c hc with hold | hnew
    · exact h.called c hold hcu
    · exact absurd (hcu.symm.trans hnew) hu
  · intro R hR hp
    exact (h.asked R ((hm.completes u hu R).mp hR) hp).mono hm.calls_sub

theorem WorkerInv.position [I.Tiled] (h : s.WorkerInv I t) :
    ∃ j : Fin n, I.owner j = t ∧ I.rootAt j = (s.workers t).curRoot ∧
      (j : ℕ) + 1 ≤ max (s.workers t).pos (I.start t + 1) := by
  have hhi := h.hi
  rcases h.cur with ⟨_,_,hR⟩ | ⟨j,hj,hlo,hR⟩
  · exact ⟨I.start t,I.owner_start t,hR,le_max_right _ _⟩
  · exact ⟨j,I.owner_eq_iff.mpr ⟨hlo,by omega⟩,hR,hj.le.trans (le_max_left _ _)⟩

theorem WorkerInv.spans [I.Tiled] (h : s.WorkerInv I t) : I.Spans t (s.workers t).curRoot := by
  obtain ⟨j,hj,hR,_⟩ := h.position
  exact ⟨j,hj,hR⟩

theorem WorkerInv.block [I.Tiled] (h : s.WorkerInv I t) (hs : SortedByRoot I.mergeInstr) :
    ∃ a b, I.IsBlock (s.workers t).curRoot a b ∧ I.owner a ≤ t ∧ t ≤ I.owner b := by
  obtain ⟨j,_,hR⟩ := h.spans
  obtain ⟨a,b,hab⟩ := exists_block hs j
  rw [hR] at hab
  exact ⟨a,b,hab,hab.spans_iff.mp h.spans⟩

theorem WorkerInv.left_iff [I.Tiled] (h : s.WorkerInv I t) (hpc : (s.workers t).pc.asked = false)
    {a b : Fin n} (hb : I.IsBlock (s.workers t).curRoot a b) :
    (s.workers t).rootFromLeft = true ↔ I.owner a < t := by
  rw [h.left hpc,← hb.left_iff (hb.spans_iff.mp h.spans).2]
  constructor
  · rintro ⟨j,hj,hR⟩
    exact ⟨by omega,j,hj,hR⟩
  · rintro ⟨_,hj⟩
    exact hj

theorem Inv.moved (h : s.Inv I) (hm : Moves I s s' t) (ht : s'.WorkerInv I t) (u : Fin T) :
    s'.WorkerInv I u := by
  by_cases hu : u = t
  · exact hu ▸ ht
  · exact hm.worker hu (h.worker u)

theorem completes_congr (hm : s'.merges = s.merges) :
    s'.Completes I t R ↔ s.Completes I t R := by
  simp only [Completes,mergesOf,hm]

theorem called_congr (hc : s'.calls = s.calls) : s'.Called R ↔ s.Called R := by
  simp only [Called,hc]

theorem Inv.of_worker (h : s.Inv I) (hg : s'.globals = s.globals) (hm : s'.merges = s.merges)
    (hc : s'.calls = s.calls) (hw : ∀ u, u ≠ t → s'.workers u = s.workers u)
    (ht : s'.WorkerInv I t) : s'.Inv I := by
  have hmoves : Moves I s s' t := by
    refine ⟨hw,by simp [hm],fun m hmem => .inl (hm ▸ hmem),by simp [hc],
      fun c hcm => .inl (hc ▸ hcm),fun u _ R => completes_congr hm,fun R ha => ?_⟩
    intro a b hab hlt
    rw [hg]
    exact ha a b hab hlt
  refine ⟨h.moved hmoves ht,fun R a b hab hlt => ?_,?_,?_,?_,?_⟩
  · obtain ⟨h1,h2,h3,h4,h5,h6,h7⟩ := h.slot R a b hab hlt
    constructor <;> simp only [mergesOf,Called,Announced,hg,hm,hc] at * <;> assumption
  · rw [hm]
    exact h.merge
  · intro c hcm
    rw [hc] at hcm
    obtain ⟨h1,h2,h3⟩ := h.call c hcm
    refine ⟨h1,h2,?_⟩
    rwa [Responsible,completes_congr hm]
  · rw [hc]
    exact h.nodup
  · rw [hg]
    exact h.idle

end Round
end GraphZeppelin.Boruvka
