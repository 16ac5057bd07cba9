import GraphZeppelin.Lib.PointerForest
import GraphZeppelin.Lib.SpanningForest

namespace GraphZeppelin.Dsu
open PointerForest SpanningForest SimpleGraph

variable {n : ℕ}

def Below (priority : Fin n → ℕ) (x y : Fin n) : Prop :=
  priority x < priority y ∨ (priority x = priority y ∧ y < x)

instance (prio : Fin n → ℕ) (x y : Fin n) : Decidable (Below prio x y) :=
  inferInstanceAs (Decidable (_ ∨ _))

instance (prio : Fin n → ℕ) : IsStrictOrder (Fin n) (Below prio) where
  irrefl x h := by unfold Below at h; omega
  trans x y z h h' := by unfold Below at *; omega

def orderEdge (priority : Fin n → ℕ) (a b : Fin n) : Fin n × Fin n :=
  let e := if priority a = priority b ∧ b < a then (b,a) else (a,b)
  if priority e.1 < priority e.2 then (e.2,e.1) else e

theorem orderEdge_cases (priority : Fin n → ℕ) {a b : Fin n} (h : a ≠ b) :
    (orderEdge priority a b = (a,b) ∧ Below priority b a) ∨
      (orderEdge priority a b = (b,a) ∧ Below priority a b) := by
  have hv : a.val ≠ b.val := fun e => h (Fin.ext e)
  unfold orderEdge Below
  by_cases he : priority a = priority b ∧ b < a
  · right
    simp only [he,and_self,if_true]
    exact ⟨by simp,.inr trivial⟩
  · simp only [he,if_false]
    by_cases hl : priority a < priority b
    · exact .inr ⟨by simp [hl],.inl hl⟩
    · exact .inl ⟨by simp [hl],by omega⟩

structure DisjointSetUnionMT (n : ℕ) where
  parent : Fin n → Fin n
  priority : Fin n → ℕ
  climbs : Climbs (Below priority) parent

structure DSUMergeRet where
  merged : Bool
  root : ℕ
  child : ℕ
deriving DecidableEq, Repr

namespace DisjointSetUnionMT

def fresh (priority : Fin n → ℕ) : DisjointSetUnionMT n :=
  ⟨id,priority,fun _ hx => absurd rfl hx⟩

def reset (d : DisjointSetUnionMT n) : DisjointSetUnionMT n := fresh d.priority

theorem below_grandparent (d : DisjointSetUnionMT n) {u : Fin n}
    (h : d.parent (d.parent u) ≠ d.parent u) : Below d.priority u (d.parent (d.parent u)) := by
  have hu : d.parent u ≠ u := fun e => h (congrArg d.parent e)
  exact parent_above d.climbs (d.climbs u hu)

def halve (d : DisjointSetUnionMT n) (u : Fin n) (h : d.parent (d.parent u) ≠ d.parent u) :
    DisjointSetUnionMT n where
  parent := Function.update d.parent u (d.parent (d.parent u))
  priority := d.priority
  climbs := climbs_update d.climbs (d.below_grandparent h)

def findRootLoop : ℕ → DisjointSetUnionMT n → Fin n → DisjointSetUnionMT n × Fin n
  | 0, d, u => (d,d.parent u)
  | fuel + 1, d, u =>
    if h : d.parent (d.parent u) = d.parent u then (d,d.parent u)
    else findRootLoop fuel (d.halve u h) ((d.halve u h).parent u)

def findRoot (d : DisjointSetUnionMT n) (u : Fin n) : DisjointSetUnionMT n × Fin n :=
  findRootLoop n d u

def link (d : DisjointSetUnionMT n) (a b : Fin n) (h : Below d.priority b a) :
    DisjointSetUnionMT n where
  parent := Function.update d.parent b a
  priority := d.priority
  climbs := climbs_update d.climbs h

def merge (d : DisjointSetUnionMT n) (u v : Fin n) : DisjointSetUnionMT n × DSUMergeRet :=
  let fa := d.findRoot u
  let fb := fa.1.findRoot v
  let e := orderEdge fb.1.priority fa.2 fb.2
  if fa.2 = fb.2 then (fb.1,⟨false,0,0⟩)
  else if h : Below fb.1.priority e.2 e.1 then (fb.1.link e.1 e.2 h,⟨true,e.1,e.2⟩)
  else (fb.1,⟨false,0,0⟩)

abbrev rep (d : DisjointSetUnionMT n) (x : Fin n) : Fin n := root d.parent x

@[simp] theorem rep_fresh (priority : Fin n → ℕ) (x : Fin n) : (fresh priority).rep x = x :=
  root_of_fixed rfl

theorem rep_halve (d : DisjointSetUnionMT n) (u : Fin n)
    (h : d.parent (d.parent u) ≠ d.parent u) (x : Fin n) : (d.halve u h).rep x = d.rep x := by
  have hu : d.parent u ≠ u := fun e => h (congrArg d.parent e)
  exact root_reroute d.climbs hu (d.below_grandparent h)
    (by rw [root_parent d.climbs,root_parent d.climbs]) x

theorem findRootLoop_spec (fuel : ℕ) (d : DisjointSetUnionMT n) (u : Fin n)
    (hf : {z | Below d.priority u z}.ncard ≤ fuel) :
    (findRootLoop fuel d u).2 = d.rep u ∧
      (∀ x, (findRootLoop fuel d u).1.rep x = d.rep x) ∧
      (findRootLoop fuel d u).1.priority = d.priority := by
  induction fuel generalizing d u with
  | zero =>
    have hu : d.parent u = u := by
      by_contra hu
      have hlt := ncard_above_lt (d.climbs u hu)
      omega
    exact ⟨by rw [findRootLoop,hu,rep,root_of_fixed hu],fun _ => rfl,rfl⟩
  | succ fuel ih =>
    rw [findRootLoop]
    split
    · next h =>
      have hr : d.rep u = d.parent u := by rw [rep,← root_parent d.climbs,root_of_fixed h]
      exact ⟨hr.symm,fun _ => rfl,rfl⟩
    · next h =>
      have hp : (d.halve u h).parent u = d.parent (d.parent u) := by simp [halve]
      have hlt := ncard_above_lt (d.below_grandparent h)
      obtain ⟨hr,hs,hpr⟩ := ih (d.halve u h) ((d.halve u h).parent u)
        (by rw [hp]; exact Nat.le_of_lt_succ (lt_of_lt_of_le hlt hf))
      refine ⟨?_,fun x => (hs x).trans (d.rep_halve u h x),hpr⟩
      rw [hr,d.rep_halve u h,hp,rep,root_parent d.climbs,root_parent d.climbs]

theorem findRoot_spec (d : DisjointSetUnionMT n) (u : Fin n) :
    (d.findRoot u).2 = d.rep u ∧ (∀ x, (d.findRoot u).1.rep x = d.rep x) ∧
      (d.findRoot u).1.priority = d.priority := by
  refine findRootLoop_spec n d u ?_
  simpa using Set.ncard_le_card {z | Below d.priority u z}

theorem findRoot_snd (d : DisjointSetUnionMT n) (u : Fin n) : (d.findRoot u).2 = d.rep u :=
  (findRoot_spec d u).1

theorem rep_findRoot (d : DisjointSetUnionMT n) (u x : Fin n) :
    (d.findRoot u).1.rep x = d.rep x :=
  (findRoot_spec d u).2.1 x

def findAt (f : Fin n → Fin n) (st : DisjointSetUnionMT n × (Fin n → Fin n)) (i : Fin n) :
    DisjointSetUnionMT n × (Fin n → Fin n) :=
  let r := st.1.findRoot (f i)
  (r.1,Function.update st.2 i r.2)

def findEach (d : DisjointSetUnionMT n) (f : Fin n → Fin n) :
    DisjointSetUnionMT n × (Fin n → Fin n) :=
  (List.finRange n).foldl (findAt f) (d,id)

theorem foldl_findAt (f : Fin n → Fin n) (l : List (Fin n))
    (st : DisjointSetUnionMT n × (Fin n → Fin n)) (x : Fin n) :
    (l.foldl (findAt f) st).1.rep x = st.1.rep x := by
  induction l generalizing st with
  | nil => rfl
  | cons i l ih =>
    rw [List.foldl_cons,ih]
    exact rep_findRoot _ _ _

theorem foldl_findAt_roots (f : Fin n → Fin n) (l : List (Fin n)) (hl : l.Nodup)
    (st : DisjointSetUnionMT n × (Fin n → Fin n)) (i : Fin n) :
    (l.foldl (findAt f) st).2 i = if i ∈ l then st.1.rep (f i) else st.2 i := by
  induction l generalizing st with
  | nil => simp
  | cons j l ih =>
    obtain ⟨hj,hl⟩ := List.nodup_cons.mp hl
    rw [List.foldl_cons,ih hl]
    by_cases hi : i ∈ l
    · rw [if_pos hi,if_pos (List.mem_cons_of_mem _ hi)]
      exact rep_findRoot _ _ _
    · rw [if_neg hi]
      by_cases hij : i = j
      · subst hij
        simp [findAt,findRoot_snd]
      · simp [findAt,hij,hi]

theorem rep_findEach (d : DisjointSetUnionMT n) (f : Fin n → Fin n) (x : Fin n) :
    (d.findEach f).1.rep x = d.rep x := foldl_findAt f _ _ x

theorem findEach_snd (d : DisjointSetUnionMT n) (f : Fin n → Fin n) (i : Fin n) :
    (d.findEach f).2 i = d.rep (f i) := by
  rw [findEach,foldl_findAt_roots f _ (List.nodup_finRange n),if_pos (List.mem_finRange i)]

theorem merge_cases (d : DisjointSetUnionMT n) (u v : Fin n) :
    (d.rep u = d.rep v ∧ (d.merge u v).2 = ⟨false,0,0⟩ ∧
      ∀ x, (d.merge u v).1.rep x = d.rep x) ∨
    (d.rep u ≠ d.rep v ∧ (d.merge u v).2.merged = true ∧
      ∀ x y, (d.merge u v).1.rep x = (d.merge u v).1.rep y ↔
        d.rep x = d.rep y ∨ (d.rep x = d.rep u ∧ d.rep y = d.rep v) ∨
          (d.rep x = d.rep v ∧ d.rep y = d.rep u)) := by
  have ha : (d.findRoot u).2 = d.rep u := findRoot_snd d u
  have hb : ((d.findRoot u).1.findRoot v).2 = d.rep v := by
    rw [findRoot_snd,rep_findRoot]
  have hs (x : Fin n) : ((d.findRoot u).1.findRoot v).1.rep x = d.rep x := by
    rw [rep_findRoot,rep_findRoot]
  unfold merge
  simp only [ha,hb]
  generalize (d.findRoot u).1.findRoot v = f at hb hs
  by_cases huv : d.rep u = d.rep v
  · simp only [huv,if_true]
    exact .inl ⟨trivial,trivial,hs⟩
  · right
    simp only [huv,if_false]
    have fixed (w : Fin n) : f.1.parent (d.rep w) = d.rep w := by
      rw [fixed_iff_root f.1.climbs]
      exact (hs _).trans (root_root d.climbs w)
    have hrep (w : Fin n) : d.rep (d.rep w) = d.rep w := root_root d.climbs w
    rcases orderEdge_cases f.1.priority huv with ⟨he,hB⟩ | ⟨he,hB⟩
    · simp only [he,hB,dif_pos]
      refine ⟨huv,trivial,fun x y => ?_⟩
      refine (root_link_eq_iff f.1.climbs (fixed v) hB x y).trans ?_
      simp only [hs,hrep]
      tauto
    · simp only [he,hB,dif_pos]
      refine ⟨huv,trivial,fun x y => ?_⟩
      refine (root_link_eq_iff f.1.climbs (fixed u) hB x y).trans ?_
      simp only [hs,hrep]

def Represents (d : DisjointSetUnionMT n) (G : SimpleGraph (Fin n)) : Prop :=
  ∀ u v, d.rep u = d.rep v ↔ G.Reachable u v

theorem represents_fresh (priority : Fin n → ℕ) : (fresh priority).Represents ⊥ :=
  fun u v => by simp

theorem Represents.findRoot {d : DisjointSetUnionMT n} {G : SimpleGraph (Fin n)}
    (h : d.Represents G) (u : Fin n) : (d.findRoot u).1.Represents G :=
  fun x y => by rw [rep_findRoot,rep_findRoot]; exact h x y

theorem Represents.merged_iff {d : DisjointSetUnionMT n} {G : SimpleGraph (Fin n)}
    (h : d.Represents G) (u v : Fin n) :
    (d.merge u v).2.merged = true ↔ ¬ G.Reachable u v := by
  rw [← h u v]
  rcases merge_cases d u v with ⟨he,hm,_⟩ | ⟨he,hm,_⟩
  · simp [he,hm]
  · simp [he,hm]

theorem Represents.merge {d : DisjointSetUnionMT n} {G : SimpleGraph (Fin n)}
    (h : d.Represents G) (u v : Fin n) : (d.merge u v).1.Represents (G ⊔ edge u v) := by
  intro x y
  rw [reachable_sup_edge,← h x y,← h x u,← h v y,← h x v,← h u y]
  rcases merge_cases d u v with ⟨he,_,hs⟩ | ⟨_,_,hs⟩
  · rw [hs,hs]
    constructor
    · exact .inl
    · rintro (hxy | ⟨hx,hy⟩ | ⟨hx,hy⟩)
      · exact hxy
      · rw [hx,he,hy]
      · rw [hx,← he,hy]
  · rw [hs]
    constructor
    · rintro (hxy | ⟨hx,hy⟩ | ⟨hx,hy⟩)
      · exact .inl hxy
      · exact .inr (.inl ⟨hx,hy.symm⟩)
      · exact .inr (.inr ⟨hx,hy.symm⟩)
    · rintro (hxy | ⟨hx,hy⟩ | ⟨hx,hy⟩)
      · exact .inl hxy
      · exact .inr (.inl ⟨hx,hy.symm⟩)
      · exact .inr (.inr ⟨hx,hy.symm⟩)

end DisjointSetUnionMT
end GraphZeppelin.Dsu
