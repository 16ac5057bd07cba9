import GraphZeppelin.Verifier.Kruskal

open SpanningForest

namespace GraphZeppelin.Verifier
open Dsu CC

variable {n : ℕ}

namespace GraphVerifier

structure Compressed (v v' : GraphVerifier n) : Prop where
  adjMatrix : v'.adjMatrix = v.adjMatrix
  ccs : v'.kruskalCcs = v.kruskalCcs
  need : v'.needQueryCompute = v.needQueryCompute
  rep : ∀ x, v'.kruskalDsu.rep x = v.kruskalDsu.rep x

namespace Compressed

theorem refl (v : GraphVerifier n) : Compressed v v := ⟨rfl,rfl,rfl,fun _ => rfl⟩

theorem trans {v v' v'' : GraphVerifier n} (h : Compressed v v') (h' : Compressed v' v'') :
    Compressed v v'' :=
  ⟨h'.adjMatrix.trans h.adjMatrix,h'.ccs.trans h.ccs,h'.need.trans h.need,
    fun x => (h'.rep x).trans (h.rep x)⟩

theorem find (v : GraphVerifier n) (i : Fin n) :
    Compressed v { v with kruskalDsu := (v.kruskalDsu.findRoot i).1 } :=
  ⟨rfl,rfl,rfl,DisjointSetUnionMT.rep_findRoot _ i⟩

theorem describes {v v' : GraphVerifier n} (h : Compressed v v') {G : SimpleGraph (Fin n)}
    (hv : v.Describes G) : v'.Describes G :=
  ⟨fun a b => by rw [h.rep,h.rep]; exact hv.dsu a b,h.ccs.trans hv.ccs⟩

end Compressed

theorem verifyRoots_spec (cc : ConnectedComponents n) (l : List (Fin n)) (v : GraphVerifier n) :
    Compressed v (verifyRoots cc l v).1 ∧
      ((verifyRoots cc l v).2 = .ok () ↔
        ∀ i ∈ l, cc.isConnected (v.kruskalDsu.rep i) i = true) := by
  induction l generalizing v with
  | nil => exact ⟨.refl v,by simp [verifyRoots]⟩
  | cons i l ih =>
    rw [verifyRoots]
    simp only [DisjointSetUnionMT.findRoot_snd]
    split
    · next hc =>
      obtain ⟨hcomp,hok⟩ := ih { v with kruskalDsu := (v.kruskalDsu.findRoot i).1 }
      refine ⟨(Compressed.find v i).trans hcomp,hok.trans ?_⟩
      simp only [DisjointSetUnionMT.rep_findRoot,List.forall_mem_cons,hc,true_and]
    · next hc =>
      refine ⟨.find v i,iff_of_false (fun h => by cases h) fun h => ?_⟩
      exact hc (h i List.mem_cons_self)

theorem verifyConnectedComponents_compressed (v : GraphVerifier n) (cc : ConnectedComponents n) :
    Compressed v.kruskal (v.verifyConnectedComponents cc).1 := by
  rw [verifyConnectedComponents]
  split
  · exact .refl _
  · exact (verifyRoots_spec cc _ _).1

theorem verifyConnectedComponents_ok (v : GraphVerifier n) (cc : ConnectedComponents n) :
    (v.verifyConnectedComponents cc).2 = .ok () ↔ v.kruskal.kruskalCcs = cc.size ∧
      ∀ i, cc.isConnected (v.kruskal.kruskalDsu.rep i) i = true := by
  rw [verifyConnectedComponents]
  split
  · next h => exact iff_of_false (fun hf => by cases hf) fun hf => h hf.1
  · next h =>
    rw [(verifyRoots_spec cc _ _).2]
    simp only [List.mem_finRange,true_imp_iff,not_not.mp h,true_and]

structure Agrees (rootMap : Fin n → Option (Fin n)) (l : List (Fin n)) (f g : Fin n → Fin n) :
    Prop where
  known : ∀ i ∈ l, ∀ root, rootMap (f i) = some root → root = g i
  pairs : ∀ i ∈ l, ∀ j ∈ l, f i = f j → g i = g j

namespace Agrees

variable {rootMap : Fin n → Option (Fin n)} {i : Fin n} {l : List (Fin n)} {f g : Fin n → Fin n}

theorem cons_none (h : rootMap (f i) = none) :
    Agrees rootMap (i :: l) f g ↔ Agrees (Function.update rootMap (f i) (some (g i))) l f g := by
  constructor
  · intro ha
    refine ⟨fun j hj root hroot => ?_,fun j hj k hk =>
      ha.pairs j (List.mem_cons_of_mem _ hj) k (List.mem_cons_of_mem _ hk)⟩
    rw [Function.update_apply] at hroot
    split at hroot
    · next hji =>
      cases hroot
      exact ha.pairs i List.mem_cons_self j (List.mem_cons_of_mem _ hj) hji.symm
    · exact ha.known j (List.mem_cons_of_mem _ hj) root hroot
  · intro ha
    have hi {j : Fin n} (hj : j ∈ l) (hji : f j = f i) : g i = g j :=
      ha.known j hj (g i) (by rw [hji,Function.update_self])
    constructor
    · rintro j (_ | ⟨_,hj⟩) root hroot
      · cases h.symm.trans hroot
      · by_cases hji : f j = f i
        · cases h.symm.trans (hji ▸ hroot)
        · exact ha.known j hj root (by rw [Function.update_of_ne hji]; exact hroot)
    · rintro j (_ | ⟨_,hj⟩) k (_ | ⟨_,hk⟩) hjk
      · rfl
      · exact hi hk hjk.symm
      · exact (hi hj hjk).symm
      · exact ha.pairs j hj k hk hjk

theorem cons_some {root : Fin n} (h : rootMap (f i) = some root) :
    Agrees rootMap (i :: l) f g ↔ root = g i ∧ Agrees rootMap l f g := by
  constructor
  · intro ha
    exact ⟨ha.known i List.mem_cons_self root h,
      fun j hj => ha.known j (List.mem_cons_of_mem _ hj),
      fun j hj k hk => ha.pairs j (List.mem_cons_of_mem _ hj) k (List.mem_cons_of_mem _ hk)⟩
  · rintro ⟨rfl,ha⟩
    have hi {j : Fin n} (hj : j ∈ l) (hji : f j = f i) : g i = g j :=
      ha.known j hj (g i) (hji ▸ h)
    constructor
    · rintro j (_ | ⟨_,hj⟩) root hroot
      · exact (Option.some.inj (h.symm.trans hroot)).symm
      · exact ha.known j hj root hroot
    · rintro j (_ | ⟨_,hj⟩) k (_ | ⟨_,hk⟩) hjk
      · rfl
      · exact hi hk hjk.symm
      · exact (hi hj hjk).symm
      · exact ha.pairs j hj k hk hjk

end Agrees

theorem verifyRootMap_spec (backup : AdjMatrix n) (l : List (Fin n))
    (rootMap : Fin n → Option (Fin n)) (v : GraphVerifier n) (f : DisjointSetUnion n) :
    ∃ w, Compressed v w ∧
      ((verifyRootMap backup l rootMap v f = (w,.ok ()) ∧
          Agrees rootMap l v.kruskalDsu.rep f.rep) ∨
        (∃ err, verifyRootMap backup l rootMap v f = (w.restore backup,.error err)) ∧
          ¬ Agrees rootMap l v.kruskalDsu.rep f.rep) := by
  induction l generalizing rootMap v f with
  | nil => exact ⟨v,.refl v,.inl ⟨rfl,by simp,by simp⟩⟩
  | cons i l ih =>
    have hcomp := Compressed.find v i
    have hk : (v.kruskalDsu.findRoot i).1.rep = v.kruskalDsu.rep :=
      funext (DisjointSetUnionMT.rep_findRoot _ i)
    have hf : (f.findRoot i).1.rep = f.rep := funext (DisjointSetUnionMT.rep_findRoot _ i)
    rw [verifyRootMap]
    simp only [DisjointSetUnionMT.findRoot_snd]
    cases hmap : rootMap (v.kruskalDsu.rep i) with
    | none =>
      obtain ⟨w,hw,hres⟩ := ih (Function.update rootMap (v.kruskalDsu.rep i) (some (f.rep i)))
        { v with kruskalDsu := (v.kruskalDsu.findRoot i).1 } (f.findRoot i).1
      rw [Agrees.cons_none hmap]
      refine ⟨w,hcomp.trans hw,?_⟩
      simpa only [hk,hf] using hres
    | some root =>
      rw [Agrees.cons_some hmap]
      by_cases hroot : root = f.rep i
      · obtain ⟨w,hw,hres⟩ := ih rootMap { v with kruskalDsu := (v.kruskalDsu.findRoot i).1 }
          (f.findRoot i).1
        refine ⟨w,hcomp.trans hw,?_⟩
        simpa only [hk,hf,hroot,ne_eq,not_true_eq_false,if_false,true_and] using hres
      · exact ⟨_,hcomp,.inr ⟨⟨_,if_pos hroot⟩,fun h => hroot h.1⟩⟩

theorem agrees_all {f g : Fin n → Fin n} :
    Agrees (fun _ => none) (List.finRange n) f g ↔ ∀ i j, f i = f j → g i = g j :=
  ⟨fun h i j => h.pairs i (List.mem_finRange i) j (List.mem_finRange j),
    fun h => ⟨fun _ _ _ hr => (Option.some_ne_none _ hr.symm).elim,fun i _ j _ => h i j⟩⟩

end GraphVerifier
end GraphZeppelin.Verifier
