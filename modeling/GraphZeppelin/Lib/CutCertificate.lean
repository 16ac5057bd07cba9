import GraphZeppelin.Lib.SpanningForest

namespace CutCertificate
open SimpleGraph SpanningForest

variable {V : Type*} {G H F : SimpleGraph V} {A : Finset V} {Fs : List (SimpleGraph V)}

def crossing (G : SimpleGraph V) (A : Finset V) : Set (V × V) :=
  {e | e.1 ∈ A ∧ e.2 ∉ A ∧ G.Adj e.1 e.2}

noncomputable def cutValue (G : SimpleGraph V) (A : Finset V) : ℕ := (crossing G A).ncard

theorem exists_crossing {u v : V} (h : G.Reachable u v) (hu : u ∈ A) (hv : v ∉ A) :
    ∃ x y, x ∈ A ∧ y ∉ A ∧ G.Adj x y := by
  rw [reachable_iff_reflTransGen] at h
  induction h with
  | refl => exact absurd hu hv
  | @tail x y _ hxy ih =>
    by_cases hx : x ∈ A
    · exact ⟨x,y,hx,hv,hxy⟩
    · exact ih hx

section Finite

variable [Finite V]

theorem cutValue_mono (h : G ≤ H) (A : Finset V) : cutValue G A ≤ cutValue H A :=
  Set.ncard_le_ncard (fun _ he => ⟨he.1,he.2.1,h he.2.2⟩) (Set.toFinite _)

theorem cutValue_pos : 0 < cutValue G A ↔ ∃ x y, x ∈ A ∧ y ∉ A ∧ G.Adj x y := by
  rw [cutValue,Set.ncard_pos (Set.toFinite _)]
  constructor
  · rintro ⟨⟨x,y⟩,hx,hy,hxy⟩
    exact ⟨x,y,hx,hy,hxy⟩
  · rintro ⟨x,y,hx,hy,hxy⟩
    exact ⟨(x,y),hx,hy,hxy⟩

theorem cutValue_sup (h : Disjoint G H) (A : Finset V) :
    cutValue (G ⊔ H) A = cutValue G A + cutValue H A := by
  have hset : crossing (G ⊔ H) A = crossing G A ∪ crossing H A := by
    ext e
    change (_ ∧ _ ∧ (_ ∨ _)) ↔ (_ ∧ _ ∧ _) ∨ (_ ∧ _ ∧ _)
    tauto
  rw [cutValue,hset]
  refine Set.ncard_union_eq (Set.disjoint_left.mpr fun e he he' => ?_) (Set.toFinite _) (Set.toFinite _)
  exact disjoint_left.mp h _ _ he.2.2 he'.2.2

theorem IsSpanningForest.cutValue_pos (h : IsSpanningForest G F) (hG : 0 < cutValue G A) :
    0 < cutValue F A := by
  obtain ⟨x,y,hx,hy,hxy⟩ := CutCertificate.cutValue_pos.mp hG
  exact CutCertificate.cutValue_pos.mpr (exists_crossing ((h.spans x y).mpr hxy.reachable) hx hy)

omit [Finite V] in
theorem crossing_injOn (G : SimpleGraph V) (A : Finset V) :
    Set.InjOn (fun e : V × V => s(e.1,e.2)) (crossing G A) := by
  rintro ⟨x,y⟩ hxy ⟨x',y'⟩ hxy' heq
  rcases Sym2.eq_iff.mp heq with ⟨rfl,rfl⟩ | ⟨rfl,rfl⟩
  · rfl
  · exact absurd hxy.1 hxy'.2.1

theorem isEdgeReachable_iff_cuts {k : ℕ} {u v : V} :
    G.IsEdgeReachable k u v ↔ ∀ A : Finset V, u ∈ A → v ∉ A → k ≤ cutValue G A := by
  constructor
  · intro h A hu hv
    by_contra hlt
    have hcard : ((fun e : V × V => s(e.1,e.2)) '' crossing G A).encard < k := by
      rw [(crossing_injOn G A).encard_image,← (Set.toFinite _).cast_ncard_eq]
      exact_mod_cast not_le.mp hlt
    obtain ⟨x,y,hx,hy,hxy⟩ := exists_crossing (h hcard) hu hv
    rw [deleteEdges_adj] at hxy
    exact hxy.2 ⟨(x,y),⟨hx,hy,hxy.1⟩,rfl⟩
  · intro h s hs
    by_contra hnr
    have hA (x : V) : x ∈ (Set.toFinite {x | (G.deleteEdges s).Reachable u x}).toFinset ↔
        (G.deleteEdges s).Reachable u x := Set.Finite.mem_toFinset _
    have hle := h _ ((hA u).mpr .rfl) fun hv => hnr ((hA v).mp hv)
    have hmaps : Set.MapsTo (fun e : V × V => s(e.1,e.2)) (crossing G
        (Set.toFinite {x | (G.deleteEdges s).Reachable u x}).toFinset) s := by
      rintro ⟨x,y⟩ ⟨hx,hy,hxy⟩
      by_contra hnot
      refine hy ((hA y).mpr (((hA x).mp hx).trans (Adj.reachable ?_)))
      exact (deleteEdges_adj ..).mpr ⟨hxy,hnot⟩
    have hcard := Set.encard_le_encard_of_injOn hmaps (crossing_injOn G _)
    rw [← (Set.toFinite (crossing G _)).cast_ncard_eq] at hcard
    exact absurd (lt_of_le_of_lt (le_trans (by exact_mod_cast hle) hcard) hs) (lt_irrefl _)

end Finite

def rest (G : SimpleGraph V) (Fs : List (SimpleGraph V)) : SimpleGraph V := Fs.foldl (· \ ·) G

def Peeled : SimpleGraph V → List (SimpleGraph V) → Prop
  | _, [] => True
  | G, F :: Fs => IsSpanningForest G F ∧ Peeled (G \ F) Fs

def certificate (Fs : List (SimpleGraph V)) : SimpleGraph V := Fs.foldr (· ⊔ ·) ⊥

theorem certificate_cons (F : SimpleGraph V) (Fs : List (SimpleGraph V)) :
    certificate (F :: Fs) = F ⊔ certificate Fs := rfl

theorem certificate_adj {u v : V} : (certificate Fs).Adj u v ↔ ∃ F ∈ Fs, F.Adj u v := by
  induction Fs with
  | nil => simp [certificate]
  | cons F Fs ih => simp [certificate_cons,ih]

theorem peeled_concat : Peeled G (Fs ++ [F]) ↔ Peeled G Fs ∧ IsSpanningForest (rest G Fs) F := by
  induction Fs generalizing G with
  | nil => simp [Peeled,rest]
  | cons F' Fs ih =>
    rw [List.cons_append,Peeled,Peeled,ih,and_assoc]
    rfl

theorem Peeled.certificate_le (h : Peeled G Fs) : certificate Fs ≤ G := by
  induction Fs generalizing G with
  | nil => exact bot_le
  | cons F Fs ih => exact sup_le h.1.sub ((ih h.2).trans sdiff_le)

section Values

variable [Finite V]

theorem Peeled.le_cutValue (h : Peeled G Fs) (A : Finset V) :
    min Fs.length (cutValue G A) ≤ cutValue (certificate Fs) A := by
  induction Fs generalizing G with
  | nil => exact (min_le_left _ _).trans (Nat.zero_le _)
  | cons F Fs ih =>
    have hsplit : cutValue G A = cutValue F A + cutValue (G \ F) A := by
      rw [← cutValue_sup disjoint_sdiff_self_right,sup_sdiff_cancel_right h.1.sub]
    have hdisj : Disjoint F (certificate Fs) :=
      disjoint_sdiff_self_right.mono_right h.2.certificate_le
    rw [certificate_cons,cutValue_sup hdisj,List.length_cons]
    rcases Nat.eq_zero_or_pos (cutValue G A) with hzero | hpos
    · omega
    · have hF := IsSpanningForest.cutValue_pos h.1 hpos
      have hrest := ih h.2
      omega

theorem Peeled.isEdgeReachable_iff (h : Peeled G Fs) {u v : V} :
    (certificate Fs).IsEdgeReachable Fs.length u v ↔ G.IsEdgeReachable Fs.length u v := by
  refine ⟨fun hH => hH.mono h.certificate_le,fun hG => isEdgeReachable_iff_cuts.mpr ?_⟩
  intro A hu hv
  have hcut := isEdgeReachable_iff_cuts.mp hG A hu hv
  have hle := h.le_cutValue A
  omega

theorem Peeled.cutValue_certificate (h : Peeled G Fs) (A : Finset V) :
    cutValue (certificate Fs) A = (Fs.map fun F => cutValue F A).sum := by
  induction Fs generalizing G with
  | nil => exact (Set.ncard_eq_zero (Set.toFinite _)).mpr (Set.eq_empty_of_forall_notMem fun _ he => he.2.2)
  | cons F Fs ih =>
    rw [certificate_cons,cutValue_sup (disjoint_sdiff_self_right.mono_right h.2.certificate_le),
      ih h.2,List.map_cons,List.sum_cons]

end Values

def Proper (A : Finset V) : Prop := A.Nonempty ∧ ∃ v, v ∉ A

def IsMinCut (G : SimpleGraph V) (c : ℕ) : Prop :=
  (∃ A, Proper A ∧ cutValue G A = c) ∧ ∀ A, Proper A → c ≤ cutValue G A

end CutCertificate
