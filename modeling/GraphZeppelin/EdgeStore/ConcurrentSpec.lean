import GraphZeppelin.EdgeStore.ConcurrentControl

namespace GraphZeppelin.EdgeStore.Concurrent

variable {n T : ℕ} {tag : Fin n → Fin n → ℕ} {s : EdgeStore n} {pc : Pc n}
  {X : ℕ → Fin n → Fin n → ℕ} {N : Fin n → Fin n → ℕ}

def Exact (tag : Fin n → Fin n → ℕ) (src : Fin n) (l : List (SubgraphTaggedUpdate n)) : Prop :=
  ∀ e ∈ l, e.subgraph = tag src e.dst

theorem Exact.wellTagged {src : Fin n} {l : List (SubgraphTaggedUpdate n)} (h : Exact tag src l)
    (bound : ℕ) : WellTagged tag bound src l :=
  fun e he g _ => by rw [h e he]

theorem exact_tagged (tag : Fin n → Fin n → ℕ) (src : Fin n) (dsts : List (Fin n)) :
    Exact tag src (tagged tag src dsts) := by
  intro e he
  obtain ⟨dst,_,rfl⟩ := List.mem_map.mp he
  rfl

theorem submitted_tagged (src : Fin n) (dsts : List (Fin n)) (v u : Fin n) :
    submitted src (tagged tag src dsts) v u = (Job.batch src dsts).submitted v u := by
  rw [submitted,Job.submitted,if_congr eq_comm rfl rfl,tagged,List.countP_map,List.count_eq_countP]
  exact if_congr Iff.rfl (List.countP_congr fun _ _ => by simp) rfl

def reachAll (bs : List (TaggedUpdateBatch n)) (g : ℕ) (v u : Fin n) : ℕ :=
  (bs.map fun b => b.reaches g v u).sum

@[simp] theorem reachAll_nil (g : ℕ) (v u : Fin n) : reachAll [] g v u = 0 := rfl

@[simp] theorem reachAll_cons (b : TaggedUpdateBatch n) (bs : List (TaggedUpdateBatch n)) (g : ℕ)
    (v u : Fin n) : reachAll (b :: bs) g v u = b.reaches g v u + reachAll bs g v u := rfl

@[simp] theorem reachAll_append (bs bs' : List (TaggedUpdateBatch n)) (g : ℕ) (v u : Fin n) :
    reachAll (bs ++ bs') g v u = reachAll bs g v u + reachAll bs' g v u := by
  rw [reachAll,List.map_append,List.sum_append]
  rfl

theorem reaches_of_nil {b : TaggedUpdateBatch n} (h : b.dstsData = []) (g : ℕ) (v u : Fin n) :
    b.reaches g v u = 0 := by
  rw [TaggedUpdateBatch.reaches,h,List.countP_nil,ite_self]

theorem reachAll_sketchCall (src : Fin n) (f : ℕ) (all : List (SubgraphTaggedUpdate n)) (g : ℕ)
    (v u : Fin n) : reachAll (sketchCall src f all).sketch g v u = sketched src f all g v u := by
  rw [sketchCall,sketched]
  rcases Nat.eq_zero_or_pos f with rfl | hf
  · rfl
  · rw [if_neg (Nat.ne_of_gt hf),if_pos hf]
    rfl

def Pc.pending : Pc n → List (TaggedUpdateBatch n)
  | .inserted k src cur ret => k.sketch ++ [⟨src,cur - 1,cur,ret⟩]
  | .advance k _ | .fetched k _ _ | .contract k _ _ | .finish k => k.sketch
  | .check k more | .begin k more => k.sketch ++ [more]
  | .deliver b rest => b :: rest.sketch
  | .idle | .flushTest | .flushRead | .insert .. | .crashed => []

def Pc.submitting (v u : Fin n) : Pc n → ℕ
  | .insert src _ all => submitted src all v u
  | _ => 0

theorem returning_pending (flushing : Bool) (bs : List (TaggedUpdateBatch n)) :
    (∀ g v u, reachAll (Call.returning flushing bs).pending g v u = reachAll bs g v u) ∧
      ∀ v u, (Call.returning flushing bs).submitting v u = 0 := by
  induction bs with
  | nil =>
    rw [Call.returning]
    split <;> exact ⟨fun _ _ _ => rfl,fun _ _ => rfl⟩
  | cons b bs ih =>
    rw [Call.returning]
    split
    · next hnil =>
      refine ⟨fun g v u => ?_,ih.2⟩
      rw [ih.1,reachAll_cons,reaches_of_nil hnil,zero_add]
    · exact ⟨fun _ _ _ => rfl,fun _ _ => rfl⟩

theorem returned_pending (k : Call n) (more : List (TaggedUpdateBatch n)) (g : ℕ) (v u : Fin n) :
    reachAll (k.returned more).pending g v u = reachAll k.sketch g v u + reachAll more g v u := by
  rw [Call.returned,(returning_pending _ _).1,reachAll_append]

theorem returned_submitting (k : Call n) (more : List (TaggedUpdateBatch n)) (v u : Fin n) :
    (k.returned more).submitting v u = 0 := (returning_pending _ _).2 v u

def Sound (tag : Fin n → Fin n → ℕ) (D : ℕ → Fin n → Fin n → ℕ) (N : Fin n → Fin n → ℕ)
    (s : EdgeStore n) : Prop :=
  ∀ bound, s.curSubgraph ≤ bound → s.Balanced tag bound D N

theorem Sound.congr {D D' : ℕ → Fin n → Fin n → ℕ} {N' : Fin n → Fin n → ℕ}
    (h : Sound tag D N s) (hD : ∀ g v u, D g v u = D' g v u) (hN : ∀ v u, N v u = N' v u) :
    Sound tag D' N' s := by
  obtain rfl : D = D' := by
    funext g v u
    exact hD g v u
  obtain rfl : N = N' := by
    funext v u
    exact hN v u
  exact h

theorem Sound.exact {D : ℕ → Fin n → Fin n → ℕ} (h : Sound tag D N s) (v : Fin n) :
    Exact tag v (s.adjlist v) := by
  intro e he
  have ht := (h (s.curSubgraph + e.subgraph + tag v e.dst) (by omega)).tagged v e he
  exact le_antisymm ((ht e.subgraph (by omega)).mp le_rfl) ((ht (tag v e.dst) (by omega)).mpr le_rfl)

theorem Sound.insert {D : ℕ → Fin n → Fin n → ℕ} (h : Sound tag D N s) {src : Fin n} {f : ℕ}
    {all : List (SubgraphTaggedUpdate n)} (hall : Exact tag src all)
    (hsafe : (Pc.insert src f all).Safe s) :
    ∃ r, s.insertLocked src f (sortUpdates (all.filter fun e => f ≤ e.subgraph)) = .ok r ∧
      r.cur = s.curSubgraph ∧ Sound tag (fun g w u => D g w u + sketched src f all g w u +
        returned src s.curSubgraph r.ret g w u) (fun w u => N w u + submitted src all w u) r.store := by
  obtain ⟨hf,⟨e,he,hle⟩,hflag⟩ := hsafe
  have hds := storeEdges_sort f all
  have hmem : e ∈ all.filter fun e => f ≤ e.subgraph :=
    List.mem_filter.mpr ⟨he,decide_eq_true (show f ≤ e.subgraph by omega)⟩
  obtain ⟨r,hr⟩ := exists_insertLocked s src f ⟨e,hds.perm.mem_iff.mpr hmem,hle⟩
  obtain ⟨hframe,hcur⟩ := insertLocked_frame hr
  refine ⟨r,hr,hcur,fun bound hb => ?_⟩
  rw [hframe.cur] at hb
  exact ((h bound hb).insertLocked (hall.wellTagged bound) hds hf hflag hr).1

theorem Sound.contract {D : ℕ → Fin n → Fin n → ℕ} (h : Sound tag D N s) {k : Call n} {label : ℕ}
    {v : Fin n} (hsafe : (Pc.contract k label v).Safe s) :
    Sound tag (fun g w u => D g w u +
      (⟨v,label - 1,label,(s.vertexContract v).2⟩ : TaggedUpdateBatch n).reaches g w u) N
      (s.vertexContract v).1 := by
  cases hv : s.vertexContracted v with
  | true =>
    rw [vertexContract,if_pos hv]
    exact h.congr (fun g w u => by rw [reaches_of_nil rfl,add_zero]) fun _ _ => rfl
  | false =>
    have hbal : Sound tag (fun g w u => D g w u + (⟨v,s.curSubgraph - 1,s.curSubgraph,
        s.adjlist v⟩ : TaggedUpdateBatch n).reaches g w u) N (s.vertexContract v).1 := by
      intro bound hb
      rw [(vertexContract_frame s v).cur] at hb
      exact (h bound hb).contract hv fun _ _ _ => rfl
    rw [vertexContract_of_not hv] at hbal ⊢
    by_cases hnil : s.adjlist v = []
    · refine hbal.congr (fun g w u => ?_) fun _ _ => rfl
      rw [reaches_of_nil hnil,reaches_of_nil hnil]
    · have hlabel : label = s.curSubgraph := by
        refine hsafe ?_
        rw [needsContract,hv]
        simp [hnil]
      rw [hlabel]
      exact hbal

theorem Sound.begin {D : ℕ → Fin n → Fin n → ℕ} (h : Sound tag D N s)
    (hsafe : s.contractInProgress ∨ ∀ v, s.needsContract v = false) :
    Sound tag D N s.beginContraction := by
  unfold beginContraction
  split
  · exact h
  · next hge =>
    intro bound hb
    exact (h bound (Nat.le_of_succ_le hb)).begin
      (fun v => needsContract_false (hsafe.resolve_left hge v)) hb

def AllExact (tag : Fin n → Fin n → ℕ) (bs : List (TaggedUpdateBatch n)) : Prop :=
  ∀ b ∈ bs, Exact tag b.src b.dstsData

def Pc.ExactTags (tag : Fin n → Fin n → ℕ) : Pc n → Prop
  | .insert src _ all => Exact tag src all
  | pc => AllExact tag pc.pending

theorem Pc.step_sound (h : Sound tag (fun g v u => X g v u + reachAll pc.pending g v u) N s)
    (hexact : pc.ExactTags tag) (hsafe : pc.Safe s) :
    Sound tag (fun g v u => X g v u +
      (reachAll (pc.step s).pc.pending g v u + reachAll (pc.step s).sent g v u))
      (fun v u => N v u + pc.submitting v u) (pc.step s).store ∧
      ∀ v u, (pc.step s).pc.submitting v u = 0 := by
  cases pc with
  | idle | flushRead | crashed => exact ⟨h,fun _ _ => rfl⟩
  | flushTest =>
    simp only [Pc.step]
    split <;> exact ⟨h,fun _ _ => rfl⟩
  | insert src f all =>
    obtain ⟨r,hr,hcur,hins⟩ := h.insert hexact hsafe
    simp only [Pc.step,hr]
    refine ⟨hins.congr (fun g v u => ?_) fun _ _ => rfl,fun _ _ => rfl⟩
    simp only [Pc.pending,reachAll_append,reachAll_sketchCall,reachAll_cons,reachAll_nil,hcur,
      returned,Nat.add_zero]
    omega
  | inserted k src cur ret =>
    simp only [Pc.step]
    split
    · next hc =>
      refine ⟨h.congr (fun g v u => ?_) fun _ _ => rfl,fun _ _ => rfl⟩
      simp [Pc.pending,hc.1,TaggedUpdateBatch.reaches_nil]
    · exact ⟨h,fun _ _ => rfl⟩
  | advance k label =>
    have hfetch : Sound tag _ N s.fetchContraction.1 := fun bound hb => (h bound hb).fetch _
    simp only [Pc.step]
    split
    · exact ⟨hfetch,fun _ _ => rfl⟩
    · split
      · exact ⟨hfetch,fun _ _ => rfl⟩
      · exact ⟨hfetch.congr (fun g v u => by rw [returned_pending]; rfl) fun _ _ => rfl,
          returned_submitting k []⟩
  | fetched k label v =>
    simp only [Pc.step]
    split
    · exact ⟨h,fun _ _ => rfl⟩
    · next hnc =>
      have hv := needsContract_false (Bool.eq_false_of_not_eq_true hnc)
      exact ⟨fun bound hb => (h bound hb).mark hv,fun _ _ => rfl⟩
  | contract k label v =>
    refine ⟨(h.contract hsafe).congr (fun g w u => ?_) fun _ _ => rfl,returned_submitting k _⟩
    simp only [Pc.step,returned_pending]
    simp only [Pc.pending,reachAll_cons,reachAll_nil]
    omega
  | finish k =>
    have hfin : Sound tag _ N s.finishContraction := fun bound hb => (h bound hb).finish
    exact ⟨hfin.congr (fun g v u => by rw [Pc.step,returned_pending]; rfl) fun _ _ => rfl,
      returned_submitting k []⟩
  | check k more =>
    simp only [Pc.step]
    split
    · refine ⟨h.congr (fun g v u => ?_) fun _ _ => rfl,returned_submitting k _⟩
      rw [returned_pending,Pc.pending,reachAll_append]
      rfl
    · exact ⟨h,fun _ _ => rfl⟩
  | begin k more =>
    refine ⟨(h.begin hsafe).congr (fun g v u => ?_) fun _ _ => rfl,returned_submitting k _⟩
    simp only [Pc.step,returned_pending]
    rw [Pc.pending,reachAll_append]
    rfl
  | deliver b rest =>
    refine ⟨h.congr (fun g v u => ?_) fun _ _ => rfl,returned_submitting rest _⟩
    simp only [Pc.step,returned_pending]
    simp only [Pc.pending,reachAll_cons,reachAll_nil]
    omega

theorem vertexContract_exact {D : ℕ → Fin n → Fin n → ℕ} (h : Sound tag D N s) (v : Fin n) :
    Exact tag v (s.vertexContract v).2 := by
  unfold vertexContract
  split
  · exact fun _ he => by cases he
  · exact h.exact v

theorem insertLocked_exact {D : ℕ → Fin n → Fin n → ℕ} (h : Sound tag D N s) {src : Fin n} {f : ℕ}
    {all : List (SubgraphTaggedUpdate n)} {r : Inserted n} (hall : Exact tag src all)
    (hr : s.insertLocked src f (sortUpdates (all.filter fun e => f ≤ e.subgraph)) = .ok r) :
    Exact tag src r.ret := by
  obtain ⟨us,_,rfl⟩ := insertLocked_ok hr
  intro e he
  rcases List.mem_append.mp he with he | he
  · rw [prepared] at he
    split at he
    · exact vertexContract_exact h src e he
    · cases he
  · split at he
    · exact hall e ((storeEdges_sort f all).mem he).1
    · cases he

theorem AllExact.nil : AllExact tag [] := fun _ hb => by cases hb

theorem AllExact.append {bs bs' : List (TaggedUpdateBatch n)} (h : AllExact tag bs)
    (h' : AllExact tag bs') : AllExact tag (bs ++ bs') :=
  fun b hb => (List.mem_append.mp hb).elim (h b) (h' b)

theorem AllExact.of_append {bs bs' : List (TaggedUpdateBatch n)} (h : AllExact tag (bs ++ bs')) :
    AllExact tag bs := fun b hb => h b (List.mem_append_left bs' hb)

theorem AllExact.single {b : TaggedUpdateBatch n} (h : Exact tag b.src b.dstsData) :
    AllExact tag [b] := by
  intro b' hb'
  obtain rfl := List.mem_singleton.mp hb'
  exact h

theorem sketchCall_exact {src : Fin n} {f : ℕ} {all : List (SubgraphTaggedUpdate n)}
    (hall : Exact tag src all) : AllExact tag (sketchCall src f all).sketch := by
  simp only [sketchCall]
  split
  · exact .nil
  · exact .single hall

theorem returning_exact (flushing : Bool) {bs : List (TaggedUpdateBatch n)} (h : AllExact tag bs) :
    (Call.returning flushing bs).ExactTags tag := by
  induction bs with
  | nil =>
    rw [Call.returning]
    split <;> exact .nil
  | cons b bs ih =>
    rw [Call.returning]
    split
    · exact ih fun b' hb' => h b' (List.mem_cons_of_mem b hb')
    · exact h

theorem Pc.step_exact {D : ℕ → Fin n → Fin n → ℕ} (h : Sound tag D N s)
    (hexact : pc.ExactTags tag) :
    (pc.step s).pc.ExactTags tag ∧ AllExact tag (pc.step s).sent := by
  have hreturned {k : Call n} {more : List (TaggedUpdateBatch n)} (hk : AllExact tag k.sketch)
      (hmore : AllExact tag more) : (k.returned more).ExactTags tag :=
    returning_exact k.flushing (hk.append hmore)
  cases pc with
  | idle | flushRead | crashed => exact ⟨.nil,.nil⟩
  | flushTest =>
    simp only [Pc.step]
    split <;> exact ⟨.nil,.nil⟩
  | insert src f all =>
    simp only [Pc.step]
    split
    · exact ⟨.nil,.nil⟩
    · next r hr =>
      exact ⟨(sketchCall_exact hexact).append (.single (insertLocked_exact h hexact hr)),.nil⟩
  | inserted k src cur ret =>
    have hall : AllExact tag (k.sketch ++ [⟨src,cur - 1,cur,ret⟩]) := hexact
    simp only [Pc.step]
    split
    · exact ⟨hall.of_append,.nil⟩
    · exact ⟨hall,.nil⟩
  | advance k label =>
    simp only [Pc.step]
    split
    · exact ⟨hexact,.nil⟩
    · split
      · exact ⟨hexact,.nil⟩
      · exact ⟨hreturned hexact .nil,.nil⟩
  | fetched k label v =>
    simp only [Pc.step]
    split <;> exact ⟨hexact,.nil⟩
  | contract k label v =>
    exact ⟨hreturned hexact (.single (vertexContract_exact h v)),.nil⟩
  | finish k => exact ⟨hreturned hexact .nil,.nil⟩
  | check k more =>
    have hall : AllExact tag (k.sketch ++ [more]) := hexact
    simp only [Pc.step]
    split
    · exact ⟨returning_exact k.flushing hall,.nil⟩
    · exact ⟨hall,.nil⟩
  | begin k more => exact ⟨returning_exact k.flushing hexact,.nil⟩
  | deliver b rest =>
    have hall : AllExact tag (b :: rest.sketch) := hexact
    refine ⟨hreturned (fun b' hb' => hall b' (List.mem_cons_of_mem b hb')) .nil,
      .single (hall b List.mem_cons_self)⟩

theorem reachAll_above {bs : List (TaggedUpdateBatch n)} (h : AllExact tag bs) {g : ℕ} {v u : Fin n}
    (hg : tag v u < g) : reachAll bs g v u = 0 := by
  refine List.sum_eq_zero fun k hk => ?_
  obtain ⟨b,hb,rfl⟩ := List.mem_map.mp hk
  rw [TaggedUpdateBatch.reaches]
  split
  · next hv =>
    refine List.countP_eq_zero.mpr fun e he => ?_
    simp only [decide_eq_true_eq,not_and]
    rintro rfl _ hle
    have htag := h b hb e he
    rw [hv] at htag
    omega
  · rfl

end GraphZeppelin.EdgeStore.Concurrent
