import Mathlib

namespace SwapMerge

variable {α : Type*} [LinearOrder α] {bs us : List α} {b u : α}

def merge : List α → List α → List α
  | [], us => us
  | b :: bs, [] => b :: bs
  | b :: bs, u :: us =>
    if u < b then u :: merge bs (b :: us)
    else if b < u then b :: merge bs (u :: us)
    else merge bs us

def Exact (bs us out : List α) : Prop :=
  out.Pairwise (· < ·) ∧ ∀ e, e ∈ out ↔ Xor (e ∈ bs) (e ∈ us)

def Orderly (bs us : List α) : Prop :=
  ∀ u ∈ us, ∀ w ∈ us, u < w → (∃ e ∈ bs, w ≤ e) → u ∈ bs

-- once a buffer entry has been swapped out, every later one is swapped out too
theorem merge_displaced (h : (b :: bs).Pairwise (· < ·)) (us : List α) :
    merge bs (b :: us) = b :: bs ++ us := by
  induction bs generalizing b with
  | nil => rfl
  | cons b' bs ih =>
    obtain ⟨hb,hbs⟩ := List.pairwise_cons.mp h
    rw [merge,if_pos (hb b' List.mem_cons_self),ih hbs]
    rfl

theorem merge_gt (h : (b :: bs).Pairwise (· < ·)) (hub : u < b) (us : List α) :
    merge (b :: bs) (u :: us) = u :: (b :: bs ++ us) := by
  rw [merge,if_pos hub,merge_displaced h]

theorem merge_lt (hbu : b < u) (bs us : List α) :
    merge (b :: bs) (u :: us) = b :: merge bs (u :: us) := by
  rw [merge,if_neg (not_lt.mpr (le_of_lt hbu)),if_pos hbu]

theorem merge_eq (b : α) (bs us : List α) : merge (b :: bs) (b :: us) = merge bs us := by
  rw [merge,if_neg (lt_irrefl b),if_neg (lt_irrefl b)]

theorem exact_gt_iff (hbs : (b :: bs).Pairwise (· < ·)) (hus : (u :: us).Pairwise (· < ·))
    (hub : u < b) :
    Exact (b :: bs) (u :: us) (u :: (b :: bs ++ us)) ↔ ∀ e ∈ b :: bs, ∀ w ∈ us, e < w := by
  obtain ⟨hu,hus'⟩ := List.pairwise_cons.mp hus
  have hbu (e : α) (he : e ∈ b :: bs) : u < e := by
    rcases List.mem_cons.mp he with rfl | he
    · exact hub
    · exact hub.trans ((List.pairwise_cons.mp hbs).1 e he)
  constructor
  · rintro ⟨hsorted,_⟩ e he w hw
    exact (List.pairwise_append.mp (List.pairwise_cons.mp hsorted).2).2.2 e he w hw
  · intro h
    refine ⟨List.pairwise_cons.mpr ⟨fun e he => ?_,List.pairwise_append.mpr ⟨hbs,hus',h⟩⟩,
      fun e => ?_⟩
    · rcases List.mem_append.mp he with he | he
      · exact hbu e he
      · exact hu e he
    · have hdisj : e ∈ b :: bs → e ∉ u :: us := fun he hmem => by
        rcases List.mem_cons.mp hmem with rfl | hmem
        · exact lt_irrefl _ (hbu _ he)
        · exact lt_irrefl _ (h e he e hmem)
      rw [← List.cons_append]
      simp only [List.mem_cons,List.mem_append,Xor] at hdisj ⊢
      tauto

theorem orderly_gt_iff (hbs : (b :: bs).Pairwise (· < ·)) (hus : (u :: us).Pairwise (· < ·))
    (hub : u < b) : Orderly (b :: bs) (u :: us) ↔ ∀ e ∈ b :: bs, ∀ w ∈ us, e < w := by
  obtain ⟨hu,_⟩ := List.pairwise_cons.mp hus
  have hnot : u ∉ b :: bs := fun he => by
    rcases List.mem_cons.mp he with rfl | he
    · exact lt_irrefl _ hub
    · exact lt_asymm hub ((List.pairwise_cons.mp hbs).1 u he)
  constructor
  · intro h e he w hw
    by_contra hle
    exact hnot (h u List.mem_cons_self w (List.mem_cons_of_mem _ hw) (hu w hw) ⟨e,he,not_lt.mp hle⟩)
  · rintro h u' hu' w hw hlt ⟨e,he,hle⟩
    rcases List.mem_cons.mp hw with rfl | hw
    · rcases List.mem_cons.mp hu' with rfl | hu'
      · exact absurd hlt (lt_irrefl _)
      · exact absurd hlt (lt_asymm (hu u' hu'))
    · exact absurd (h e he w hw) (not_lt.mpr hle)

theorem exact_lt_iff (hbs : (b :: bs).Pairwise (· < ·)) (hus : (u :: us).Pairwise (· < ·))
    (hbu : b < u) {out : List α} (hout : ∀ e ∈ out, e ∈ bs ∨ e ∈ u :: us) :
    Exact (b :: bs) (u :: us) (b :: out) ↔ Exact bs (u :: us) out := by
  obtain ⟨hb,_⟩ := List.pairwise_cons.mp hbs
  have hus' (e : α) (he : e ∈ u :: us) : b < e := by
    rcases List.mem_cons.mp he with rfl | he
    · exact hbu
    · exact hbu.trans ((List.pairwise_cons.mp hus).1 e he)
  have hlow (e : α) (he : e ∈ out) : b < e := (hout e he).elim (hb e) (hus' e)
  have hbout : b ∉ out := fun h => lt_irrefl _ (hlow b h)
  have hbbs : b ∉ bs := fun h => lt_irrefl _ (hb b h)
  have hbus : b ∉ u :: us := fun h => lt_irrefl _ (hus' b h)
  unfold Exact
  rw [List.pairwise_cons,and_iff_right hlow]
  refine and_congr_right fun _ => forall_congr' fun e => ?_
  by_cases he : e = b
  · subst he
    simp only [List.mem_cons_self,hbout,hbbs,hbus,Xor]
    tauto
  · simp only [List.mem_cons (a := e) (b := b),he,false_or]

theorem orderly_lt_iff (hus : (u :: us).Pairwise (· < ·)) (hbu : b < u) :
    Orderly (b :: bs) (u :: us) ↔ Orderly bs (u :: us) := by
  have hus' (e : α) (he : e ∈ u :: us) : b < e := by
    rcases List.mem_cons.mp he with rfl | he
    · exact hbu
    · exact hbu.trans ((List.pairwise_cons.mp hus).1 e he)
  unfold Orderly
  refine forall₂_congr fun u' hu' => forall₂_congr fun w hw => imp_congr_right fun _ => ?_
  have hb : u' ≠ b := ne_of_gt (hus' u' hu')
  simp only [List.mem_cons,exists_eq_or_imp,not_le.mpr (hus' w hw),false_or,hb]

theorem exact_eq_iff (hbs : (b :: bs).Pairwise (· < ·)) (hus : (b :: us).Pairwise (· < ·))
    {out : List α} (hout : ∀ e ∈ out, e ∈ bs ∨ e ∈ us) :
    Exact (b :: bs) (b :: us) out ↔ Exact bs us out := by
  have hbbs : b ∉ bs := fun h => lt_irrefl _ ((List.pairwise_cons.mp hbs).1 b h)
  have hbus : b ∉ us := fun h => lt_irrefl _ ((List.pairwise_cons.mp hus).1 b h)
  have hbout : b ∉ out := fun h => (hout b h).elim hbbs hbus
  unfold Exact
  refine and_congr_right fun _ => forall_congr' fun e => ?_
  by_cases he : e = b
  · subst he
    simp only [List.mem_cons_self,hbout,hbbs,hbus,Xor]
    tauto
  · simp only [List.mem_cons,he,false_or]

theorem orderly_eq_iff (hus : (b :: us).Pairwise (· < ·)) :
    Orderly (b :: bs) (b :: us) ↔ Orderly bs us := by
  obtain ⟨hb,_⟩ := List.pairwise_cons.mp hus
  constructor
  · rintro h u hu w hw hlt ⟨e,he,hle⟩
    have hmem := h u (List.mem_cons_of_mem _ hu) w (List.mem_cons_of_mem _ hw) hlt
      ⟨e,List.mem_cons_of_mem _ he,hle⟩
    exact (List.mem_cons.mp hmem).resolve_left (ne_of_gt (hb u hu))
  · rintro h u hu w hw hlt ⟨e,he,hle⟩
    rcases List.mem_cons.mp hu with rfl | hu'
    · exact List.mem_cons_self
    · have hw' : w ∈ us := (List.mem_cons.mp hw).resolve_left fun heq =>
        lt_asymm hlt (heq ▸ hb u hu')
      have he' : e ∈ bs := (List.mem_cons.mp he).resolve_left fun heq =>
        not_lt.mpr (heq ▸ hle) (hb w hw')
      exact List.mem_cons_of_mem _ (h u hu' w hw' hlt ⟨e,he',hle⟩)

theorem mem_of_mem_merge {e : α} (he : e ∈ merge bs us) : e ∈ bs ∨ e ∈ us := by
  induction bs generalizing us with
  | nil => exact .inr he
  | cons b bs ih =>
    cases us with
    | nil => exact .inl he
    | cons u us =>
      rw [merge] at he
      split at he
      · rcases List.mem_cons.mp he with rfl | he
        · exact .inr List.mem_cons_self
        · rcases ih he with h | h
          · exact .inl (List.mem_cons_of_mem _ h)
          · rcases List.mem_cons.mp h with rfl | h
            · exact .inl List.mem_cons_self
            · exact .inr (List.mem_cons_of_mem _ h)
      · split at he
        · rcases List.mem_cons.mp he with rfl | he
          · exact .inl List.mem_cons_self
          · exact (ih he).imp_left (List.mem_cons_of_mem _)
        · exact (ih he).imp (List.mem_cons_of_mem _) (List.mem_cons_of_mem _)

theorem exact_merge_iff (hbs : bs.Pairwise (· < ·)) (hus : us.Pairwise (· < ·)) :
    Exact bs us (merge bs us) ↔ Orderly bs us := by
  induction bs generalizing us with
  | nil =>
    refine iff_of_true ⟨hus,fun e => ?_⟩ fun u hu w hw hlt ⟨e,he,hle⟩ => ?_
    · simp [merge,Xor]
    · cases he
  | cons b bs ih =>
    cases us with
    | nil =>
      refine iff_of_true ⟨hbs,fun e => ?_⟩ fun u hu => ?_
      · simp [merge,Xor]
      · cases hu
    | cons u us =>
      rcases lt_trichotomy b u with hlt | rfl | hgt
      · rw [merge_lt hlt,exact_lt_iff hbs hus hlt fun e he => mem_of_mem_merge he,
          orderly_lt_iff hus hlt]
        exact ih (List.pairwise_cons.mp hbs).2 hus
      · rw [merge_eq,exact_eq_iff hbs hus fun e he => mem_of_mem_merge he,orderly_eq_iff hus]
        exact ih (List.pairwise_cons.mp hbs).2 (List.pairwise_cons.mp hus).2
      · rw [merge_gt hbs hgt,exact_gt_iff hbs hus hgt,orderly_gt_iff hbs hus hgt]

def Reached (l : List α) (e : α) : Prop := ∃ p q, l = p ++ e :: q ∧ ∀ b ∈ p, b < e

theorem reached_cons_self (e : α) (l : List α) : Reached (e :: l) e :=
  ⟨[],l,rfl,fun _ h => by cases h⟩

theorem Reached.cons {e : α} {l : List α} (hb : b < e) (h : Reached l e) : Reached (b :: l) e := by
  obtain ⟨p,q,rfl,hp⟩ := h
  exact ⟨b :: p,q,rfl,List.forall_mem_cons.mpr ⟨hb,hp⟩⟩

theorem Reached.cases {e : α} {l : List α} (h : Reached (b :: l) e) : b = e ∨ b < e ∧ Reached l e := by
  obtain ⟨p,q,heq,hp⟩ := h
  cases p with
  | nil =>
    cases heq
    exact .inl rfl
  | cons b' p =>
    cases heq
    obtain ⟨hb,hp⟩ := List.forall_mem_cons.mp hp
    exact .inr ⟨hb,p,q,rfl,hp⟩

theorem Reached.mem {e : α} {l : List α} (h : Reached l e) : e ∈ l := by
  obtain ⟨p,q,rfl,_⟩ := h
  exact List.mem_append_right _ List.mem_cons_self

theorem le_of_mem_cons {e : α} (hus : (u :: us).Pairwise (· ≤ ·)) (he : e ∈ u :: us) : u ≤ e := by
  rcases List.mem_cons.mp he with rfl | he
  · exact le_refl _
  · exact (List.pairwise_cons.mp hus).1 e he

theorem countP_merge_le (p : α → Bool) (bs us : List α) :
    (merge bs us).countP p ≤ bs.countP p + us.countP p := by
  induction bs generalizing us with
  | nil => simp [merge]
  | cons b bs ih =>
    cases us with
    | nil => simp [merge]
    | cons u us =>
      rw [merge]
      split
      · have hle := ih (b :: us)
        simp only [List.countP_cons] at hle ⊢
        omega
      · split
        · have hle := ih (u :: us)
          simp only [List.countP_cons] at hle ⊢
          omega
        · have hle := ih us
          simp only [List.countP_cons]
          omega

theorem length_merge_le (bs us : List α) : (merge bs us).length ≤ bs.length + us.length := by
  simpa using countP_merge_le (fun _ => true) bs us

section Count

variable [BEq α]

theorem count_merge_le (e : α) (bs us : List α) :
    (merge bs us).count e ≤ bs.count e + us.count e :=
  countP_merge_le _ bs us

theorem count_le_count_merge (e : α) (bs us : List α) :
    us.count e ≤ (merge bs us).count e + bs.count e := by
  induction bs generalizing us with
  | nil => simp [merge]
  | cons b bs ih =>
    cases us with
    | nil => simp
    | cons u us =>
      rw [merge]
      split
      · have hle := ih (b :: us)
        simp only [List.count_cons] at hle ⊢
        omega
      · split
        · have hle := ih (u :: us)
          simp only [List.count_cons] at hle ⊢
          omega
        · next hub hbu =>
          obtain rfl := le_antisymm (not_lt.mp hub) (not_lt.mp hbu)
          have hle := ih us
          simp only [List.count_cons]
          omega

variable [LawfulBEq α] {e w : α}

omit [LinearOrder α] in
theorem ne_of_count_cons_eq_one (h : (u :: us).count w = 1) (hw : w ∈ us) : w ≠ u := by
  rintro rfl
  rw [List.count_cons_self] at h
  have hpos := List.count_pos_iff.mpr hw
  omega

theorem count_merge_reached (hus : us.Pairwise (· ≤ ·)) (he : e ∈ us) (hr : Reached bs e)
    (hlow : ∀ u ∈ us, u < e → Reached bs u ∧ us.count u = 1) :
    (merge bs us).count e + 2 ≤ bs.count e + us.count e := by
  induction bs generalizing us with
  | nil =>
    obtain ⟨p,q,heq,_⟩ := hr
    cases p <;> cases heq
  | cons b bs ih =>
    cases us with
    | nil => cases he
    | cons u us =>
      have hue := le_of_mem_cons hus he
      have hu : Reached (b :: bs) u := by
        rcases eq_or_lt_of_le hue with rfl | hlt
        · exact hr
        · exact (hlow u List.mem_cons_self hlt).1
      have hus' := (List.pairwise_cons.mp hus).2
      rcases hu.cases with rfl | ⟨hbu,_⟩
      · rw [merge_eq]
        rcases eq_or_lt_of_le hue with rfl | hlt
        · have hle := count_merge_le b bs us
          rw [List.count_cons_self,List.count_cons_self]
          omega
        · have he' : e ∈ us := (List.mem_cons.mp he).resolve_left (ne_of_gt hlt)
          have hstep := ih hus' he' (hr.cases.resolve_left (ne_of_lt hlt)).2 fun u hu hlt' => by
            obtain ⟨hreach,hcount⟩ := hlow u (List.mem_cons_of_mem _ hu) hlt'
            have hne := ne_of_count_cons_eq_one hcount hu
            rw [List.count_cons_of_ne hne.symm] at hcount
            exact ⟨(hreach.cases.resolve_left hne.symm).2,hcount⟩
          rwa [List.count_cons_of_ne (ne_of_lt hlt),List.count_cons_of_ne (ne_of_lt hlt)]
      · have hbe : b < e := lt_of_lt_of_le hbu hue
        have hstep := ih hus he (hr.cases.resolve_left (ne_of_lt hbe)).2 fun u' hu' hlt' => by
          obtain ⟨hreach,hcount⟩ := hlow u' hu' hlt'
          have hbu' : b < u' := lt_of_lt_of_le hbu (le_of_mem_cons hus hu')
          exact ⟨(hreach.cases.resolve_left (ne_of_lt hbu')).2,hcount⟩
        rwa [merge_lt hbu,List.count_cons_of_ne (ne_of_lt hbe),List.count_cons_of_ne (ne_of_lt hbe)]

theorem reached_merge (hus : us.Pairwise (· ≤ ·)) (he : Reached bs e) (hne : e ∉ us)
    (hlow : ∀ u ∈ us, u < e → Reached bs u ∧ us.count u = 1) : Reached (merge bs us) e := by
  induction bs generalizing us with
  | nil =>
    obtain ⟨p,q,heq,_⟩ := he
    cases p <;> cases heq
  | cons b bs ih =>
    cases us with
    | nil => exact he
    | cons u us =>
      rcases lt_trichotomy b u with hlt | rfl | hgt
      · rw [merge_lt hlt]
        rcases he.cases with rfl | ⟨hbe,he⟩
        · exact reached_cons_self _ _
        · refine (ih hus he hne fun u' hu' hlt' => ?_).cons hbe
          obtain ⟨hreach,hcount⟩ := hlow u' hu' hlt'
          have hbu' : b < u' := lt_of_lt_of_le hlt (le_of_mem_cons hus hu')
          exact ⟨(hreach.cases.resolve_left (ne_of_lt hbu')).2,hcount⟩
      · rw [merge_eq]
        have he' := he.cases.resolve_left fun heq => hne (heq ▸ List.mem_cons_self)
        refine ih (List.pairwise_cons.mp hus).2 he'.2 (fun h => hne (List.mem_cons_of_mem _ h))
          fun u' hu' hlt' => ?_
        obtain ⟨hreach,hcount⟩ := hlow u' (List.mem_cons_of_mem _ hu') hlt'
        have hne' := ne_of_count_cons_eq_one hcount hu'
        rw [List.count_cons_of_ne hne'.symm] at hcount
        exact ⟨(hreach.cases.resolve_left hne'.symm).2,hcount⟩
      · have hle : b ≤ e := he.cases.elim le_of_eq fun h => le_of_lt h.1
        obtain ⟨hreach,_⟩ := hlow u List.mem_cons_self (lt_of_lt_of_le hgt hle)
        exact absurd hgt (not_lt.mpr (hreach.cases.elim le_of_eq fun h => le_of_lt h.1))

omit [LawfulBEq α] in
-- without a value twice in the buffer nothing meets an entry that has been swapped out
theorem count_merge_carried (hb : (b :: bs).Nodup) (us : List α) (w : α) :
    (merge bs (b :: us)).count w = (b :: bs).count w + us.count w := by
  induction bs generalizing b with
  | nil => rw [merge,← List.count_append]; rfl
  | cons b' bs ih =>
    obtain ⟨hmem,hb'⟩ := List.nodup_cons.mp hb
    obtain ⟨hmem',hbs⟩ := List.nodup_cons.mp hb'
    rw [List.mem_cons,not_or] at hmem
    rw [merge]
    split
    · rw [List.count_cons,ih hb',List.count_cons (a := w) (b := b)]
      omega
    · split
      · rw [List.count_cons,ih (List.nodup_cons.mpr ⟨hmem.2,hbs⟩)]
        simp only [List.count_cons]
        omega
      · next hle hge => exact absurd (le_antisymm (not_lt.mp hle) (not_lt.mp hge)).symm hmem.1

theorem count_merge_blocked (hbs : bs.Nodup) (hus : us.Pairwise (· ≤ ·)) (hu : u ∈ us)
    (huw : u ≤ w) (hbad : ¬ Reached bs u ∨ 2 ≤ us.count u ∧ u < w) :
    (merge bs us).count w = bs.count w + us.count w := by
  induction bs generalizing us with
  | nil => simp [merge]
  | cons b bs ih =>
    obtain ⟨hb,hbs'⟩ := List.nodup_cons.mp hbs
    cases us with
    | nil => cases hu
    | cons u' us =>
      have hle := le_of_mem_cons hus hu
      rcases lt_trichotomy b u' with hlt | rfl | hgt
      · have hbu : b < u := lt_of_lt_of_le hlt hle
        have hstep := ih hbs' hus hu (hbad.imp_left fun h h' => h (h'.cons hbu))
        rw [merge_lt hlt,List.count_cons,hstep,List.count_cons (a := w) (b := b)]
        omega
      · rcases eq_or_lt_of_le hle with rfl | hlt
        · obtain ⟨htwo,hbw⟩ := hbad.resolve_left fun h => h (reached_cons_self _ _)
          rw [List.count_cons_self] at htwo
          have hmem : b ∈ us := List.count_pos_iff.mp (by omega)
          have hnot : ¬ Reached bs b := fun h => hb h.mem
          rw [merge_eq,ih hbs' (List.pairwise_cons.mp hus).2 hmem (.inl hnot),
            List.count_cons_of_ne (ne_of_lt hbw),List.count_cons_of_ne (ne_of_lt hbw)]
        · have hbw : b ≠ w := ne_of_lt (lt_of_lt_of_le hlt huw)
          have hmem : u ∈ us := (List.mem_cons.mp hu).resolve_left (ne_of_gt hlt)
          rw [List.count_cons_of_ne (ne_of_lt hlt)] at hbad
          rw [merge_eq,ih hbs' (List.pairwise_cons.mp hus).2 hmem
              (hbad.imp_left fun h h' => h (h'.cons hlt)),
            List.count_cons_of_ne hbw,List.count_cons_of_ne hbw]
      · rw [merge,if_pos hgt,List.count_cons,count_merge_carried hbs,List.count_cons (a := w) (b := u')]
        omega

structure Cancellable (bs us : List α) : Prop where
  outside : ∀ u ∈ us, u ∉ bs → us.count u = 1
  inside : ∀ u ∈ us, us.count u ≤ 2
  clear : ∀ w ∈ us, w ∈ bs → Reached bs w ∧ ∀ u ∈ us, u < w → Reached bs u ∧ us.count u = 1

omit [LawfulBEq α] in
theorem Cancellable.perm {us' : List α} (h : Cancellable bs us) (hp : us.Perm us') :
    Cancellable bs us' := by
  obtain ⟨houtside,hinside,hclear⟩ := h
  simp only [hp.mem_iff,hp.count_eq] at houtside hinside hclear
  exact ⟨houtside,hinside,hclear⟩

theorem nodup_merge_iff (hbs : bs.Nodup) (hus : us.Pairwise (· ≤ ·)) :
    (merge bs us).Nodup ↔ Cancellable bs us := by
  have hone (w : α) : bs.count w ≤ 1 := List.nodup_iff_count_le_one.mp hbs w
  rw [List.nodup_iff_count_le_one]
  constructor
  · intro h
    have hmeets (u w : α) (hu : u ∈ us) (hw : w ∈ us) (hwb : w ∈ bs) (huw : u ≤ w) :
        ¬ (¬ Reached bs u ∨ 2 ≤ us.count u ∧ u < w) := by
      intro hbad
      have hfull := count_merge_blocked hbs hus hu huw hbad
      have hw' := List.count_pos_iff.mpr hw
      have hwb' := List.count_pos_iff.mpr hwb
      have hle := h w
      omega
    refine ⟨fun u hu hub => ?_,fun u hu => ?_,fun w hw hwb => ⟨?_,fun u hu huw => ?_⟩⟩
    · have hle := (count_le_count_merge u bs us).trans (Nat.add_le_add_right (h u) _)
      rw [List.count_eq_zero_of_not_mem hub] at hle
      exact le_antisymm hle (List.count_pos_iff.mpr hu)
    · have hle := (count_le_count_merge u bs us).trans (Nat.add_le_add (h u) (hone u))
      exact hle
    · by_contra hno
      exact hmeets w w hw hw hwb (le_refl w) (.inl hno)
    · have hno := not_or.mp (hmeets u w hu hw hwb (le_of_lt huw))
      have hpos := List.count_pos_iff.mpr hu
      have hone' : ¬ 2 ≤ us.count u := fun htwo => hno.2 ⟨htwo,huw⟩
      exact ⟨not_not.mp hno.1,by omega⟩
  · intro h w
    by_cases hwb : w ∈ bs
    · by_cases hw : w ∈ us
      · obtain ⟨hreach,hlow⟩ := h.clear w hw hwb
        have hle := count_merge_reached hus hw hreach hlow
        have htwo := h.inside w hw
        have hb := hone w
        omega
      · have hle := count_merge_le w bs us
        rw [List.count_eq_zero_of_not_mem hw] at hle
        exact hle.trans (hone w)
    · have hle := count_merge_le w bs us
      rw [List.count_eq_zero_of_not_mem hwb,zero_add] at hle
      by_cases hw : w ∈ us
      · exact hle.trans (le_of_eq (h.outside w hw hwb))
      · rw [List.count_eq_zero_of_not_mem hw] at hle
        omega

-- an entry of the buffer that neither part of the batch has removed stays ahead of everything
-- larger, so the second merge still meets it in turn
theorem nodup_merge_merge {vs : List α} (hbs : bs.Nodup) (hus : us.Pairwise (· ≤ ·))
    (hvs : vs.Pairwise (· ≤ ·)) (h : Cancellable bs (us ++ vs)) : (merge (merge bs us) vs).Nodup := by
  rw [List.nodup_iff_count_le_one]
  intro w
  have hone : bs.count w ≤ 1 := List.nodup_iff_count_le_one.mp hbs w
  have hfirst := count_merge_le w bs us
  have hsecond := count_merge_le w (merge bs us) vs
  by_cases hmem : w ∈ us ++ vs
  · by_cases hwb : w ∈ bs
    · have htwo := h.inside w hmem
      obtain ⟨hreach,hclear⟩ := h.clear w hmem hwb
      have hboth (u : α) (hu : u ∈ us ++ vs) (huw : u < w) :
          Reached bs u ∧ us.count u + vs.count u = 1 := by
        obtain ⟨hub,hcount⟩ := hclear u hu huw
        exact ⟨hub,by rwa [List.count_append] at hcount⟩
      have hlow (u : α) (hu : u ∈ us) (huw : u < w) : Reached bs u ∧ us.count u = 1 := by
        obtain ⟨hub,hcount⟩ := hboth u (List.mem_append_left _ hu) huw
        have hpos := List.count_pos_iff.mpr hu
        exact ⟨hub,by omega⟩
      rw [List.count_append] at htwo
      by_cases hw : w ∈ us
      · have hcancel := count_merge_reached hus hw hreach hlow
        omega
      · have hw' : w ∈ vs := (List.mem_append.mp hmem).resolve_left hw
        have hcancel := count_merge_reached hvs hw' (reached_merge hus hreach hw hlow)
          fun v hv hvw => by
            obtain ⟨hvb,hcount⟩ := hboth v (List.mem_append_right _ hv) hvw
            have hpos := List.count_pos_iff.mpr hv
            have hvus : v ∉ us := List.count_eq_zero.mp (by omega)
            exact ⟨reached_merge hus hvb hvus fun u hu huv => hlow u hu (huv.trans hvw),by omega⟩
        rw [List.count_eq_zero_of_not_mem hw] at htwo hfirst
        omega
    · have hcount := h.outside w hmem hwb
      rw [List.count_append] at hcount
      rw [List.count_eq_zero_of_not_mem hwb] at hfirst
      omega
  · rw [List.mem_append,not_or] at hmem
    rw [List.count_eq_zero_of_not_mem hmem.1] at hfirst
    rw [List.count_eq_zero_of_not_mem hmem.2] at hsecond
    omega

end Count

section Strikes

-- an update runs through the buffer, carrying on the larger entry, up to an entry equal to what it
-- carries: there both are struck out
def tie (u : α) : List α → Option (α × List α)
  | [] => none
  | b :: bs => if b = u then some (u,bs) else tie (max u b) bs

def strikes : List α → List α → List α
  | _, [] => []
  | bs, u :: us =>
    match tie u bs with
    | none => []
    | some (e,rest) => e :: strikes rest us

theorem strikes_nil (us : List α) : strikes [] us = [] := by
  cases us <;> rfl

theorem strikes_self (b : α) (bs us : List α) : strikes (b :: bs) (b :: us) = b :: strikes bs us := by
  rw [strikes,tie,if_pos rfl]

theorem strikes_ne (hne : b ≠ u) (bs us : List α) :
    strikes (b :: bs) (u :: us) = strikes bs (max u b :: us) := by
  rw [strikes,tie,if_neg hne,strikes]

variable [BEq α]

-- of every value at most one copy is left
def Settled (bs us : List α) : Prop :=
  ∀ e, bs.count e + us.count e ≤ 2 * (strikes bs us).count e + 1

theorem count_merge (e : α) (bs us : List α) :
    (merge bs us).count e + 2 * (strikes bs us).count e = bs.count e + us.count e := by
  induction bs generalizing us with
  | nil => simp [merge,strikes_nil]
  | cons b bs ih =>
    cases us with
    | nil => simp [merge,strikes]
    | cons u us =>
      rcases lt_trichotomy b u with hlt | rfl | hgt
      · have hstep := ih (u :: us)
        rw [merge_lt hlt,strikes_ne (ne_of_lt hlt),max_eq_left (le_of_lt hlt)]
        simp only [List.count_cons] at hstep ⊢
        omega
      · have hstep := ih us
        rw [merge_eq,strikes_self]
        simp only [List.count_cons]
        omega
      · have hstep := ih (b :: us)
        rw [merge,if_pos hgt,strikes_ne (ne_of_gt hgt),max_eq_right (le_of_lt hgt)]
        simp only [List.count_cons] at hstep ⊢
        omega

theorem nodup_merge_iff_settled [LawfulBEq α] : (merge bs us).Nodup ↔ Settled bs us := by
  rw [List.nodup_iff_count_le_one]
  refine forall_congr' fun e => ?_
  have hcount := count_merge e bs us
  omega

end Strikes

end SwapMerge
