import GraphZeppelin.EdgeStore.Concurrent
import GraphZeppelin.EdgeStore.Sequential

namespace GraphZeppelin.EdgeStore.Concurrent

variable {n T : ℕ} {s s' : EdgeStore n} {pcs : Fin T → Pc n} {t : Fin T} {pc : Pc n}

def Pc.active : Pc n → Bool
  | .flushRead | .advance .. | .fetched .. | .contract .. | .finish _ => true
  | _ => false

def Pc.finishing : Pc n → Bool
  | .finish _ => true
  | _ => false

def Pc.holds (v : Fin n) : Pc n → Prop
  | .fetched _ _ w | .contract _ _ w => w = v
  | _ => False

def Pc.Labelled (c : ℕ) : Pc n → Prop
  | .inserted _ _ cur _ => cur ≤ c
  | _ => True

theorem Pc.Labelled.mono {c c' : ℕ} (h : pc.Labelled c) (hc : c ≤ c') : pc.Labelled c' := by
  cases pc with
  | inserted k src cur ret => exact le_trans (show cur ≤ c from h) hc
  | _ => trivial

structure Pc.Passive (pc : Pc n) : Prop where
  active : pc.active = false
  finishing : pc.finishing = false
  free : ∀ v, ¬ pc.holds v
  labelled : ∀ c, pc.Labelled c

theorem passive_returning (flushing : Bool) (bs : List (TaggedUpdateBatch n)) :
    (Call.returning flushing bs).Passive := by
  induction bs with
  | nil =>
    rw [Call.returning]
    split <;> exact ⟨rfl,rfl,fun _ h => h,fun _ => trivial⟩
  | cons b bs ih =>
    rw [Call.returning]
    split
    · exact ih
    · exact ⟨rfl,rfl,fun _ h => h,fun _ => trivial⟩

theorem passive_returned (k : Call n) (more : List (TaggedUpdateBatch n)) :
    (k.returned more).Passive := passive_returning _ _

theorem passive_start (tag : Fin n → Fin n → ℕ) (s : EdgeStore n) (job : Job n) :
    (job.start tag s).Passive := by
  cases job with
  | batch src dsts =>
    simp only [Job.start]
    split
    · exact passive_returned _ _
    · exact ⟨rfl,rfl,fun _ h => h,fun _ => trivial⟩
  | flush => exact ⟨rfl,rfl,fun _ h => h,fun _ => trivial⟩

structure Control (s : EdgeStore n) (pcs : Fin T → Pc n) : Prop where
  lo : s.trueMinSubgraph ≤ s.curSubgraph
  hi : s.curSubgraph ≤ s.trueMinSubgraph + 1
  labels : ∀ t, (pcs t).Labelled s.curSubgraph
  quiet : s.trueMinSubgraph = s.curSubgraph →
    n < s.needsContraction ∨ ∀ t, (pcs t).active = false
  unfinished : s.trueMinSubgraph = s.curSubgraph ∨ s.needsContraction ≤ n →
    ∀ t, (pcs t).finishing = false
  finisher : s.trueMinSubgraph < s.curSubgraph → n < s.needsContraction →
    ∃ t, (pcs t).finishing = true ∧ ∀ t', (pcs t').finishing = true → t' = t
  held : ∀ v, s.vertexContracted v = true ∨
    (s.trueMinSubgraph < s.curSubgraph ∧ s.needsContraction ≤ v) ∨ ∃ t, (pcs t).holds v

theorem Control.store (h : Control s pcs) (hc : s'.curSubgraph = s.curSubgraph)
    (hm : s'.trueMinSubgraph = s.trueMinSubgraph) (hn : s'.needsContraction = s.needsContraction)
    (hf : ∀ v, s.vertexContracted v = true → s'.vertexContracted v = true) : Control s' pcs := by
  refine ⟨?_,?_,?_,?_,?_,?_,fun v => ?_⟩
  · rw [hc,hm]
    exact h.lo
  · rw [hc,hm]
    exact h.hi
  · rw [hc]
    exact h.labels
  · rw [hc,hm,hn]
    exact h.quiet
  · rw [hc,hm,hn]
    exact h.unfinished
  · rw [hc,hm,hn]
    exact h.finisher
  · rw [hc,hm,hn]
    exact (h.held v).imp_left (hf v)

theorem Control.move (h : Control s pcs) (hl : pc.Labelled s.curSubgraph)
    (ha : pc.active = true → (pcs t).active = true ∨ s.trueMinSubgraph < s.curSubgraph)
    (hf : pc.finishing = (pcs t).finishing)
    (hh : ∀ v, (pcs t).holds v → pc.holds v ∨ s.vertexContracted v = true) :
    Control s (Function.update pcs t pc) := by
  have hfin (t' : Fin T) : (Function.update pcs t pc t').finishing = (pcs t').finishing := by
    by_cases ht : t' = t
    · subst ht
      rw [Function.update_self,hf]
    · rw [Function.update_of_ne ht]
  refine ⟨h.lo,h.hi,fun t' => ?_,fun he => ?_,fun hu t' => ?_,?_,fun v => ?_⟩
  · by_cases ht : t' = t
    · subst ht
      rwa [Function.update_self]
    · rw [Function.update_of_ne ht]
      exact h.labels t'
  · refine (h.quiet he).imp_right fun hall t' => ?_
    by_cases ht : t' = t
    · subst ht
      rw [Function.update_self]
      refine Bool.eq_false_of_not_eq_true fun hact => ?_
      rcases ha hact with hold | hlt
      · rw [hall t'] at hold
        cases hold
      · exact absurd he (ne_of_lt hlt)
    · rw [Function.update_of_ne ht]
      exact hall t'
  · rw [hfin]
    exact h.unfinished hu t'
  · simp only [hfin]
    exact h.finisher
  · rcases h.held v with hv | hv | ⟨t',hv⟩
    · exact .inl hv
    · exact .inr (.inl hv)
    · by_cases ht : t' = t
      · subst ht
        rcases hh v hv with hnew | hcon
        · exact .inr (.inr ⟨t',by rwa [Function.update_self]⟩)
        · exact .inl hcon
      · exact .inr (.inr ⟨t',by rwa [Function.update_of_ne ht]⟩)

theorem Control.rest (h : Control s pcs) (hp : pc.Passive) (hf : (pcs t).finishing = false)
    (hh : ∀ v, (pcs t).holds v → s.vertexContracted v = true) :
    Control s (Function.update pcs t pc) :=
  h.move (hp.labelled _) (fun ha => absurd ha (by simp [hp.active])) (hp.finishing.trans hf.symm)
    fun v hv => .inr (hh v hv)

theorem Control.fetch (h : Control s pcs) {k : Call n} {label : ℕ}
    (ht : pcs t = .advance k label) (hw : s.needsContraction + 1 < 2 ^ 32) :
    Control ((pcs t).step s).store (Function.update pcs t ((pcs t).step s).pc) := by
  have hact : (pcs t).active = true := by rw [ht]; rfl
  have hfree (v : Fin n) : ¬ (pcs t).holds v := by rw [ht]; exact id
  have hother {t' : Fin T} {v : Fin n} (hv : (pcs t').holds v) : t' ≠ t := by
    rintro rfl
    exact hfree v hv
  have hfin : (pcs t).finishing = false := by rw [ht]; rfl
  have hquiet (he : s.trueMinSubgraph = s.curSubgraph) : n < s.needsContraction := by
    rcases h.quiet he with hn | hall
    · exact hn
    · rw [hall t] at hact
      cases hact
  rw [ht]
  simp only [Pc.step,fetchContraction_of_lt hw]
  split
  · next hlt =>
    have hprog : s.trueMinSubgraph < s.curSubgraph :=
      lt_of_le_of_ne h.lo fun he => absurd (hquiet he) (Nat.lt_asymm hlt)
    have hmove : Control s (Function.update pcs t (.fetched k label ⟨s.needsContraction,hlt⟩)) :=
      h.move trivial (fun _ => .inl hact) hfin.symm fun v hv => absurd hv (hfree v)
    refine ⟨h.lo,h.hi,hmove.labels,fun he => absurd he (ne_of_lt hprog),
      fun _ => hmove.unfinished (.inr (le_of_lt hlt)),
      fun _ hn => absurd hn (not_lt.mpr hlt),fun v => ?_⟩
    rcases h.held v with hv | ⟨_,hv⟩ | ⟨t',hv⟩
    · exact .inl hv
    · rcases Nat.lt_or_eq_of_le hv with hv | hv
      · exact .inr (.inl ⟨hprog,hv⟩)
      · refine .inr (.inr ⟨t,?_⟩)
        rw [Function.update_self]
        exact Fin.ext hv
    · refine .inr (.inr ⟨t',?_⟩)
      rwa [Function.update_of_ne (hother hv)]
  · next hge =>
    split
    · next heq =>
      have hprog : s.trueMinSubgraph < s.curSubgraph :=
        lt_of_le_of_ne h.lo fun he => absurd (hquiet he) (by omega)
      have hnone := h.unfinished (.inr (le_of_eq heq))
      refine ⟨h.lo,h.hi,fun t' => ?_,fun he => absurd he (ne_of_lt hprog),fun hu => ?_,
        fun _ _ => ⟨t,?_,fun t' ht' => ?_⟩,fun v => ?_⟩
      · by_cases htt : t' = t
        · subst htt
          rw [Function.update_self]
          trivial
        · rw [Function.update_of_ne htt]
          exact h.labels t'
      · rcases hu with he | hle
        · exact absurd he (ne_of_lt hprog)
        · exact absurd (Nat.lt_of_succ_le hle) (not_lt.mpr (ge_of_eq heq))
      · rw [Function.update_self]
        rfl
      · by_contra htt
        rw [Function.update_of_ne htt,hnone t'] at ht'
        cases ht'
      · rcases h.held v with hv | ⟨_,hv⟩ | ⟨t',hv⟩
        · exact .inl hv
        · exact absurd (lt_of_lt_of_le v.isLt (ge_of_eq heq)) (not_lt.mpr hv)
        · refine .inr (.inr ⟨t',?_⟩)
          rwa [Function.update_of_ne (hother hv)]
    · next hne =>
      have hgt : n < s.needsContraction := lt_of_le_of_ne (not_lt.mp hge) (Ne.symm hne)
      have hrest := h.rest (passive_returned k []) hfin fun v hv => absurd hv (hfree v)
      refine ⟨h.lo,h.hi,hrest.labels,fun _ => .inl (Nat.lt_succ_of_lt hgt),fun hu => ?_,
        fun hlt _ => hrest.finisher hlt hgt,fun v => ?_⟩
      · exact hrest.unfinished (hu.imp_right fun hle => Nat.le_of_succ_le hle)
      · refine (hrest.held v).imp_right (Or.imp_left fun hv => ?_)
        exact absurd hv.2 (not_le.mpr (lt_trans v.isLt hgt))

theorem Control.finish (h : Control s pcs) {k : Call n} (ht : pcs t = .finish k) :
    Control s.finishContraction (Function.update pcs t (k.returned [])) := by
  have hfin : (pcs t).finishing = true := by rw [ht]; rfl
  have hnot : ¬ (s.trueMinSubgraph = s.curSubgraph ∨ s.needsContraction ≤ n) := by
    intro hu
    rw [h.unfinished hu t] at hfin
    cases hfin
  obtain ⟨hne,hgt⟩ := not_or.mp hnot
  have hlt : s.trueMinSubgraph < s.curSubgraph := lt_of_le_of_ne h.lo hne
  have heq : s.trueMinSubgraph + 1 = s.curSubgraph := le_antisymm hlt h.hi
  have hpass := passive_returned k []
  obtain ⟨t₀,_,hunique⟩ := h.finisher hlt (not_le.mp hgt)
  refine ⟨le_of_eq heq,?_,fun t' => ?_,fun _ => .inl (not_le.mp hgt),fun _ t' => ?_,
    fun hlt' => absurd hlt' (not_lt.mpr (ge_of_eq heq)),fun v => ?_⟩
  · exact (ge_of_eq heq).trans (Nat.le_succ _)
  · by_cases htt : t' = t
    · subst htt
      rw [Function.update_self]
      exact hpass.labelled _
    · rw [Function.update_of_ne htt]
      exact h.labels t'
  · by_cases htt : t' = t
    · subst htt
      rw [Function.update_self]
      exact hpass.finishing
    · rw [Function.update_of_ne htt]
      refine Bool.eq_false_of_not_eq_true fun hf => htt ?_
      exact (hunique t' hf).trans (hunique t hfin).symm
  · rcases h.held v with hv | ⟨_,hv⟩ | ⟨t',hv⟩
    · exact .inl hv
    · exact absurd hv (not_le.mpr (lt_trans v.isLt (not_le.mp hgt)))
    · have htt : t' ≠ t := by
        rintro rfl
        rw [ht] at hv
        exact hv
      exact .inr (.inr ⟨t',by rwa [Function.update_of_ne htt]⟩)

theorem Control.begin (h : Control s pcs) : Control s.beginContraction pcs := by
  unfold beginContraction
  split
  · exact h
  · next hge =>
    have heq : s.trueMinSubgraph = s.curSubgraph := le_antisymm h.lo (not_lt.mp hge)
    refine ⟨Nat.le_succ_of_le h.lo,Nat.succ_le_succ (ge_of_eq heq),
      fun t => (h.labels t).mono (Nat.le_succ _),fun he => ?_,
      fun _ => h.unfinished (.inl heq),fun _ hn => absurd hn (Nat.not_lt_zero n),
      fun v => .inr (.inl ⟨?_,Nat.zero_le _⟩)⟩
    · exact absurd he (by simp only; omega)
    · exact Nat.lt_succ_of_le h.lo

theorem vertexContract_mono {v : Fin n} (src : Fin n) (hv : s.vertexContracted v = true) :
    (s.vertexContract src).1.vertexContracted v = true := by
  unfold vertexContract
  split
  · exact hv
  · by_cases hvs : v = src
    · subst hvs
      exact markContracted_self
    · rw [setBuffer_vertexContracted,markContracted_ne hvs]
      exact hv

theorem vertexContract_self (s : EdgeStore n) (v : Fin n) :
    (s.vertexContract v).1.vertexContracted v = true := by
  unfold vertexContract
  split
  · next hv => exact hv
  · exact markContracted_self

theorem insertLocked_mono {src v : Fin n} {f : ℕ} {ds : List (SubgraphTaggedUpdate n)}
    {r : Inserted n} (hr : s.insertLocked src f ds = .ok r) (hv : s.vertexContracted v = true) :
    r.store.vertexContracted v = true := by
  obtain ⟨us,_,rfl⟩ := insertLocked_ok hr
  rw [setBuffer_vertexContracted,prepared]
  split
  · exact vertexContract_mono src hv
  · exact hv

theorem Control.pcStep (h : Control s pcs) (hsafe : (pcs t).Safe s) :
    Control ((pcs t).step s).store (Function.update pcs t ((pcs t).step s).pc) := by
  cases ht : pcs t with
  | idle => exact h.rest ⟨rfl,rfl,fun _ => id,fun _ => trivial⟩ (by rw [ht]; rfl) (by simp [ht,Pc.holds])
  | flushTest =>
    simp only [Pc.step]
    split
    · next hlt =>
      exact h.move trivial (fun _ => .inr hlt) (by rw [ht]; rfl) (by simp [ht,Pc.holds])
    · exact h.rest ⟨rfl,rfl,fun _ => id,fun _ => trivial⟩ (by rw [ht]; rfl) (by simp [ht,Pc.holds])
  | flushRead =>
    exact h.move trivial (fun _ => .inl (by rw [ht]; rfl)) (by rw [ht]; rfl) (by simp [ht,Pc.holds])
  | insert src f all =>
    simp only [Pc.step]
    split
    · exact h.rest ⟨rfl,rfl,fun _ => id,fun _ => trivial⟩ (by rw [ht]; rfl) (by simp [ht,Pc.holds])
    · next r hr =>
      obtain ⟨hframe,hcur⟩ := insertLocked_frame hr
      have hstore := h.store hframe.cur hframe.trueMin hframe.needs fun v => insertLocked_mono hr
      refine hstore.move ?_ (fun ha => by cases ha) (by rw [ht]; rfl) (by simp [ht,Pc.holds])
      exact le_of_eq (hcur.trans hframe.cur.symm)
  | inserted k src cur ret =>
    have hlabel : cur ≤ s.curSubgraph := by
      have hl := h.labels t
      rwa [ht] at hl
    simp only [Pc.step]
    split
    · next hc =>
      exact h.move trivial (fun _ => .inr (lt_of_lt_of_le hc.2 hlabel)) (by rw [ht]; rfl)
        (by simp [ht,Pc.holds])
    · exact h.rest ⟨rfl,rfl,fun _ => id,fun _ => trivial⟩ (by rw [ht]; rfl) (by simp [ht,Pc.holds])
  | advance k label =>
    rw [ht] at hsafe
    rw [← ht]
    exact h.fetch ht hsafe
  | fetched k label v =>
    simp only [Pc.step]
    split
    · exact h.move trivial (fun _ => .inl (by rw [ht]; rfl)) (by rw [ht]; rfl)
        fun w hw => .inl (by rwa [ht] at hw)
    · have hmark (w : Fin n) (hw : s.vertexContracted w = true) :
          (s.markContracted v).vertexContracted w = true := by
        by_cases hwv : w = v
        · subst hwv
          exact markContracted_self
        · rwa [markContracted_ne hwv]
      have hstore : Control (s.markContracted v) pcs := h.store rfl rfl rfl hmark
      refine hstore.move trivial (fun _ => .inl (by rw [ht]; rfl)) (by rw [ht]; rfl)
        fun w hw => .inr ?_
      rw [ht] at hw
      obtain rfl : v = w := hw
      exact markContracted_self
  | contract k label v =>
    have hframe := vertexContract_frame s v
    refine (h.store hframe.cur hframe.trueMin hframe.needs fun w => vertexContract_mono v).rest
      (passive_returned k _) (by rw [ht]; rfl) fun w hw => ?_
    rw [ht] at hw
    obtain rfl : v = w := hw
    exact vertexContract_self s v
  | finish k => exact h.finish ht
  | check k more =>
    simp only [Pc.step]
    split
    · exact h.rest (passive_returned k _) (by rw [ht]; rfl) (by simp [ht,Pc.holds])
    · exact h.rest ⟨rfl,rfl,fun _ => id,fun _ => trivial⟩ (by rw [ht]; rfl) (by simp [ht,Pc.holds])
  | begin k more =>
    exact h.begin.rest (passive_returned k _) (by rw [ht]; rfl) (by simp [ht,Pc.holds])
  | deliver b rest =>
    exact h.rest (passive_returned rest _) (by rw [ht]; rfl) (by simp [ht,Pc.holds])
  | crashed => exact h.rest ⟨rfl,rfl,fun _ => id,fun _ => trivial⟩ (by rw [ht]; rfl) (by simp [ht,Pc.holds])

end GraphZeppelin.EdgeStore.Concurrent
