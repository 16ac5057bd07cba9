import Mathlib

namespace FoldExcept

universe v

variable {α β ε : Type*} {f : β → α → Except ε β} {I : List α → β → Prop}

theorem foldlM_cons_ok {a : α} {l : List α} {b b' : β} :
    (a :: l).foldlM f b = .ok b' ↔ ∃ c, f b a = .ok c ∧ l.foldlM f c = .ok b' := by
  rw [List.foldlM_cons]
  cases hf : f b a with
  | error e =>
    constructor
    · intro h
      cases h
    · rintro ⟨_,h,_⟩
      cases h
  | ok c => exact ⟨fun h => ⟨c,rfl,h⟩,fun ⟨_,hc,h⟩ => Except.ok.inj hc ▸ h⟩

theorem foldlM_snoc_ok {a : α} {l : List α} {b c b' : β} (hl : l.foldlM f b = .ok c)
    (ha : f c a = .ok b') : (l ++ [a]).foldlM f b = .ok b' := by
  rw [List.foldlM_append,hl]
  change [a].foldlM f c = .ok b'
  exact foldlM_cons_ok.mpr ⟨b',ha,rfl⟩

theorem foldlM_total (pre l : List α) {b : β} (h0 : I pre b)
    (hstep : ∀ done a c, done ++ [a] <+: l → I (pre ++ done) c →
      ∃ c', f c a = .ok c' ∧ I (pre ++ (done ++ [a])) c') :
    ∃ b', l.foldlM f b = .ok b' ∧ I (pre ++ l) b' := by
  induction l generalizing pre b with
  | nil => exact ⟨b,rfl,by rwa [List.append_nil]⟩
  | cons a l ih =>
    obtain ⟨c,hc,hI⟩ := hstep [] a b ⟨l,rfl⟩ (by rwa [List.append_nil])
    obtain ⟨b',hb',hI'⟩ := ih _ hI fun done a' d hl hd => by
      have hnext := hstep (a :: done) a' d
        (by rw [List.cons_append]; exact List.cons_prefix_cons.mpr ⟨rfl,hl⟩)
      simp only [List.append_assoc,List.cons_append,List.nil_append] at hnext hd ⊢
      exact hnext hd
    refine ⟨b',foldlM_cons_ok.mpr ⟨c,hc,hb'⟩,?_⟩
    rwa [List.nil_append,List.append_assoc,List.singleton_append] at hI'

def Ends (bad : ε → Prop) (P : β → Prop) : Except ε β → Prop
  | .ok b => P b
  | .error e => bad e

variable {bad : ε → Prop} {P : β → Prop}

theorem Ends.bind {σ τ : Type v} {P : σ → Prop} {Q : τ → Prop} {x : Except ε σ}
    {k : σ → Except ε τ} (hx : Ends bad P x) (hk : ∀ b, P b → Ends bad Q (k b)) :
    Ends bad Q (x >>= k) := by
  cases x with
  | error e => exact hx
  | ok b => exact hk b hx

theorem Ends.foldlM {l : List α} {b : β} (h0 : P b)
    (hstep : ∀ a ∈ l, ∀ c, P c → Ends bad P (f c a)) : Ends bad P (l.foldlM f b) := by
  induction l generalizing b with
  | nil => exact h0
  | cons a l ih =>
    rw [List.foldlM_cons]
    exact Ends.bind (hstep a List.mem_cons_self b h0) fun c hc =>
      ih hc fun a' ha' => hstep a' (List.mem_cons_of_mem _ ha')

section Guarded

variable (legal : α → Prop) [DecidablePred legal] (act : β → α → β)

def guarded (b : β) (a : α) : Option β := if legal a then some (act b a) else none

theorem foldlM_guarded (l : List α) (b : β) : l.foldlM (guarded legal act) b =
    if ∀ a ∈ l, legal a then some (l.foldl act b) else none := by
  induction l generalizing b with
  | nil => exact (if_pos fun a ha => by cases ha).symm
  | cons a l ih =>
    rw [List.foldlM_cons,guarded,List.foldl_cons]
    by_cases ha : legal a
    · rw [if_pos ha]
      refine (ih (act b a)).trans (if_congr ?_ rfl rfl)
      rw [List.forall_mem_cons,and_iff_right ha]
    · rw [if_neg ha,if_neg fun h => ha (List.forall_mem_cons.mp h).1]
      rfl

end Guarded

end FoldExcept
