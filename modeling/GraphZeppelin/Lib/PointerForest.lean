import Mathlib

namespace PointerForest

variable {V : Type*} {r : V → V → Prop} {p : V → V}

def Climbs (r : V → V → Prop) (p : V → V) : Prop := ∀ x, p x ≠ x → r x (p x)

def root [Fintype V] (p : V → V) (x : V) : V := p^[Fintype.card V] x

theorem iterate_fixed_of_le {x : V} {k m : ℕ} (h : p (p^[k] x) = p^[k] x) (hkm : k ≤ m) :
    p^[m] x = p^[k] x := by
  obtain ⟨d,rfl⟩ := Nat.exists_eq_add_of_le hkm
  rw [Nat.add_comm,Function.iterate_add_apply]
  exact Function.iterate_fixed h d

theorem climbs_update [DecidableEq V] (hp : Climbs r p) {u q : V} (h : r u q) :
    Climbs r (Function.update p u q) := by
  intro x hx
  by_cases hxu : x = u
  · subst hxu
    simpa using h
  · rw [Function.update_of_ne hxu] at hx ⊢
    exact hp x hx

section Ordered

variable [IsStrictOrder V r]

theorem wf_above [Finite V] (r : V → V → Prop) [IsStrictOrder V r] : WellFounded (flip r) :=
  have : IsTrans V (flip r) := ⟨fun _ _ c hab hbc => trans_of r (a := c) hbc hab⟩
  have : Std.Irrefl (flip r) := ⟨fun a => irrefl_of r a⟩
  Finite.wellFounded_of_trans_of_irrefl (flip r)

theorem ncard_above_lt [Finite V] {x y : V} (h : r x y) :
    {z | r y z}.ncard < {z | r x z}.ncard := by
  refine Set.ncard_lt_ncard ⟨fun z hz => IsTrans.trans _ _ _ h hz,?_⟩ (Set.toFinite _)
  intro hs
  exact irrefl_of r y (hs (show y ∈ {z | r x z} from h))

theorem climb_induction [Finite V] (hp : Climbs r p) {motive : V → Prop}
    (fixed : ∀ x, p x = x → motive x)
    (above : ∀ x, p x ≠ x → motive (p x) → motive x) (x : V) : motive x := by
  induction x using (wf_above r).induction with
  | _ x ih =>
    by_cases hx : p x = x
    · exact fixed x hx
    · exact above x hx (ih (p x) (hp x hx))

theorem ne_of_above {b a : V} (h : r b a) : a ≠ b :=
  fun e => irrefl_of r b (by rwa [e] at h)

theorem parent_above {u q : V} (hp : Climbs r p) (h : r u q) : r u (p q) := by
  by_cases hq : p q = q
  · rwa [hq]
  · exact IsTrans.trans _ _ _ h (hp q hq)

variable [Fintype V]

theorem iterate_ncard_fixed (hp : Climbs r p) (x : V) :
    p (p^[{z | r x z}.ncard] x) = p^[{z | r x z}.ncard] x := by
  induction x using climb_induction hp with
  | fixed x hx => rw [Function.iterate_fixed hx,hx]
  | above x hx ih =>
    have hlt := ncard_above_lt (hp x hx)
    have hfix : p (p^[{z | r (p x) z}.ncard + 1] x) = p^[{z | r (p x) z}.ncard + 1] x := by
      simpa only [Function.iterate_succ_apply] using ih
    rw [iterate_fixed_of_le hfix hlt,hfix]

theorem parent_root (hp : Climbs r p) (x : V) : p (root p x) = root p x := by
  have hle : {z | r x z}.ncard ≤ Fintype.card V := by
    simpa only [Nat.card_eq_fintype_card] using Set.ncard_le_card {z | r x z}
  have h := iterate_ncard_fixed hp x
  rw [root,iterate_fixed_of_le h hle,h]

theorem root_parent (hp : Climbs r p) (x : V) : root p (p x) = root p x := by
  rw [root,← Function.iterate_succ_apply,Function.iterate_succ_apply']
  exact parent_root hp x

theorem root_of_fixed {x : V} (hx : p x = x) : root p x = x :=
  Function.iterate_fixed hx _

theorem root_root (hp : Climbs r p) (x : V) : root p (root p x) = root p x :=
  root_of_fixed (parent_root hp x)

theorem fixed_iff_root (hp : Climbs r p) {x : V} : p x = x ↔ root p x = x :=
  ⟨root_of_fixed,fun h => by rw [← h]; exact parent_root hp x⟩

theorem root_above (hp : Climbs r p) {b a : V} (h : r b a) : r b (root p a) := by
  induction a using climb_induction hp with
  | fixed x hx => rwa [root_of_fixed hx]
  | above x hx ih =>
    rw [← root_parent hp]
    exact ih (parent_above hp h)

variable [DecidableEq V]

theorem root_reroute (hp : Climbs r p) {u q : V} (hu : p u ≠ u) (h : r u q)
    (hq : root p q = root p u) (x : V) : root (Function.update p u q) x = root p x := by
  have hc := climbs_update hp h
  induction x using climb_induction hc with
  | fixed x hx =>
    have hxu : x ≠ u := by
      rintro rfl
      exact ne_of_above h (by simpa using hx)
    rw [root_of_fixed hx]
    rw [Function.update_of_ne hxu] at hx
    exact (root_of_fixed hx).symm
  | above x hx ih =>
    rw [← root_parent hc,ih]
    by_cases hxu : x = u
    · subst hxu
      simpa using hq
    · rw [Function.update_of_ne hxu,root_parent hp]

theorem root_link (hp : Climbs r p) {b a : V} (hb : p b = b) (h : r b a) (x : V) :
    root (Function.update p b a) x = if root p x = b then root p a else root p x := by
  have hc := climbs_update hp h
  have habove (y : V) (hy : root p y ≠ b) : root (Function.update p b a) y = root p y := by
    induction y using climb_induction hp with
    | fixed z hz =>
      rw [root_of_fixed hz] at hy ⊢
      exact root_of_fixed (by rwa [Function.update_of_ne hy])
    | above z hz ih =>
      have hzb : z ≠ b := fun e => hz (e ▸ hb)
      have hstep := root_parent hc z
      rw [Function.update_of_ne hzb] at hstep
      rw [← hstep,ih (by rwa [root_parent hp]),root_parent hp]
  have hb' : root (Function.update p b a) b = root p a := by
    rw [← root_parent hc,Function.update_self]
    exact habove a (ne_of_above (root_above hp h))
  split
  · next hx =>
    rw [← hb']
    induction x using climb_induction hp with
    | fixed z hz =>
      rw [root_of_fixed hz] at hx
      rw [hx]
    | above z hz ih =>
      have hzb : z ≠ b := fun e => hz (e ▸ hb)
      have hstep := root_parent hc z
      rw [Function.update_of_ne hzb] at hstep
      rw [← hstep,ih (by rwa [root_parent hp])]
  · next hx => exact habove x hx

theorem root_link_eq_iff (hp : Climbs r p) {b a : V} (hb : p b = b) (h : r b a) (x y : V) :
    root (Function.update p b a) x = root (Function.update p b a) y ↔
      root p x = root p y ∨ (root p x = b ∧ root p y = root p a) ∨
        (root p x = root p a ∧ root p y = b) := by
  have hne : root p a ≠ b := ne_of_above (root_above hp h)
  rw [root_link hp hb h,root_link hp hb h]
  by_cases hx : root p x = b <;> by_cases hy : root p y = b
  · simp [hx,hy]
  · simp only [hx,hy,if_true,if_false,true_and,and_false,or_false]
    exact ⟨fun e => .inr e.symm,fun e => e.elim (fun e => absurd e.symm hy) Eq.symm⟩
  · simp [hx,hy]
  · simp [hx,hy]

end Ordered
end PointerForest
