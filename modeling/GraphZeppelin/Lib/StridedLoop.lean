import Mathlib

namespace StridedLoop

-- a machine counter: how an increment wraps, and what a comparison with the bound sees
structure Counter where
  wrap : ℕ → ℕ
  read : ℕ → ℕ

def signed (width sizeWidth : ℕ) : Counter where
  wrap i := i % 2 ^ width
  read i := if i < 2 ^ (width - 1) then i else i + (2 ^ sizeWidth - 2 ^ width)

def unsigned (width : ℕ) : Counter where
  wrap i := i % 2 ^ width
  read i := i

def run (c : Counter) (step bound : ℕ) : ℕ → ℕ → Option (List ℕ)
  | 0, _ => none
  | fuel + 1, i =>
    if c.read i < bound then (run c step bound fuel (c.wrap (i + step))).map fun l => i :: l
    else some []

def runAll (c : Counter) (step bound : ℕ) : Option (List ℕ) :=
  ((List.range step).mapM fun t => run c step bound (bound + 1) (c.wrap t)).map List.flatten

structure Exact (c : Counter) (step bound : ℕ) : Prop where
  inside : ∀ i < bound, c.wrap i = i ∧ c.read i < bound
  outside : ∀ i, bound ≤ i → i < bound + step → bound ≤ c.read (c.wrap i)

variable {c : Counter} {step bound : ℕ}

theorem exact_signed {width sizeWidth : ℕ} (hwidth : 0 < width) (hsize : width < sizeWidth)
    (hbound : bound ≤ 2 ^ (width - 1)) (hstep : step ≤ 2 ^ (width - 1)) :
    Exact (signed width sizeWidth) step bound := by
  have hdouble : 2 ^ width = 2 ^ (width - 1) + 2 ^ (width - 1) := by
    obtain ⟨w,rfl⟩ := Nat.exists_eq_succ_of_ne_zero (ne_of_gt hwidth)
    rw [Nat.succ_sub_one,pow_succ,Nat.mul_two]
  have hlarge : 2 ^ width + 2 ^ width ≤ 2 ^ sizeWidth := by
    rw [← Nat.mul_two,← pow_succ]
    exact Nat.pow_le_pow_right (by decide) hsize
  refine ⟨fun i hi => ?_,fun i hle hlt => ?_⟩
  · have hread : (signed width sizeWidth).read i = i := if_pos (by omega)
    exact ⟨Nat.mod_eq_of_lt (by omega),by rw [hread]; exact hi⟩
  · have hwrap : (signed width sizeWidth).wrap i = i := Nat.mod_eq_of_lt (by omega)
    rw [hwrap]
    change bound ≤ if i < 2 ^ (width - 1) then i else i + (2 ^ sizeWidth - 2 ^ width)
    split <;> omega

theorem exact_unsigned {width : ℕ} (h : bound + step ≤ 2 ^ width) :
    Exact (unsigned width) step bound := by
  refine ⟨fun i hi => ⟨Nat.mod_eq_of_lt (by omega),hi⟩,fun i hle hlt => ?_⟩
  have hwrap : (unsigned width).wrap i = i := Nat.mod_eq_of_lt (by omega)
  rw [hwrap]
  exact hle

theorem add_step_le {i j : ℕ} (hij : i ≤ j) (hne : j ≠ i) (hmod : j % step = i % step) :
    i + step ≤ j := by
  have hdvd : step ∣ j - i := (Nat.modEq_iff_dvd' hij).mp hmod.symm
  have hle := Nat.le_of_dvd (by omega) hdvd
  omega

theorem run_spec (h : Exact c step bound) (hstep : 0 < step) (fuel : ℕ) {i : ℕ}
    (hi : i < bound + step) (hfuel : bound < fuel + i) (hpos : 0 < fuel) :
    ∃ l, run c step bound fuel (c.wrap i) = some l ∧ l.Nodup ∧
      ∀ j, j ∈ l ↔ i ≤ j ∧ j < bound ∧ j % step = i % step := by
  induction fuel generalizing i with
  | zero => omega
  | succ fuel ih =>
    rw [run]
    rcases lt_or_ge i bound with hlt | hge
    · obtain ⟨hwrap,hread⟩ := h.inside i hlt
      obtain ⟨l,hl,hnodup,hmem⟩ := ih (i := i + step) (by omega) (by omega) (by omega)
      rw [hwrap,if_pos hread,hl]
      refine ⟨i :: l,rfl,List.nodup_cons.mpr ⟨fun hil => ?_,hnodup⟩,fun j => ?_⟩
      · have hle := ((hmem i).mp hil).1
        omega
      · rw [List.mem_cons,hmem,Nat.add_mod_right]
        constructor
        · rintro (rfl | ⟨hle,hj,hmod⟩)
          · exact ⟨le_refl _,hlt,rfl⟩
          · exact ⟨by omega,hj,hmod⟩
        · rintro ⟨hle,hj,hmod⟩
          rcases eq_or_ne j i with heq | hne
          · exact .inl heq
          · exact .inr ⟨add_step_le hle hne hmod,hj,hmod⟩
    · rw [if_neg (not_lt.mpr (h.outside i hge hi))]
      refine ⟨[],rfl,List.nodup_nil,fun j => ?_⟩
      constructor
      · intro hj
        cases hj
      · rintro ⟨hle,hj,_⟩
        omega

theorem run_from (h : Exact c 1 bound) (fuel : ℕ) {i : ℕ} (hi : i ≤ bound)
    (hfuel : bound < fuel + i) :
    run c 1 bound fuel (c.wrap i) = some (List.range' i (bound - i)) := by
  induction fuel generalizing i with
  | zero => omega
  | succ fuel ih =>
    rw [run]
    rcases hi.lt_or_eq with hlt | rfl
    · obtain ⟨hwrap,hread⟩ := h.inside i hlt
      have hlen : bound - i = bound - (i + 1) + 1 := by omega
      rw [hwrap,if_pos hread,ih hlt (by omega),hlen,List.range'_succ]
      rfl
    · rw [if_neg (not_lt.mpr (h.outside i (le_refl i) (Nat.lt_succ_self i))),Nat.sub_self]
      rfl

theorem run_range (h : Exact c 1 bound) :
    run c 1 bound (bound + 1) (c.wrap 0) = some (List.range bound) := by
  rw [run_from h (bound + 1) (Nat.zero_le bound) (Nat.lt_succ_self bound),List.range_eq_range']
  rfl

theorem mapM_run (h : Exact c step bound) (hstep : 0 < step) {ts : List ℕ} (hts : ts.Nodup)
    (hlt : ∀ t ∈ ts, t < step) :
    ∃ ls, (ts.mapM fun t => run c step bound (bound + 1) (c.wrap t)) = some ls ∧
      ls.flatten.Nodup ∧ ∀ j, j ∈ ls.flatten ↔ j < bound ∧ j % step ∈ ts := by
  induction ts with
  | nil => exact ⟨[],rfl,List.nodup_nil,fun j => by simp⟩
  | cons t ts ih =>
    obtain ⟨hnot,hts⟩ := List.nodup_cons.mp hts
    have ht := hlt t List.mem_cons_self
    obtain ⟨ls,hls,hnodup,hmem⟩ := ih hts fun t' ht' => hlt t' (List.mem_cons_of_mem _ ht')
    obtain ⟨l,hl,hlnodup,hlmem⟩ := run_spec h hstep (bound + 1) (i := t) (by omega) (by omega)
      (Nat.succ_pos _)
    rw [Nat.mod_eq_of_lt ht] at hlmem
    refine ⟨l :: ls,?_,?_,fun j => ?_⟩
    · rw [List.mapM_cons,hl,hls]
      rfl
    · rw [List.flatten_cons,List.nodup_append]
      refine ⟨hlnodup,hnodup,fun a ha b hb hab => ?_⟩
      have hmod := ((hlmem a).mp ha).2.2
      exact hnot (hmod ▸ hab ▸ ((hmem b).mp hb).2)
    · rw [List.flatten_cons,List.mem_append,hlmem,hmem,List.mem_cons]
      constructor
      · rintro (⟨_,hj,hmod⟩ | ⟨hj,hmod⟩)
        · exact ⟨hj,.inl hmod⟩
        · exact ⟨hj,.inr hmod⟩
      · rintro ⟨hj,hmod | hmod⟩
        · exact .inl ⟨hmod ▸ Nat.mod_le j step,hj,hmod⟩
        · exact .inr ⟨hj,hmod⟩

theorem runAll_perm (h : Exact c step bound) (hstep : 0 < step) :
    ∃ l, runAll c step bound = some l ∧ l.Perm (List.range bound) := by
  obtain ⟨ls,hls,hnodup,hmem⟩ := mapM_run h hstep List.nodup_range fun t ht => List.mem_range.mp ht
  refine ⟨ls.flatten,by rw [runAll,hls]; rfl,?_⟩
  refine (List.perm_ext_iff_of_nodup hnodup List.nodup_range).mpr fun j => ?_
  rw [hmem,List.mem_range,List.mem_range]
  exact and_iff_left (Nat.mod_lt _ hstep)

end StridedLoop
