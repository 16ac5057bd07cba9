import GraphZeppelin.Lib.Trace

namespace AsyncStream

inductive Act (A O : Type*) where
  | host : A → Act A O
  | sync : Act A O
  | enqueue : O → Act A O

structure Sys (M A O : Type*) where
  mem : M
  pending : List O
  todo : List (Act A O)

inductive Side where
  | host | device
deriving DecidableEq,Repr

variable {M A O : Type*} (perform : A → M → M) (exec : O → M → M)

def hostStep (s : Sys M A O) : Option (Sys M A O) :=
  match s.todo with
  | [] => none
  | .host a :: rest => some {s with mem := perform a s.mem, todo := rest}
  | .sync :: rest => if s.pending.isEmpty then some {s with todo := rest} else none
  | .enqueue o :: rest => some {s with pending := s.pending ++ [o], todo := rest}

def deviceStep (s : Sys M A O) : Option (Sys M A O) :=
  match s.pending with
  | [] => none
  | o :: rest => some {s with mem := exec o s.mem, pending := rest}

def step (s : Sys M A O) : Side → Option (Sys M A O)
  | .host => hostStep perform s
  | .device => deviceStep exec s

def start (m : M) (acts : List (Act A O)) : Sys M A O := ⟨m,[],acts⟩

def drain (m : M) (ops : List O) : M := ops.foldl (fun m o => exec o m) m

def eagerAct (m : M) : Act A O → M
  | .host a => perform a m
  | .sync => m
  | .enqueue o => exec o m

def eager (m : M) (acts : List (Act A O)) : M := acts.foldl (eagerAct perform exec) m

def outstanding : List O → List (Act A O) → List O
  | out, [] => out
  | out, .host _ :: rest => outstanding out rest
  | _, .sync :: rest => outstanding [] rest
  | out, .enqueue o :: rest => outstanding (out ++ [o]) rest

def Synced (free : A → O → Prop) : List O → List (Act A O) → Prop
  | _, [] => True
  | out, .host a :: rest => (∀ o ∈ out, free a o) ∧ Synced free out rest
  | _, .sync :: rest => Synced free [] rest
  | out, .enqueue o :: rest => Synced free (out ++ [o]) rest

variable {perform exec} {free : A → O → Prop}

theorem eager_append (m : M) (xs ys : List (Act A O)) :
    eager perform exec m (xs ++ ys) = eager perform exec (eager perform exec m xs) ys :=
  List.foldl_append

theorem outstanding_append (out : List O) (xs ys : List (Act A O)) :
    outstanding out (xs ++ ys) = outstanding (outstanding out xs) ys := by
  induction xs generalizing out with
  | nil => rfl
  | cons x xs ih => cases x <;> exact ih _

theorem synced_append {out : List O} {xs ys : List (Act A O)} (hx : Synced free out xs)
    (hy : Synced free (outstanding out xs) ys) : Synced free out (xs ++ ys) := by
  induction xs generalizing out with
  | nil => exact hy
  | cons x xs ih =>
    cases x with
    | host a => exact ⟨hx.1,ih hx.2 hy⟩
    | sync => exact ih hx hy
    | enqueue o => exact ih hx hy

theorem synced_host {out : List O} {as : List A} (h : ∀ a ∈ as, ∀ o ∈ out, free a o) :
    Synced free out (as.map .host) := by
  induction as with
  | nil => trivial
  | cons a as ih =>
    exact ⟨h a List.mem_cons_self,ih fun b hb => h b (List.mem_cons_of_mem _ hb)⟩

theorem outstanding_host (out : List O) (as : List A) :
    outstanding out (as.map Act.host) = out := by
  induction as with
  | nil => rfl
  | cons a as ih => exact ih

theorem synced_enqueue (out ops : List O) :
    Synced free out (ops.map .enqueue) := by
  induction ops generalizing out with
  | nil => trivial
  | cons o ops ih => exact ih _

theorem outstanding_enqueue (out ops : List O) :
    outstanding out (ops.map (Act.enqueue (A := A))) = out ++ ops := by
  induction ops generalizing out with
  | nil => exact (List.append_nil out).symm
  | cons o ops ih => exact (ih _).trans (List.append_assoc out [o] ops)

theorem synced_tail {o : O} {out : List O} {acts : List (Act A O)}
    (h : Synced free (o :: out) acts) : Synced free out acts := by
  induction acts generalizing out with
  | nil => trivial
  | cons x acts ih =>
    cases x with
    | host a => exact ⟨fun o' ho' => h.1 o' (List.mem_cons_of_mem _ ho'),ih h.2⟩
    | sync => exact h
    | enqueue o' => exact ih h

theorem outstanding_tail {o : O} {out : List O} {acts : List (Act A O)}
    (h : outstanding (o :: out) acts = []) : outstanding out acts = [] := by
  induction acts generalizing out with
  | nil => cases h
  | cons x acts ih =>
    cases x with
    | host a => exact ih h
    | sync => exact h
    | enqueue o' => exact ih h

theorem drain_perform {a : A} {ops : List O}
    (h : ∀ o ∈ ops, ∀ m, perform a (exec o m) = exec o (perform a m)) (m : M) :
    drain exec (perform a m) ops = perform a (drain exec m ops) := by
  induction ops generalizing m with
  | nil => rfl
  | cons o ops ih =>
    have hhead := h o List.mem_cons_self m
    have htail := ih (fun o' ho' => h o' (List.mem_cons_of_mem _ ho')) (exec o m)
    rw [drain,List.foldl_cons,← hhead]
    exact htail

section Growth

variable {r : M → M → Prop} (hrefl : ∀ m, r m m) (htrans : ∀ {a b c}, r a b → r b c → r a c)
include hrefl htrans

theorem drain_grows (hexec : ∀ o m, r m (exec o m)) (m : M) (ops : List O) :
    r m (drain exec m ops) := by
  induction ops generalizing m with
  | nil => exact hrefl m
  | cons o ops ih => exact htrans (hexec o m) (ih (exec o m))

theorem eager_grows (hperform : ∀ a m, r m (perform a m)) (hexec : ∀ o m, r m (exec o m)) (m : M)
    (acts : List (Act A O)) : r m (eager perform exec m acts) := by
  induction acts generalizing m with
  | nil => exact hrefl m
  | cons act acts ih =>
    cases act with
    | host a => exact htrans (hperform a m) (ih (perform a m))
    | sync => exact ih m
    | enqueue o => exact htrans (hexec o m) (ih (exec o m))

end Growth

inductive Move (perform : A → M → M) (exec : O → M → M) : Sys M A O → Sys M A O → Prop
  | device (m : M) (o : O) (rest : List O) (todo : List (Act A O)) :
      Move perform exec ⟨m,o :: rest,todo⟩ ⟨exec o m,rest,todo⟩
  | host (m : M) (pending : List O) (a : A) (rest : List (Act A O)) :
      Move perform exec ⟨m,pending,.host a :: rest⟩ ⟨perform a m,pending,rest⟩
  | sync (m : M) (rest : List (Act A O)) :
      Move perform exec ⟨m,[],.sync :: rest⟩ ⟨m,[],rest⟩
  | enqueue (m : M) (pending : List O) (o : O) (rest : List (Act A O)) :
      Move perform exec ⟨m,pending,.enqueue o :: rest⟩ ⟨m,pending ++ [o],rest⟩

theorem move_of_step {s s' : Sys M A O} {side : Side} (hs : step perform exec s side = some s') :
    Move perform exec s s' := by
  obtain ⟨m,pending,todo⟩ := s
  cases side with
  | device =>
    cases pending with
    | nil => cases hs
    | cons o rest =>
      cases hs
      exact .device m o rest todo
  | host =>
    cases todo with
    | nil => cases hs
    | cons act rest =>
      cases act with
      | host a =>
        cases hs
        exact .host m pending a rest
      | sync =>
        cases pending with
        | nil =>
          cases hs
          exact .sync m rest
        | cons o ops => cases hs
      | enqueue o =>
        cases hs
        exact .enqueue m pending o rest

structure Race (perform : A → M → M) (exec : O → M → M) (free : A → O → Prop) (goal : M)
    (s : Sys M A O) : Prop where
  synced : Synced free s.pending s.todo
  result : eager perform exec (drain exec s.mem s.pending) s.todo = goal

theorem race_start {acts : List (Act A O)} (h : Synced free [] acts) (m : M) :
    Race perform exec free (eager perform exec m acts) (start m acts) := ⟨h,rfl⟩

theorem race_step (hfree : ∀ a o, free a o → ∀ m, perform a (exec o m) = exec o (perform a m))
    {goal : M} {s s' : Sys M A O} {side : Side} (h : Race perform exec free goal s)
    (hs : step perform exec s side = some s') : Race perform exec free goal s' := by
  obtain ⟨hsync,hres⟩ := h
  cases move_of_step hs with
  | device m o rest todo => exact ⟨synced_tail hsync,hres⟩
  | host m pending a rest =>
    refine ⟨hsync.2,?_⟩
    rw [drain_perform fun o ho => hfree a o (hsync.1 o ho)]
    exact hres
  | sync m rest => exact ⟨hsync,hres⟩
  | enqueue m pending o rest =>
    refine ⟨hsync,?_⟩
    rw [drain,List.foldl_append]
    exact hres

theorem race_run (hfree : ∀ a o, free a o → ∀ m, perform a (exec o m) = exec o (perform a m))
    {acts : List (Act A O)} (h : Synced free [] acts) {m : M} {sides : List Side} {s : Sys M A O}
    (hrun : Trace.run (step perform exec) (start m acts) sides = some s) :
    Race perform exec free (eager perform exec m acts) s :=
  Trace.run_inv_all (fun h hs => race_step hfree h hs) (race_start h m) hrun

def Settling (s : Sys M A O) : Prop := outstanding s.pending s.todo = []

theorem settling_step {s s' : Sys M A O} {side : Side} (h : Settling s)
    (hs : step perform exec s side = some s') : Settling s' := by
  cases move_of_step hs with
  | device m o rest todo => exact outstanding_tail h
  | host m pending a rest => exact h
  | sync m rest => exact h
  | enqueue m pending o rest => exact h

theorem settling_run {acts : List (Act A O)} {m : M} {sides : List Side} {s : Sys M A O}
    (h : Settling (start m acts))
    (hrun : Trace.run (step perform exec) (start m acts) sides = some s) : Settling s :=
  Trace.run_inv_all (fun h hs => settling_step h hs) h hrun

def Within (acts : List (Act A O)) (s : Sys M A O) : Prop := s.todo <:+ acts

theorem within_step {acts : List (Act A O)} {s s' : Sys M A O} {side : Side}
    (h : Within acts s) (hs : step perform exec s side = some s') : Within acts s' := by
  cases move_of_step hs with
  | device m o rest todo => exact h
  | host m pending a rest => exact (List.suffix_cons _ rest).trans h
  | sync m rest => exact (List.suffix_cons _ rest).trans h
  | enqueue m pending o rest => exact (List.suffix_cons _ rest).trans h

theorem within_run {acts : List (Act A O)} {m : M} {sides : List Side} {s : Sys M A O}
    (hrun : Trace.run (step perform exec) (start m acts) sides = some s) : Within acts s := by
  have hstart : Within acts (start m acts) := List.suffix_refl acts
  exact Trace.run_inv_all (fun h hs => within_step h hs) hstart hrun

def work (s : Sys M A O) : ℕ := 2 * s.todo.length + s.pending.length

theorem work_step {s s' : Sys M A O} {side : Side} (hs : step perform exec s side = some s') :
    work s' < work s := by
  cases move_of_step hs with
  | device m o rest todo => simp [work]
  | host m pending a rest => simp [work]
  | sync m rest => simp [work]
  | enqueue m pending o rest =>
    simp only [work,List.length_append,List.length_cons,List.length_nil]
    omega

theorem enabled {s : Sys M A O} (h : work s ≠ 0) : ∃ side s', step perform exec s side = some s' := by
  obtain ⟨m,pending,todo⟩ := s
  cases pending with
  | cons o rest => exact ⟨.device,_,rfl⟩
  | nil =>
    cases todo with
    | nil => exact absurd rfl h
    | cons act rest => cases act <;> exact ⟨.host,_,rfl⟩

theorem length_le_work {s s' : Sys M A O} {sides : List Side}
    (hrun : Trace.run (step perform exec) s sides = some s') :
    sides.length + work s' ≤ work s := by
  induction sides generalizing s with
  | nil =>
    cases hrun
    simp
  | cons side sides ih =>
    obtain ⟨s₁,hs₁,hrun⟩ := Trace.run_cons.mp hrun
    have hlt := work_step hs₁
    have hle := ih hrun
    rw [List.length_cons]
    omega

theorem exists_drained (perform : A → M → M) (exec : O → M → M) (s : Sys M A O) :
    ∃ sides s', Trace.run (step perform exec) s sides = some s' ∧ s'.todo = [] ∧
      s'.pending = [] := by
  induction hk : work s using Nat.strong_induction_on generalizing s with
  | _ k ih =>
    by_cases hzero : work s = 0
    · simp only [work,Nat.add_eq_zero_iff,Nat.mul_eq_zero,List.length_eq_zero_iff] at hzero
      exact ⟨[],s,rfl,hzero.1.resolve_left two_ne_zero,hzero.2⟩
    · obtain ⟨side,s₁,hs₁⟩ : ∃ side s₁, step perform exec s side = some s₁ := enabled hzero
      obtain ⟨sides,s',hrun,hdone⟩ := ih _ (hk ▸ work_step hs₁) s₁ rfl
      exact ⟨side :: sides,s',Trace.run_cons.mpr ⟨s₁,hs₁,hrun⟩,hdone⟩

end AsyncStream
