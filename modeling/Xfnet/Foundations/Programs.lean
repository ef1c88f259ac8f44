import Mathlib.Algebra.BigOperators.Ring.Finset
import Xfnet.Foundations.Monitor

/-!
# Programs over a monitor

Threads that each have a list of operations to call, one after the other. Every operation is still
to come, waiting, or completed (`pending_add_completed`). A run ends: but for the spurious wake-ups
it makes at most three steps for each operation (`length_le_of_exec`). Where nothing but spurious
wake-ups is left, a thread sleeps or is through with its list (`asleep_or_through`).
-/

namespace Monitor

open Counting Transition

universe u v w x y

variable {T : Type u} {Op : Type v} {K : Type w} {D : Type x} {R : Type y}

/-- A monitor and what its threads have still to call. -/
structure Programs (T : Type u) (Op : Type v) (K : Type w) (D : Type x) (R : Type y) where
  state : State T Op K D R
  todo : T → List Op

/-- The steps of a monitor, where a call is of what comes next. -/
inductive Move (T : Type u)
  | call (t : T) (woken : Option T)
  | wake (t : T)
  | resume (t : T) (timedOut : Bool) (woken : Option T)
  | leave (t : T)

/-- A spurious wake-up. -/
def Move.spurious : Move T → Bool
  | .wake _ => true
  | _ => false

section

variable [DecidableEq T] [Fintype T] [DecidableEq K] (S : Spec Op K D R)

def Programs.next (s : Programs T Op K D R) : Move T → Option (Programs T Op K D R)
  | .call t woken =>
    match s.todo t with
    | [] => none
    | op :: rest => (s.state.next S (.call t op woken)).map fun state =>
        ⟨state, Function.update s.todo t rest⟩
  | .wake t => (s.state.next S (.wake t)).map fun state => { s with state := state }
  | .resume t timedOut woken =>
    (s.state.next S (.resume t timedOut woken)).map fun state => { s with state := state }
  | .leave t => (s.state.next S (.leave t)).map fun state => { s with state := state }

/-- A monitor whose threads have these programs. -/
def programs (d : D) (prog : T → List Op) : System (Programs T Op K D R) (Move T) where
  init s := s = ⟨⟨d, fun _ => .idle, []⟩, prog⟩
  next := Programs.next S

/-- Nothing is left but spurious wake-ups. -/
def Programs.Quiet (s : Programs T Op K D R) : Prop :=
  ∀ m s', s.next S m = some s' → m.spurious = true

end

theorem Only.mono {P Q : T → Op → Prop} (hPQ : ∀ t op, P t op → Q t op)
    {s : State T Op K D R} {l : Label T Op} (h : Only P s l) : Only Q s l := by
  cases l with
  | call t op woken => exact hPQ t op h
  | wake t => trivial
  | resume t timedOut woken => trivial
  | leave t => trivial

/-! ## What a step does -/

section Steps

variable [DecidableEq T] {S : Spec Op K D R} {s s' : Programs T Op K D R} {m : Move T}

/-- A step of a monitor that calls what comes next, or calls nothing. -/
inductive Programs.Step (S : Spec Op K D R) (s : Programs T Op K D R) :
    Move T → Programs T Op K D R → Prop
  | call {t : T} {op : Op} {rest : List Op} {woken : Option T} {state : State T Op K D R} :
      s.todo t = op :: rest → Monitor.Step S s.state (.call t op woken) state →
      Step S s (.call t woken) ⟨state, Function.update s.todo t rest⟩
  | wake {t : T} {state : State T Op K D R} : Monitor.Step S s.state (.wake t) state →
      Step S s (.wake t) { s with state := state }
  | resume {t : T} {timedOut : Bool} {woken : Option T} {state : State T Op K D R} :
      Monitor.Step S s.state (.resume t timedOut woken) state →
      Step S s (.resume t timedOut woken) { s with state := state }
  | leave {t : T} {state : State T Op K D R} : Monitor.Step S s.state (.leave t) state →
      Step S s (.leave t) { s with state := state }

variable [Fintype T] [DecidableEq K]

theorem programs_step_of_next (h : s.next S m = some s') : Programs.Step S s m s' := by
  cases m with
  | call t woken =>
    simp only [Programs.next] at h
    split at h
    · cases h
    · next op rest htodo =>
      obtain ⟨state, hnext, rfl⟩ := Option.map_eq_some_iff.mp h
      exact .call htodo (step_of_next hnext)
  | wake t =>
    obtain ⟨state, hnext, rfl⟩ := Option.map_eq_some_iff.mp h
    exact .wake (step_of_next hnext)
  | resume t timedOut woken =>
    obtain ⟨state, hnext, rfl⟩ := Option.map_eq_some_iff.mp h
    exact .resume (step_of_next hnext)
  | leave t =>
    obtain ⟨state, hnext, rfl⟩ := Option.map_eq_some_iff.mp h
    exact .leave (step_of_next hnext)

end Steps

/-! ## What one thread adds -/

section Weight

variable [Fintype T]

/-- What the operations still to come and the states of the threads amount to. -/
def weight (f : List Op → ℕ) (g : Pc Op K R → ℕ) (todo : T → List Op) (pc : T → Pc Op K R) : ℕ :=
  ∑ t, (f (todo t) + g (pc t))

variable {f : List Op → ℕ} {g : Pc Op K R → ℕ} {todo : T → List Op} {pc pc' : T → Pc Op K R} {t : T}

theorem weight_congr (h : ∀ t, g (pc' t) = g (pc t)) : weight f g todo pc' = weight f g todo pc :=
  Finset.sum_congr rfl fun u _ => by rw [h u]

variable (f g todo pc t) [DecidableEq T]

/-- One thread calls an operation. -/
theorem weight_call (p : Pc Op K R) (rest : List Op) :
    weight f g (Function.update todo t rest) (Function.update pc t p) + (f (todo t) + g (pc t)) =
      weight f g todo pc + (f rest + g p) := by
  have hsum := sum_agree (f := fun u => f (todo u) + g (pc u))
    (g := fun u => f (Function.update todo t rest u) + g (Function.update pc t p u)) t
    fun u hu => by rw [Function.update_of_ne hu, Function.update_of_ne hu]
  simpa [weight] using hsum

/-- One thread goes on with its operation. -/
theorem weight_goOn (p : Pc Op K R) :
    weight f g todo (Function.update pc t p) + g (pc t) = weight f g todo pc + g p := by
  have hcall := weight_call f g todo pc t p (todo t)
  rw [Function.update_eq_self] at hcall
  omega

end Weight

/-! ## Runs end -/

/-- The steps that a thread has still to make for its operation, if nothing else wakes it. -/
def Pc.steps : Pc Op K R → ℕ
  | idle => 0
  | asleep _ _ => 2
  | awake _ _ _ => 3
  | returned _ => 1

@[simp] theorem Pc.steps_idle : (idle : Pc Op K R).steps = 0 := rfl

@[simp] theorem Pc.steps_asleep (op : Op) (k : K) : (asleep op k : Pc Op K R).steps = 2 := rfl

@[simp] theorem Pc.steps_awake (op : Op) (k : K) (b : Bool) :
    (awake op k b : Pc Op K R).steps = 3 := rfl

@[simp] theorem Pc.steps_returned (r : R) : (returned r : Pc Op K R).steps = 1 := rfl

section Ends

variable [Fintype T]

/-- An operation still to come takes three steps. -/
def Programs.steps (s : Programs T Op K D R) : ℕ :=
  weight (fun todo => 3 * todo.length) Pc.steps s.todo s.state.pc

theorem steps_start (d : D) (prog : T → List Op) :
    (⟨⟨d, fun _ => .idle, []⟩, prog⟩ : Programs T Op K D R).steps = 3 * ∑ t, (prog t).length := by
  simp [Programs.steps, weight, Finset.mul_sum]

variable [DecidableEq T] {S : Spec Op K D R} {s s' : Programs T Op K D R} {m : Move T}

/-- A notification is one step more for the thread that it wakes. -/
theorem Notified.steps_le {pc pc' : T → Pc Op K R} {n : Option K} (h : Notified pc n pc')
    (f : List Op → ℕ) (todo : T → List Op) :
    weight f Pc.steps todo pc' ≤ weight f Pc.steps todo pc + 1 := by
  cases h with
  | silent => exact Nat.le_succ _
  | nobody _ => exact Nat.le_succ _
  | @woken u op k hu =>
    have hsum := weight_goOn f Pc.steps todo pc u (.awake op k true)
    simp only [hu, Pc.steps_awake, Pc.steps_asleep] at hsum
    omega

/-- **Every step** but a spurious wake-up is one less to make. -/
theorem steps_step (h : Programs.Step S s m s') :
    s'.steps + 1 ≤ s.steps + if m.spurious then 2 else 0 := by
  unfold Programs.steps
  have hcall (t : T) := weight_call (fun todo => 3 * todo.length) Pc.steps s.todo s.state.pc t
  have hgoOn (t : T) := weight_goOn (fun todo => 3 * todo.length) Pc.steps s.todo s.state.pc t
  cases h with
  | @call t op rest woken state htodo hstep =>
    simp only [Move.spurious, Bool.false_eq_true, if_false]
    cases hstep with
    | @sleep _ _ _ k hs hb =>
      cases hs with
      | call hpc =>
        have hsum := hcall t (.asleep op k) rest
        simp only [hpc, htodo, List.length_cons, Pc.steps_idle, Pc.steps_asleep] at hsum ⊢
        omega
    | @done _ _ _ d r n pc hs hb hn =>
      cases hs with
      | call hpc =>
        have hsum := hcall t (.returned r) rest
        have hnot := hn.steps_le (fun todo => 3 * todo.length) (Function.update s.todo t rest)
        simp only [hpc, htodo, List.length_cons, Pc.steps_idle, Pc.steps_returned] at hsum ⊢
        omega
  | @resume t timedOut woken state hstep =>
    simp only [Move.spurious, Bool.false_eq_true, if_false]
    cases hstep with
    | @sleep _ _ op k hs hb =>
      cases hs with
      | resume hpc =>
        have hsum := hgoOn t (.asleep op k)
        simp only [hpc, Pc.steps_awake, Pc.steps_asleep] at hsum ⊢
        omega
    | @done _ _ op d r n pc hs hb hn =>
      cases hs with
      | resume hpc =>
        have hsum := hgoOn t (.returned r)
        have hnot := hn.steps_le (fun todo => 3 * todo.length) s.todo
        simp only [hpc, Pc.steps_awake, Pc.steps_returned] at hsum ⊢
        omega
    | @timeout _ op k b r _ hpc ht =>
      have hsum := hgoOn t (.returned r)
      simp only [hpc, Pc.steps_awake, Pc.steps_returned, State.finish] at hsum ⊢
      omega
  | @wake t state hstep =>
    simp only [Move.spurious, if_true]
    cases hstep with
    | sleep hs _ => cases hs
    | done hs _ _ => cases hs
    | @wake _ op k hpc =>
      have hsum := hgoOn t (.awake op k false)
      simp only [hpc, Pc.steps_asleep, Pc.steps_awake] at hsum ⊢
      omega
  | @leave t state hstep =>
    simp only [Move.spurious, Bool.false_eq_true, if_false]
    cases hstep with
    | sleep hs _ => cases hs
    | done hs _ _ => cases hs
    | @leave _ r hpc =>
      have hsum := hgoOn t .idle
      simp only [hpc, Pc.steps_returned, Pc.steps_idle] at hsum ⊢
      omega

variable [DecidableEq K]

/-- **Runs end**: each operation takes three steps, and a spurious wake-up costs two more. -/
theorem length_le_of_exec {d : D} {prog : T → List Op} {ls : List (Move T)}
    (h : (programs S d prog).exec Free s ls = some s') :
    ls.length + s'.steps ≤ s.steps + 2 * ls.countP Move.spurious := by
  induction ls generalizing s with
  | nil =>
    obtain rfl : s = s' := by simpa [System.exec] using h
    simp
  | cons m ls ih =>
    obtain ⟨-, he⟩ := Option.ite_none_right_eq_some.mp h
    obtain ⟨s₁, hn, hrest⟩ := Option.bind_eq_some_iff.mp he
    have hstep := steps_step (programs_step_of_next hn)
    have hle := ih hrest
    rw [List.countP_cons, List.length_cons]
    cases hm : m.spurious with
    | true =>
      simp only [hm, if_true] at hstep ⊢
      omega
    | false =>
      simp only [hm, Bool.false_eq_true, if_false] at hstep ⊢
      omega

end Ends

/-! ## Nothing is skipped -/

/-- Whether the thread waits in such an operation. -/
def Pc.waitsIn (p : Op → Bool) (c : Pc Op K R) : ℕ :=
  match c.waiting with
  | some (op, _) => if p op then 1 else 0
  | none => 0

section Pending

variable [Fintype T] {p : Op → Bool}

/-- How many such operations are still to come or waiting. -/
def Programs.pending (p : Op → Bool) (s : Programs T Op K D R) : ℕ :=
  weight (List.countP p) (Pc.waitsIn p) s.todo s.state.pc

/-- How many such operations are completed. -/
def Programs.completed (p : Op → Bool) (s : Programs T Op K D R) : ℕ :=
  s.state.log.countP fun e => p e.2.1

variable [DecidableEq T] {S : Spec Op K D R} {s s' : Programs T Op K D R} {m : Move T}

omit [DecidableEq T] in
theorem pending_start (d : D) (prog : T → List Op) :
    (⟨⟨d, fun _ => .idle, []⟩, prog⟩ : Programs T Op K D R).pending p =
      ∑ t, (prog t).countP p := by
  simp [Programs.pending, weight, Pc.waitsIn, Pc.waiting]

theorem Notified.pending_eq {todo : T → List Op} {pc pc' : T → Pc Op K R} {n : Option K}
    (h : Notified pc n pc') : weight (List.countP p) (Pc.waitsIn p) todo pc' =
      weight (List.countP p) (Pc.waitsIn p) todo pc :=
  weight_congr fun t => by rw [Pc.waitsIn, h.waiting_eq, Pc.waitsIn]

/-- An operation is pending until it completes: one step. -/
theorem pending_step (h : Programs.Step S s m s') :
    s'.pending p + s'.completed p = s.pending p + s.completed p := by
  unfold Programs.pending Programs.completed
  have hcall (t : T) := weight_call (List.countP p) (Pc.waitsIn p) s.todo s.state.pc t
  have hgoOn (t : T) := weight_goOn (List.countP p) (Pc.waitsIn p) s.todo s.state.pc t
  cases h with
  | @call t op rest woken state htodo hstep =>
    cases hstep with
    | @sleep _ _ _ k hs hb =>
      cases hs with
      | call hpc =>
        have hsum := hcall t (.asleep op k) rest
        simp only [hpc, htodo, List.countP_cons, Pc.waitsIn, Pc.waiting] at hsum ⊢
        omega
    | @done _ _ _ d r n pc hs hb hn =>
      cases hs with
      | call hpc =>
        have hsum := hcall t (.returned r) rest
        simp only [hpc, htodo, List.countP_cons, Pc.waitsIn, Pc.waiting] at hsum
        simp only [hn.pending_eq, List.countP_append, List.countP_singleton]
        omega
  | @resume t timedOut woken state hstep =>
    cases hstep with
    | @sleep _ _ op k hs hb =>
      cases hs with
      | resume hpc =>
        have hsum := hgoOn t (.asleep op k)
        simp only [hpc, Pc.waitsIn, Pc.waiting] at hsum ⊢
        omega
    | @done _ _ op d r n pc hs hb hn =>
      cases hs with
      | resume hpc =>
        have hsum := hgoOn t (.returned r)
        simp only [hpc, Pc.waitsIn, Pc.waiting] at hsum
        simp only [hn.pending_eq, List.countP_append, List.countP_singleton]
        omega
    | @timeout _ op k b r _ hpc ht =>
      have hsum := hgoOn t (.returned r)
      simp only [hpc, Pc.waitsIn, Pc.waiting] at hsum
      simp only [State.finish, List.countP_append, List.countP_singleton]
      omega
  | @wake t state hstep =>
    cases hstep with
    | sleep hs _ => cases hs
    | done hs _ _ => cases hs
    | @wake _ op k hpc =>
      have hsum := hgoOn t (.awake op k false)
      simp only [hpc, Pc.waitsIn, Pc.waiting] at hsum ⊢
      omega
  | @leave t state hstep =>
    cases hstep with
    | sleep hs _ => cases hs
    | done hs _ _ => cases hs
    | @leave _ r hpc =>
      have hsum := hgoOn t .idle
      simp only [hpc, Pc.waitsIn, Pc.waiting] at hsum ⊢
      omega

variable [DecidableEq K] {d : D} {prog : T → List Op}

/-- **Nothing is skipped**: every operation of the programs is pending or completed. -/
theorem pending_add_completed (h : (programs S d prog).Reachable Free s) :
    s.pending p + s.completed p = ∑ t, (prog t).countP p := by
  refine System.Reachable.invariant
    (I := fun s => s.pending p + s.completed p = ∑ t, (prog t).countP p) ?_ ?_ h
  · rintro s rfl
    rw [pending_start]
    rfl
  · intro s m s' _ hI _ hn
    exact (pending_step (programs_step_of_next hn)).trans hI

/-- The monitor of such a run, whose threads call only what is in their programs. -/
theorem reachable_state (h : (programs S d prog).Reachable Free s) :
    (system S d).Reachable (Only fun t op => op ∈ prog t) s.state ∧
      ∀ t, ∀ op ∈ s.todo t, op ∈ prog t := by
  refine System.Reachable.invariant (I := fun s : Programs T Op K D R =>
    (system S d).Reachable (Only fun t op => op ∈ prog t) s.state ∧
      ∀ t, ∀ op ∈ s.todo t, op ∈ prog t) ?_ ?_ h
  · rintro s rfl
    exact ⟨.start rfl, fun t op hop => hop⟩
  · intro s m s' _ hI _ hn
    obtain ⟨hstate, htodo⟩ := hI
    cases m with
    | call t woken =>
      simp only [programs, Programs.next] at hn
      split at hn
      · cases hn
      · next op rest hcons =>
        obtain ⟨state, hnext, rfl⟩ := Option.map_eq_some_iff.mp hn
        have hmem : ∀ op' ∈ op :: rest, op' ∈ prog t := hcons ▸ htodo t
        have hcall : Only (fun t op => op ∈ prog t) s.state (.call t op woken) :=
          hmem op List.mem_cons_self
        refine ⟨.step hstate hcall hnext, ?_⟩
        refine forall_update (Q := fun u todo => ∀ op ∈ todo, op ∈ prog u) htodo fun op' hop => ?_
        exact hmem op' (List.mem_cons_of_mem _ hop)
    | wake t =>
      obtain ⟨state, hnext, rfl⟩ := Option.map_eq_some_iff.mp hn
      have hc : Only (fun t op => op ∈ prog t) s.state (.wake t) := trivial
      exact ⟨.step hstate hc hnext, htodo⟩
    | resume t timedOut woken =>
      obtain ⟨state, hnext, rfl⟩ := Option.map_eq_some_iff.mp hn
      have hc : Only (fun t op => op ∈ prog t) s.state (.resume t timedOut woken) := trivial
      exact ⟨.step hstate hc hnext, htodo⟩
    | leave t =>
      obtain ⟨state, hnext, rfl⟩ := Option.map_eq_some_iff.mp hn
      have hc : Only (fun t op => op ∈ prog t) s.state (.leave t) := trivial
      exact ⟨.step hstate hc hnext, htodo⟩

/-- **Who is left**: where no step but a spurious wake-up is possible, a thread sleeps or is
through with its program. -/
theorem asleep_or_through (h : s.Quiet S) (t : T) :
    (∃ op k, s.state.pc t = .asleep op k) ∨ s.state.pc t = .idle ∧ s.todo t = [] := by
  cases hpc : s.state.pc t with
  | idle =>
    refine .inr ⟨rfl, ?_⟩
    cases htodo : s.todo t with
    | nil => rfl
    | cons op rest =>
      obtain ⟨woken, state, hnext⟩ := exists_enter S s.state t op
      have hcall := h (.call t woken) ⟨state, Function.update s.todo t rest⟩
        (by simp [Programs.next, htodo, State.next, hpc, hnext])
      cases hcall
  | asleep op k => exact .inl ⟨op, k, rfl⟩
  | awake op k b =>
    obtain ⟨woken, state, hnext⟩ := exists_enter S s.state t op
    have hresume := h (.resume t false woken) { s with state := state }
      (by simp [Programs.next, State.next, hpc, hnext])
    cases hresume
  | returned r =>
    have hleave := h (.leave t) _ (by simp only [Programs.next, State.next, hpc]; rfl)
    cases hleave

omit [DecidableEq T] [DecidableEq K] in
/-- No such operation is pending where the threads that are not through are in others. -/
theorem pending_eq_zero (h : ∀ t, (∃ op k, s.state.pc t = .asleep op k ∧
    ∀ op' ∈ op :: s.todo t, p op' = false) ∨ s.state.pc t = .idle ∧ s.todo t = []) :
    s.pending p = 0 := by
  refine Finset.sum_eq_zero fun t _ => ?_
  rcases h t with ⟨op, k, hpc, hother⟩ | ⟨hpc, htodo⟩
  · obtain ⟨hop, hrest⟩ := List.forall_mem_cons.mp hother
    have htodo : (s.todo t).countP p = 0 :=
      List.countP_eq_zero.mpr fun op' hop' => by simp [hrest op' hop']
    simp [hpc, htodo, Pc.waitsIn, Pc.waiting, hop]
  · simp [hpc, htodo, Pc.waitsIn, Pc.waiting]

omit [DecidableEq T] [DecidableEq K] in
/-- A thread that waits in such an operation has it pending. -/
theorem not_of_pending_eq_zero (h : s.pending p = 0) {t : T} {op : Op} {k : K}
    (hpc : s.state.pc t = .asleep op k) : p op = false := by
  have hzero := Finset.sum_eq_zero_iff.mp h t (Finset.mem_univ t)
  cases hp : p op with
  | false => rfl
  | true => simp [hpc, Pc.waitsIn, Pc.waiting, hp] at hzero

end Pending

end Monitor
