import Mathlib.Data.Fintype.Sum
import Mathlib.Tactic.DeriveFintype
import Xfnet.Queue.Fifo
import Xfnet.Queue.InFlight

/-!
# The threads around the timer queue

A started `TimerManager` with `n` work threads, down to what its threads do with
`m_handler_queue`: the loop thread pushes the handlers of expired timers at any moment
(`TimerHandler::HandleRead`), `Stop` pushes one null handler for each work thread, and a work
thread pops, runs the callback of a handler, and exits at a null one. The values of the queue are
handler pointers, `none` for the null pointer.
-/

namespace Xfnet.TimerManager

open Monitor Transition BlockingQueue

variable {n : ℕ} {H : Type*}

/-- `main` is the thread that calls `Stop`. -/
inductive Thread (n : ℕ)
  | loop
  | main
  | worker (i : Fin n)
  deriving DecidableEq, Fintype

/-- The queue, how many null handlers `Stop` has begun to push, the callbacks run so far, and the
work threads that have left `WorkThread`. -/
structure Manager (n : ℕ) (H : Type*) where
  queue : BlockingQueue.State (Thread n) (Option H)
  posted : ℕ
  ran : List H
  exited : Finset (Fin n)

/-- A step on the queue, or what a work thread does with the handler it popped: run its callback
(`HandleTimeout`), or leave. -/
inductive Label (n : ℕ) (H : Type*)
  | queue (l : Monitor.Label (Thread n) (Op (Option H)))
  | run (i : Fin n)
  | exit (i : Fin n)

namespace Manager

/-- What the threads do on the queue, as their code has it. The value a work thread popped is left
to `run` and `exit`. -/
def allows (s : Manager n H) : Monitor.Label (Thread n) (Op (Option H)) → Bool
  | .call .loop (.push (some _)) _ => true
  | .call .main (.push none) _ => s.posted < n
  | .call (.worker i) .pop _ => i ∉ s.exited
  | .call .. => false
  | .leave (.worker _) => false
  | _ => true

/-- The loop counter of `Stop`. -/
def posts : Monitor.Label (Thread n) (Op (Option H)) → ℕ
  | .call .main _ _ => 1
  | _ => 0

/-- `WorkThread` looks at the handler that `Pop` stored. -/
def look (s : Manager n H) (i : Fin n) : Manager n H :=
  { s with queue := { s.queue with pc := Function.update s.queue.pc (.worker i) .idle } }

def next (s : Manager n H) : Label n H → Option (Manager n H)
  | .queue l =>
    if s.allows l then
      (s.queue.next (blockingQueue (Option H)) l).map fun queue =>
        { s with queue := queue, posted := s.posted + posts l }
    else none
  | .run i =>
    match s.queue.pc (.worker i) with
    | .returned (.handed (some h)) => some { s.look i with ran := s.ran ++ [h] }
    | _ => none
  | .exit i =>
    match s.queue.pc (.worker i) with
    | .returned (.handed none) => some { s.look i with exited := insert i s.exited }
    | _ => none

end Manager

/-- The manager right after `Start`. -/
def manager (n : ℕ) (H : Type*) : System (Manager n H) (Label n H) where
  init s := s = ⟨⟨⟨[], defaultCapacity⟩, fun _ => .idle, []⟩, 0, [], ∅⟩
  next := Manager.next

/-- What each thread calls. -/
def Program : Thread n → Op (Option H) → Prop
  | .loop, op => ∃ h, op = .push (some h)
  | .main, op => op = .push none
  | .worker _, op => op = .pop

section Steps

variable {s s' : Manager n H} {l : Label n H} {ql : Monitor.Label (Thread n) (Op (Option H))}

theorem only_of_allows (h : s.allows ql) : Only Program s.queue ql := by
  unfold Manager.allows at h
  split at h
  · exact ⟨_, rfl⟩
  · exact rfl
  · exact rfl
  · cases h
  · cases h
  · next hcall _ => 
    cases ql with
    | call t op woken => exact absurd rfl (hcall t op woken)
    | _ => trivial

theorem timeout_of_program {t : Thread n} {op : Op (Option H)} (h : Program t op) :
    (blockingQueue (Option H)).timeout op = none := by
  cases t with
  | loop =>
    obtain ⟨h, rfl⟩ := h
    rfl
  | main =>
    obtain rfl : op = .push none := h
    rfl
  | worker i =>
    obtain rfl : op = .pop := h
    rfl

theorem queue_next (h : s.next (.queue ql) = some s') : s.allows ql ∧
    ∃ q, s.queue.next (blockingQueue (Option H)) ql = some q ∧
      s' = { s with queue := q, posted := s.posted + Manager.posts ql } := by
  obtain ⟨hallows, hmap⟩ := Option.ite_none_right_eq_some.mp h
  obtain ⟨q, hq, rfl⟩ := Option.map_eq_some_iff.mp hmap
  exact ⟨hallows, q, hq, rfl⟩

theorem next_queue {q : BlockingQueue.State (Thread n) (Option H)} (ha : s.allows ql)
    (hq : s.queue.next (blockingQueue (Option H)) ql = some q) :
    s.next (.queue ql) = some { s with queue := q, posted := s.posted + Manager.posts ql } := by
  simp only [Manager.next, if_pos ha, hq]
  rfl

theorem run_next {i : Fin n} (h : s.next (.run i) = some s') :
    ∃ j, s.queue.pc (.worker i) = .returned (.handed (some j)) ∧
      s' = { s.look i with ran := s.ran ++ [j] } := by
  simp only [Manager.next] at h
  split at h
  · next j hpc => exact ⟨j, hpc, (Option.some.inj h).symm⟩
  · cases h

theorem exit_next {i : Fin n} (h : s.next (.exit i) = some s') :
    s.queue.pc (.worker i) = .returned (.handed none) ∧
      s' = { s.look i with exited := insert i s.exited } := by
  simp only [Manager.next] at h
  split at h
  · next hpc => exact ⟨hpc, (Option.some.inj h).symm⟩
  · cases h

theorem look_queue {i : Fin n} {r : Ret (Option H)} (h : s.queue.pc (.worker i) = .returned r) :
    s.queue.next (blockingQueue (Option H)) (.leave (.worker i)) = some (s.look i).queue := by
  simp only [State.next, h]
  rfl

/-- **The manager uses its queue as a queue**: the threads only make calls of it. -/
theorem refines_queue : Refines (manager n H) Free
    (queue (Thread n) (Option H) defaultCapacity) (Only Program) Manager.queue where
  init s hs := by
    obtain rfl := hs
    rfl
  step s l s' _ _ hn := by
    cases l with
    | queue ql =>
      obtain ⟨hallows, q, hq, rfl⟩ := queue_next hn
      exact .inr ⟨ql, only_of_allows hallows, hq⟩
    | run i =>
      obtain ⟨j, hpc, rfl⟩ := run_next hn
      exact .inr ⟨.leave (.worker i), trivial, look_queue hpc⟩
    | exit i =>
      obtain ⟨hpc, rfl⟩ := exit_next hn
      exact .inr ⟨.leave (.worker i), trivial, look_queue hpc⟩

end Steps

/-! ## Handlers on their way -/

section InFlight

variable [DecidableEq H] {s s' : Manager n H} {l : Label n H}

/-- The pointer that a call pushes. -/
def Label.pushes : Label n H → Option (Option H)
  | .queue l => callPushes l
  | _ => none

theorem inFlight_next (h : s.next l = some s') (v : Option H) :
    inFlight v s'.queue ≤ inFlight v s.queue + if l.pushes = some v then 1 else 0 := by
  cases l with
  | queue ql =>
    obtain ⟨-, q, hq, rfl⟩ := queue_next h
    exact inFlight_step (step_of_next hq) v
  | run i =>
    obtain ⟨j, hpc, rfl⟩ := run_next h
    exact inFlight_step (step_of_next (look_queue hpc)) v
  | exit i =>
    obtain ⟨hpc, rfl⟩ := exit_next h
    exact inFlight_step (step_of_next (look_queue hpc)) v

/-- The callback of a handler takes it from where it was. -/
theorem inFlight_run {i : Fin n} {j : H}
    (hpc : s.queue.pc (.worker i) = .returned (.handed (some j))) (h : s.next (.run i) = some s') :
    inFlight (some j) s'.queue + 1 = inFlight (some j) s.queue := by
  obtain ⟨k, -, rfl⟩ := run_next h
  exact inFlight_leave hpc

end InFlight

end Xfnet.TimerManager
