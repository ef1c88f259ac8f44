import Xfnet.Foundations.Counting
import Xfnet.Queue.Blocking

/-!
# Values on their way through the queue

A value is in flight from the call that pushes it until the thread that popped it goes on: in the
arguments of a push that waits, in the queue, or in the result of a pop. Nothing but a call of a
push brings a value in (`inFlight_step`), and the thread that popped it takes it out
(`inFlight_leave`).
-/

namespace Xfnet.BlockingQueue

open Counting Monitor

universe u

variable {T : Type*} {α : Type u}

/-- The value a thread carries: the one it waits to push, or the one `Pop` stored for it. -/
def carried : Pc (Op α) Cond (Ret α) → Option α
  | .asleep op _ => op.pushes
  | .awake op _ _ => op.pushes
  | .returned (.handed v) => some v
  | _ => none

/-- The value that a call pushes. -/
def callPushes : Monitor.Label T (Op α) → Option α
  | .call _ op _ => op.pushes
  | _ => none

/-- The places that hold `v`. -/
def inFlight [DecidableEq α] [Fintype T] (v : α) (s : State T α) : ℕ :=
  s.data.queue.count v + count fun t => carried (s.pc t) = some v

section Steps

variable {s s' : State T α} {l : Monitor.Label T (Op α)} {t : T} {op : Op α} {v : α}

variable [DecidableEq α]

/-- A thread that starts an operation has what it pushes from its call or carried it so far. -/
theorem Starts.carries (h : Starts s l t op) (v : α) :
    (if carried (s.pc t) = some v then 1 else 0) + (if callPushes l = some v then 1 else 0) =
      if op.pushes = some v then 1 else 0 := by
  cases h with
  | call hpc =>
    rw [hpc]
    exact Nat.zero_add _
  | resume hpc =>
    rw [hpc]
    rfl

/-- A completed body keeps the copies of a value in the queue and in the hands of its thread. -/
theorem Did.carries {c c' : Content α} {r : Ret α} {k : Option Cond} (h : Did op c c' r k) (v : α) :
    c'.queue.count v + (if carried (.returned r) = some v then 1 else 0) ≤
      c.queue.count v + if op.pushes = some v then 1 else 0 := by
  cases h with
  | @accepted w hw hfree =>
    show (c.queue ++ [w]).count v + 0 ≤ _
    rw [hw, List.count_append, List.count_singleton, if_congr Option.some_inj rfl rfl]
    simp
  | @handed w rest hpops hcons =>
    show rest.count v + (if some w = some v then 1 else 0) ≤ _
    rw [hcons, List.count_cons, if_congr Option.some_inj rfl rfl]
    simp
  | refused hwait => exact Nat.add_le_add_left (Nat.zero_le _) _
  | size he => exact Nat.add_le_add_left (Nat.zero_le _) _
  | resized he => exact Nat.add_le_add_left (Nat.zero_le _) _

variable [DecidableEq T] [Fintype T]

omit [DecidableEq T] in
/-- Nothing is on its way through an empty queue that no thread uses. -/
theorem inFlight_of_idle (hqueue : s.data.queue = []) (hidle : ∀ t, s.pc t = .idle) :
    inFlight v s = 0 := by
  unfold inFlight
  rw [hqueue, List.count_nil, zero_add]
  exact count_of_forall_not fun t => by simp [hidle t, carried]

/-- A step that changes what `t` carries, and the queue. -/
theorem inFlight_update {p : Pc (Op α) Cond (Ret α)} {m : ℕ}
    (hpc : ∀ u, carried (s'.pc u) = carried (Function.update s.pc t p u))
    (h : s'.data.queue.count v + (if carried p = some v then 1 else 0) ≤
      s.data.queue.count v + ((if carried (s.pc t) = some v then 1 else 0) + m)) :
    inFlight v s' ≤ inFlight v s + m := by
  have hcount := count_update (fun p => carried p = some v) s.pc t p
  have hcongr := count_congr (p := fun u => carried (Function.update s.pc t p u) = some v)
    (q := fun u => carried (s'.pc u) = some v) fun u => by rw [hpc u]
  unfold inFlight
  omega

/-- **Only a call of a push puts a value on its way.** -/
theorem inFlight_step (h : Step (blockingQueue α) s l s') (v : α) :
    inFlight v s' ≤ inFlight v s + if callPushes l = some v then 1 else 0 := by
  cases h with
  | @sleep _ t op k hs hb =>
    refine inFlight_update (fun _ => rfl) ?_
    rw [Starts.carries hs]
    rfl
  | @done _ t op c r k pc hs hb hn =>
    refine inFlight_update (hn.apply_eq carried fun _ _ => rfl) ?_
    rw [Starts.carries hs]
    exact (did_of_body hb).carries v
  | @timeout t op k b r _ hpc ht =>
    refine inFlight_update (fun _ => rfl) ?_
    obtain rfl := refused_of_timeout ht
    exact Nat.add_le_add_left (Nat.zero_le _) _
  | @wake t op k hpc =>
    refine inFlight_update (fun _ => rfl) (Nat.add_le_add_left ?_ _)
    rw [hpc]
    exact Nat.le_add_right _ _
  | @leave t r hpc => exact inFlight_update (fun _ => rfl) (Nat.add_le_add_left (Nat.zero_le _) _)

/-- The thread that popped `v` takes it out of the queue's hands. -/
theorem inFlight_leave (h : s.pc t = .returned (.handed v)) :
    inFlight v { s with pc := Function.update s.pc t .idle } + 1 = inFlight v s := by
  have hcount := count_update (fun p => carried p = some v) s.pc t .idle
  rw [h, if_pos (show carried (.returned (.handed v)) = some v from rfl),
    if_neg (show carried .idle ≠ some v from nofun)] at hcount
  exact (Nat.add_assoc ..).trans (congrArg (s.data.queue.count v + ·) hcount)

end Steps

end Xfnet.BlockingQueue
