import Xfnet.Queue.InFlight

/-!
# Values between patient threads

When every thread waits for as long as it takes, in `Push` and `Pop` without a timeout, no value is
lost on its way through the queue: what is in flight changes by what a call pushes and by what a
thread that popped takes away, and by nothing else (`inFlight_eq`).
-/

namespace Xfnet.BlockingQueue

open Counting Monitor

universe u

variable {T : Type*} {α : Type u}

/-- `Push` or `Pop` without a timeout. -/
def Op.Patient : Op α → Prop
  | push _ => True
  | pop => True
  | _ => False

/-- The value with which a thread goes on. -/
def leaves (s : State T α) : Monitor.Label T (Op α) → Option α
  | .leave t => carried (s.pc t)
  | _ => none

section Steps

variable {s s' : State T α} {l : Monitor.Label T (Op α)} {t : T} {op : Op α} {v : α}
  {P : T → Op α → Prop}

theorem timeout_of_patient (h : op.Patient) : (blockingQueue α).timeout op = none := by
  cases op <;> first | rfl | exact h.elim

theorem leaves_of_starts (h : Starts s l t op) : leaves s l = none := by
  cases h <;> rfl

variable [DecidableEq α]

/-- A completed `Push` or `Pop` loses no copy of a value. -/
theorem Did.carries_eq {c c' : Content α} {r : Ret α} {k : Option Cond} (h : Did op c c' r k)
    (hop : op.Patient) (v : α) :
    c'.queue.count v + (if carried (.returned r) = some v then 1 else 0) =
      c.queue.count v + if op.pushes = some v then 1 else 0 := by
  cases h with
  | @accepted w hw hfree =>
    show (c.queue ++ [w]).count v + 0 = _
    rw [hw, List.count_append, List.count_singleton, if_congr Option.some_inj rfl rfl]
    simp
  | @handed w rest hpops hcons =>
    have hnone : op.pushes = none := by
      cases op <;> first | rfl | exact hpops.elim
    show rest.count v + (if some w = some v then 1 else 0) = _
    rw [hnone, hcons, List.count_cons, if_congr Option.some_inj rfl rfl]
    simp
  | refused hwait =>
    cases op <;> first | exact absurd trivial hwait | exact hop.elim
  | size he => exact (he ▸ hop).elim
  | resized he => exact (he ▸ hop).elim

variable [DecidableEq T] [Fintype T]

/-- A step that changes what `t` carries, and the queue. -/
theorem inFlight_update_eq {p : Pc (Op α) Cond (Ret α)} {m m' : ℕ}
    (hpc : ∀ u, carried (s'.pc u) = carried (Function.update s.pc t p u))
    (h : s'.data.queue.count v + (if carried p = some v then 1 else 0) + m' =
      s.data.queue.count v + ((if carried (s.pc t) = some v then 1 else 0) + m)) :
    inFlight v s' + m' = inFlight v s + m := by
  have hcount := count_update (fun p => carried p = some v) s.pc t p
  have hcongr := count_congr (p := fun u => carried (Function.update s.pc t p u) = some v)
    (q := fun u => carried (s'.pc u) = some v) fun u => by rw [hpc u]
  unfold inFlight
  omega

/-- **No value is lost, and none comes from nowhere.** -/
theorem inFlight_eq (h : Step (blockingQueue α) s l s') (hc : Only P s l)
    (hw : ∀ t, WaitsOk (blockingQueue α) P t (s.pc t)) (hP : ∀ t op, P t op → op.Patient) (v : α) :
    inFlight v s' + (if leaves s l = some v then 1 else 0) =
      inFlight v s + if callPushes l = some v then 1 else 0 := by
  cases h with
  | @sleep _ t op k hs hb =>
    refine inFlight_update_eq (fun _ => rfl) ?_
    rw [Starts.carries hs, leaves_of_starts hs]
    rfl
  | @done _ t op c r k pc hs hb hn =>
    refine inFlight_update_eq (hn.apply_eq carried fun _ _ => rfl) ?_
    rw [Starts.carries hs, leaves_of_starts hs]
    exact (did_of_body hb).carries_eq (hP t op (hs.allowed hc hw)) v
  | @timeout t op k b r _ hpc ht =>
    have hop : op.Patient := hP t op (hw t op k (by rw [hpc]; rfl)).1
    exact absurd ((timeout_of_patient hop).symm.trans ht) nofun
  | @wake t op k hpc =>
    refine inFlight_update_eq (fun _ => rfl) ?_
    rw [hpc]
    rfl
  | @leave t r hpc =>
    refine inFlight_update_eq (fun _ => rfl) ?_
    show s.data.queue.count v + 0 + (if carried (s.pc t) = some v then 1 else 0) = _
    rfl

end Steps

end Xfnet.BlockingQueue
