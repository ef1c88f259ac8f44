import Xfnet.Foundations.MonitorHistory
import Xfnet.Queue.Fifo

/-!
# The queue is linearizable

`Bounded` is what a bounded queue does for one caller at a time. To its callers a `BlockingQueue`
with any number of threads is such a queue: every history of calls and returns, with any waits,
timeouts and changes of the capacity in it, has an order in which a bounded queue answers the same
(`queue_linearizable`). So a push that returns `false` found the queue full at some moment during
its call, also when it was a timeout that ended it, and a pop that does so found it empty.
-/

namespace Xfnet.BlockingQueue

open Linearizability Monitor Transition

universe u

variable {T : Type*} {α : Type u}

/-- The operation may return `false`. -/
def Op.MayRefuse : Op α → Prop
  | tryPush _ => True
  | tryPop => True
  | pushFor _ => True
  | popFor => True
  | _ => False

/-- A bounded queue, one operation at a time: what the operation returns, and the queue after it. -/
inductive Bounded (c : Content α) (op : Op α) : Ret α → Content α → Prop
  | accepted {v : α} : op.pushes = some v → c.queue.length < c.capacity →
      Bounded c op .accepted { c with queue := c.queue ++ [v] }
  | handed {v : α} {rest : List α} : op.Pops → c.queue = v :: rest →
      Bounded c op (.handed v) { c with queue := rest }
  | full {v : α} : op.MayRefuse → op.pushes = some v → c.capacity ≤ c.queue.length →
      Bounded c op .refused c
  | empty : op.MayRefuse → op.Pops → c.queue = [] → Bounded c op .refused c
  | size : op = .size → Bounded c op (.size c.queue.length) c
  | resized {capacity : ℕ} : op = .setCapacity capacity →
      Bounded c op .void { c with capacity := capacity }

/-- The operations take a bounded queue from `c` to the given one, one after another. -/
inductive BoundedRun (c : Content α) : List (T × Op α × Ret α) → Content α → Prop
  | nil : BoundedRun c [] c
  | snoc {log : List (T × Op α × Ret α)} {c₁ c₂ : Content α} {t : T} {op : Op α} {r : Ret α} :
      BoundedRun c log c₁ → Bounded c₁ op r c₂ → BoundedRun c (log ++ [(t, op, r)]) c₂

theorem bounded_of_pushOr {op : Op α} {v : α} {c c' : Content α}
    {o : Outcome Cond (Content α) (Ret α)} {r : Ret α} {n : Option Cond}
    (hop : op.pushes = some v)
    (hfull : c.capacity ≤ c.queue.length → o = .done c' r n → Bounded c op r c')
    (h : c.pushOr v o = .done c' r n) : Bounded c op r c' := by
  unfold Content.pushOr at h
  split at h
  · next hle => exact hfull hle h
  · next hlt =>
    cases h
    exact .accepted hop (not_le.mp hlt)

theorem bounded_of_popOr {op : Op α} {c c' : Content α} {o : Outcome Cond (Content α) (Ret α)}
    {r : Ret α} {n : Option Cond} (hop : op.Pops)
    (hempty : c.queue = [] → o = .done c' r n → Bounded c op r c')
    (h : c.popOr o = .done c' r n) : Bounded c op r c' := by
  unfold Content.popOr at h
  split at h
  · next hnil => exact hempty hnil h
  · next v rest hcons =>
    cases h
    exact .handed hop hcons

theorem mayRefuse_of_timeout {op : Op α} {r : Ret α}
    (h : (blockingQueue α).timeout op = some r) : op.MayRefuse ∧ r = .refused := by
  cases op with
  | pushFor v => exact ⟨trivial, (Option.some.inj h).symm⟩
  | popFor => exact ⟨trivial, (Option.some.inj h).symm⟩
  | _ => cases h

/-- **What the operations do under the mutex** is what a bounded queue does. -/
theorem bounded_of_answers {op : Op α} {c c' : Content α} {r : Ret α}
    (h : (blockingQueue α).Answers op c r c') : Bounded c op r c' := by
  cases h with
  | timeout ht hb =>
    obtain ⟨hrefuse, rfl⟩ := mayRefuse_of_timeout ht
    cases blocked_of_body hb with
    | full _ hv hfull => exact .full hrefuse hv hfull
    | empty _ hpops hempty => exact .empty hrefuse hpops hempty
  | body hb =>
    cases op with
    | push v => exact bounded_of_pushOr (o := .wait .notFull) rfl (fun _ => nofun) hb
    | pushFor v => exact bounded_of_pushOr (o := .wait .notFull) rfl (fun _ => nofun) hb
    | tryPush v =>
      refine bounded_of_pushOr rfl (fun hle heq => ?_) hb
      cases heq
      exact .full trivial rfl hle
    | tryPop =>
      refine bounded_of_popOr trivial (fun hnil heq => ?_) hb
      cases heq
      exact .empty trivial trivial hnil
    | pop => exact bounded_of_popOr (o := .wait .notEmpty) trivial (fun _ => nofun) hb
    | popFor => exact bounded_of_popOr (o := .wait .notEmpty) trivial (fun _ => nofun) hb
    | size =>
      cases hb
      exact .size rfl
    | setCapacity capacity =>
      cases hb
      exact .resized rfl

theorem boundedRun_of_inTurn {c c' : Content α} {log : List (T × Op α × Ret α)}
    (h : (blockingQueue α).InTurn c log c') : BoundedRun c log c' := by
  induction h with
  | nil => exact .nil
  | snoc _ hc ih => exact ih.snoc (bounded_of_answers hc)

section Runs

variable [DecidableEq T] [Fintype T] {capacity : ℕ}
  {s : Observed T (Op α) Cond (Content α) (Ret α)}

/-- **The queue is linearizable**: whatever its threads do and however they interleave, what they
saw is what a bounded queue does for the same operations in some order that keeps to real time. -/
theorem queue_linearizable (h : (observed (blockingQueue α) ⟨[], capacity⟩).Reachable Free s) :
    Linearizable (fun log => ∃ c, BoundedRun ⟨[], capacity⟩ log c) s.events := by
  obtain ⟨order, horder⟩ := linearizable h
  obtain ⟨c, hrun⟩ := horder.legal
  exact ⟨order, ⟨c, boundedRun_of_inTurn hrun⟩, horder.called, horder.once, horder.returned,
    horder.realTime⟩

/-- A pop waits for a push, and reports a timeout after it was notified: the order has it in front
of the push. -/
theorem queue_linearizable_timeout : ∃ s : Observed Bool (Op ℕ) Cond (Content ℕ) (Ret ℕ),
    (observed (blockingQueue ℕ) ⟨[], 1⟩).Reachable Free s ∧
      s.events = [.call 0 true .popFor, .call 1 false (.push 5), .ret 1 .accepted,
        .ret 0 .refused] ∧
      Linearizable (fun log => ∃ c, BoundedRun ⟨[], 1⟩ log c) s.events := by
  obtain ⟨s, hrun, hevents⟩ : ∃ s : Observed Bool (Op ℕ) Cond (Content ℕ) (Ret ℕ),
      (observed (blockingQueue ℕ) ⟨[], 1⟩).exec Free
        ⟨⟨⟨[], 1⟩, fun _ => .idle, []⟩, [], fun _ => 0⟩
        [.call true .popFor none, .call false (.push 5) (some true), .leave false,
          .resume true true none, .leave true] = some s ∧
        s.events = [.call 0 true .popFor, .call 1 false (.push 5), .ret 1 .accepted,
          .ret 0 .refused] :=
    ⟨_, rfl, rfl⟩
  have hreach := System.reachable_of_exec rfl hrun
  exact ⟨s, hreach, hevents, queue_linearizable hreach⟩

end Runs

end Xfnet.BlockingQueue
