import Xfnet.Foundations.Transition
import Xfnet.Stream.Timed

/-!
# `Stream::Recv` with a timeout, and the receive buffer of the socket

One call among the deliveries of the network: bytes arrive in the receive buffer until the
connection ends, and what the kernel answers depends on what the buffer holds. A `read` serves the
buffer first. So does the dispatch of `Selector::Select`, but `SocketUtil::Select` looks for
`POLLERR` and `POLLHUP` first, and a last packet that comes together with a reset is lost to the
caller.
-/

namespace Xfnet.Stream

open Loops Transition SocketUtil

/-- The call, the bytes in the receive buffer, all bytes delivered so far, and whether more can
come. -/
structure Reception where
  act : Act Timed ℤ
  buffer : ℕ
  delivered : ℕ
  ended : Bool
  deriving DecidableEq

inductive Delivery
  | arrive (bytes : ℕ)
  | hangUp
  | answer (e : TimedEvent)
  deriving DecidableEq

/-- An answer after which no more bytes come: the end of the stream, an error, or a hang-up. -/
def TimedEvent.ends : TimedEvent → Bool
  | .io (.moves c) => c = 0
  | .io (.fails e) => e ≠ .eagain ∧ e ≠ .eintr
  | .poll (.ready revents _) => revents &&& (pollErr ||| pollHup) ≠ 0
  | .poll _ => false

/-- What the kernel answers over a buffer of `buffer` bytes: `read` moves a byte if there is one,
or is interrupted, and `poll` reports `POLLIN` then. `poll` neither fails nor times out. -/
def serves (buffer : ℕ) : TimedEvent → Bool
  | .io (.moves c) => c ≤ buffer ∧ (c = 0 → buffer = 0)
  | .io (.fails e) => buffer = 0 ∨ e = .eintr
  | .poll (.ready revents _) => buffer = 0 ∨ revents &&& pollIn ≠ 0
  | .poll .timedOut => false
  | .poll (.failed e) => e = .eintr

/-- The call for `n` bytes, with whatever the buffer already holds. -/
def reception (base n : ℕ) : System Reception Delivery where
  init s := s.buffer = s.delivered ∧ ∃ errno, s.act = recvTimed.enter (.fresh base n errno)
  next
    | s, .arrive bytes =>
      if s.ended then none
      else some { s with buffer := s.buffer + bytes, delivered := s.delivered + bytes }
    | s, .hangUp => some { s with ended := true }
    | s, .answer e =>
      if serves s.buffer e then
        (recvTimed.step s.act e).map fun act =>
          { s with act := act, buffer := s.buffer - e.count, ended := s.ended || e.ends }
      else none

/-- `poll` reports no error and no hang-up while there is something to read. -/
def Calm (s : Reception) : Delivery → Prop
  | .answer (.poll (.ready revents _)) => s.buffer = 0 ∨ revents &&& (pollErr ||| pollHup) = 0
  | _ => True

instance (s : Reception) (l : Delivery) : Decidable (Calm s l) := by
  unfold Calm
  split <;> infer_instance

variable {base n : ℕ} {s s' : Reception} {t t' : Timed} {e : TimedEvent} {r : ℤ}

/-- A call that stops short does so for an answer that ends the connection, over an empty buffer. -/
theorem ends_of_timedBody (hserves : serves s.buffer e = true) (hcalm : Calm s (.answer e))
    (h : timedBody (some (-2)) t e = .ret r t') : e.ends = true ∧ s.buffer = 0 := by
  match e with
  | .io (.moves c) =>
    simp only [timedBody] at h
    split at h
    · cases h
    · obtain rfl : c = 0 := by omega
      exact ⟨rfl, (of_decide_eq_true hserves).2 rfl⟩
  | .io (.fails e) =>
    simp only [timedBody] at h
    split_ifs at h with hagain hintr
    exact ⟨decide_eq_true ⟨hagain, hintr⟩, (of_decide_eq_true hserves).resolve_right hintr⟩
  | .poll (.ready revents soError) =>
    by_cases herr : revents &&& (pollErr ||| pollHup) = 0
    · obtain ⟨hle, e, hselect⟩ := selectBody_of_timedBody h
      simp only [selectBody, herr, ne_eq, not_true_eq_false, if_false] at hselect
      split at hselect
      · cases hselect
        omega
      · cases hselect
    · exact ⟨decide_eq_true herr, hcalm.resolve_right herr⟩
  | .poll .timedOut => simp [serves] at hserves
  | .poll (.failed e) =>
    obtain rfl : e = .eintr := of_decide_eq_true hserves
    simp [timedBody, selectBody] at h

/-- Every byte delivered was moved or is in the buffer, and a call that stopped short left none
there, with none to come. -/
structure Reception.Ok (base n : ℕ) (s : Reception) : Prop where
  moved : ∃ k, Progress base n k s.act ∧ s.delivered = k + s.buffer
  short : ∀ r t, s.act = .returned r t → r = 1 ∨ s.ended = true ∧ s.buffer = 0

theorem Reception.ok_init (h : (reception base n).init s) : s.Ok base n := by
  obtain ⟨hbuffer, errno, hact⟩ := h
  refine ⟨⟨0, hact ▸ progress_fresh errno, by omega⟩, fun r t hret => ?_⟩
  have hsettle : recvTimed.settle (.next (.fresh base n errno)) = .returned r t :=
    hact.symm.trans hret
  rcases Loop.settle_returned hsettle with ⟨hr, -⟩ | hr
  · exact .inl hr
  · cases hr

theorem Reception.Ok.answer {act : Act Timed ℤ} (h : s.Ok base n) (hcalm : Calm s (.answer e))
    (hserves : serves s.buffer e = true) (hstep : recvTimed.step s.act e = some act) :
    Reception.Ok base n
      { s with act := act, buffer := s.buffer - e.count, ended := s.ended || e.ends } := by
  obtain ⟨⟨k, hprogress, hdelivered⟩, -⟩ := h
  cases hact : s.act with
  | running t =>
    rw [hact] at hprogress hstep
    have hcount : e.count ≤ s.buffer := by
      match e with
      | .io (.moves c) => exact (of_decide_eq_true hserves).1
      | .io (.fails e) => exact Nat.zero_le _
      | .poll p => exact Nat.zero_le _
    have hmoved := (progress_step (by decide) hprogress.1 hprogress.2 hstep).2
    refine ⟨⟨k + e.count, hmoved, by dsimp only; omega⟩, fun r t' hret => ?_⟩
    obtain ⟨-, rfl⟩ := Loop.step_running hstep
    rcases Loop.settle_returned hret with ⟨hr, -⟩ | hr
    · exact .inl hr
    · obtain ⟨hends, hempty⟩ := ends_of_timedBody hserves hcalm hr
      exact .inr ⟨by simp [hends], by simp [hempty]⟩
  | returned r t =>
    rw [hact] at hstep
    cases hstep
  | aborted =>
    rw [hact] at hprogress
    exact hprogress.elim

theorem Reception.ok_step {l : Delivery} (h : s.Ok base n) (hcalm : Calm s l)
    (hn : (reception base n).next s l = some s') : s'.Ok base n := by
  cases l with
  | arrive bytes =>
    simp only [reception, Option.ite_none_left_eq_some, Option.some.injEq] at hn
    obtain ⟨hended, rfl⟩ := hn
    obtain ⟨⟨k, hprogress, hdelivered⟩, hshort⟩ := h
    refine ⟨⟨k, hprogress, by dsimp only; omega⟩, fun r t hret => ?_⟩
    exact (hshort r t hret).imp_right fun hend => absurd hend.1 hended
  | hangUp =>
    cases hn
    exact ⟨h.moved, fun r t hret => (h.short r t hret).imp_right fun hend => ⟨rfl, hend.2⟩⟩
  | answer e =>
    simp only [reception, Option.ite_none_right_eq_some, Option.map_eq_some_iff] at hn
    obtain ⟨hserves, act, hstep, rfl⟩ := hn
    exact h.answer hcalm hserves hstep

theorem Reception.ok_of_reachable (h : (reception base n).Reachable Calm s) : s.Ok base n :=
  h.invariant (fun _ => Reception.ok_init) fun _ _ _ _ hok hcalm hn =>
    Reception.ok_step hok hcalm hn

/-- **No received byte is abandoned**, as long as `poll` tells of an error or a hang-up only once
the buffer is empty: a call that returns a code of failure leaves nothing in the buffer, and one to
which all its bytes were delivered returns `1`. -/
theorem recv_serves_buffer (h : (reception base n).Reachable Calm s)
    (hret : s.act = .returned r t) : (r < 0 → s.buffer = 0) ∧ (n ≤ s.delivered → r = 1) := by
  have hok := Reception.ok_of_reachable h
  obtain ⟨k, hprogress, hdelivered⟩ := hok.moved
  rw [hret] at hprogress
  obtain ⟨hat, hone⟩ := hprogress
  have hsize := hat.size
  rcases hok.short r t hret with rfl | ⟨-, hempty⟩
  · exact ⟨fun hneg => absurd hneg (by decide), fun _ => rfl⟩
  · exact ⟨fun _ => hempty, fun hall => hone.mpr (by omega)⟩

/-- The last byte and the reset come one after the other, and the byte has been read before `poll`
could tell. -/
theorem recv_serves_buffer_one : ∃ s, (reception 64 1).Reachable Calm s ∧
    s.act = .returned 1 ⟨65, 0, .eagain, false⟩ ∧ s.ended = true ∧
      (1 ≤ s.delivered → (1 : ℤ) = 1) := by
  obtain ⟨s, hrun, hact, hended⟩ : ∃ s,
      (reception 64 1).exec Calm ⟨recvTimed.enter (.fresh 64 1 .eagain), 0, 0, false⟩
        [.answer (.io (.fails .eagain)), .arrive 1, .answer (.poll (.ready pollIn .eagain)),
          .hangUp, .answer (.io (.moves 1))] = some s ∧
        s.act = .returned 1 ⟨65, 0, .eagain, false⟩ ∧ s.ended = true :=
    ⟨_, rfl, by decide, by decide⟩
  have hreach := System.reachable_of_exec (M := reception 64 1) ⟨rfl, .eagain, rfl⟩ hrun
  exact ⟨s, hreach, hact, hended, (recv_serves_buffer hreach hact).2⟩

/-- When `poll` does tell of an error or a hang-up over a buffer that holds something, the call
fails at once. -/
theorem abandons_of_not_calm (hact : s.act = .running t) {l : Delivery} (hcalm : ¬Calm s l)
    (hn : (reception base n).next s l = some s') :
    ∃ r t', s'.act = .returned r t' ∧ r < 0 ∧ 0 < s'.buffer := by
  match l with
  | .answer (.poll (.ready revents soError)) =>
    obtain ⟨hbuffer, herr⟩ : s.buffer ≠ 0 ∧ revents &&& (pollErr ||| pollHup) ≠ 0 := by
      simpa [Calm] using hcalm
    simp only [reception, Option.ite_none_right_eq_some, Option.map_eq_some_iff] at hn
    obtain ⟨-, act, hstep, rfl⟩ := hn
    rw [hact] at hstep
    obtain ⟨-, rfl⟩ := Loop.step_running hstep
    refine ⟨if soError = .econnreset then -2 else -1, { t with errno := soError, waiting := false },
      ?_, by split_ifs <;> decide, Nat.pos_of_ne_zero hbuffer⟩
    have hle : (if soError = .econnreset then (-2 : ℤ) else -1) ≤ 0 := by split_ifs <;> decide
    show recvTimed.settle (timedBody (some (-2)) t (.poll (.ready revents soError))) = _
    simp only [timedBody, selectBody, herr, ne_eq, not_false_eq_true, if_true, hle]
    rfl
  | .answer (.poll .timedOut) => simp [Calm] at hcalm
  | .answer (.poll (.failed e)) => simp [Calm] at hcalm
  | .answer (.io o) => simp [Calm] at hcalm
  | .arrive bytes => simp [Calm] at hcalm
  | .hangUp => simp [Calm] at hcalm

/-- The last byte comes together with the reset, while the call waits for it. -/
theorem byte_abandoned : ¬∀ (base n : ℕ) (s : Reception) (r : ℤ) (t : Timed),
    (reception base n).Reachable Free s → s.act = .returned r t →
      (r < 0 → s.buffer = 0) ∧ (n ≤ s.delivered → r = 1) := by
  intro h
  obtain ⟨s, hrun, hact, hbuffer⟩ : ∃ s,
      (reception 64 1).exec Free ⟨recvTimed.enter (.fresh 64 1 .eagain), 0, 0, false⟩
        [.answer (.io (.fails .eagain)), .arrive 1, .hangUp,
          .answer (.poll (.ready (pollIn ||| pollErr ||| pollHup) .econnreset))] = some s ∧
        s.act = .returned (-2) ⟨64, 1, .econnreset, false⟩ ∧ s.buffer = 1 :=
    ⟨_, rfl, by decide, by decide⟩
  have hreach := System.reachable_of_exec (M := reception 64 1) ⟨rfl, .eagain, rfl⟩ hrun
  have hempty := (h 64 1 s (-2) _ hreach hact).1 (by decide)
  omega

end Xfnet.Stream
