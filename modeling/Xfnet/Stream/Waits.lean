import Mathlib.Data.List.Count
import Xfnet.Stream.Timed

/-!
# How long a transfer with a timeout takes

`Stream::Send` and `Stream::Recv` with a timeout wait in `Select` for each part that does not go
through at once, and every wait may last for the whole timeout. As long as `Select` reports room or
data only where there is some, each wait is followed by a byte at least: so a call of `n` bytes
waits `n` times at most, and returns when the kernel has answered `3 * n` times (`timed_returns`).
-/

namespace Xfnet.Stream

open Loops SocketUtil

/-- An answer of the kernel other than an interrupt. -/
def TimedEvent.answers : TimedEvent → Bool
  | .io (.fails .eintr) => false
  | .poll (.failed .eintr) => false
  | _ => true

/-- The end of a `poll` that was not interrupted. -/
def TimedEvent.waits : TimedEvent → Bool
  | .poll (.failed .eintr) => false
  | .poll _ => true
  | .io _ => false

/-- Where `poll` has reported events (`ready`), the next system call does not block. -/
def Truthful : Bool → List TimedEvent → Prop
  | _, [] => True
  | ready, .io (.fails .eintr) :: es => Truthful ready es
  | ready, .io (.fails .eagain) :: es => ready = false ∧ Truthful false es
  | _, .io _ :: es => Truthful false es
  | _, .poll (.ready _ _) :: es => Truthful true es
  | ready, .poll _ :: es => Truthful ready es

/-- What a wait for the next byte, or the report that it can go, already accounts for. -/
def Timed.owed (s : Timed) (ready : Bool) : ℕ := if s.waiting then 1 else if ready then 2 else 0

section Waits

variable {least base n : ℕ} {onZero : Option ℤ} {s s' : Timed} {ready ready' : Bool}
  {e : TimedEvent} {es : List TimedEvent} {a : Act Timed ℤ}

/-- The answers that an activation can still get, and the waits among them. -/
structure Bounded (s : Timed) (ready : Bool) (es : List TimedEvent) : Prop where
  answers : es.countP TimedEvent.answers + s.owed ready ≤ 3 * s.size
  waits : es.countP TimedEvent.waits + ready.toNat ≤ s.size

theorem owed_le (s : Timed) (ready : Bool) : s.owed ready ≤ 2 := by
  rw [Timed.owed]
  split_ifs <;> omega

theorem bounded_nil (hs : 0 < s.size) : Bounded s ready [] := by
  have howed := owed_le s ready
  have hready := ready.toNat_le
  constructor <;> rw [List.countP_nil] <;> omega

/-- Nothing follows an event at which the call returns. -/
theorem bounded_last (hs : 0 < s.size) (hwaits : e.waits = true → s.waiting = true)
    (hready : s.waiting = true → ready = false) : Bounded s ready [e] := by
  have howed := owed_le s ready
  refine ⟨?_, ?_⟩
  · rw [List.countP_singleton]
    split_ifs <;> omega
  · rw [List.countP_singleton]
    split_ifs with hw
    · rw [hready (hwaits hw), Bool.toNat_false]
      omega
    · have := ready.toNat_le
      omega

/-- An event that is paid for by what it changes. -/
theorem Bounded.cons (h : Bounded s' ready' es)
    (hanswers : (if e.answers then 1 else 0) + 3 * s'.size + s.owed ready ≤
      3 * s.size + s'.owed ready')
    (hwaits : (if e.waits then 1 else 0) + s'.size + ready.toNat ≤ s.size + ready'.toNat) :
    Bounded s ready (e :: es) := by
  have h₁ := h.answers
  have h₂ := h.waits
  constructor <;> rw [List.countP_cons] <;> omega

/-- The iterations after which the call goes on. -/
inductive Onward (s : Timed) : TimedEvent → Timed → Prop
  | moved {c : ℕ} : 0 < c → c ≤ s.size → s.waiting = false →
      Onward s (.io (.moves c)) (s.advance c)
  | blocked : s.waiting = false →
      Onward s (.io (.fails .eagain)) { s with errno := .eagain, waiting := true }
  | again : Onward s (.io (.fails .eintr)) { s with errno := .eintr }
  | interrupted : Onward s (.poll (.failed .eintr)) { s with errno := .eintr }
  | ready {revents : ℕ} {soError errno : Errno} : s.waiting = true →
      Onward s (.poll (.ready revents soError)) { s with errno := errno, waiting := false }

theorem onward_of_next (hz : onZero = none → 1 ≤ least)
    (hallow : (timedLoop least onZero).allows s e = true)
    (hb : timedBody onZero s e = .next s') : Onward s e s' := by
  cases e with
  | io o =>
    cases o with
    | moves c =>
      simp only [timedLoop, Bool.and_eq_true, decide_eq_true_eq, Bool.not_eq_true'] at hallow
      cases onZero with
      | none =>
        have hleast := hz rfl
        obtain rfl := Flow.next.inj hb
        exact .moved (by omega) hallow.2.2 hallow.1
      | some r =>
        simp only [timedBody] at hb
        split_ifs at hb with hc
        obtain rfl := Flow.next.inj hb
        exact .moved hc hallow.2.2 hallow.1
    | fails e =>
      simp only [timedLoop, Bool.not_eq_true'] at hallow
      simp only [timedBody] at hb
      split_ifs at hb with hagain hintr
      · subst hagain
        obtain rfl := Flow.next.inj hb
        exact .blocked hallow
      · obtain rfl := Flow.next.inj hb
        obtain rfl : e = .eintr := not_not.mp hintr
        exact .again
  | poll p =>
    simp only [timedLoop, Bool.and_eq_true] at hallow
    cases p with
    | ready revents soError =>
      obtain ⟨errno, rfl⟩ : ∃ errno, s' = { s with errno, waiting := false } := by
        simp only [timedBody] at hb
        split at hb
        · simp only [selectBody] at *
          split_ifs at *
        · split_ifs at hb
          exact ⟨_, (Flow.next.inj hb).symm⟩
        · cases hb
      exact .ready hallow.1
    | timedOut => simp [timedBody, selectBody] at hb
    | failed e =>
      obtain rfl : e = .eintr := by
        by_contra he
        simp [timedBody, selectBody, he] at hb
      obtain rfl : { s with errno := .eintr } = s' := by simpa [timedBody, selectBody] using hb
      exact .interrupted

/-- **An activation gets three answers for a byte at most, one of them to a wait.** The induction
is on the events: an answer that moves nothing leads to a wait, a wait to a byte. -/
theorem bounded_feed (hz : onZero = none → 1 ≤ least) (hs : 0 < s.size)
    (hready : s.waiting = true → ready = false) (htruthful : Truthful ready es)
    (h : (timedLoop least onZero).feed (.running s) es = some a) : Bounded s ready es := by
  induction es generalizing s ready with
  | nil => exact bounded_nil hs
  | cons e es ih =>
    obtain ⟨a', hstep, hrest⟩ := Loop.feed_cons h
    obtain ⟨hallow, rfl⟩ := Loop.step_running hstep
    rcases Loop.feed_settle hrest with rfl | ⟨t, hb, ht, hrest⟩
    · apply bounded_last hs _ hready
      intro hwaits
      cases e with
      | io o => cases hwaits
      | poll p =>
        simp only [timedLoop, Bool.and_eq_true] at hallow
        exact hallow.1
    replace ht : 0 < t.size := of_decide_eq_true ht
    cases onward_of_next hz hallow hb with
    | @moved c hc hle hwaiting =>
      have hafter : Truthful false es := by simpa [Truthful] using htruthful
      have hnext : Bounded (s.advance c) false es := ih ht (fun _ => rfl) hafter hrest
      have howed := owed_le s ready
      have hsize : (s.advance c).size = s.size - c := rfl
      have htoNat := ready.toNat_le
      apply hnext.cons
      · simp only [TimedEvent.answers, if_true, hsize]
        omega
      · simp only [TimedEvent.waits, Bool.false_eq_true, if_false, hsize, Bool.toNat_false]
        omega
    | blocked hwaiting =>
      obtain ⟨rfl, hafter⟩ : ready = false ∧ Truthful false es := htruthful
      have hnext : Bounded _ false es := ih ht (fun _ => rfl) hafter hrest
      apply hnext.cons
      · simp [TimedEvent.answers, Timed.owed, hwaiting]
        omega
      · simp [TimedEvent.waits]
    | again =>
      have hnext := ih ht hready htruthful hrest
      have hsame : ({ s with errno := .eintr } : Timed).owed ready = s.owed ready := rfl
      apply hnext.cons
      · simp [TimedEvent.answers, hsame]
      · simp [TimedEvent.waits]
    | interrupted =>
      have hnext := ih ht hready htruthful hrest
      have hsame : ({ s with errno := .eintr } : Timed).owed ready = s.owed ready := rfl
      apply hnext.cons
      · simp [TimedEvent.answers, hsame]
      · simp [TimedEvent.waits]
    | ready hwaiting =>
      obtain rfl := hready hwaiting
      have hnext : Bounded _ true es := ih ht (by simp) htruthful hrest
      apply hnext.cons
      · simp [TimedEvent.answers, Timed.owed, hwaiting]
        omega
      · simp [TimedEvent.waits]
        omega

/-- `poll` and the system calls may fail at any time. -/
def Timed.failure (s : Timed) : TimedEvent :=
  if s.waiting then .poll .timedOut else .io (.fails (.other 0))

theorem truthful_failure (h : Truthful ready es) : Truthful ready (es ++ [s.failure]) := by
  fun_induction Truthful ready es with
  | case1 ready =>
    rw [Timed.failure]
    split_ifs <;> exact trivial
  | case2 ready es ih => exact ih h
  | case3 ready es ih => exact ⟨h.1, ih h.2⟩
  | case4 ready o es h₁ h₂ ih =>
    rw [List.cons_append, Truthful.eq_4 _ _ _ h₁ h₂]
    exact ih h
  | case5 ready revents soError es ih => exact ih h
  | case6 ready p es hp ih =>
    rw [List.cons_append, Truthful.eq_6 _ _ _ hp]
    exact ih h

end Waits

section Calls

variable {least base n : ℕ} {onZero : Option ℤ} {errno : Errno} {es : List TimedEvent}
  {a : Act Timed ℤ}

theorem bounded_call (hz : onZero = none → 1 ≤ least) (htruthful : Truthful false es)
    (h : (timedLoop least onZero).call (.fresh base n errno) es = some a) :
    es.countP TimedEvent.answers ≤ 3 * n ∧ es.countP TimedEvent.waits ≤ n := by
  rcases Nat.eq_zero_or_pos n with rfl | hn
  · rw [Loop.call, Loop.enter_of_not_guard rfl] at h
    rw [(Loop.feed_returned h).1]
    exact ⟨le_rfl, le_rfl⟩
  · rw [Loop.call, Loop.enter_of_guard (decide_eq_true hn)] at h
    have hb := bounded_feed hz hn (absurd · Bool.false_ne_true) htruthful h
    exact ⟨(Nat.le_add_right _ _).trans hb.answers, (Nat.le_add_right _ _).trans hb.waits⟩

/-- A call that still runs can get one answer more. -/
theorem running_answers {s : Timed} (hz : onZero = none → 1 ≤ least)
    (htruthful : Truthful false es)
    (h : (timedLoop least onZero).call (.fresh base n errno) es = some (.running s)) :
    es.countP TimedEvent.answers < 3 * n := by
  have hmore : ∃ b, (timedLoop least onZero).call (.fresh base n errno) (es ++ [s.failure]) =
      some b := by
    rw [Loop.call, Loop.feed_append]
    rw [Loop.call] at h
    rw [h, Option.bind_some, Timed.failure]
    cases hw : s.waiting <;> simp [Loop.feed, Loop.step, timedLoop, select, hw]
  obtain ⟨b, hb⟩ := hmore
  have hanswers : s.failure.answers = true := by
    rw [Timed.failure]
    split_ifs <;> rfl
  have := (bounded_call hz (truthful_failure htruthful) hb).1
  rw [List.countP_append, List.countP_singleton, if_pos hanswers] at this
  omega

theorem finished_call (hone : onZero ≠ some 1) (hz : onZero = none → 1 ≤ least)
    (htruthful : Truthful false es)
    (h : (timedLoop least onZero).call (.fresh base n errno) es = some a)
    (hall : es.countP TimedEvent.answers = 3 * n) : ∃ r s, a = .returned r s := by
  cases a with
  | running s => exact absurd hall (running_answers hz htruthful h).ne
  | returned r s => exact ⟨r, s, rfl⟩
  | aborted => exact (progress_feed hone (progress_fresh errno) h).elim

end Calls

/-- **What a transfer with a timeout costs**: a call of `n` bytes, however often it is
interrupted, gets `3 * n` other answers from the kernel at most, of which `n` at most end a wait in
`Select`, and it has returned when it has got them all. -/
theorem timed_returns {base n : ℕ} {errno : Errno} {es : List TimedEvent} {a : Act Timed ℤ}
    (htruthful : Truthful false es)
    (h : sendTimed.call (.fresh base n errno) es = some a ∨
      recvTimed.call (.fresh base n errno) es = some a) :
    es.countP TimedEvent.answers ≤ 3 * n ∧ es.countP TimedEvent.waits ≤ n ∧
      (es.countP TimedEvent.answers = 3 * n → ∃ r s, a = .returned r s) := by
  rcases h with h | h
  · have hz : (none : Option ℤ) = none → 1 ≤ 1 := fun _ => le_rfl
    obtain ⟨hanswers, hwaits⟩ := bounded_call hz htruthful h
    exact ⟨hanswers, hwaits, finished_call (by decide) hz htruthful h⟩
  · have hz : some (-2 : ℤ) = none → 1 ≤ 0 := nofun
    obtain ⟨hanswers, hwaits⟩ := bounded_call hz htruthful h
    exact ⟨hanswers, hwaits, finished_call (by decide) hz htruthful h⟩

/-- A byte that has to be waited for takes three answers; the interrupt is not one of them. -/
theorem timed_returns_waited :
    recvTimed.call (.fresh 8 1 .eagain)
        [.io (.fails .eagain), .poll (.failed .eintr), .poll (.ready pollIn .eagain),
          .io (.moves 1)] = some (.returned 1 ⟨9, 0, .eintr, false⟩) ∧
      ∃ r s, Act.returned (1 : ℤ) (⟨9, 0, .eintr, false⟩ : Timed) = .returned r s := by
  have hcall : recvTimed.call (.fresh 8 1 .eagain)
      [.io (.fails .eagain), .poll (.failed .eintr), .poll (.ready pollIn .eagain),
        .io (.moves 1)] = some (.returned 1 ⟨9, 0, .eintr, false⟩) := rfl
  exact ⟨hcall, (timed_returns (by exact ⟨rfl, trivial⟩) (.inr hcall)).2.2 rfl⟩

end Xfnet.Stream
